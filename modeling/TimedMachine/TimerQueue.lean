import TimedMachine.Event

/-!
Timers on a virtual clock. Every timer gets its own number when it is armed; pending timers stand in
the order in which they fire, by deadline and then by number. There are two tasks: a delayed
transition of a state, and the delivery of a deferred event, of which the queue keeps at most one by
way of the key under `deferred`.

A timer armed without any delay is `immediate`. `popDue?` refuses it when its number is not below
the given horizon, so that a drain does not fire what it armed itself at the same instant.
-/
namespace TimedMachine

inductive Task where
  | delayed (state : String) (index : Nat)
  | deferred (event : Event)
  deriving DecidableEq

structure Key where
  deadline : Duration
  id : Nat
  deriving DecidableEq

structure Timer where
  key : Key
  task : Task
  immediate : Bool
  deriving DecidableEq

/-- Earlier deadlines come first, and among equal ones the timer that was armed first. -/
def Key.Before (a b : Key) : Prop :=
  a.deadline < b.deadline ∨ a.deadline = b.deadline ∧ a.id < b.id

instance (a b : Key) : Decidable (a.Before b) := inferInstanceAs (Decidable (_ ∨ _))

theorem Key.Before.trans {a b c : Key} (hab : a.Before b) (hbc : b.Before c) : a.Before c := by
  simp only [Key.Before, Duration.lt_def, Duration.eq_iff] at *
  omega

theorem Key.not_before_self (a : Key) : ¬ a.Before a := by
  simp only [Key.Before, Duration.lt_def]
  omega

theorem Key.Before.deadline_le {a b : Key} (h : a.Before b) : a.deadline ≤ b.deadline := by
  simp only [Key.Before, Duration.lt_def, Duration.le_def, Duration.eq_iff] at *
  omega

/-- Two keys with different numbers are in one order or the other. -/
theorem Key.before_of_not_before {a b : Key} (h : ¬ a.Before b) (hid : b.id < a.id) :
    b.Before a := by
  simp only [Key.Before, Duration.lt_def, Duration.eq_iff] at *
  omega

def Task.isDelayed : Task → Bool
  | .delayed .. => true
  | .deferred _ => false

namespace Timer

/-- Put a timer where it fires among timers in firing order. -/
def place (t : Timer) : List Timer → List Timer
  | [] => [t]
  | u :: rest => if t.key.Before u.key then t :: u :: rest else u :: place t rest

theorem mem_place {t u : Timer} {l : List Timer} : u ∈ place t l ↔ u = t ∨ u ∈ l := by
  induction l with
  | nil => simp [place]
  | cons v rest ih =>
    rw [place]
    split
    · simp
    · simp only [List.mem_cons, ih]
      constructor <;> rintro (h | h | h) <;> simp [h]

theorem pairwise_place {t : Timer} {l : List Timer}
    (h : l.Pairwise (fun a b => a.key.Before b.key)) (hid : ∀ u ∈ l, u.key.id < t.key.id) :
    (place t l).Pairwise (fun a b => a.key.Before b.key) := by
  induction l with
  | nil => simp [place]
  | cons v rest ih =>
    obtain ⟨hv, hrest⟩ := List.pairwise_cons.1 h
    rw [place]
    split
    · rename_i hb
      refine List.pairwise_cons.2 ⟨?_, h⟩
      intro u hu
      rcases List.mem_cons.1 hu with rfl | hu
      · exact hb
      · exact hb.trans (hv u hu)
    · rename_i hb
      refine List.pairwise_cons.2 ⟨?_, ih hrest (fun u hu => hid u (List.mem_cons_of_mem _ hu))⟩
      intro u hu
      rcases mem_place.1 hu with rfl | hu
      · exact Key.before_of_not_before hb (hid v List.mem_cons_self)
      · exact hv u hu

end Timer

structure TimerQueue where
  now : Duration := .zero
  nextId : Nat := 0
  pending : List Timer := []
  deferred : Option Key := none
  ordered : pending.Pairwise (fun a b => a.key.Before b.key) := by exact .nil
  fresh : ∀ t ∈ pending, t.key.id < nextId := by exact fun _ h => nomatch h

namespace TimerQueue

instance : Inhabited TimerQueue := ⟨{}⟩

/-- The clock never runs backwards. -/
def setNow (q : TimerQueue) (now : Duration) : TimerQueue := { q with now := q.now.later now }

def nextDeadline (q : TimerQueue) : Option Duration := q.pending.head?.map (·.key.deadline)

/-- The timer that would be armed now, unless its deadline does not exist. -/
def timer? (q : TimerQueue) (delay : Duration) (task : Task) : Option Timer :=
  (q.now.add? delay).map fun deadline =>
    { key := ⟨deadline, q.nextId⟩, task, immediate := decide (delay = .zero) }

/-- Give out the next number and let the timer of that number wait. -/
def enqueue (q : TimerQueue) (t : Timer) (h : t.key.id = q.nextId) : TimerQueue where
  now := q.now
  nextId := q.nextId + 1
  pending := t.place q.pending
  deferred := q.deferred
  ordered := Timer.pairwise_place q.ordered (fun u hu => by rw [h]; exact q.fresh u hu)
  fresh := by
    intro u hu
    rcases Timer.mem_place.1 hu with rfl | hu
    · omega
    · have := q.fresh u hu
      omega

theorem id_of_timer? {q : TimerQueue} {delay : Duration} {task : Task} {t : Timer}
    (h : q.timer? delay task = some t) : t.key.id = q.nextId := by
  unfold timer? at h
  obtain ⟨d, _, rfl⟩ := Option.map_eq_some_iff.1 h
  rfl

/-- Arm a timer, none if the clock has no such deadline. -/
def arm? (q : TimerQueue) (delay : Duration) (task : Task) : Option (Timer × TimerQueue) :=
  match h : q.timer? delay task with
  | none => none
  | some t => some (t, q.enqueue t (id_of_timer? h))

/-- Keep the pending timers that pass a test. -/
def keep (q : TimerQueue) (test : Timer → Bool) : TimerQueue where
  now := q.now
  nextId := q.nextId
  pending := q.pending.filter test
  deferred := q.deferred
  ordered := q.ordered.filter test
  fresh := fun t ht => q.fresh t (List.mem_filter.1 ht).1

/-- Cancel all delayed transitions; a deferred event stays. -/
def cancelDelayed (q : TimerQueue) : TimerQueue := q.keep (fun t => !t.task.isDelayed)

/-- Cancel the deferred event that the queue knows of. -/
def cancelDeferred (q : TimerQueue) : TimerQueue :=
  match q.deferred with
  | none => q
  | some key => { q.keep (fun t => t.key ≠ key) with deferred := none }

def cancelAll (q : TimerQueue) : TimerQueue := { q.keep (fun _ => false) with deferred := none }

/-- Arm a deferred event in place of the one that waits; that one is cancelled in any case. -/
def defer? (q : TimerQueue) (event : Event) (delay : Duration) : Option (Timer × TimerQueue) :=
  (q.cancelDeferred.arm? delay (.deferred event)).map fun (t, q) =>
    (t, { q with deferred := some t.key })

/-- The queue without its first timer. -/
def rest (q : TimerQueue) : TimerQueue where
  now := q.now
  nextId := q.nextId
  pending := q.pending.tail
  deferred := q.deferred
  ordered := q.ordered.sublist (List.tail_sublist _)
  fresh := fun t ht => q.fresh t (List.mem_of_mem_tail ht)

/-- Take the first timer if it is due by `limit`, moving the clock to its deadline. An immediate
timer numbered at or past the horizon is held back, with all that stands behind it. -/
def popDue? (q : TimerQueue) (limit : Duration) (horizon : Nat) : Option (Timer × TimerQueue) :=
  match q.pending.head? with
  | none => none
  | some t =>
    if limit < t.key.deadline ∨ (horizon ≤ t.key.id ∧ t.immediate) then none
    else
      let q := { q.rest with deferred := if q.deferred = some t.key then none else q.deferred }
      some (t, q.setNow t.key.deadline)

end TimerQueue
end TimedMachine

import Mathlib.Data.List.Forall2
import TimedMachine.Proofs.Pending

/-!
Two timer queues that differ in where their clocks and their counters stand. Clock readings are
compared by their distance from a moment in each of two runs, numbers of timers likewise (`Shift`).
Everything a queue does depends on such distances only: where a timer is placed, which one is due,
which one is held back. One thing can part the two: a sum of times may exist in one run and not in
the other, but only if the clocks stood at different readings (`Sums`).
-/
namespace TimedMachine

/-- A moment in each of two runs: what the clocks read, and which numbers would be given out next. -/
structure Shift where
  clock : Duration
  clock' : Duration
  number : Nat
  number' : Nat

namespace Shift

variable (f : Shift)

/-- The readings are at the same distance from the moments of their runs. -/
def Times (a b : Duration) : Prop := a.nanos + f.clock'.nanos = b.nanos + f.clock.nanos

def Numbers (m n : Nat) : Prop := m + f.number' = n + f.number

structure Keys (a b : Key) : Prop where
  deadline : f.Times a.deadline b.deadline
  id : f.Numbers a.id b.id

structure Timers (t u : Timer) : Prop where
  key : f.Keys t.key u.key
  task : u.task = t.task
  immediate : u.immediate = t.immediate

structure Queues (q r : TimerQueue) : Prop where
  now : f.Times q.now r.now
  nextId : f.Numbers q.nextId r.nextId
  pending : List.Forall₂ f.Timers q.pending r.pending
  deferred : Option.Rel f.Keys q.deferred r.deferred

/-- The clocks read differently at the moments of the two runs. -/
def Moved : Prop := f.clock ≠ f.clock'

/-- What corresponding sums of times lead to: something on both sides, or nothing on either, or
nothing on one of them, and then the clocks read differently. -/
inductive Sums {α β : Type} (p : α → β → Prop) : Option α → Option β → Prop
  | both {a : α} {b : β} (h : p a b) : Sums p (some a) (some b)
  | neither : Sums p none none
  | parted {x : Option α} {y : Option β} (hmoved : f.Moved) (hnone : x = none ∨ y = none) :
      Sums p x y

variable {f}

theorem Sums.cases {α β : Type} {p : α → β → Prop} {x : Option α} {y : Option β}
    (h : f.Sums p x y) :
    (∃ a b, x = some a ∧ y = some b ∧ p a b) ∨ (x = none ∧ y = none) ∨
      (f.Moved ∧ (x = none ∨ y = none)) := by
  cases h with
  | both h => exact .inl ⟨_, _, rfl, rfl, h⟩
  | neither => exact .inr (.inl ⟨rfl, rfl⟩)
  | parted hmoved hnone => exact .inr (.inr ⟨hmoved, hnone⟩)

theorem Sums.map {α β γ δ : Type} {p : α → β → Prop} {s : γ → δ → Prop} {x : Option α}
    {y : Option β} (h : f.Sums p x y) {g : α → γ} {k : β → δ} (hp : ∀ a b, p a b → s (g a) (k b)) :
    f.Sums s (x.map g) (y.map k) := by
  cases h with
  | both h => exact .both (hp _ _ h)
  | neither => exact .neither
  | parted hmoved hnone => exact .parted hmoved (hnone.imp (by rintro rfl; rfl) (by rintro rfl; rfl))

variable {a b c d : Duration}

theorem Times.lt_iff (h : f.Times a b) (k : f.Times c d) : a < c ↔ b < d := by
  simp only [Times, Duration.lt_def] at *
  omega

theorem Times.le_iff (h : f.Times a b) (k : f.Times c d) : a ≤ c ↔ b ≤ d := by
  simp only [Times, Duration.le_def] at *
  omega

theorem Times.eq_iff (h : f.Times a b) (k : f.Times c d) : a = c ↔ b = d := by
  simp only [Times, Duration.eq_iff] at *
  omega

/-- A difference that stops at zero depends on the distances only. -/
theorem Times.minus (h : f.Times a b) (k : f.Times c d) : b.minus d = a.minus c := by
  simp only [Times, Duration.eq_iff, Duration.minus] at *
  omega

theorem Times.later (h : f.Times a b) (k : f.Times c d) : f.Times (a.later c) (b.later d) := by
  simp only [Times, Duration.nanos_later] at *
  omega

theorem Times.add? (h : f.Times a b) (time : Duration) :
    f.Sums f.Times (a.add? time) (b.add? time) := by
  by_cases hmoved : f.Moved
  · cases ha : a.add? time with
    | none => exact .parted hmoved (.inl rfl)
    | some c =>
      cases hb : b.add? time with
      | none => exact .parted hmoved (.inr rfl)
      | some d =>
        have hc := Duration.add?_eq_some ha
        have hd := Duration.add?_eq_some hb
        refine .both ?_
        simp only [Times] at *
        omega
  · have hsame : f.clock = f.clock' := not_not.1 hmoved
    have heq : a = b := by
      simp only [Times, hsame, Duration.eq_iff] at *
      omega
    subst heq
    cases a.add? time with
    | none => exact .neither
    | some c =>
      refine .both ?_
      rw [Times, hsame]

theorem Keys.before_iff {k l k' l' : Key} (h : f.Keys k k') (h' : f.Keys l l') :
    k.Before l ↔ k'.Before l' := by
  have hdeadline := h.deadline
  have hdeadline' := h'.deadline
  have hid := h.id
  have hid' := h'.id
  simp only [Times, Numbers, Key.Before, Duration.lt_def, Duration.eq_iff] at *
  omega

theorem Keys.eq_iff {k l k' l' : Key} (h : f.Keys k k') (h' : f.Keys l l') : k = l ↔ k' = l' := by
  have hdeadline := h.deadline.eq_iff h'.deadline
  have hid := h.id
  have hid' := h'.id
  obtain ⟨deadline, id⟩ := k
  obtain ⟨deadline', id'⟩ := k'
  obtain ⟨ldeadline, lid⟩ := l
  obtain ⟨ldeadline', lid'⟩ := l'
  simp only [Key.mk.injEq, Numbers] at *
  rw [hdeadline]
  constructor <;> rintro ⟨h, hnumber⟩ <;> exact ⟨h, by omega⟩

theorem forall₂_place {t u : Timer} {l m : List Timer} (h : f.Timers t u)
    (hl : List.Forall₂ f.Timers l m) : List.Forall₂ f.Timers (t.place l) (u.place m) := by
  induction hl with
  | nil => exact .cons h .nil
  | @cons v w _ _ hv hrest ih =>
    rw [Timer.place, Timer.place]
    by_cases hbefore : t.key.Before v.key
    · rw [if_pos hbefore, if_pos ((h.key.before_iff hv.key).1 hbefore)]
      exact .cons h (.cons hv hrest)
    · rw [if_neg hbefore, if_neg (fun hu => hbefore ((h.key.before_iff hv.key).2 hu))]
      exact .cons hv ih

variable {q r : TimerQueue}

theorem Queues.setNow (h : f.Queues q r) (hnow : f.Times a b) :
    f.Queues (q.setNow a) (r.setNow b) :=
  ⟨h.now.later hnow, h.nextId, h.pending, h.deferred⟩

theorem Queues.keep (h : f.Queues q r) {test test' : Timer → Bool}
    (htest : ∀ t u, f.Timers t u → (test t = true ↔ test' u = true)) :
    f.Queues (q.keep test) (r.keep test') :=
  ⟨h.now, h.nextId, List.rel_filter (fun t u htu => htest t u htu) h.pending, h.deferred⟩

theorem Queues.cancelDelayed (h : f.Queues q r) : f.Queues q.cancelDelayed r.cancelDelayed :=
  h.keep fun t u htu => by rw [htu.task]

theorem Queues.cancelAll (h : f.Queues q r) : f.Queues q.cancelAll r.cancelAll := by
  have hkept : f.Queues (q.keep fun _ => false) (r.keep fun _ => false) :=
    h.keep fun _ _ _ => Iff.rfl
  exact ⟨hkept.now, hkept.nextId, hkept.pending, .none⟩

theorem Queues.cancelDeferred (h : f.Queues q r) : f.Queues q.cancelDeferred r.cancelDeferred := by
  have hdeferred := h.deferred
  unfold TimerQueue.cancelDeferred
  generalize q.deferred = x at hdeferred ⊢
  generalize r.deferred = y at hdeferred ⊢
  cases hdeferred with
  | none => exact h
  | @some key key' hkey =>
    have hkept : f.Queues (q.keep fun t => t.key ≠ key) (r.keep fun t => t.key ≠ key') := by
      refine h.keep fun t u htu => ?_
      simp only [decide_eq_true_eq]
      exact not_congr (htu.key.eq_iff hkey)
    exact ⟨hkept.now, hkept.nextId, hkept.pending, .none⟩

theorem Queues.timer? (h : f.Queues q r) (delay : Duration) (task : Task) :
    f.Sums f.Timers (q.timer? delay task) (r.timer? delay task) :=
  (h.now.add? delay).map fun _ _ hdeadline => ⟨⟨hdeadline, h.nextId⟩, rfl, rfl⟩

theorem Queues.enqueue (h : f.Queues q r) {t u : Timer} (htu : f.Timers t u)
    (ht : t.key.id = q.nextId) (hu : u.key.id = r.nextId) :
    f.Queues (q.enqueue t ht) (r.enqueue u hu) := by
  have hid := h.nextId
  refine ⟨h.now, ?_, forall₂_place htu h.pending, h.deferred⟩
  simp only [Numbers, TimerQueue.enqueue] at *
  omega

/-- A timer, and the queue as it is with it or without it. -/
def Pairs (f : Shift) (x y : Timer × TimerQueue) : Prop := f.Timers x.1 y.1 ∧ f.Queues x.2 y.2

theorem Queues.arm? (h : f.Queues q r) (delay : Duration) (task : Task) :
    f.Sums f.Pairs (q.arm? delay task) (r.arm? delay task) := by
  rcases (h.timer? delay task).cases with
    ⟨t, u, ht, hu, htu⟩ | ⟨ht, hu⟩ | ⟨hmoved, hnone⟩
  · rw [TimerQueue.arm?_of_timer? ht, TimerQueue.arm?_of_timer? hu]
    exact .both ⟨htu, h.enqueue htu (TimerQueue.id_of_timer? ht) (TimerQueue.id_of_timer? hu)⟩
  · rw [TimerQueue.arm?_eq_none ht, TimerQueue.arm?_eq_none hu]
    exact .neither
  · exact .parted hmoved (hnone.imp TimerQueue.arm?_eq_none TimerQueue.arm?_eq_none)

theorem Queues.defer? (h : f.Queues q r) (event : Event) (delay : Duration) :
    f.Sums f.Pairs (q.defer? event delay) (r.defer? event delay) := by
  refine (h.cancelDeferred.arm? delay (.deferred event)).map ?_
  rintro ⟨t, q⟩ ⟨u, r⟩ ⟨htu, hqr⟩
  exact ⟨htu, hqr.now, hqr.nextId, hqr.pending, .some htu.key⟩

theorem Queues.nextDeadline (h : f.Queues q r) :
    Option.Rel f.Times q.nextDeadline r.nextDeadline := by
  have hpending := h.pending
  unfold TimerQueue.nextDeadline
  generalize q.pending = l at hpending ⊢
  generalize r.pending = m at hpending ⊢
  cases hpending with
  | nil => exact .none
  | cons htu _ => exact .some htu.key.deadline

/-- Which timer is taken depends on the distances only. -/
theorem Queues.popDue? (h : f.Queues q r) (hlimit : f.Times a b) {m n : Nat}
    (hhorizon : f.Numbers m n) :
    Option.Rel f.Pairs (q.popDue? a m) (r.popDue? b n) := by
  have hpending := h.pending
  unfold TimerQueue.popDue?
  cases hq : q.pending with
  | nil =>
    rw [hq] at hpending
    rw [List.forall₂_nil_left_iff.1 hpending]
    exact .none
  | cons t rest =>
    rw [hq] at hpending
    obtain ⟨u, rest', htu, hrest, hr⟩ := List.forall₂_cons_left_iff.1 hpending
    have hlate := hlimit.lt_iff htu.key.deadline
    have hnumber : m ≤ t.key.id ↔ n ≤ u.key.id := by
      have hid := htu.key.id
      simp only [Numbers] at *
      omega
    have hheld : (a < t.key.deadline ∨ (m ≤ t.key.id ∧ t.immediate = true)) ↔
        (b < u.key.deadline ∨ (n ≤ u.key.id ∧ u.immediate = true)) := by
      rw [hlate, hnumber, htu.immediate]
    rw [hr]
    simp only [List.head?_cons]
    by_cases hnot : a < t.key.deadline ∨ (m ≤ t.key.id ∧ t.immediate = true)
    · rw [if_pos hnot, if_pos (hheld.1 hnot)]
      exact .none
    · rw [if_neg hnot, if_neg (fun hu => hnot (hheld.2 hu))]
      refine .some ⟨htu, h.now.later htu.key.deadline, h.nextId, ?_, ?_⟩
      · simpa [TimerQueue.setNow, TimerQueue.rest, hq, hr] using hrest
      · have hkey : q.deferred = some t.key ↔ r.deferred = some u.key := by
          have hdeferred := h.deferred
          generalize q.deferred = x at hdeferred ⊢
          generalize r.deferred = y at hdeferred ⊢
          cases hdeferred with
          | none => simp
          | some hkey => simpa using hkey.eq_iff htu.key
        show Option.Rel f.Keys (if q.deferred = some t.key then none else q.deferred)
          (if r.deferred = some u.key then none else r.deferred)
        by_cases hsome : q.deferred = some t.key
        · rw [if_pos hsome, if_pos (hkey.1 hsome)]
          exact .none
        · rw [if_neg hsome, if_neg (fun hr => hsome (hkey.2 hr))]
          exact h.deferred

end Shift
end TimedMachine

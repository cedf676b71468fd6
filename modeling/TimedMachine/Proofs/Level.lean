import TimedMachine.Proofs.Recording
import TimedMachine.Proofs.Twin

/-!
Services that stand level. Over the same machine and actions, they are in the same status, on the same
snapshot, and their clocks, timers and counters are the same; what each has written and recorded so
far may differ, and how much of it is kept. Level services do the same in every operation and write
the same of it, so they are level afterwards (`both_apply`): no branch that they take depends on what
is behind them.
-/
namespace TimedMachine

variable {κ : Type}

/-- The outcomes are of the same kind and their services are related. -/
inductive Outcome.Both (R : Service κ → Service κ → Prop) : Outcome κ → Outcome κ → Prop
  | completed {s s' : Service κ} (h : R s s') : Both R (.completed s) (.completed s')
  | overflowed {s s' : Service κ} (h : R s s') : Both R (.overflowed s) (.overflowed s')

namespace Outcome.Both

variable {R : Service κ → Service κ → Prop} {o o' : Outcome κ}

theorem imp {R' : Service κ → Service κ → Prop} (h : Both R o o') (hR : ∀ s s', R s s' → R' s s') :
    Both R' o o' := by
  cases h with
  | completed h => exact .completed (hR _ _ h)
  | overflowed h => exact .overflowed (hR _ _ h)

theorem andThen {next next' : Service κ → Outcome κ} (h : Both R o o')
    (k : ∀ s s', o = .completed s → o' = .completed s' → R s s' → Both R (next s) (next' s')) :
    Both R (o.andThen next) (o'.andThen next') := by
  cases h with
  | completed h => exact k _ _ rfl rfl h
  | overflowed h => exact .overflowed h

theorem service (h : Both R o o') : R o.service o'.service := by
  cases h with
  | completed h => exact h
  | overflowed h => exact h

end Outcome.Both

/-- Queues with the same clock, counter, timers and deferred event are the same. -/
theorem TimerQueue.eq_of_parts {q r : TimerQueue} (hnow : r.now = q.now)
    (hnextId : r.nextId = q.nextId) (hpending : r.pending = q.pending)
    (hdeferred : r.deferred = q.deferred) : r = q := by
  cases q
  cases r
  cases hnow
  cases hnextId
  cases hpending
  cases hdeferred
  rfl

namespace Shift

/-- The two moments have the same clock reading and the same next number. -/
structure Still (f : Shift) : Prop where
  clock : f.clock' = f.clock
  number : f.number' = f.number

variable {f : Shift}

theorem Still.not_moved (h : f.Still) : ¬ f.Moved := fun hmoved => hmoved h.clock.symm

theorem Still.times_eq (h : f.Still) {a b : Duration} (hab : f.Times a b) : b = a := by
  rw [Times, h.clock] at hab
  exact Duration.ext (Nat.add_right_cancel hab).symm

theorem Still.numbers_eq (h : f.Still) {m n : Nat} (hmn : f.Numbers m n) : n = m := by
  rw [Numbers, h.number] at hmn
  exact (Nat.add_right_cancel hmn).symm

theorem Still.keys_eq (h : f.Still) {k l : Key} (hkl : f.Keys k l) : l = k := by
  obtain ⟨deadline, id⟩ := k
  obtain ⟨deadline', id'⟩ := l
  rw [Key.mk.injEq]
  exact ⟨h.times_eq hkl.deadline, h.numbers_eq hkl.id⟩

theorem Still.timers_eq (h : f.Still) {t u : Timer} (htu : f.Timers t u) : u = t := by
  obtain ⟨key, task, immediate⟩ := t
  obtain ⟨key', task', immediate'⟩ := u
  rw [Timer.mk.injEq]
  exact ⟨h.keys_eq htu.key, htu.task, htu.immediate⟩

/-- Lists whose members are equal in pairs are equal. -/
theorem eq_of_forall₂ {α : Type} {p : α → α → Prop} (hp : ∀ a b, p a b → b = a) {l m : List α}
    (h : List.Forall₂ p l m) : m = l :=
  (eq_map_of_forall₂ (g := id) hp h).trans l.map_id

theorem Still.timersList_eq (h : f.Still) {ts us : List Timer} (hts : List.Forall₂ f.Timers ts us) :
    us = ts := eq_of_forall₂ (fun _ _ => h.timers_eq) hts

/-- Every queue corresponds to itself. -/
theorem Still.queues_self (h : f.Still) (q : TimerQueue) : f.Queues q q := by
  have hkeys (k : Key) : f.Keys k k := by
    constructor
    · rw [Times, h.clock]
    · rw [Numbers, h.number]
  constructor
  case now => rw [Times, h.clock]
  case nextId => rw [Numbers, h.number]
  case pending => exact List.forall₂_same.2 fun t _ => ⟨hkeys t.key, rfl, rfl⟩
  case deferred =>
    cases q.deferred with
    | none => exact .none
    | some k => exact .some (hkeys k)

theorem Still.queues_eq (h : f.Still) {q r : TimerQueue} (hqr : f.Queues q r) : r = q := by
  refine TimerQueue.eq_of_parts (h.times_eq hqr.now) (h.numbers_eq hqr.nextId)
    (h.timersList_eq hqr.pending) ?_
  have hdeferred := hqr.deferred
  generalize q.deferred = x at hdeferred ⊢
  generalize r.deferred = y at hdeferred ⊢
  cases hdeferred with
  | none => rfl
  | some hkey => rw [h.keys_eq hkey]

end Shift

/-- Where the moments are the same, corresponding entries are. -/
theorem Entry.Alike.eq_of_still {f : Shift} (hf : f.Still) {e e' : Entry κ} (h : e.Alike Eq f e') :
    e' = e := by
  cases h with
  | started h => rw [hf.times_eq h]
  | judged h => rw [h.eq]
  | weighed h => rw [h.eq]
  | armed h => rw [hf.timers_eq h]
  | cancelled h => rw [hf.timersList_eq h]
  | fired h hclock => rw [hf.timers_eq h, hf.times_eq hclock]
  | lapsed h => rw [hf.timers_eq h]
  | committed h => rw [hf.times_eq h]
  | notified h => rw [h.eq]
  | woke h => rw [hf.times_eq h]
  | drained h => rw [hf.times_eq h]
  | _ => rfl

namespace Service

theorem eq_of_parts {s r : Service κ} (hmachine : r.machine = s.machine)
    (hoptions : r.options = s.options) (hchannel : r.channel = s.channel)
    (hstatus : r.status = s.status) (hcurrent : r.current = s.current)
    (htimers : r.timers = s.timers) (hhistory : r.history = s.history)
    (hjournal : r.journal = s.journal) : r = s := by
  have hwritten : r.written = s.written := Journal.eq_of_toList_eq hjournal
  cases r
  cases s
  cases hmachine
  cases hoptions
  cases hchannel
  cases hstatus
  cases hcurrent
  cases htimers
  cases hhistory
  cases hwritten
  rfl

structure Level (s s' : Service κ) : Prop where
  machine : s'.machine = s.machine
  actions : s'.options.actions = s.options.actions
  status : s'.status = s.status
  current : s'.current = s.current
  timers : s'.timers = s.timers

/-- Level services that have written the same since two others. -/
structure LevelSince (s s' r r' : Service κ) : Prop extends Level r r' where
  written : ∃ new, r.journal = s.journal ++ new ∧ r'.journal = s'.journal ++ new

variable {s s' : Service κ}

theorem Level.still (h : Level s s') : (Pairing.mk Eq s s').shift.Still where
  clock := congrArg TimerQueue.now h.timers
  number := congrArg TimerQueue.nextId h.timers

theorem Level.matched (h : Level s s') : (Pairing.mk Eq s s').Matched := by
  show Counterpart Eq s.machine s.options s'.machine s'.options
  rw [h.machine]
  exact counterpart_self s.machine h.actions

/-- Level services are twins from the moment at which they stand. -/
theorem Level.twins (h : Level s s') : (Pairing.mk Eq s s').Twins s s' where
  machine := rfl
  machine' := rfl
  options := rfl
  options' := rfl
  status := h.status
  current := by
    rw [h.current]
    exact s.current.alike_self
  timers := by
    rw [h.timers]
    exact h.still.queues_self s.timers
  journal := ⟨[], [], (List.append_nil _).symm, (List.append_nil _).symm, .nil⟩

/-- Twins are level if they were level at the moment from which on they are compared. -/
theorem Pairing.Twins.levelSince (h : Level s s') {r r' : Service κ}
    (htwins : (Pairing.mk Eq s s').Twins r r') : LevelSince s s' r r' where
  machine := by
    rw [htwins.machine, htwins.machine']
    exact h.machine
  actions := by
    rw [htwins.options, htwins.options']
    exact h.actions
  status := htwins.status
  current := htwins.current.eq
  timers := h.still.queues_eq htwins.timers
  written := by
    obtain ⟨new, new', hr, hr', halike⟩ := htwins.journal
    obtain rfl := Shift.eq_of_forall₂ (fun _ _ he => he.eq_of_still h.still) halike
    exact ⟨_, hr, hr'⟩

theorem Level.both (h : Level s s') {o o' : Outcome κ} (hends : (Pairing.mk Eq s s').Ends o o') :
    Outcome.Both (LevelSince s s') o o' := by
  cases hends with
  | completed htwins => exact .completed (htwins.levelSince h)
  | overflowed htwins => exact .overflowed (htwins.levelSince h)
  | parted hmoved => exact absurd hmoved h.still.not_moved

theorem LevelSince.trans {r r' u u' : Service κ} (h : LevelSince s s' r r')
    (k : LevelSince r r' u u') : LevelSince s s' u u' where
  toLevel := k.toLevel
  written := by
    obtain ⟨new, hr, hr'⟩ := h.written
    obtain ⟨more, hu, hu'⟩ := k.written
    exact ⟨new ++ more, by rw [hu, hr, List.append_assoc], by rw [hu', hr', List.append_assoc]⟩

theorem LevelSince.since_eq {r r' : Service κ} (h : LevelSince s s' r r') :
    r'.since s' = r.since s := by
  obtain ⟨new, hr, hr'⟩ := h.written
  rw [since_eq_of_append hr, since_eq_of_append hr']

variable [BEq κ]

theorem both_apply (h : Level s s') (op : Operation) :
    Outcome.Both (LevelSince s s') (s.apply op) (s'.apply op) :=
  h.both (Pairing.ends_apply h.matched h.twins op)

end Service
end TimedMachine

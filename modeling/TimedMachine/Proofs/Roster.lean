import TimedMachine.Proofs.Pending
import TimedMachine.TimerQueue.Roster

/-!
A queue of timers and a roster are told apart by nothing that can be seen. As long as they obeyed the
same commands, the roster lists what waits in the queue, in another order (`Lists`): the first timer of
the queue is the alarm that the search finds, and the deferred event that the queue has a note of is the
only one on the list. Every command keeps this (`Lists.obey?`), and so the reports of both are the same
for as long as the commands last (`reports_eq_roster`).
-/
namespace TimedMachine

namespace Alarm

theorem earliest?_eq_none_iff {l : List Alarm} : earliest? l = none ↔ l = [] := by
  cases l with
  | nil => simp [earliest?]
  | cons a rest =>
    simp only [earliest?, reduceCtorEq, iff_false]
    split
    · simp
    · split <;> simp

/-- Where an alarm stands in a list of which it is the earliest. -/
structure Foremost (a : Alarm) (front back : List Alarm) : Prop where
  front : ∀ b ∈ front, a.deadline < b.deadline
  back : ∀ b ∈ back, a.deadline ≤ b.deadline

theorem exists_foremost {l : List Alarm} {a : Alarm} (h : earliest? l = some a) :
    ∃ front back, l = front ++ a :: back ∧ Foremost a front back := by
  induction l generalizing a with
  | nil => cases h
  | cons b rest ih =>
    rw [earliest?] at h
    split at h
    · rename_i hnone
      obtain rfl := Option.some.inj h
      obtain rfl := earliest?_eq_none_iff.1 hnone
      exact ⟨[], [], rfl, by simp, by simp⟩
    · rename_i c hc
      obtain ⟨front, back, rfl, hforemost⟩ := ih hc
      split at h
      · rename_i hless
        obtain rfl := Option.some.inj h
        refine ⟨b :: front, back, rfl, ?_, hforemost.back⟩
        exact List.forall_mem_cons.2 ⟨hless, hforemost.front⟩
      · rename_i hless
        obtain rfl := Option.some.inj h
        refine ⟨[], front ++ c :: back, rfl, by simp, ?_⟩
        have hle : b.deadline ≤ c.deadline := by
          rw [Duration.lt_def] at hless
          rw [Duration.le_def]
          omega
        intro d hd
        rcases List.mem_append.1 hd with hd | hd
        · exact Nat.le_trans hle (Nat.le_of_lt (hforemost.front d hd))
        · rcases List.mem_cons.1 hd with rfl | hd
          · exact hle
          · exact Nat.le_trans hle (hforemost.back d hd)

/-- The alarm as the queue keeps it. -/
def timer (a : Alarm) : Timer := ⟨⟨a.deadline, a.number⟩, a.task, decide (a.delay = .zero)⟩

/-- In a list where the numbers ascend, the timer of the earliest alarm fires before all others. -/
theorem Foremost.before {a b : Alarm} {front back : List Alarm} (h : Foremost a front back)
    (hnumbers : (front ++ a :: back).Pairwise fun a b => a.number < b.number)
    (hb : b ∈ front ++ a :: back) : b = a ∨ a.timer.key.Before b.timer.key := by
  rcases List.mem_append.1 hb with hb | hb
  · exact .inr (.inl (h.front b hb))
  · rcases List.mem_cons.1 hb with rfl | hb
    · exact .inl rfl
    · have hnumber := (List.pairwise_cons.1 (List.pairwise_append.1 hnumbers).2.1).1 b hb
      have hdeadline := h.back b hb
      simp only [Key.Before, timer, Duration.lt_def, Duration.le_def, Duration.eq_iff] at *
      omega

end Alarm

theorem Timer.perm_place (t : Timer) (l : List Timer) : (t.place l).Perm (t :: l) := by
  induction l with
  | nil => exact .refl _
  | cons u rest ih =>
    rw [place]
    split
    · exact .refl _
    · exact (ih.cons u).trans (.swap t u rest)

theorem rel_map {α β γ δ : Type} {p : α → β → Prop} {s : γ → δ → Prop} {x : Option α} {y : Option β}
    (h : Option.Rel p x y) {f : α → γ} {g : β → δ} (hp : ∀ a b, p a b → s (f a) (g b)) :
    Option.Rel s (x.map f) (y.map g) := by
  cases h with
  | none => exact .none
  | some h => exact .some (hp _ _ h)

theorem rel_and {α β : Type} {p : α → β → Prop} {s : α → Prop} {x : Option α} {y : Option β}
    (h : Option.Rel p x y) (hs : ∀ a, x = some a → s a) :
    Option.Rel (fun a b => p a b ∧ s a) x y := by
  cases h with
  | none => exact .none
  | some h => exact .some ⟨h, hs _ rfl⟩

/-- Two that answer every command alike, and stay related, report the same for as long as the commands
last. -/
theorem reports_eq_of_rel {σ τ : Type} {p : σ → τ → Prop}
    {answer? : σ → Command → Option (Report × σ)} {answer?' : τ → Command → Option (Report × τ)}
    (hstep : ∀ s t c, p s t →
      Option.Rel (fun x y => x.1 = y.1 ∧ p x.2 y.2) (answer? s c) (answer?' t c))
    {s : σ} {t : τ} (h : p s t) (cs : List Command) : reports answer? s cs = reports answer?' t cs := by
  induction cs generalizing s t with
  | nil => rfl
  | cons c rest ih =>
    have hanswer := hstep s t c h
    rw [reports, reports]
    generalize answer? s c = x at hanswer ⊢
    generalize answer?' t c = y at hanswer ⊢
    cases hanswer with
    | none => rfl
    | some hboth =>
      simp only [hboth.1]
      rw [ih hboth.2]

namespace Roster

/-- The alarms of the roster are the timers that wait in the queue. -/
structure Lists (r : Roster) (q : TimerQueue) : Prop where
  now : q.now = r.now
  count : q.nextId = r.count
  alarms : q.pending.Perm (r.alarms.map Alarm.timer)
  numbers : r.alarms.Pairwise fun a b => a.number < b.number

variable {r : Roster} {q : TimerQueue}

/-- The first timer of the queue is the one that the search through the list finds. -/
theorem Lists.head?_eq (h : r.Lists q) :
    q.pending.head? = (Alarm.earliest? r.alarms).map Alarm.timer := by
  have hperm := h.alarms
  have hnumbers := h.numbers
  have hordered := q.ordered
  cases hearliest : Alarm.earliest? r.alarms with
  | none =>
    rw [Alarm.earliest?_eq_none_iff.1 hearliest] at hperm
    rw [hperm.eq_nil]
    rfl
  | some a =>
    obtain ⟨front, back, halarms, hforemost⟩ := Alarm.exists_foremost hearliest
    rw [halarms] at hperm hnumbers
    cases hpending : q.pending with
    | nil => simp [hpending] at hperm
    | cons t rest =>
      rw [hpending] at hperm hordered
      -- The first timer is that of some alarm; were it another one, it would stand after the earliest.
      obtain ⟨b, hb, hbt⟩ := List.mem_map.1 (hperm.mem_iff.1 List.mem_cons_self)
      rcases hforemost.before hnumbers hb with rfl | hbefore
      · simp [hbt]
      · have ha : a.timer ∈ t :: rest := hperm.mem_iff.2 (List.mem_map.2 ⟨a, by simp, rfl⟩)
        rcases List.mem_cons.1 ha with hat | hat
        · simp [hat]
        · have hafter := (List.pairwise_cons.1 hordered).1 a.timer hat
          rw [hbt] at hbefore
          exact absurd (hbefore.trans hafter) (Key.not_before_self _)

theorem Lists.report_eq (h : r.Lists q) (task : Option Task) : q.report task = r.report task := by
  have hdeadline : q.nextDeadline = r.nextDeadline := by
    rw [TimerQueue.nextDeadline, h.head?_eq, Option.map_map]
    rfl
  have hlength : q.pending.length = r.alarms.length := by
    rw [h.alarms.length_eq, List.length_map]
  rw [TimerQueue.report, report, hdeadline, hlength, h.count, h.now]

theorem Lists.setNow (h : r.Lists q) (now : Duration) : (r.setNow now).Lists (q.setNow now) where
  now := by
    show q.now.later now = if r.now < now then now else r.now
    rw [h.now, Duration.eq_iff, Duration.nanos_later]
    split <;> rename_i hless <;> rw [Duration.lt_def] at hless <;> omega
  count := h.count
  alarms := h.alarms
  numbers := h.numbers

/-- Timers that fail a test leave the queue as their alarms leave the list. -/
theorem Lists.perm_filter (h : r.Lists q) (test : Task → Bool) :
    (q.pending.filter fun t => test t.task).Perm
      ((r.alarms.filter fun a => test a.task).map Alarm.timer) := by
  have hfilter := h.alarms.filter fun t => test t.task
  rwa [List.filter_map] at hfilter

theorem Lists.cancelDelayed (h : r.Lists q) : r.cancelDelayed.Lists q.cancelDelayed :=
  ⟨h.now, h.count, h.perm_filter fun task => !task.isDelayed, h.numbers.filter _⟩

/-- The timer that the queue has a note of is the only deferred event on the list. -/
theorem Lists.cancelDeferred (h : r.Lists q) (hslot : q.Slot) :
    r.cancelDeferred.Lists q.cancelDeferred where
  now := q.leads_cancelDeferred.now.trans h.now
  count := q.nextId_cancelDeferred.trans h.count
  alarms := by
    rw [hslot.pending_cancelDeferred]
    exact h.perm_filter Task.isDelayed
  numbers := h.numbers.filter _

theorem Lists.cancelAll (h : r.Lists q) : r.cancelAll.Lists q.cancelAll :=
  ⟨h.now, h.count, by simp [Roster.cancelAll, TimerQueue.cancelAll, TimerQueue.keep], .nil⟩

theorem Lists.number_lt (h : r.Lists q) {a : Alarm} (ha : a ∈ r.alarms) : a.number < r.count := by
  rw [← h.count]
  exact q.fresh a.timer (h.alarms.mem_iff.2 (List.mem_map_of_mem ha))

theorem Lists.arm? (h : r.Lists q) (delay : Duration) (task : Task) :
    Option.Rel (fun x s => s.Lists x.2) (q.arm? delay task) (r.set? delay task) := by
  have htimer : q.timer? delay task = (r.now.add? delay).map fun deadline =>
      Alarm.timer ⟨task, delay, deadline, r.count⟩ := by
    rw [TimerQueue.timer?, h.now, h.count]
    rfl
  unfold Roster.set?
  cases hdeadline : r.now.add? delay with
  | none =>
    rw [hdeadline] at htimer
    rw [TimerQueue.arm?_eq_none htimer]
    exact .none
  | some deadline =>
    rw [hdeadline] at htimer
    rw [TimerQueue.arm?_of_timer? htimer]
    refine .some ⟨h.now, congrArg (· + 1) h.count, ?_, ?_⟩
    · rw [List.map_append]
      refine (Timer.perm_place _ _).trans ((h.alarms.cons _).trans ?_)
      exact (List.perm_append_singleton _ _).symm
    · refine List.pairwise_append.2 ⟨h.numbers, List.pairwise_singleton _ _, ?_⟩
      intro a ha b hb
      rw [List.mem_singleton.1 hb]
      exact h.number_lt ha

theorem Lists.defer? (h : r.Lists q) (hslot : q.Slot) (event : Event) (delay : Duration) :
    Option.Rel (fun x s => s.Lists x.2) (q.defer? event delay) (r.defer? event delay) := by
  have harm := (h.cancelDeferred hslot).arm? delay (.deferred event)
  have hnoted := rel_map harm (f := fun x => (x.1, { x.2 with deferred := some x.1.key })) (g := id)
    (s := fun x s => s.Lists x.2) fun x s hlists =>
      ⟨hlists.now, hlists.count, hlists.alarms, hlists.numbers⟩
  rwa [Option.map_id] at hnoted

/-- The earliest alarm leaves the list as the first timer leaves the queue. -/
theorem Lists.erase (h : r.Lists q) {a : Alarm} (ha : Alarm.earliest? r.alarms = some a) :
    ({ r with alarms := r.alarms.erase a } : Roster).Lists q.rest where
  now := h.now
  count := h.count
  alarms := by
    have hhead := h.head?_eq
    rw [ha, Option.map_some] at hhead
    obtain ⟨rest, hrest⟩ := List.head?_eq_some_iff.1 hhead
    obtain ⟨front, back, halarms, -⟩ := Alarm.exists_foremost ha
    have hmem : a ∈ r.alarms := by simp [halarms]
    have hperm := h.alarms.trans ((List.perm_cons_erase hmem).map Alarm.timer)
    rw [hrest, List.map_cons] at hperm
    simpa [TimerQueue.rest, hrest] using hperm.cons_inv
  numbers := h.numbers.sublist List.erase_sublist

theorem Lists.popDue? (h : r.Lists q) (limit : Duration) (horizon : Nat) :
    Option.Rel (fun x y => x.1.task = y.1 ∧ y.2.Lists x.2) (q.popDue? limit horizon)
      (r.popDue? limit horizon) := by
  have hhead := h.head?_eq
  unfold TimerQueue.popDue? Roster.popDue?
  cases hearliest : Alarm.earliest? r.alarms with
  | none =>
    rw [hhead, hearliest]
    exact .none
  | some a =>
    have hrefused : (limit < a.timer.key.deadline ∨
        horizon ≤ a.timer.key.id ∧ a.timer.immediate = true) ↔
        (limit < a.deadline ∨ a.delay = .zero ∧ horizon ≤ a.number) := by
      simp only [Alarm.timer, decide_eq_true_iff, and_comm]
    rw [hhead, hearliest]
    simp only [Option.map_some, hrefused]
    by_cases hheld : limit < a.deadline ∨ a.delay = .zero ∧ horizon ≤ a.number
    · rw [if_pos hheld, if_pos hheld]
      exact .none
    · rw [if_neg hheld, if_neg hheld]
      have hrest := (h.erase hearliest).setNow a.deadline
      exact .some ⟨rfl, hrest.now, hrest.count, hrest.alarms, hrest.numbers⟩

end Roster

/-- Every command leaves a queue with a true note of its deferred event. -/
theorem TimerQueue.Slot.obey? {q r : TimerQueue} (h : q.Slot) {c : Command} {task : Option Task}
    (hobey : q.obey? c = some (task, r)) : r.Slot := by
  cases c with
  | arm state index delay =>
    obtain ⟨⟨t, armed⟩, harm, he⟩ := Option.map_eq_some_iff.1 hobey
    cases he
    exact h.arms (arms_of_arm? harm) rfl
  | defer event delay =>
    obtain ⟨⟨t, armed⟩, hdefer, he⟩ := Option.map_eq_some_iff.1 hobey
    cases he
    exact slot_of_defer? hdefer h
  | cancelDelayed =>
    cases hobey
    exact h.cancelDelayed
  | cancelDeferred =>
    cases hobey
    exact h.cancelDeferred
  | cancelAll =>
    cases hobey
    exact q.slot_cancelAll
  | setNow now =>
    cases hobey
    exact h.setNow now
  | popDue limit horizon =>
    rw [TimerQueue.obey?] at hobey
    split at hobey
    · cases hobey
      exact h
    · rename_i hpop
      cases hobey
      exact slot_of_popDue? hpop h

namespace Roster

variable {r : Roster} {q : TimerQueue}

/-- Queue and roster take out the same task, and the roster goes on listing what waits. -/
theorem Lists.obey? (h : r.Lists q) (hslot : q.Slot) (c : Command) :
    Option.Rel (fun x y => x.1 = y.1 ∧ y.2.Lists x.2) (q.obey? c) (r.obey? c) := by
  cases c with
  | arm state index delay => exact rel_map (h.arm? delay _) fun _ _ hlists => ⟨rfl, hlists⟩
  | defer event delay =>
    exact rel_map (h.defer? hslot event delay) fun _ _ hlists => ⟨rfl, hlists⟩
  | cancelDelayed => exact .some ⟨rfl, h.cancelDelayed⟩
  | cancelDeferred => exact .some ⟨rfl, h.cancelDeferred hslot⟩
  | cancelAll => exact .some ⟨rfl, h.cancelAll⟩
  | setNow now => exact .some ⟨rfl, h.setNow now⟩
  | popDue limit horizon =>
    have hpop := h.popDue? limit horizon
    rw [TimerQueue.obey?, Roster.obey?]
    generalize q.popDue? limit horizon = x at hpop ⊢
    generalize r.popDue? limit horizon = y at hpop ⊢
    cases hpop with
    | none => exact .some ⟨rfl, h⟩
    | some hpopped => exact .some ⟨congrArg some hpopped.1, hpopped.2⟩

/-- A roster that lists what waits in a queue, and a queue with a true note of its deferred event. -/
structure Mirrors (q : TimerQueue) (r : Roster) : Prop where
  lists : r.Lists q
  slot : q.Slot

theorem mirrors_empty : Mirrors {} {} := ⟨⟨rfl, rfl, .nil, .nil⟩, TimerQueue.slot_empty⟩

theorem Mirrors.answer? (h : Mirrors q r) (c : Command) :
    Option.Rel (fun x y => x.1 = y.1 ∧ Mirrors x.2 y.2) (q.answer? c) (r.answer? c) := by
  have hobey := rel_and (h.lists.obey? h.slot c) fun _ hx => h.slot.obey? hx
  refine rel_map hobey ?_
  rintro ⟨task, q'⟩ ⟨task', r'⟩ ⟨⟨htask, hlists⟩, hslot⟩
  obtain rfl : task = task' := htask
  exact ⟨hlists.report_eq task, hlists, hslot⟩

end Roster

/-- Whatever a queue of timers is told to do, from the start on, its reports are those of a roster that
is told the same: which task is taken out, if any, the next deadline, how many timers wait, the horizon
and the clock. A deadline that does not exist ends both at the same command. -/
theorem TimerQueue.reports_eq_roster (cs : List Command) :
    reports TimerQueue.answer? {} cs = reports Roster.answer? {} cs :=
  reports_eq_of_rel (p := Roster.Mirrors) (fun _ _ c h => h.answer? c) Roster.mirrors_empty cs

/-- An alarm that was set at the horizon is held back, and taken out once the horizon lies past it. -/
example : (reports Roster.answer? {} [.arm "a" 0 .zero, .popDue .zero 0, .popDue .zero 1]).map
    (fun report => report.bind Report.task) = [none, none, some (.delayed "a" 0)] := by decide

end TimedMachine

import Mathlib.Algebra.GroupWithZero.Nat
import TimedMachine.Proofs.Contest
import TimedMachine.Proofs.Delivery
import TimedMachine.Proofs.Restart

/-!
What is ignored leaves the service intact. An event that leads nowhere only clears the deferred event,
a delayed transition that leads to no other declared state only disappears, and a stopped service lets
no operation but a start do more than move its clock (`ignored_leave_intact`).
-/
namespace TimedMachine

variable {κ : Type}

namespace Service

/-- Neither the snapshot nor the history is another one, and no timer was armed. -/
structure Unaltered (s r : Service κ) : Prop where
  machine : r.machine = s.machine
  options : r.options = s.options
  channel : r.channel = s.channel
  status : r.status = s.status
  current : r.current = s.current
  history : r.history = s.history
  nextId : r.timers.nextId = s.timers.nextId

theorem Unaltered.refl (s : Service κ) : s.Unaltered s := ⟨rfl, rfl, rfl, rfl, rfl, rfl, rfl⟩

theorem Unaltered.trans {s r u : Service κ} (h : s.Unaltered r) (k : r.Unaltered u) :
    s.Unaltered u where
  machine := k.machine.trans h.machine
  options := k.options.trans h.options
  channel := k.channel.trans h.channel
  status := k.status.trans h.status
  current := k.current.trans h.current
  history := k.history.trans h.history
  nextId := k.nextId.trans h.nextId

/-- What has come of an event that leads nowhere: the deferred event is cleared, and its guard may have
been asked. -/
structure Ignores (event : Event) (s r : Service κ) : Prop extends s.Unaltered r where
  now : r.now = s.now
  pending : r.timers.pending = s.timers.delayed
  deferred : r.timers.deferred = none
  entries : ∃ asked,
    r.journal = s.journal ++ .accepted event :: .cancelled s.timers.sends :: asked ∧
    s.Queried event asked

/-- What has come of a timer that fired in vain: it is gone, and the clock is not before its
deadline. -/
structure Fades (t : Timer) (s r : Service κ) : Prop extends s.Unaltered r where
  clock : r.now.nanos = max s.now.nanos t.key.deadline.nanos
  pending : s.timers.pending = t :: r.timers.pending
  deferred : r.timers.deferred = s.timers.deferred
  entries : ∃ why, r.journal = s.journal ++ [.fired t r.now, .lapsed t why]

/-- The clock was moved, and that is all. -/
structure Drifts (nanos : Nat) (s r : Service κ) : Prop extends s.Unaltered r where
  clock : r.now.nanos = s.now.nanos + nanos
  pending : r.timers.pending = s.timers.pending
  deferred : r.timers.deferred = s.timers.deferred
  journal : r.journal = s.journal

/-- The clock was moved as far as the times went, and that is all. -/
structure DriftCut (nanos : Nat) (s r : Service κ) : Prop extends s.Unaltered r where
  beyond : Duration.ofNanos? (s.now.nanos + nanos) = none
  pending : r.timers.pending = s.timers.pending
  deferred : r.timers.deferred = s.timers.deferred
  journal : r.journal = s.journal

/-- The nanoseconds by which an operation moves the clock on. -/
def Operation.nanos (op : Operation) : Nat := (op.time?.map Duration.nanos).getD 0

variable {s r : Service κ} {event : Event}

/-- A timer that was taken for a delayed transition of no use lapses. -/
theorem fades_of_popDue? {limit : Duration} {horizon : Nat} {t : Timer} {timers : TimerQueue}
    (hs : s.timers.Slot) (hpop : s.timers.popDue? limit horizon = some (t, timers))
    (htask : t.task.isDelayed = true) (why : Lapse) :
    s.Fades t ((s.taken t timers).log (.lapsed t why)) := by
  obtain ⟨hpending, _, _, hnow, hid⟩ := TimerQueue.popDue?_eq_some hpop
  have hdeferred : timers.deferred = s.timers.deferred := by
    rw [TimerQueue.deferred_of_popDue? hpop]
    refine if_neg fun hkey => ?_
    -- The queue knows of deferred events only.
    obtain ⟨u, hu, huk, hutask⟩ := (hs.known t.key).1 hkey
    have ht : t ∈ s.timers.pending := (TimerQueue.mem_of_popDue? hpop t).2 (.inl rfl)
    rw [TimerQueue.eq_of_key_eq hu ht huk, htask] at hutask
    cases hutask
  constructor
  case toUnaltered => exact ⟨rfl, rfl, rfl, rfl, rfl, rfl, hid⟩
  case clock =>
    show timers.now.nanos = _
    rw [hnow, Duration.nanos_later]
    rfl
  case pending => exact hpending
  case deferred => exact hdeferred
  case entries =>
    refine ⟨why, ?_⟩
    rw [journal_log, taken, journal_withTimers, List.append_assoc]
    rfl

/-- Nothing is heard of a timer that fires in vain. -/
theorem Fades.relay {t : Timer} (h : s.Fades t r) (channel : Nat) (board : Switchboard κ) :
    Switchboard.relay channel (r.since s) board = (board, []) := by
  obtain ⟨why, hr⟩ := h.entries
  rw [since_eq_of_append hr]
  exact Switchboard.relay_of_silent channel (by simp [Entry.notes]) board

/-- What is heard of an event that leads nowhere are the notes of the guard that refuses it. -/
theorem Ignores.relay (h : s.Ignores event r) (channel : Nat) (board : Switchboard κ) :
    ∃ notes : List (Note κ),
      Switchboard.relay channel (r.since s) board = (board, notes.map .note) := by
  obtain ⟨asked, hr, hasked⟩ := h.entries
  refine ⟨(.accepted event :: .cancelled s.timers.sends :: asked).flatMap Entry.notes, ?_⟩
  rw [since_eq_of_append hr]
  refine Switchboard.relay_of_unnotified channel (fun e he snapshot => ?_) board
  simp only [List.mem_cons] at he
  rcases he with rfl | rfl | he
  · simp
  · simp
  · obtain ⟨guard, rfl⟩ := hasked.eq_judged he
    simp

theorem Drifts.trans {u : Service κ} {m n : Nat} (h : s.Drifts m r) (k : r.Drifts n u) :
    s.Drifts (m + n) u where
  toUnaltered := h.toUnaltered.trans k.toUnaltered
  clock := by rw [k.clock, h.clock, Nat.add_assoc]
  pending := k.pending.trans h.pending
  deferred := k.deferred.trans h.deferred
  journal := k.journal.trans h.journal

theorem Drifts.cut {u : Service κ} {m n : Nat} (h : s.Drifts m r) (k : r.DriftCut n u) :
    s.DriftCut (m + n) u where
  toUnaltered := h.toUnaltered.trans k.toUnaltered
  beyond := by
    have hbeyond := k.beyond
    rwa [h.clock, Nat.add_assoc] at hbeyond
  pending := k.pending.trans h.pending
  deferred := k.deferred.trans h.deferred
  journal := k.journal.trans h.journal

theorem drifts_self (s : Service κ) : s.Drifts 0 s :=
  ⟨.refl s, rfl, rfl, rfl, rfl⟩

theorem drifts_setNow {time limit : Duration} (hlimit : s.now.add? time = some limit) :
    s.Drifts time.nanos (s.setNow limit) := by
  have hsum := Duration.add?_eq_some hlimit
  have hclock : (s.setNow limit).now.nanos = max s.now.nanos limit.nanos :=
    Duration.nanos_later s.now limit
  exact ⟨⟨rfl, rfl, rfl, rfl, rfl, rfl, rfl⟩, by omega, rfl, rfl, rfl⟩

/-- No longer time exists if a shorter one does not. -/
theorem ofNanos?_eq_none_of_le {m n : Nat} (h : Duration.ofNanos? m = none) (hle : m ≤ n) :
    Duration.ofNanos? n = none := by
  unfold Duration.ofNanos? at *
  rw [dif_neg]
  intro hlt
  rw [dif_pos (Nat.lt_of_le_of_lt hle hlt)] at h
  cases h

theorem DriftCut.mono {m n : Nat} (h : s.DriftCut m r) (hle : m ≤ n) : s.DriftCut n r where
  toUnaltered := h.toUnaltered
  beyond := ofNanos?_eq_none_of_le h.beyond (by omega)
  pending := h.pending
  deferred := h.deferred
  journal := h.journal

variable [BEq κ]

/-- An event that leads nowhere is considered, and that is all. -/
theorem ignores_send (hs : s.timers.Slot) (hrunning : s.status = .running)
    (hnone : s.machine.transition? (.snapshot s.current) event = none) :
    ∃ r, s.send event = .completed r ∧ s.Ignores event r := by
  let accepted := s.log (.accepted event)
  have hconsiders : accepted.Considers event (accepted.consider event) :=
    considers_consider event hs
  have hsend : s.send event = .completed (accepted.consider event) := by
    rw [send, if_pos (isRunning_iff.2 hrunning), deliver_eq]
    rw [show accepted.machine.transition? (.snapshot accepted.current) event = none from hnone]
  refine ⟨_, hsend, ?_⟩
  obtain ⟨asked, hjournal, hasked⟩ := hconsiders.entries
  constructor
  case toUnaltered =>
    refine ⟨hconsiders.machine, hconsiders.options, hconsiders.channel, hconsiders.status,
      hconsiders.current, hconsiders.history, ?_⟩
    rw [hconsiders.timers_eq]
    exact s.timers.nextId_cancelDeferred
  case now => exact hconsiders.timers.now
  case pending =>
    rw [hconsiders.timers_eq]
    exact hs.pending_cancelDeferred
  case deferred => rw [hconsiders.timers_eq, TimerQueue.deferred_cancelDeferred]
  case entries =>
    refine ⟨asked, ?_, hasked⟩
    rw [hjournal, journal_log, List.append_assoc]
    rfl

/-- A delayed transition that leads to no other declared state is of no use. -/
theorem fades_fire {limit : Duration} {horizon : Nat} {t : Timer} {timers : TimerQueue}
    {state : String} {index : Nat} (hs : s.timers.Slot)
    (hpop : s.timers.popDue? limit horizon = some (t, timers)) (htask : t.task = .delayed state index)
    (hvain : ∀ d, (s.machine.afterOf state)[index]? = some d →
      d.target = state ∨ s.machine.declares d.target = false) :
    ∃ r, (s.taken t timers).fire t = .completed r ∧ s.Fades t r := by
  have hdelayed : t.task.isDelayed = true := by
    rw [htask]
    rfl
  have hupshot := upshot_fire t (s.taken t timers)
  generalize (s.taken t timers).fire t = o at hupshot ⊢
  cases hupshot with
  | delivered hevent => simp [hevent] at htask
  | unheard hevent => simp [hevent] at htask
  | @lapsed _ _ why => exact ⟨_, rfl, fades_of_popDue? hs hpop hdelayed why⟩
  | left hleft hd hother hdecl =>
    obtain ⟨rfl, rfl⟩ := Task.delayed.inj (htask.symm.trans hleft)
    rcases hvain _ hd with hown | hnot
    · exact absurd hown hother
    · rw [show s.machine.declares _ = true from hdecl] at hnot
      cases hnot

/-- While nothing waits a timed run only moves the clock. -/
theorem runFor_of_pending_eq_nil {time limit : Duration} (h : s.timers.pending = [])
    (hlimit : s.now.add? time = some limit) : s.runFor time = .completed (s.setNow limit) := by
  have hnone : s.timers.nextDeadline = none := by simp [TimerQueue.nextDeadline, h]
  have hsleeps := sleeps_sleep limit none s (by simp)
  have hasleep : s.sleep limit none (by simp) = .completed s := by
    generalize s.sleep limit none (by simp) = o at hsleeps ⊢
    cases hsleeps with
    | idle => rfl
    | late hnext => simp [hnone] at hnext
    | cut hnext => simp [hnone] at hnext
    | turn hnext => simp [hnone] at hnext
  have hle : s.now ≤ limit := by
    have := Duration.add?_eq_some hlimit
    exact Duration.le_def.2 (this ▸ Nat.le_add_right _ _)
  have hrest : s.now.add? (limit.minus s.now) = some limit := by
    rw [add?_minus, Duration.later, if_pos hle]
  unfold runFor
  simp only [hlimit]
  rw [hasleep, Outcome.completed_andThen, advance_of_pending_eq_nil h hrest]

/-- A stopped service only has a clock. -/
theorem apply_of_stopped {op : Operation} (hop : op ≠ .start) (hs : s.status = .stopped)
    (hpending : s.timers.pending = []) :
    s.apply op =
      match op.time? with
      | none => .completed s
      | some time =>
        match s.now.add? time with
        | none => .overflowed s
        | some limit => .completed (s.setNow limit) := by
  have hnot : ¬ s.isRunning = true := not_isRunning_iff.2 hs
  cases op with
  | start => exact absurd rfl hop
  | stop => exact congrArg Outcome.completed (if_neg hnot)
  | send event => exact if_neg hnot
  | sendAfter event delay => exact if_neg hnot
  | advance time =>
    show s.advance time = _
    dsimp only [Operation.time?]
    cases hlimit : s.now.add? time with
    | none =>
      unfold advance
      simp only [hlimit]
    | some limit => exact advance_of_pending_eq_nil hpending hlimit
  | runFor time =>
    show s.runFor time = _
    dsimp only [Operation.time?]
    cases hlimit : s.now.add? time with
    | none =>
      unfold runFor
      simp only [hlimit]
    | some limit => exact runFor_of_pending_eq_nil hpending hlimit

/-- What one operation does to a stopped service. -/
theorem drifts_apply {op : Operation} (hop : op ≠ .start) (hs : s.status = .stopped)
    (hpending : s.timers.pending = []) :
    (s.apply op).Ends (s.Drifts op.nanos) (s.DriftCut op.nanos) := by
  rw [apply_of_stopped hop hs hpending]
  cases htime : op.time? with
  | none =>
    have hzero : op.nanos = 0 := by simp [Operation.nanos, htime]
    rw [hzero]
    exact s.drifts_self
  | some time =>
    have htotal : op.nanos = time.nanos := by simp [Operation.nanos, htime]
    rw [htotal]
    dsimp only
    cases hlimit : s.now.add? time with
    | none => exact ⟨.refl s, hlimit, rfl, rfl, rfl⟩
    | some limit => exact drifts_setNow hlimit

/-- Nothing is heard of an operation that leaves no trace. -/
theorem conduct_of_journal_eq {op : Operation} {o : Outcome κ} (h : s.apply op = o)
    (hjournal : o.service.journal = s.journal) (board : Switchboard κ) :
    s.conduct op board = (o, board, []) := by
  have hnothing : o.service.journal = s.journal ++ [] := by rw [hjournal, List.append_nil]
  rw [conduct, h, since_eq_of_append hnothing]
  rfl

/-- What operations do to a stopped service in a session, between which listeners come and go. -/
theorem drifts_attend {calls : List (Call κ)}
    (hcalls : .start ∉ calls.filterMap Call.operation?) (hs : s.status = .stopped)
    (hpending : s.timers.pending = []) (board : Switchboard κ) :
    (attend calls s board).1.Ends
      (s.Drifts ((calls.filterMap Call.operation?).map Operation.nanos).sum)
      (s.DriftCut ((calls.filterMap Call.operation?).map Operation.nanos).sum) ∧
    (attend calls s board).2.2 = [] := by
  induction calls generalizing s board with
  | nil => exact ⟨s.drifts_self, rfl⟩
  | cons call rest ih =>
    cases call with
    | subscribe name l => exact ih hcalls hs hpending _
    | unsubscribe h => exact ih hcalls hs hpending _
    | operate op =>
      have hops : (.operate op :: rest).filterMap Call.operation? =
          op :: rest.filterMap (Call.operation? (κ := κ)) := rfl
      rw [hops] at hcalls ⊢
      rw [List.mem_cons, not_or] at hcalls
      rw [List.map_cons, List.sum_cons]
      have hends := drifts_apply (Ne.symm hcalls.1) hs hpending
      cases happly : s.apply op with
      | overflowed r =>
        rw [happly] at hends
        rw [attend_operate_overflowed (conduct_of_journal_eq happly hends.journal board)]
        exact ⟨hends.mono (Nat.le_add_right _ _), rfl⟩
      | completed r =>
        rw [happly] at hends
        rw [attend_operate_completed (conduct_of_journal_eq happly hends.journal board)]
        obtain ⟨hrest, hlines⟩ :=
          ih hcalls.2 (hends.status.trans hs) (hends.pending.trans hpending) board
        exact ⟨hrest.imp (fun _ h => hends.trans h) (fun _ h => hends.cut h), hlines⟩

/-- What is ignored leaves the service intact. At any moment of any session: an event of the caller
that leads nowhere from the current state clears the deferred event, and at most its guard is asked; a
delayed transition of a state that comes to its turn, and leads to no other declared state, is gone, and
the clock is not before its deadline; and to start a running service does nothing. After a session that
leaves the service stopped nothing waits, and whatever is done to it but a start, with listeners coming
and going, moves its clock by the times of the advances and the timed runs, unless there is no such
time. In no case is anything else of the service another one than before: neither the snapshot nor the
history, nor the timers that waited; and no action, no condition and no listener is called. -/
theorem ignored_leave_intact (machine : Machine κ) (options : Options κ) (channel : Nat)
    {s : Service κ} (hs : Steps (create machine options channel) s) :
    (∀ event, s.status = .running → s.machine.transition? (.snapshot s.current) event = none →
      ∃ r, s.send event = .completed r ∧ s.Ignores event r ∧
        ∀ board, ∃ notes : List (Note κ),
          s.conduct (.send event) board = (.completed r, board, notes.map .note)) ∧
    (∀ limit horizon t timers state index,
      s.timers.popDue? limit horizon = some (t, timers) → t.task = .delayed state index →
      (∀ d, (s.machine.afterOf state)[index]? = some d →
        d.target = state ∨ s.machine.declares d.target = false) →
      ∃ r, (s.taken t timers).fire t = .completed r ∧ s.Fades t r ∧
        ∀ board, Switchboard.relay s.channel (r.since s) board = (board, [])) ∧
    (s.status = .running → s.start = .completed s ∧
      ∀ board, s.conduct .start board = (.completed s, board, [])) ∧
    (s.status = .stopped →
      ∀ past before, (attend past (create machine options channel) before).1 = .completed s →
        s.timers.pending = [] ∧ s.timers.deferred = none ∧
        ∀ calls board, .start ∉ calls.filterMap Call.operation? →
          (attend calls s board).1.Ends
            (s.Drifts ((calls.filterMap Call.operation?).map Operation.nanos).sum)
            (s.DriftCut ((calls.filterMap Call.operation?).map Operation.nanos).sum) ∧
          (attend calls s board).2.2 = []) := by
  have hslot : s.timers.Slot := Steps.slot hs TimerQueue.slot_empty
  refine ⟨?_, ?_, ?_, ?_⟩
  · intro event hrunning hnone
    obtain ⟨r, hr, hignores⟩ := ignores_send hslot hrunning hnone
    refine ⟨r, hr, hignores, fun board => ?_⟩
    obtain ⟨notes, hnotes⟩ := hignores.relay s.channel board
    refine ⟨notes, ?_⟩
    rw [conduct, show s.apply (.send event) = _ from hr, Outcome.service_completed, hnotes]
  · intro limit horizon t timers state index hpop htask hvain
    obtain ⟨r, hr, hfades⟩ := fades_fire hslot hpop htask hvain
    exact ⟨r, hr, hfades, hfades.relay s.channel⟩
  · intro hrunning
    have hstart : s.start = .completed s := if_pos (isRunning_iff.2 hrunning)
    exact ⟨hstart, conduct_of_journal_eq hstart rfl⟩
  · intro hstopped past before hpast
    obtain ⟨hpending, hdeferred⟩ := (inStep_of_attend hpast).stopped hstopped
    exact ⟨hpending, hdeferred, fun calls board hcalls => drifts_attend hcalls hstopped hpending board⟩

/-- At the junction a noise is ignored, the first delayed transition comes to nothing, and starting again
does nothing; and where nobody has started, eight nanoseconds pass. -/
theorem ignored_leave_intact_junction :
    (∃ r, atJunction.send ⟨"noise", .null⟩ = .completed r ∧
      atJunction.Ignores ⟨"noise", .null⟩ r) ∧
    (∃ t timers r, atJunction.timers.popDue? ⟨4, by decide⟩ 3 = some (t, timers) ∧
      (atJunction.taken t timers).fire t = .completed r ∧ atJunction.Fades t r) ∧
    atJunction.start = .completed atJunction ∧
    ∃ r, (attend [.operate (.advance ⟨4, by decide⟩), .operate (.send ⟨"noise", .null⟩),
        .operate (.runFor ⟨4, by decide⟩)] (create junction {} 0) {}).1 = .completed r ∧
      (create junction {} 0).Drifts 8 r := by
  obtain ⟨hsend, hfire, hstart, _⟩ :=
    ignored_leave_intact junction {} 0 (steps_of_attend attend_junction)
  obtain ⟨_, _, _, hstopped⟩ :=
    ignored_leave_intact junction {} 0 (s := create junction {} 0) .refl
  refine ⟨?_, ?_, (hstart rfl).1, ?_⟩
  · obtain ⟨r, hr, hignores, _⟩ := hsend ⟨"noise", .null⟩ rfl rfl
    exact ⟨r, hr, hignores⟩
  · obtain ⟨t, timers, hpop, htask⟩ :
        ∃ t timers, atJunction.timers.popDue? ⟨4, by decide⟩ 3 = some (t, timers) ∧
          t.task = .delayed "wait" 0 := ⟨_, _, rfl, rfl⟩
    obtain ⟨r, hr, hfades, _⟩ := hfire _ _ t timers "wait" 0 hpop htask fun d hd => by
      obtain rfl := Option.some.inj hd
      exact .inl rfl
    exact ⟨t, timers, r, hpop, hr, hfades⟩
  · obtain ⟨_, _, hdrifts⟩ := hstopped rfl [] {} rfl
    obtain ⟨hends, _⟩ := hdrifts [.operate (.advance ⟨4, by decide⟩),
      .operate (.send ⟨"noise", .null⟩), .operate (.runFor ⟨4, by decide⟩)] {}
      (by simp [Call.operation?])
    generalize (attend _ (create junction {} 0) {}).1 = o at hends ⊢
    cases o with
    | completed r => exact ⟨r, rfl, hends⟩
    | overflowed r => exact absurd hends.beyond (by decide)

end Service
end TimedMachine

import TimedMachine.Proofs.Deferral
import TimedMachine.Proofs.Intact
import TimedMachine.Proofs.Timekeeping

/-!
Services at rest. Whatever was done with a service, even where a sum of times did not exist, something
waits only while it runs (`Reached.poised`). So a service that is stopped lets nothing wait: it is the
same service as before, in the same state, at the same time and with the same history, and no listener
is told (`Poised.putAway_stop`).
-/
namespace TimedMachine

variable {κ : Type}

namespace Service

/-- The service is put away: it is stopped and nothing waits, but otherwise it is as it was, and nothing
is heard of it. -/
structure PutAway (s r : Service κ) : Prop where
  stopped : r.status = .stopped
  pending : r.timers.pending = []
  deferred : r.timers.deferred = none
  machine : r.machine = s.machine
  options : r.options = s.options
  channel : r.channel = s.channel
  current : r.current = s.current
  now : r.now = s.now
  history : r.history = s.history
  silent : ∀ b : Switchboard κ, b.relay s.channel (r.since s) = (b, [])

/-- Something waits only while the service runs, and the queue knows which event is deferred. -/
structure Poised (s : Service κ) : Prop where
  awake : s.timers.pending = [] ∨ s.status = .running
  slot : s.timers.Slot

theorem poised_create (machine : Machine κ) (options : Options κ) (channel : Nat) :
    (create machine options channel).Poised := ⟨.inl rfl, TimerQueue.slot_empty⟩

theorem Poised.putAway_stop {s : Service κ} (h : s.Poised) : s.PutAway s.stop := by
  unfold stop
  split
  · have hjournal : ({ s with status := .stopped, timers := s.timers.cancelAll }.log
        .stopped).journal = s.journal ++ [.stopped] := journal_log _ _
    refine ⟨rfl, ?_, rfl, rfl, rfl, rfl, rfl, rfl, rfl, fun b => ?_⟩
    · simp [log, TimerQueue.cancelAll, TimerQueue.keep]
    · rw [since_eq_of_append hjournal]
      exact Switchboard.relay_of_silent s.channel (by simp [Entry.notes]) b
  · rename_i hs
    have hstatus : s.status = .stopped := not_isRunning_iff.1 hs
    have hpending : s.timers.pending = [] := h.awake.resolve_right (by simp [hstatus])
    refine ⟨hstatus, hpending, ?_, rfl, rfl, rfl, rfl, rfl, rfl, fun b => ?_⟩
    · cases hdeferred : s.timers.deferred with
      | none => rfl
      | some k =>
        obtain ⟨t, ht, _⟩ := (h.slot.known k).1 hdeferred
        simp [hpending] at ht
    · rw [since_eq_of_append (List.append_nil s.journal).symm]
      rfl

theorem status_andThen {s : Service κ} {o : Outcome κ} {next : Service κ → Outcome κ}
    (h : o.service.status = s.status) (k : ∀ r, (next r).service.status = r.status) :
    (o.andThen next).service.status = s.status :=
  Outcome.service_andThen (R := fun s r => r.status = s.status) (fun h k => k.trans h) h
    fun r _ => k r

variable [BEq κ]

theorem status_drain (limit : Duration) (horizon : Nat) (s : Service κ)
    (h : horizon ≤ s.timers.nextId) : (drain limit horizon s h).service.status = s.status := by
  have hfired (s : Service κ) (t : Timer) (timers : TimerQueue) :
      ((s.taken t timers).fire t).service.status = s.status := (follows_fire t _).status
  fun_induction drain limit horizon s h with
  | case1 => rfl
  | case2 s _ t timers _ r hfire =>
    have hr := hfired s t timers
    rwa [hfire] at hr
  | case3 s _ t timers _ r hfire _ _ _ ih =>
    have hr := hfired s t timers
    rw [hfire] at hr
    exact ih.trans hr

theorem status_advance (time : Duration) (s : Service κ) :
    (s.advance time).service.status = s.status := by
  unfold advance
  split
  · rfl
  · exact status_andThen (s.status_drain _ _ _) fun r => rfl

theorem Sleeps.status {limit : Duration} {last : Option Duration} {s : Service κ} {o : Outcome κ}
    (h : Sleeps limit last s o) : o.service.status = s.status := by
  have hadvance (s : Service κ) (deadline time : Duration) :
      ((s.log (.woke deadline)).advance time).service.status = s.status :=
    status_advance time (s.log (.woke deadline))
  induction h with
  | idle => rfl
  | late => rfl
  | held => rfl
  | @cut _ s r deadline _ _ _ hrun =>
    have hr := hadvance s deadline (deadline.minus s.now)
    rwa [hrun] at hr
  | @turn _ s r deadline _ _ _ _ hrun _ ih =>
    have hr := hadvance s deadline (deadline.minus s.now)
    rw [hrun] at hr
    exact ih.trans hr

theorem status_runFor (time : Duration) (s : Service κ) :
    (s.runFor time).service.status = s.status := by
  cases hlimit : s.now.add? time with
  | none => simp [runFor, hlimit]
  | some limit =>
    obtain ⟨o, hsleeps, hrun⟩ := exists_sleeps_runFor hlimit
    rw [hrun]
    exact status_andThen hsleeps.status fun r => r.status_advance _

/-- No operation makes something wait for a service that does not run. -/
theorem Poised.apply {s : Service κ} (h : s.Poised) (op : Operation) :
    (s.apply op).service.Poised := by
  refine ⟨?_, Steps.slot (s.steps_apply op) h.slot⟩
  cases htime : op.time? with
  | none => exact awake_apply htime h.awake
  | some time =>
    have hstatus : (s.apply op).service.status = s.status := by
      cases op with
      | advance time => exact s.status_advance time
      | runFor time => exact s.status_runFor time
      | _ => cases htime
    cases hs : s.status with
    | running => exact .inr (hstatus.trans hs)
    | stopped =>
      -- Nothing waits, so the clock is all that moves.
      have hpending : s.timers.pending = [] := h.awake.resolve_right (by simp [hs])
      have hop : op ≠ .start := by
        rintro rfl
        cases htime
      have hdrifts := drifts_apply hop hs hpending
      have hkept := (hdrifts.imp (fun _ h => h.pending) (fun _ h => h.pending)).service
      exact .inl (hkept.trans hpending)

/-- The service after operations, whether or not each of them completed. -/
def afterAll (ops : List Operation) (s : Service κ) : Service κ :=
  ops.foldl (fun s op => (s.apply op).service) s

theorem afterAll_append (ops more : List Operation) (s : Service κ) :
    s.afterAll (ops ++ more) = (s.afterAll ops).afterAll more := List.foldl_append

theorem Poised.afterAll {s : Service κ} (h : s.Poised) (ops : List Operation) :
    (s.afterAll ops).Poised := by
  induction ops generalizing s with
  | nil => exact h
  | cons op rest ih => exact ih (h.apply op)

/-- A service that there can be: it was created some time, and operations were applied to it since. -/
def Reached (s : Service κ) : Prop :=
  ∃ machine options channel ops, s = (create machine options channel).afterAll ops

theorem reached_create (machine : Machine κ) (options : Options κ) (channel : Nat) :
    (create machine options channel).Reached := ⟨machine, options, channel, [], rfl⟩

theorem Reached.afterAll {s : Service κ} (h : s.Reached) (ops : List Operation) :
    (s.afterAll ops).Reached := by
  obtain ⟨machine, options, channel, earlier, rfl⟩ := h
  exact ⟨machine, options, channel, earlier ++ ops, (afterAll_append _ _ _).symm⟩

theorem Reached.poised {s : Service κ} (h : s.Reached) : s.Poised := by
  obtain ⟨machine, options, channel, ops, rfl⟩ := h
  exact (poised_create machine options channel).afterAll ops

end Service
end TimedMachine

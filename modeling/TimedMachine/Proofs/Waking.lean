import TimedMachine.Proofs.Level
import TimedMachine.Proofs.Window

/-!
A timed run against a single advance. Where no timer is ever held back, a timed run that sleeps until
one deadline after another does what an advance over the same time does: it leaves the same service,
but for the entries in its journal that tell when it slept (`sameButWaking_runFor`). Each drain of the
run is the first part of the advance over what is left of the time, and the last one the rest of it.
-/
namespace TimedMachine

variable {κ : Type}

/-- The entry tells of the sleeping alone. -/
def Entry.isWaking : Entry κ → Bool
  | .woke _ | .drained _ => true
  | _ => false

namespace Switchboard

/-- Sleeping is neither heard nor seen. -/
theorem relay_filter_isWaking (channel : Nat) (es : List (Entry κ)) (b : Switchboard κ) :
    relay channel (es.filter (fun e => !e.isWaking)) b = relay channel es b := by
  induction es generalizing b with
  | nil => rfl
  | cons e rest ih =>
    cases hwaking : e.isWaking with
    | true =>
      rw [List.filter_cons_of_neg (by simp [hwaking]), ih]
      cases e <;> simp [Entry.isWaking, relay, Entry.notes] at hwaking ⊢
    | false =>
      rw [List.filter_cons_of_pos (by simp [hwaking])]
      cases e <;> simp only [relay, ih]

end Switchboard

namespace Service

/-- What a service has done, without its sleeping. -/
def doings (s : Service κ) : List (Entry κ) := s.journal.filter (fun e => !e.isWaking)

/-- Services that differ at most in what their journals tell of sleeping. -/
structure SameButWaking (s s' : Service κ) : Prop extends Level s s' where
  options : s'.options = s.options
  channel : s'.channel = s.channel
  history : s'.history = s.history
  doings : s'.doings = s.doings

theorem SameButWaking.refl (s : Service κ) : SameButWaking s s :=
  ⟨⟨rfl, rfl, rfl, rfl, rfl⟩, rfl, rfl, rfl, rfl⟩

variable {s s' : Service κ}

theorem SameButWaking.log (h : SameButWaking s s') {e : Entry κ} (he : e.isWaking = true) :
    SameButWaking s (s'.log e) where
  machine := h.machine
  actions := h.actions
  status := h.status
  current := h.current
  timers := h.timers
  options := h.options
  channel := h.channel
  history := h.history
  doings := by
    rw [← h.doings]
    simp [Service.doings, he]

/-- What the same operation has done to both is the same. -/
theorem SameButWaking.both (h : SameButWaking s s') {o o' : Outcome κ}
    (hboth : Outcome.Both (LevelSince s s') o o') (hsteps : Steps s o.service)
    (hsteps' : Steps s' o'.service) : Outcome.Both SameButWaking o o' := by
  have hsame {r r' : Service κ} (hr : Steps s r) (hr' : Steps s' r')
      (hlevel : LevelSince s s' r r') : SameButWaking r r' := by
    obtain ⟨new, hnew, hnew'⟩ := hlevel.written
    obtain ⟨es, hes, hhistory⟩ := hr.keeps
    obtain ⟨es', hes', hhistory'⟩ := hr'.keeps
    obtain rfl := List.append_cancel_left (hes.symm.trans hnew)
    obtain rfl := List.append_cancel_left (hes'.symm.trans hnew')
    refine { hlevel.toLevel with options := ?_, channel := ?_, history := ?_, doings := ?_ }
    · rw [(Steps.continues hr).options, (Steps.continues hr').options, h.options]
    · rw [(Steps.continues hr).channel, (Steps.continues hr').channel, h.channel]
    · rw [hhistory, hhistory', h.history]
    · have hdoings := h.doings
      simp only [Service.doings, hnew, hnew', List.filter_append] at hdoings ⊢
      rw [hdoings]
  cases hboth with
  | completed hlevel => exact .completed (hsame hsteps hsteps' hlevel)
  | overflowed hlevel => exact .overflowed (hsame hsteps hsteps' hlevel)

/-- Services that are the same but for waking are heard and seen alike since a common moment. -/
theorem SameButWaking.relay {r r' : Service κ} (h : SameButWaking r r') (hr : s.Continues r)
    (hr' : s.Continues r') (board : Switchboard κ) :
    Switchboard.relay s.channel (r'.since s) board =
      Switchboard.relay s.channel (r.since s) board := by
  obtain ⟨new, hnew, _⟩ := hr.journal
  obtain ⟨new', hnew', _⟩ := hr'.journal
  have hdoings := h.doings
  rw [Service.doings, Service.doings, hnew, hnew', List.filter_append, List.filter_append]
    at hdoings
  rw [since_eq_of_append hnew, since_eq_of_append hnew', ← Switchboard.relay_filter_isWaking,
    List.append_cancel_left hdoings, Switchboard.relay_filter_isWaking]

variable [BEq κ] {limit : Duration}

theorem SameButWaking.advance (h : SameButWaking s s') (time : Duration) :
    Outcome.Both SameButWaking (s.advance time) (s'.advance time) :=
  h.both (both_apply h.toLevel (.advance time)) (s.steps_apply (.advance time))
    (s'.steps_apply (.advance time))

/-- An advance up to a deadline leaves the clock there, unless it is past that already. -/
theorem now_of_advance_minus {r : Service κ} {deadline : Duration}
    (h : s.advance (deadline.minus s.now) = .completed r) : r.now = s.now.later deadline := by
  obtain ⟨stop, _, _, hstop, _, _, _, _, hr⟩ := drains_of_advance h
  rw [add?_minus, Option.some.injEq] at hstop
  rw [hr, hstop]

/-- The advance over what is left of the time is one up to the next deadline and one over the rest. -/
theorem advance_minus (hm : s.machine.Unhurried s.options) {deadline : Duration}
    (hnow : s.now ≤ limit) (hdeadline : deadline ≤ limit) :
    s.advance (limit.minus s.now) =
      (s.advance (deadline.minus s.now)).andThen fun r => r.advance (limit.minus r.now) := by
  rw [Duration.le_def] at hnow hdeadline
  have hlater : (s.now.later deadline).nanos = max s.now.nanos deadline.nanos :=
    Duration.nanos_later _ _
  have hparts : (deadline.minus s.now).add? (limit.minus (s.now.later deadline)) =
      some (limit.minus s.now) := by
    refine Duration.add?_of_nanos ?_
    simp only [Duration.minus, hlater]
    omega
  have hwhole : s.now.add? (limit.minus s.now) = some limit := by
    refine Duration.add?_of_nanos ?_
    simp only [Duration.minus]
    omega
  rw [← advance_andThen_advance hm hparts hwhole]
  cases ho : s.advance (deadline.minus s.now) with
  | overflowed r => rfl
  | completed r =>
    rw [Outcome.completed_andThen, Outcome.completed_andThen, now_of_advance_minus ho]

/-- A timed run with its last drain is an advance over what is left of its time. -/
theorem Sleeps.sameButWaking {last : Option Duration} {s' : Service κ} {o : Outcome κ}
    (hsleeps : Sleeps limit last s' o) :
    ∀ {s : Service κ}, SameButWaking s s' → s.machine.Unhurried s.options → s.now ≤ limit →
      Outcome.Both SameButWaking (s.advance (limit.minus s.now))
        (o.andThen fun r => r.advance (limit.minus r.now)) := by
  have hover {s s' : Service κ} (h : SameButWaking s s') :
      Outcome.Both SameButWaking (s.advance (limit.minus s.now))
        (s'.advance (limit.minus s'.now)) := by
    have hnow : s'.now = s.now := congrArg TimerQueue.now h.timers
    rw [hnow]
    exact h.advance _
  have hturn {s s' : Service κ} (deadline : Duration) (h : SameButWaking s s') :
      Outcome.Both SameButWaking (s.advance (deadline.minus s.now))
        ((s'.log (.woke deadline)).advance (deadline.minus s'.now)) := by
    have hnow : s'.now = s.now := congrArg TimerQueue.now h.timers
    rw [hnow]
    exact (h.log (e := .woke deadline) rfl).advance _
  induction hsleeps with
  | idle => exact fun h _ _ => hover h
  | late => exact fun h _ _ => hover h
  | held => exact fun h _ _ => hover h
  | @cut _ s' r' deadline _ hlimit _ hrun =>
    intro s h hm hnow
    have hboth := hturn deadline h
    rw [hrun] at hboth
    rw [advance_minus hm hnow hlimit]
    exact hboth.andThen fun _ _ _ ho => nomatch ho
  | @turn _ s' r' deadline o _ hlimit _ hrun _ ih =>
    intro s h hm hnow
    have hboth := hturn deadline h
    have hsteps := Steps.continues (s.steps_apply (.advance (deadline.minus s.now)))
    rw [hrun] at hboth
    rw [advance_minus hm hnow hlimit, ← Outcome.completed_andThen r' fun _ => o.andThen _]
    refine hboth.andThen fun r u ho hu hsame => ?_
    obtain rfl := Outcome.completed.inj hu
    rw [show s.apply (.advance _) = _ from ho, Outcome.service_completed] at hsteps
    refine ih (hsame.log rfl) ?_ ?_
    · rw [hsteps.machine, hsteps.options]
      exact hm
    · rw [now_of_advance_minus ho, Duration.le_def, Duration.nanos_later]
      exact Nat.max_le.2 ⟨hnow, hlimit⟩

/-- For a service whose machine is unhurried, a timed run and an advance over the same time end in the
same way, and leave the same snapshot, status, clock, timers, history and journal of calls and
notifications, but for the entries on the sleeping; and the same lines are heard and seen. -/
theorem sameButWaking_runFor {s : Service κ} (hm : s.machine.Unhurried s.options)
    (time : Duration) :
    Outcome.Both SameButWaking (s.advance time) (s.runFor time) ∧
      ∀ board : Switchboard κ,
        (attend [.operate (.runFor time)] s board).2 =
          (attend [.operate (.advance time)] s board).2 := by
  have hboth : Outcome.Both SameButWaking (s.advance time) (s.runFor time) := by
    unfold runFor
    cases hlimit : s.now.add? time with
    | none =>
      rw [Service.advance, hlimit]
      exact .overflowed (.refl s)
    | some limit =>
      have hsum := Duration.add?_eq_some hlimit
      have htime : time = limit.minus s.now := Duration.ext (by simp only [Duration.minus]; omega)
      have hnow : s.now ≤ limit := by
        rw [Duration.le_def]
        omega
      rw [htime]
      exact (sleeps_sleep limit none s (by simp)).sameButWaking (.refl s) hm hnow
  refine ⟨hboth, fun board => ?_⟩
  rw [attend_singleton, attend_singleton]
  exact hboth.service.relay (Steps.continues (s.steps_apply (.advance time)))
    (Steps.continues (s.steps_apply (.runFor time))) board

/-- The crossing over nine seconds from its start: a timed run wakes at every change of the light and
every ring of the bell, and nothing else tells it from an advance. -/
theorem sameButWaking_runFor_crossing :
    crossing.Unhurried crossingOptions ∧
    Outcome.Both SameButWaking
      ((create crossing crossingOptions 0).start.service.advance ⟨9000000000, by decide⟩)
      ((create crossing crossingOptions 0).start.service.runFor ⟨9000000000, by decide⟩) ∧
    ∀ board : Switchboard Nat,
      (attend [.operate (.runFor ⟨9000000000, by decide⟩)]
          (create crossing crossingOptions 0).start.service board).2 =
        (attend [.operate (.advance ⟨9000000000, by decide⟩)]
          (create crossing crossingOptions 0).start.service board).2 := by
  have hsame : (create crossing crossingOptions 0).Continues
      (create crossing crossingOptions 0).start.service :=
    Steps.continues ((create crossing crossingOptions 0).steps_apply .start)
  refine ⟨unhurried_crossing, sameButWaking_runFor ?_ _⟩
  rw [hsame.machine, hsame.options]
  exact unhurried_crossing

end Service
end TimedMachine

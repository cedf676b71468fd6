import TimedMachine.Proofs.Act
import TimedMachine.Proofs.Calm
import TimedMachine.Proofs.Draining
import TimedMachine.Session

/-!
Time in slices. For an unhurried service it makes no difference whether the clock is moved on in one
go or with a stop on the way (`advance_advance`): the loop through a window goes through the first
part of it and then through the rest, and neither the clock reading at the stop nor the later horizon
of the second loop can be seen.
-/
namespace TimedMachine.Service

variable {κ : Type}

/-- What was written since an earlier moment was written before a stop or after it. -/
theorem since_trans {s r u : Service κ} (h : s.Continues r) (k : r.Continues u) :
    u.since s = r.since s ++ u.since r := by
  obtain ⟨new, hr, _⟩ := h.journal
  obtain ⟨more, hu, _⟩ := k.journal
  rw [since_eq_of_append hr, since_eq_of_append hu]
  exact since_eq_of_append (by rw [hu, hr, List.append_assoc])

variable [BEq κ] {limit wide : Duration} {horizon : Nat}

/-- The loop through a window is the beginning of the loop through a wider one. -/
theorem Drains.append {s : Service κ} {ts us : List Timer} {o p : Outcome κ}
    (h : Drains limit horizon s ts o) (hle : limit ≤ wide)
    (k : o.Ends (fun r => Drains wide horizon r us p) (fun r => us = [] ∧ p = .overflowed r)) :
    Drains wide horizon s (ts ++ us) p := by
  induction h with
  | idle => exact k
  | cut hpop hfire =>
    obtain ⟨rfl, rfl⟩ := k
    exact .cut (TimerQueue.popDue?_of_le hle hpop) hfire
  | turn hpop hfire _ ih => exact .turn (TimerQueue.popDue?_of_le hle hpop) hfire (ih k)

theorem Turn.calm {s r : Service κ} (h : Turn limit horizon s r)
    (hm : s.machine.Unhurried s.options) (hs : s.timers.Calm horizon) :
    r.machine.Unhurried r.options ∧ r.timers.Calm horizon := by
  obtain ⟨t, timers, hpop, hfire⟩ := h
  have htaken : (s.taken t timers).timers.Calm horizon := hs.popDue? hpop
  rcases moves_fire t (s.taken t timers) with ⟨_, _, why, _, _, hlapsed⟩ | hmoves
  · obtain rfl := Outcome.completed.inj (hlapsed.symm.trans hfire)
    exact ⟨hm, htaken⟩
  · rw [hfire, Outcome.service_completed] at hmoves
    have hf := Moves.follows hmoves
    refine ⟨?_, Moves.calm hmoves hm htaken⟩
    rw [hf.machine, hf.options]
    exact hm

theorem Turn.now_le {s r : Service κ} (h : Turn limit horizon s r) (hs : s.now ≤ limit) :
    r.now ≤ limit := by
  obtain ⟨t, timers, hpop, hfire⟩ := h
  obtain ⟨_, hdue, _, hnow, _⟩ := TimerQueue.popDue?_eq_some hpop
  have hf := follows_fire t (s.taken t timers)
  rw [hfire] at hf
  have hclock : r.timers.now = timers.now := hf.timers.now
  show r.timers.now ≤ limit
  rw [hclock, hnow, Duration.le_def, Duration.nanos_later]
  exact Nat.max_le.2 ⟨hs, hdue⟩

/-- For a calm and unhurried service the horizon of a loop may be any later one. -/
theorem Drains.of_later {s : Service κ} {ts : List Timer} {o : Outcome κ} {later : Nat}
    (h : Drains limit later s ts o) (hle : horizon ≤ later) (hm : s.machine.Unhurried s.options)
    (hs : s.timers.Calm horizon) : Drains limit horizon s ts o := by
  induction h with
  | idle hpop => exact .idle (hs.popDue?_eq hle ▸ hpop)
  | cut hpop hfire => exact .cut (hs.popDue?_eq hle ▸ hpop) hfire
  | turn hpop hfire _ ih =>
    have hpop := hs.popDue?_eq hle ▸ hpop
    obtain ⟨hm, hs⟩ := Turn.calm ⟨_, _, hpop, hfire⟩ hm hs
    exact .turn hpop hfire (ih hm hs)

/-- What holds of a calm and unhurried service after a loop that completes. -/
structure Idle (limit : Duration) (horizon : Nat) (s : Service κ) : Prop where
  unhurried : s.machine.Unhurried s.options
  calm : s.timers.Calm horizon
  past : horizon ≤ s.timers.nextId
  now : s.now ≤ limit
  late : ∀ t ∈ s.timers.pending, limit < t.key.deadline

theorem Drains.ends {s : Service κ} {ts : List Timer} {o : Outcome κ}
    (h : Drains limit horizon s ts o) (hm : s.machine.Unhurried s.options)
    (hs : s.timers.Calm horizon) (hh : horizon ≤ s.timers.nextId) (hnow : s.now ≤ limit) :
    o.Ends (Idle limit horizon) (fun _ => True) := by
  induction h with
  | idle hpop => exact ⟨hm, hs, hh, hnow, hs.lt_of_popDue?_eq_none hpop⟩
  | cut => trivial
  | turn hpop hfire _ ih =>
    have hturn : Turn limit horizon _ _ := ⟨_, _, hpop, hfire⟩
    obtain ⟨hm, hs⟩ := hturn.calm hm hs
    exact ih hm hs (hturn.smaller hh).1 (hturn.now_le hnow)

/-- A clock that was moved on before the loop leaves no trace in it if nothing is due before. -/
theorem Drains.of_setNow {s : Service κ} {now : Duration} {ts : List Timer} {o : Outcome κ}
    (h : Drains limit horizon (s.setNow now) ts o) (hnow : now ≤ limit)
    (hs : s.timers.NotBefore now) :
    ∃ p, Drains limit horizon s ts p ∧
      (o.andThen fun r => .completed (r.setNow limit)) =
        p.andThen fun r => .completed (r.setNow limit) := by
  have hpop : (s.setNow now).timers.popDue? limit horizon = s.timers.popDue? limit horizon :=
    TimerQueue.popDue?_setNow hs
  cases h with
  | idle hidle =>
    refine ⟨.completed s, .idle (hpop ▸ hidle), ?_⟩
    simp only [Outcome.completed_andThen, setNow, TimerQueue.setNow_setNow _ hnow]
  | cut htaken hfire => exact ⟨_, .cut (hpop ▸ htaken) hfire, rfl⟩
  | turn htaken hfire hrest => exact ⟨_, .turn (hpop ▸ htaken) hfire hrest, rfl⟩

theorem advance_andThen_advance {s : Service κ} (hm : s.machine.Unhurried s.options)
    {a b c : Duration} (hab : a.add? b = some c) (hc : s.now.add? c = some wide) :
    (s.advance a).andThen (advance b) = s.advance c := by
  have hnanos := Duration.add?_eq_some hab
  have hwide := Duration.add?_eq_some hc
  obtain ⟨limit, hstop⟩ : ∃ limit : Duration, limit.nanos = s.now.nanos + a.nanos :=
    ⟨⟨_, by have := wide.nanos_lt; omega⟩, rfl⟩
  have hlimit : s.now.add? a = some limit := Duration.add?_of_nanos hstop
  have hrest : limit.add? b = some wide := Duration.add?_of_nanos (by omega)
  have hle : limit ≤ wide := by
    rw [Duration.le_def]
    omega
  have hnow : s.now ≤ limit := by
    rw [Duration.le_def]
    omega
  obtain ⟨ts, hts⟩ := drains_drain limit s (Nat.le_refl s.timers.nextId)
  obtain ⟨vs, hvs⟩ := drains_drain wide s (Nat.le_refl s.timers.nextId)
  rw [advance_eq_of_drains hlimit hts, advance_eq_of_drains hc hvs]
  have hends := hts.ends hm s.timers.calm_nextId (Nat.le_refl _) hnow
  cases ho : s.drain limit s.timers.nextId (Nat.le_refl _) with
  | overflowed r =>
    rw [ho] at hts
    have hwhole := hts.append hle (p := .overflowed r) ⟨rfl, rfl⟩
    rw [(hvs.unique hwhole).2]
    rfl
  | completed r =>
    rw [ho] at hts hends
    have hclock : (r.setNow limit).now = limit := if_pos hends.now
    obtain ⟨us, hus⟩ := drains_drain wide (r.setNow limit) (Nat.le_refl _)
    obtain ⟨p, hp, heq⟩ := hus.of_setNow hle fun t ht => Nat.le_of_lt (hends.late t ht)
    have hp := hp.of_later hends.past hends.unhurried hends.calm
    have hwhole := hts.append hle hp
    rw [(hvs.unique hwhole).2, ← heq]
    exact advance_eq_of_drains (hclock.symm ▸ hrest) hus

/-- Two operations that do together what a third one does are heard and seen as that one is. -/
theorem attend_pair {op op' whole : Operation} {s : Service κ}
    (h : (s.apply op).andThen (apply op') = s.apply whole) (b : Switchboard κ) :
    attend [.operate op, .operate op'] s b = attend [.operate whole] s b := by
  rw [attend_singleton, conduct, ← h]
  cases ho : s.apply op with
  | overflowed r =>
    have hfirst : s.conduct op b =
        (.overflowed r, Switchboard.relay s.channel (r.since s) b) := by
      rw [conduct, ho]
      rfl
    rw [attend_operate_overflowed hfirst]
    rfl
  | completed r =>
    have hfirst : s.conduct op b = (.completed r, Switchboard.relay s.channel (r.since s) b) := by
      rw [conduct, ho]
      rfl
    have hr := Steps.continues (s.steps_apply op)
    rw [ho, Outcome.service_completed] at hr
    have hu := Steps.continues (r.steps_apply op')
    rw [attend_operate_completed hfirst, attend_singleton, conduct, Outcome.completed_andThen,
      since_trans hr hu, Switchboard.relay_append, hr.channel]

/-- For a service whose machine is unhurried, moving the clock on by `a` and then by `b` leaves the
same service as moving it on by the sum of both, with the same journal of calls, timers and
notifications, and the same lines are heard and seen. Deliveries without delay that the caller asked
for before are allowed. -/
theorem advance_advance {s : Service κ} (hm : s.machine.Unhurried s.options) {a b c limit : Duration}
    (hab : a.add? b = some c) (hc : s.now.add? c = some limit) :
    (s.advance a).andThen (advance b) = s.advance c ∧
      ∀ board : Switchboard κ,
        attend [.operate (.advance a), .operate (.advance b)] s board =
          attend [.operate (.advance c)] s board := by
  have hsame := advance_andThen_advance hm hab hc
  exact ⟨hsame, attend_pair hsame⟩

/-- The crossing in its first red phase: a stop at the moment when the bell rings changes nothing of
the four seconds in which the light turns green. -/
theorem advance_advance_crossing :
    ((create crossing crossingOptions 0).start.service.advance ⟨1000000000, by decide⟩).andThen
        (advance ⟨3000000000, by decide⟩) =
      (create crossing crossingOptions 0).start.service.advance ⟨4000000000, by decide⟩ ∧
    ∀ board : Switchboard Nat,
      attend [.operate (.advance ⟨1000000000, by decide⟩),
          .operate (.advance ⟨3000000000, by decide⟩)]
          (create crossing crossingOptions 0).start.service board =
        attend [.operate (.advance ⟨4000000000, by decide⟩)]
          (create crossing crossingOptions 0).start.service board := by
  have hsame : (create crossing crossingOptions 0).Continues
      (create crossing crossingOptions 0).start.service :=
    Steps.continues ((create crossing crossingOptions 0).steps_apply .start)
  have hclock : (create crossing crossingOptions 0).start.service.now = .zero := by
    rw [start, if_neg (by decide)]
    refine Follows.timers (Follows.andThen (follows_execute _ _ _) fun r => ?_) |>.now
    exact (follows_armEach _ _ _ r).andThen follows_resolve
  have hlimit : (create crossing crossingOptions 0).start.service.now.add?
      ⟨4000000000, by decide⟩ = some ⟨4000000000, by decide⟩ := by
    rw [hclock]
    decide
  refine advance_advance ?_ (by decide) hlimit
  rw [hsame.machine, hsame.options]
  exact unhurried_crossing

end TimedMachine.Service

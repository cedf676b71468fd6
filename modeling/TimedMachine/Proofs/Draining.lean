import Mathlib.Logic.Relation
import Mathlib.Order.WellFounded
import TimedMachine.Proofs.Writing

/-!
The loop of a drain, one timer after another. A `Turn` takes a timer and does what it is for, which
may arm and cancel any number of timers inside the same window. `Drains` is a whole loop, by the
timers that fire in it; being inductive, it holds of finite loops only. Every `advance` is such a loop
(`drains_advance`), and its turns cannot go on for ever.
-/
namespace TimedMachine

variable {κ : Type}

/-- The timer that an entry tells the firing of. -/
def Entry.fired? : Entry κ → Option Timer
  | .fired t _ => some t
  | _ => none

theorem Entry.fired?_of_isTurn (e : Entry κ) (h : e.isTurn = false) : e.fired? = none := by
  cases e <;> simp [Entry.isTurn, Entry.fired?] at *

namespace Service

/-- The timers that have fired, in the order in which they did. -/
def firings (s : Service κ) : List Timer := s.journal.filterMap Entry.fired?

theorem firings_taken (s : Service κ) (t : Timer) (timers : TimerQueue) :
    (s.taken t timers).firings = s.firings ++ [t] := by
  simp [firings, taken, withTimers, journal, Entry.fired?]

variable [BEq κ]

/-- What a timer is for takes no other timer. -/
theorem adds_fire_unfired (t : Timer) (s : Service κ) :
    Adds (fun e => e.fired? = none) s (s.fire t).service := by
  rcases moves_fire t s with ⟨_, _, why, _, _, hlapsed⟩ | hmoves
  · rw [hlapsed]
    exact adds_log s rfl
  · exact (Moves.addsNoTurn hmoves).imp Entry.fired?_of_isTurn

theorem firings_fire (t : Timer) (s : Service κ) : (s.fire t).service.firings = s.firings :=
  (adds_fire_unfired t s).filterMap_eq fun _ h => h

variable {limit : Duration} {horizon : Nat}

/-- One turn of the loop: a timer is taken, and what it is for is done. -/
def Turn (limit : Duration) (horizon : Nat) (s r : Service κ) : Prop :=
  ∃ t timers, s.timers.popDue? limit horizon = some (t, timers) ∧
    (s.taken t timers).fire t = .completed r

/-- The loop from a service on, by the timers that fire in it. It is over when no timer can be taken,
or when what a timer is for meets a sum of times that does not exist. -/
inductive Drains (limit : Duration) (horizon : Nat) :
    Service κ → List Timer → Outcome κ → Prop
  | idle {s : Service κ} (hpop : s.timers.popDue? limit horizon = none) :
      Drains limit horizon s [] (.completed s)
  | cut {s r : Service κ} {t : Timer} {timers : TimerQueue}
      (hpop : s.timers.popDue? limit horizon = some (t, timers))
      (hfire : (s.taken t timers).fire t = .overflowed r) :
      Drains limit horizon s [t] (.overflowed r)
  | turn {s r : Service κ} {t : Timer} {timers : TimerQueue} {ts : List Timer} {o : Outcome κ}
      (hpop : s.timers.popDue? limit horizon = some (t, timers))
      (hfire : (s.taken t timers).fire t = .completed r)
      (hrest : Drains limit horizon r ts o) :
      Drains limit horizon s (t :: ts) o

/-- A turn keeps the horizon in the past and brings the measure down. -/
theorem Turn.smaller {s r : Service κ} (h : Turn limit horizon s r)
    (hh : horizon ≤ s.timers.nextId) :
    horizon ≤ r.timers.nextId ∧
      TimerQueue.Smaller (r.timers.measure limit horizon) (s.timers.measure limit horizon) := by
  obtain ⟨t, timers, hpop, hfire⟩ := h
  have hlead := (follows_fire t (s.taken t timers)).timers
  rw [hfire] at hlead
  have hid : timers.nextId = s.timers.nextId := (TimerQueue.popDue?_eq_some hpop).2.2.2.2
  exact ⟨Nat.le_trans (hid ▸ hh) hlead.nextId, TimerQueue.measure_lt hpop hlead hh⟩

/-- After any number of turns the next one still brings the measure down. -/
theorem smaller_of_turns {s r u : Service κ}
    (hturns : Relation.ReflTransGen (Turn limit horizon) s r) (hh : horizon ≤ s.timers.nextId)
    (h : Turn limit horizon r u) :
    TimerQueue.Smaller (u.timers.measure limit horizon) (r.timers.measure limit horizon) := by
  have hr : horizon ≤ r.timers.nextId := by
    clear h
    induction hturns with
    | refl => exact hh
    | tail _ hturn ih => exact (hturn.smaller ih).1
  exact (h.smaller hr).2

theorem wellFounded_smaller : WellFounded TimerQueue.Smaller :=
  WellFounded.prod_lex Nat.lt_wfRel.wf (WellFounded.prod_lex Nat.lt_wfRel.wf Nat.lt_wfRel.wf)

/-- No turn can follow upon turn for ever. -/
theorem exists_not_turn (turns : Nat → Service κ) (hh : horizon ≤ (turns 0).timers.nextId) :
    ∃ n, ¬ Turn limit horizon (turns n) (turns (n + 1)) := by
  by_contra hall
  have hturn : ∀ n, Turn limit horizon (turns n) (turns (n + 1)) := by
    intro n
    by_contra hn
    exact hall ⟨n, hn⟩
  have hpast : ∀ n, horizon ≤ (turns n).timers.nextId := by
    intro n
    induction n with
    | zero => exact hh
    | succ n ih => exact ((hturn n).smaller ih).1
  obtain ⟨_, ⟨n, rfl⟩, hleast⟩ := wellFounded_smaller.has_min
    (Set.range fun n => (turns n).timers.measure limit horizon) ⟨_, 0, rfl⟩
  exact hleast _ ⟨n + 1, rfl⟩ ((hturn n).smaller (hpast n)).2

/-- A drain is a turn and the rest of the drain. -/
theorem drain_eq (limit : Duration) (s : Service κ) (h : horizon ≤ s.timers.nextId) :
    drain limit horizon s h =
      match s.timers.popDue? limit horizon with
      | none => .completed s
      | some (t, timers) =>
        ((s.taken t timers).fire t).andThen fun r =>
          if hr : horizon ≤ r.timers.nextId then drain limit horizon r hr else .completed r := by
  rw [drain]
  split
  · rename_i hpop
    simp only [hpop]
  · rename_i t timers hpop
    simp only [hpop]
    split
    · rename_i hfire
      rw [hfire, Outcome.overflowed_andThen]
    · rename_i r hfire
      have hturn : Turn limit horizon s r := ⟨t, timers, hpop, hfire⟩
      simp only [hfire, Outcome.completed_andThen, dif_pos (hturn.smaller h).1]

theorem drains_drain (limit : Duration) (s : Service κ) (h : horizon ≤ s.timers.nextId) :
    ∃ ts, Drains limit horizon s ts (drain limit horizon s h) := by
  fun_induction drain limit horizon s h with
  | case1 s _ hpop => exact ⟨[], .idle hpop⟩
  | case2 s _ t timers hpop r hfire => exact ⟨[t], .cut hpop hfire⟩
  | case3 s _ t timers hpop r hfire _ _ _ ih =>
    obtain ⟨ts, hts⟩ := ih
    exact ⟨t :: ts, .turn hpop hfire hts⟩

/-- There is only one loop from a service on. -/
theorem Drains.unique {s : Service κ} {ts us : List Timer} {o p : Outcome κ}
    (h : Drains limit horizon s ts o) (k : Drains limit horizon s us p) : ts = us ∧ o = p := by
  induction h generalizing us with
  | idle hpop =>
    cases k with
    | idle => exact ⟨rfl, rfl⟩
    | cut hpop' => simp [hpop] at hpop'
    | turn hpop' => simp [hpop] at hpop'
  | cut hpop hfire =>
    cases k with
    | idle hpop' => simp [hpop] at hpop'
    | cut hpop' hfire' =>
      obtain ⟨rfl, rfl⟩ := Prod.mk.inj (Option.some.inj (hpop.symm.trans hpop'))
      exact ⟨rfl, hfire.symm.trans hfire'⟩
    | turn hpop' hfire' =>
      obtain ⟨rfl, rfl⟩ := Prod.mk.inj (Option.some.inj (hpop.symm.trans hpop'))
      simp [hfire] at hfire'
  | turn hpop hfire _ ih =>
    cases k with
    | idle hpop' => simp [hpop] at hpop'
    | cut hpop' hfire' =>
      obtain ⟨rfl, rfl⟩ := Prod.mk.inj (Option.some.inj (hpop.symm.trans hpop'))
      simp [hfire] at hfire'
    | turn hpop' hfire' hrest =>
      obtain ⟨rfl, rfl⟩ := Prod.mk.inj (Option.some.inj (hpop.symm.trans hpop'))
      obtain rfl := Outcome.completed.inj (hfire.symm.trans hfire')
      obtain ⟨rfl, rfl⟩ := ih hrest
      exact ⟨rfl, rfl⟩

/-- An `advance` is the loop through its window, and after it the clock is set. -/
theorem advance_eq_of_drains {s : Service κ} {time : Duration} {ts : List Timer} {o : Outcome κ}
    (hlimit : s.now.add? time = some limit) (h : Drains limit s.timers.nextId s ts o) :
    s.advance time = o.andThen fun r => .completed (r.setNow limit) := by
  obtain ⟨us, hus⟩ := drains_drain limit s (Nat.le_refl s.timers.nextId)
  rw [(h.unique hus).2]
  simp [advance, hlimit]

/-- The journal tells the firings of a loop, and no others. -/
theorem Drains.firings_eq {s : Service κ} {ts : List Timer} {o : Outcome κ}
    (h : Drains limit horizon s ts o) : o.service.firings = s.firings ++ ts := by
  have hfired {s : Service κ} {t : Timer} {timers : TimerQueue} {o : Outcome κ}
      (hfire : (s.taken t timers).fire t = o) : o.service.firings = s.firings ++ [t] := by
    rw [← hfire, firings_fire, firings_taken]
  induction h with
  | idle => simp
  | cut _ hfire => exact hfired hfire
  | turn _ hfire _ ih =>
    have hone := hfired hfire
    rw [Outcome.service_completed] at hone
    rw [ih, hone, List.append_assoc]
    rfl

/-- The loop of a timed run up to a limit, from a service on, with the deadline drained last. -/
inductive Sleeps (limit : Duration) : Option Duration → Service κ → Outcome κ → Prop
  | idle {last : Option Duration} {s : Service κ} (hnext : s.timers.nextDeadline = none) :
      Sleeps limit last s (.completed s)
  | late {last : Option Duration} {s : Service κ} {deadline : Duration}
      (hnext : s.timers.nextDeadline = some deadline) (hlate : ¬ deadline ≤ limit) :
      Sleeps limit last s (.completed s)
  /-- The deadline just drained comes again, of a timer that was held back. -/
  | held {s : Service κ} {deadline : Duration} (hnext : s.timers.nextDeadline = some deadline)
      (hlimit : deadline ≤ limit) : Sleeps limit (some deadline) s (.completed s)
  | cut {last : Option Duration} {s r : Service κ} {deadline : Duration}
      (hnext : s.timers.nextDeadline = some deadline) (hlimit : deadline ≤ limit)
      (hlast : last ≠ some deadline)
      (hrun : (s.log (.woke deadline)).advance (deadline.minus s.now) = .overflowed r) :
      Sleeps limit last s (.overflowed r)
  | turn {last : Option Duration} {s r : Service κ} {deadline : Duration} {o : Outcome κ}
      (hnext : s.timers.nextDeadline = some deadline) (hlimit : deadline ≤ limit)
      (hlast : last ≠ some deadline)
      (hrun : (s.log (.woke deadline)).advance (deadline.minus s.now) = .completed r)
      (hrest : Sleeps limit (some deadline) (r.log (.drained r.now)) o) :
      Sleeps limit last s o

/-- A timed run is over when no deadline is left for it. -/
theorem Sleeps.rests {last : Option Duration} {s : Service κ} {o : Outcome κ}
    (h : Sleeps limit last s o)
    (hnot : ∀ deadline, s.timers.nextDeadline = some deadline → deadline ≤ limit →
      last = some deadline) : o = .completed s := by
  cases h with
  | idle => rfl
  | late => rfl
  | held => rfl
  | cut hnext hlimit hlast => exact absurd (hnot _ hnext hlimit) hlast
  | turn hnext hlimit hlast => exact absurd (hnot _ hnext hlimit) hlast

/-- Otherwise the next deadline is drained, and the run goes on from there. -/
theorem Sleeps.goesOn {last : Option Duration} {s : Service κ} {o : Outcome κ} {deadline : Duration}
    (h : Sleeps limit last s o) (hnext : s.timers.nextDeadline = some deadline)
    (hlimit : deadline ≤ limit) (hlast : last ≠ some deadline) :
    ∃ next, o = ((s.log (.woke deadline)).advance (deadline.minus s.now)).andThen next ∧
      ∀ r, (s.log (.woke deadline)).advance (deadline.minus s.now) = .completed r →
        Sleeps limit (some deadline) (r.log (.drained r.now)) (next r) := by
  cases h with
  | idle hnone => simp [hnext] at hnone
  | late hsome hlate =>
    obtain rfl := Option.some.inj (hnext.symm.trans hsome)
    exact absurd hlimit hlate
  | held hsome =>
    obtain rfl := Option.some.inj (hnext.symm.trans hsome)
    exact absurd rfl hlast
  | @cut _ _ r _ hsome _ _ hrun =>
    obtain rfl := Option.some.inj (hnext.symm.trans hsome)
    refine ⟨fun u => .completed u, by rw [hrun, Outcome.overflowed_andThen], ?_⟩
    intro u hu
    rw [hrun] at hu
    cases hu
  | @turn _ _ r _ o hsome _ _ hrun hrest =>
    obtain rfl := Option.some.inj (hnext.symm.trans hsome)
    refine ⟨fun _ => o, by rw [hrun, Outcome.completed_andThen], ?_⟩
    intro u hu
    obtain rfl := Outcome.completed.inj (hrun.symm.trans hu)
    exact hrest

theorem sleeps_sleep (limit : Duration) (last : Option Duration) (s : Service κ)
    (h : ∀ instant ∈ last, s.timers.NotBefore instant) : Sleeps limit last s (sleep limit last s h) := by
  fun_induction sleep limit last s h with
  | case1 last s _ hnext => exact .idle hnext
  | case2 s deadline hnext hlimit => exact .held hnext hlimit
  | case3 last s _ deadline hnext hlimit hlast awake r hrun => exact .cut hnext hlimit hlast hrun
  | case4 last s _ deadline hnext hlimit hlast awake r hrun _ _ ih =>
    exact .turn hnext hlimit hlast hrun ih
  | case5 last s _ deadline hnext hlate => exact .late hnext hlate

/-- However many timers the actions, the delayed and the eventless transitions keep arming inside the
window, `advance` is a finite loop: every turn brings a well-founded measure down, no infinite
sequence of turns starts from the service, and after the firings that the journal tells the loop is
over, the clock is at the end of the window, or a sum of times did not exist. -/
theorem drains_advance (time : Duration) (s : Service κ) :
    match s.now.add? time with
    | none => s.advance time = .overflowed s
    | some limit =>
      WellFounded TimerQueue.Smaller ∧
      (∀ r u, Relation.ReflTransGen (Turn limit s.timers.nextId) s r →
        Turn limit s.timers.nextId r u →
        TimerQueue.Smaller (u.timers.measure limit s.timers.nextId)
          (r.timers.measure limit s.timers.nextId)) ∧
      (∀ turns : Nat → Service κ, turns 0 = s →
        ∃ n, ¬ Turn limit s.timers.nextId (turns n) (turns (n + 1))) ∧
      ∃ ts o, Drains limit s.timers.nextId s ts o ∧
        o.service.firings = s.firings ++ ts ∧
        s.advance time = o.andThen fun r => .completed (r.setNow limit) := by
  cases hlimit : s.now.add? time with
  | none => simp [advance, hlimit]
  | some limit =>
    obtain ⟨ts, hts⟩ := drains_drain limit s (Nat.le_refl s.timers.nextId)
    refine ⟨wellFounded_smaller, ?_, ?_, ts, _, hts, hts.firings_eq,
      advance_eq_of_drains hlimit hts⟩
    · intro r u hturns hturn
      exact smaller_of_turns hturns (Nat.le_refl _) hturn
    · rintro turns rfl
      exact exists_not_turn turns (Nat.le_refl _)

end Service
end TimedMachine

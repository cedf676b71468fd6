import TimedMachine.Proofs.Accounts
import TimedMachine.Proofs.Firing
import TimedMachine.Proofs.Slicing

/-!
What an advance leaves behind (`spent_advance`). The clock stands at the end of the window. Of the
timers that waited at first or were armed on the way, all that are due have fired or were cancelled,
unless one that was armed on the way without any delay came to the head of the queue: that one is
held back, and so is everything behind it. It is the first to fire in the next call that moves the
clock, if nothing cancels it before.
-/
namespace TimedMachine

variable {κ : Type}

namespace TimerQueue

variable {q r : TimerQueue} {limit : Duration} {horizon : Nat} {u : Timer}

/-- The timer that fires before all others that wait. -/
structure First (q : TimerQueue) (u : Timer) : Prop where
  waits : u ∈ q.pending
  least : ∀ t ∈ q.pending, t = u ∨ u.key.Before t.key

theorem first_iff : q.First u ↔ q.pending.head? = some u := by
  have hordered := q.ordered
  cases hq : q.pending with
  | nil =>
    rw [List.head?_nil]
    exact ⟨fun h => by simpa [hq] using h.waits, fun h => by cases h⟩
  | cons v rest =>
    rw [hq] at hordered
    obtain ⟨hv, _⟩ := List.pairwise_cons.1 hordered
    rw [List.head?_cons, Option.some.injEq]
    constructor
    · intro h
      have hwaits := h.waits
      rw [hq] at hwaits
      rcases List.mem_cons.1 hwaits with rfl | hrest
      · rfl
      · rcases h.least v (by rw [hq]; exact List.mem_cons_self) with rfl | hbefore
        · rfl
        · exact absurd (hbefore.trans (hv u hrest)) (Key.not_before_self _)
    · rintro rfl
      refine ⟨by rw [hq]; exact List.mem_cons_self, fun t ht => ?_⟩
      rw [hq] at ht
      rcases List.mem_cons.1 ht with rfl | ht
      · exact .inl rfl
      · exact .inr (hv t ht)

/-- The first timer is taken if it is due and was armed before the horizon. -/
theorem First.popDue? (h : q.First u) (hdue : u.key.deadline ≤ limit) (hid : u.key.id < horizon) :
    ∃ r, q.popDue? limit horizon = some (u, r) := by
  unfold TimerQueue.popDue?
  simp only [first_iff.1 h]
  rw [if_neg]
  · exact ⟨_, rfl⟩
  · rintro (hlate | ⟨hpast, _⟩)
    · exact Nat.lt_irrefl _ (Nat.lt_of_le_of_lt hdue hlate)
    · omega

/-- When no timer can be taken, all are due later, or the first was armed without a delay past the
horizon and is held back. -/
theorem late_or_held (h : q.popDue? limit horizon = none) :
    (∀ t ∈ q.pending, limit < t.key.deadline) ∨
      ∃ u, q.First u ∧ u.key.deadline ≤ limit ∧ horizon ≤ u.key.id ∧ u.immediate = true := by
  unfold TimerQueue.popDue? at h
  split at h
  · rename_i hnone
    simp [List.head?_eq_none_iff.1 hnone]
  · rename_i u hu
    split at h
    · rename_i hheld
      have hfirst : q.First u := first_iff.2 hu
      by_cases hlate : limit < u.key.deadline
      · refine .inl fun t ht => ?_
        rcases hfirst.least t ht with rfl | hbefore
        · exact hlate
        · exact Nat.lt_of_lt_of_le hlate hbefore.deadline_le
      · obtain ⟨hid, himmediate⟩ := hheld.resolve_left hlate
        exact .inr ⟨u, hfirst, Nat.le_of_not_lt hlate, hid, himmediate⟩
    · cases h

/-- A first timer that is due stays the first until it is taken or cancelled. -/
theorem First.leads (h : q.First u) (hdue : u.key.deadline ≤ q.now) (hleads : q.Leads r)
    (hu : u ∈ r.pending) : r.First u where
  waits := hu
  least t ht := by
    have hid := q.fresh u h.waits
    rcases hleads.pending t ht with hold | ⟨hnew, hlate, _⟩
    · exact h.least t hold
    · have hle : u.key.deadline.nanos ≤ t.key.deadline.nanos := Nat.le_trans hdue hlate
      refine .inr ?_
      simp only [Key.Before, Duration.lt_def, Duration.eq_iff]
      omega

end TimerQueue

namespace Service

/-- The time by which an operation moves the clock on. -/
def Operation.time? : Operation → Option Duration
  | .advance time => some time
  | .runFor time => some time
  | _ => none

theorem firings_log (s : Service κ) {e : Entry κ} (he : e.fired? = none) :
    (s.log e).firings = s.firings := by
  simp [firings, he]

/-- What happens in the rest of a run is appended to the firings so far. -/
theorem Continues.firings {s r : Service κ} (h : s.Continues r) :
    ∃ ts, r.firings = s.firings ++ ts := by
  obtain ⟨new, hr, _⟩ := h.journal
  exact ⟨new.filterMap Entry.fired?, by
    rw [Service.firings, hr, List.filterMap_append, Service.firings]⟩

/-- The firings told since an earlier moment are those past the earlier ones. -/
theorem mem_of_fired_mem_since {s r : Service κ} (h : s.Continues r) {ts : List Timer}
    (hfirings : r.firings = s.firings ++ ts) {t : Timer} {clock : Duration}
    (ht : .fired t clock ∈ r.since s) : t ∈ ts := by
  obtain ⟨new, hr, _⟩ := h.journal
  have hnew : new.filterMap Entry.fired? = ts := by
    rw [firings, hr, List.filterMap_append] at hfirings
    exact List.append_cancel_left hfirings
  rw [since_eq_of_append hr] at ht
  rw [← hnew]
  exact List.mem_filterMap.2 ⟨_, ht, rfl⟩

/-- A timer is held back at the end of a call if it was armed in the call without any delay and is
first in the queue, and due. -/
structure HeldBack (s r : Service κ) (u : Timer) : Prop extends r.timers.First u where
  immediate : u.immediate = true
  armed : .armed u ∈ r.since s
  due : u.key.deadline ≤ r.now

/-- What is left when a loop is over with the clock at the end of its window: either nothing is due
any more, or a timer is held back; and what has not fired or been cancelled of the timers that are
due is behind that one. -/
structure Drained (s r : Service κ) : Prop where
  rest : (∀ t ∈ r.timers.pending, r.now < t.key.deadline) ∨ ∃ u, HeldBack s r u
  waiting : ∀ t, .armed t ∈ r.since s → t.immediate = true → ∀ clock, .fired t clock ∉ r.since s
  settled : ∀ t, t ∈ s.timers.pending ∨ (.armed t ∈ r.since s ∧ t.immediate = false) →
    t.key.deadline ≤ r.now →
    Gone t (r.since s) ∨ (t ∈ r.timers.pending ∧ ∃ u, HeldBack s r u ∧ u.key.Before t.key)

variable [BEq κ] {limit : Duration} {horizon : Nat}

/-- A loop that completes leaves the clock within the window and nothing that can be taken. -/
theorem Drains.ends_idle {s : Service κ} {ts : List Timer} {o : Outcome κ}
    (h : Drains limit horizon s ts o) (hnow : s.now ≤ limit) :
    o.Ends (fun r => r.now ≤ limit ∧ r.timers.popDue? limit horizon = none) (fun _ => True) := by
  induction h with
  | idle hpop => exact ⟨hnow, hpop⟩
  | cut => trivial
  | turn hpop hfire _ ih => exact ih (Turn.now_le ⟨_, _, hpop, hfire⟩ hnow)

/-- No timer fires in a loop that was armed past the horizon and without a delay. -/
theorem Drains.not_immediate {s : Service κ} {ts : List Timer} {o : Outcome κ}
    (h : Drains limit horizon s ts o) :
    ∀ t ∈ ts, horizon ≤ t.key.id → t.immediate = false := by
  induction h with
  | idle => simp
  | cut hpop =>
    intro t ht
    obtain rfl := List.mem_singleton.1 ht
    exact (TimerQueue.popDue?_eq_some hpop).2.2.1
  | turn hpop _ _ ih =>
    intro t ht
    rcases List.mem_cons.1 ht with rfl | ht
    · exact (TimerQueue.popDue?_eq_some hpop).2.2.1
    · exact ih t ht

theorem Drains.first {s : Service κ} {ts : List Timer} {o : Outcome κ} {u : Timer}
    (h : Drains limit horizon s ts o) (hu : s.timers.First u) (hdue : u.key.deadline ≤ limit)
    (hid : u.key.id < horizon) : ∃ rest, ts = u :: rest := by
  obtain ⟨r, hr⟩ := hu.popDue? hdue hid
  cases h with
  | idle hpop => simp [hr] at hpop
  | cut hpop =>
    obtain ⟨rfl, _⟩ := Prod.mk.inj (Option.some.inj (hr.symm.trans hpop))
    exact ⟨[], rfl⟩
  | @turn _ _ _ _ rest _ hpop =>
    obtain ⟨rfl, _⟩ := Prod.mk.inj (Option.some.inj (hr.symm.trans hpop))
    exact ⟨rest, rfl⟩

/-- An advance that completes is a loop that completes, with the clock set after it. -/
theorem drains_of_advance {s r : Service κ} {time : Duration} (h : s.advance time = .completed r) :
    ∃ limit ts u, s.now.add? time = some limit ∧
      Drains limit s.timers.nextId s ts (.completed u) ∧ u.now ≤ limit ∧
      u.timers.popDue? limit s.timers.nextId = none ∧ r = u.setNow limit ∧ r.now = limit := by
  cases hlimit : s.now.add? time with
  | none => simp [advance, hlimit] at h
  | some limit =>
    obtain ⟨ts, hts⟩ := drains_drain limit s (Nat.le_refl s.timers.nextId)
    rw [advance_eq_of_drains hlimit hts] at h
    have hsum := Duration.add?_eq_some hlimit
    have hnow : s.now ≤ limit := by
      rw [Duration.le_def]
      omega
    have hidle := hts.ends_idle hnow
    cases ho : s.drain limit s.timers.nextId (Nat.le_refl _) with
    | overflowed u =>
      rw [ho] at h
      cases h
    | completed u =>
      rw [ho] at h hts hidle
      obtain rfl := Outcome.completed.inj h
      exact ⟨limit, ts, u, rfl, hts, hidle.1, hidle.2, rfl, if_pos hidle.1⟩

/-- The first timer is the first to fire in an advance through its deadline. -/
theorem firings_advance {s : Service κ} {time : Duration} {u : Timer} (hu : s.timers.First u)
    (hlimit : s.now.add? time = some limit) (hdue : u.key.deadline ≤ limit) :
    ∃ rest, (s.advance time).service.firings = s.firings ++ u :: rest := by
  obtain ⟨ts, hts⟩ := drains_drain limit s (Nat.le_refl s.timers.nextId)
  obtain ⟨rest, rfl⟩ := hts.first hu hdue (s.timers.fresh u hu.waits)
  have hfirings := hts.firings_eq
  refine ⟨rest, ?_⟩
  rw [← hfirings, advance_eq_of_drains hlimit hts]
  cases s.drain limit s.timers.nextId (Nat.le_refl _) <;> rfl

/-- More may fire in the rest of the loop of a timed run. -/
theorem Sleeps.firings {last : Option Duration} {s : Service κ} {o : Outcome κ}
    (h : Sleeps limit last s o) : ∃ ts, o.service.firings = s.firings ++ ts := by
  have hadvance {s : Service κ} {deadline time : Duration} {o : Outcome κ}
      (hrun : (s.log (.woke deadline)).advance time = o) :
      ∃ ts, o.service.firings = s.firings ++ ts := by
    have hsteps : Steps s ((s.log (.woke deadline)).advance time).service :=
      .head .woke (steps_apply (.advance time) _)
    rw [hrun] at hsteps
    exact (Steps.continues hsteps).firings
  induction h with
  | @idle _ s => exact ⟨[], (List.append_nil _).symm⟩
  | @late _ s => exact ⟨[], (List.append_nil _).symm⟩
  | @held s => exact ⟨[], (List.append_nil _).symm⟩
  | cut _ _ _ hrun => exact hadvance hrun
  | @turn _ _ r _ _ _ _ _ hrun _ ih =>
    obtain ⟨ts, hts⟩ := hadvance hrun
    obtain ⟨us, hus⟩ := ih
    rw [Outcome.service_completed] at hts
    exact ⟨ts ++ us, by rw [hus, firings_log _ rfl, hts, List.append_assoc]⟩

theorem add?_minus {now deadline : Duration} :
    now.add? (deadline.minus now) = some (now.later deadline) := by
  refine Duration.add?_of_nanos ?_
  rw [Duration.nanos_later]
  show _ = now.nanos + (deadline.nanos - now.nanos)
  omega

/-- The first timer is the first to fire in a timed run through its deadline. -/
theorem Sleeps.first {s : Service κ} {o : Outcome κ} {u : Timer} (h : Sleeps limit none s o)
    (hu : s.timers.First u) (hdue : u.key.deadline ≤ limit) :
    ∃ rest, o.service.firings = s.firings ++ u :: rest := by
  have hnext : s.timers.nextDeadline = some u.key.deadline := by
    rw [TimerQueue.nextDeadline, TimerQueue.first_iff.1 hu]
    rfl
  have hadvance {o : Outcome κ} {deadline : Duration} (hsome : s.timers.nextDeadline = some deadline)
      (hrun : (s.log (.woke deadline)).advance (deadline.minus s.now) = o) :
      ∃ rest, o.service.firings = s.firings ++ u :: rest := by
    obtain rfl := Option.some.inj (hnext.symm.trans hsome)
    have hle : u.key.deadline ≤ s.now.later u.key.deadline := by
      rw [Duration.le_def, Duration.nanos_later]
      exact Nat.le_max_right _ _
    rw [← hrun, ← s.firings_log (e := .woke u.key.deadline) rfl]
    exact firings_advance hu add?_minus hle
  cases h with
  | idle hnone => simp [hnext] at hnone
  | late hsome hlate =>
    obtain rfl := Option.some.inj (hnext.symm.trans hsome)
    exact absurd hdue hlate
  | cut hsome _ _ hrun => exact hadvance hsome hrun
  | @turn _ _ r _ _ hsome _ _ hrun hrest =>
    obtain ⟨ts, hts⟩ := hadvance hsome hrun
    obtain ⟨us, hus⟩ := hrest.firings
    rw [Outcome.service_completed] at hts
    exact ⟨ts ++ us, by rw [hus, firings_log _ rfl, hts, List.append_assoc, List.cons_append]⟩

/-- A timer that is due and the first to fire does so at once when the clock is moved on. -/
theorem firings_apply {op : Operation} {s : Service κ} {time : Duration} {u : Timer}
    (hop : op.time? = some time) (hu : s.timers.First u) (hlimit : s.now.add? time = some limit)
    (hdue : u.key.deadline ≤ limit) :
    ∃ rest, (s.apply op).service.firings = s.firings ++ u :: rest := by
  cases op with
  | advance by' =>
    obtain rfl := Option.some.inj hop
    exact firings_advance hu hlimit hdue
  | runFor by' =>
    obtain rfl := Option.some.inj hop
    show ∃ rest, (s.runFor _).service.firings = _
    unfold runFor
    simp only [hlimit]
    have hslept := sleeps_sleep limit none s (by simp)
    obtain ⟨ts, hts⟩ := hslept.first hu hdue
    cases ho : sleep limit none s (by simp) with
    | overflowed r =>
      rw [ho] at hts
      exact ⟨ts, hts⟩
    | completed r =>
      rw [ho, Outcome.service_completed] at hts
      have hrest : r.Continues (r.advance (limit.minus r.now)).service :=
        Steps.continues (r.steps_apply (.advance (limit.minus r.now)))
      obtain ⟨us, hus⟩ := hrest.firings
      exact ⟨ts ++ us, by
        rw [Outcome.completed_andThen, hus, hts, List.append_assoc, List.cons_append]⟩
  | _ => cases hop

/-- While the clock is not moved, timers are only armed and cancelled, and none fires. -/
theorem leads_apply {op : Operation} (hop : op.time? = none) (s : Service κ) :
    s.timers.Leads (s.apply op).service.timers ∧ s.AddsNoTurn (s.apply op).service := by
  cases op with
  | start =>
    show s.timers.Leads s.start.service.timers ∧ s.AddsNoTurn s.start.service
    unfold start
    split
    · exact ⟨.refl _, .refl _ s⟩
    · let begun : Service κ := { s with status := .running }.log (.started s.now)
      have hbegun : s.AddsNoTurn begun := ⟨[_], journal_log _ _, by simp [Entry.isTurn]⟩
      have hentered := stays_execute .start (s.machine.entryOf s.current.value) begun
      refine ⟨(hentered.toFollows.andThen fun r => ?_).timers,
        hbegun.trans (hentered.addsNoTurn.andThen fun r => ?_)⟩
      · exact (r.follows_armEach _ _ _).andThen follows_resolve
      · exact ((moves_armDelayed r).andThen fun u _ => moves_settle [] u).addsNoTurn
  | stop =>
    show s.timers.Leads s.stop.timers ∧ s.AddsNoTurn s.stop
    unfold stop
    split
    · exact ⟨TimerQueue.leads_cancelAll _, [_], journal_log _ _, by simp [Entry.isTurn]⟩
    · exact ⟨.refl _, .refl _ s⟩
  | send event =>
    show s.timers.Leads (s.send event).service.timers ∧ s.AddsNoTurn (s.send event).service
    unfold send
    split
    · have haccepted : s.AddsNoTurn (s.log (.accepted event)) := adds_log s rfl
      exact ⟨(follows_deliver event (s.log (.accepted event))).timers,
        haccepted.trans (moves_deliver event _).addsNoTurn⟩
    · exact ⟨.refl _, .refl _ s⟩
  | sendAfter event delay =>
    show s.timers.Leads (s.sendAfter event delay).service.timers ∧
      s.AddsNoTurn (s.sendAfter event delay).service
    unfold sendAfter
    split
    · exact ⟨(s.follows_defer _ _).timers, (s.stays_defer _ _).addsNoTurn⟩
    · exact ⟨.refl _, .refl _ s⟩
  | advance time => cases hop
  | runFor time => cases hop

theorem leads_run {ops : List Operation} (hops : ∀ op ∈ ops, op.time? = none) (s : Service κ) :
    s.timers.Leads (run ops s).service.timers ∧ s.AddsNoTurn (run ops s).service := by
  induction ops generalizing s with
  | nil => exact ⟨.refl _, .refl _ s⟩
  | cons op rest ih =>
    have hop := leads_apply (hops op List.mem_cons_self) s
    rw [run]
    cases ho : s.apply op with
    | overflowed r =>
      rw [ho] at hop
      exact hop
    | completed r =>
      rw [ho] at hop
      have hrest := ih (fun op h => hops op (List.mem_cons_of_mem _ h)) r
      exact ⟨hop.1.trans hrest.1, hop.2.trans hrest.2⟩

/-- An advance that completes leaves nothing undone but what is held back. -/
theorem drained_of_advance {s r : Service κ} {time : Duration} (h : s.advance time = .completed r) :
    Drained s r := by
  obtain ⟨limit, ts, u, _, hdrains, hnow, hidle, rfl, hclock⟩ := drains_of_advance h
  obtain ⟨new, hnew⟩ := hdrains.accounted
  have hsince : (u.setNow limit).since s = new := since_eq_of_append hnew.journal
  -- The first timer that is held was armed on the way, since those before are not past the horizon.
  have hheld {v : Timer} (hfirst : u.timers.First v) (hdue : v.key.deadline ≤ limit)
      (hid : s.timers.nextId ≤ v.key.id) (himmediate : v.immediate = true) :
      HeldBack s (u.setNow limit) v := by
    refine ⟨⟨hfirst.waits, hfirst.least⟩, himmediate, ?_, by rwa [hclock]⟩
    rw [hsince]
    refine (hnew.arises v hfirst.waits).resolve_left fun hold => ?_
    exact Nat.not_le_of_lt (s.timers.fresh v hold) hid
  constructor
  case rest =>
    rw [hclock]
    rcases TimerQueue.late_or_held hidle with hlate | ⟨v, hfirst, hdue, hid, himmediate⟩
    · exact .inl hlate
    · exact .inr ⟨v, hheld hfirst hdue hid himmediate⟩
  case waiting =>
    intro t harmed himmediate clock hfired
    have hcontinues : s.Continues (u.setNow limit) := by
      have hsteps := Steps.continues (s.steps_apply (.advance time))
      rwa [show s.apply (.advance time) = _ from h] at hsteps
    have hfirings : (u.setNow limit).firings = s.firings ++ ts := hdrains.firings_eq
    have hmem := mem_of_fired_mem_since hcontinues hfirings hfired
    rw [hsince] at harmed
    have := hdrains.not_immediate t hmem (hnew.numbered t harmed)
    simp [himmediate] at this
  case settled =>
    rw [hsince, hclock]
    intro t ht hdue
    refine (hnew.kept t (ht.imp_right And.left)).symm.imp_right fun hpending => ⟨hpending, ?_⟩
    rcases TimerQueue.late_or_held hidle with hlate | ⟨v, hfirst, hvdue, hid, himmediate⟩
    · exact absurd hdue (Nat.not_le_of_lt (hlate t hpending))
    · refine ⟨v, hheld hfirst hvdue hid himmediate, (hfirst.least t hpending).resolve_left ?_⟩
      rintro rfl
      rcases ht with ht | ⟨_, ht⟩
      · exact Nat.not_le_of_lt (s.timers.fresh t ht) hid
      · simp [himmediate] at ht

/-- A timer that is first in the queue and due fires first in the next operation that moves the
clock, if nothing cancels it before. -/
theorem firings_run {r w : Service κ} {u : Timer} (hfirst : r.timers.First u)
    (hdue : u.key.deadline ≤ r.now) {ops : List Operation} (hops : ∀ op ∈ ops, op.time? = none)
    (hrun : run ops r = .completed w) (hwaits : u ∈ w.timers.pending) {op : Operation}
    {time : Duration} (hop : op.time? = some time) (hlimit : w.now.add? time = some limit) :
    ∃ rest, (w.apply op).service.firings = r.firings ++ u :: rest := by
  obtain ⟨hleads, hadds⟩ := leads_run hops r
  rw [hrun] at hleads hadds
  have hfirings : w.firings = r.firings := hadds.filterMap_eq Entry.fired?_of_isTurn
  have hnow : w.now = r.now := hleads.now
  have hsum := Duration.add?_eq_some hlimit
  have hle : u.key.deadline ≤ limit := by
    rw [Duration.le_def] at *
    rw [hnow] at hsum
    omega
  rw [← hfirings]
  exact firings_apply hop (hfirst.leads hdue hleads hwaits) hlimit hle

/-- What an advance from one service leaves behind with another. -/
structure Spent (s : Service κ) (time : Duration) (r : Service κ) : Prop extends Drained s r where
  clock : s.now.add? time = some r.now
  /-- What is first in the queue and due within the window fires first. -/
  first : ∀ u, s.timers.First u → u.key.deadline ≤ r.now →
    ∃ rest, r.firings = s.firings ++ u :: rest
  /-- What is held back fires first in the next operation that moves the clock, unless one before
  cancels it. -/
  next : ∀ u, HeldBack s r u → ∀ ops w, (∀ op ∈ ops, op.time? = none) →
    run ops r = .completed w → u ∈ w.timers.pending → ∀ op time limit, op.time? = some time →
    w.now.add? time = some limit → ∃ rest, (w.apply op).service.firings = r.firings ++ u :: rest

/-- However many timers are armed and cancelled on the way, an advance that completes leaves the clock
at the end of the window, and all timers that are due have fired or were cancelled, but for one that
was armed on the way without any delay and those behind it. Such a timer never fires in the same
advance, and is the first to fire in the next. -/
theorem spent_advance (time : Duration) (s : Service κ) :
    (s.advance time).Ends (Spent s time) (fun _ => True) := by
  cases ho : s.advance time with
  | overflowed r => trivial
  | completed r =>
    obtain ⟨limit, _, _, hlimit, _, _, _, _, hclock⟩ := drains_of_advance ho
    subst hclock
    refine { drained_of_advance ho with clock := hlimit, first := ?_, next := ?_ }
    · intro u hfirst hdue
      have hfirings := firings_advance hfirst hlimit hdue
      rwa [ho] at hfirings
    · intro u hheld ops w hops hrun hwaits op time limit hop hsum
      exact firings_run hheld.toFirst hheld.due hops hrun hwaits hop hsum

end Service
end TimedMachine

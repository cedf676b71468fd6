import Mathlib.Data.List.Induction
import TimedMachine.Proofs.Requests
import TimedMachine.Proofs.Standing
import TimedMachine.Proofs.Window

/-!
Deferred events from their arming to their delivery. Only the last one that was armed is ever
delivered, once, and only while nothing has superseded it: no other arming, no event from the caller
of the running service and no stop (`Stands`). As long as nothing has, it waits, through all delayed
and eventless transitions, and the first advance through its deadline delivers it, unless a timer that
is held back comes before it or it is held back itself (`deferral_attend`).
-/
namespace TimedMachine

variable {κ : Type}

/-- No deferred event that was armed before stands any longer. -/
def Entry.supersedes : Entry κ → Bool
  | .armed t => !t.task.isDelayed
  | .accepted _ | .stopped => true
  | _ => false

/-- The entries tell of the arming of a deferred event and of nothing that supersedes it. -/
def Stands (es : List (Entry κ)) (t : Timer) : Prop :=
  t.task.isDelayed = false ∧ ∃ before after, es = before ++ .armed t :: after ∧
    ∀ e ∈ after, e.supersedes = false

/-- The entries tell of the arming of a deferred event, and of nothing that supersedes it before it
fires. -/
def Remains (es : List (Entry κ)) (t : Timer) : Prop :=
  t.task.isDelayed = false ∧ ∃ before after, es = before ++ .armed t :: after ∧
    ∀ mid e rest, after = mid ++ e :: rest → e.supersedes = true →
      ∃ clock, .fired t clock ∈ mid

/-- As long as it has not fired, nothing may have superseded it. -/
theorem Remains.stands {es : List (Entry κ)} {t : Timer} (h : Remains es t)
    (hnot : ∀ clock, .fired t clock ∉ es) : Stands es t := by
  obtain ⟨htask, before, after, rfl, hafter⟩ := h
  refine ⟨htask, before, after, rfl, fun e he => Bool.eq_false_iff.2 fun hsupersedes => ?_⟩
  obtain ⟨mid, rest, rfl⟩ := List.append_of_mem he
  obtain ⟨clock, hin⟩ := hafter mid e rest rfl hsupersedes
  exact hnot clock (by simp [hin])

/-- What stands was armed, and nothing has superseded it. -/
theorem stands_of_standing {es : List (Entry κ)} {t : Timer} (h : standing es = some t) :
    Stands es t := by
  induction es using List.reverseRecOn with
  | nil => cases h
  | append_singleton es e ih =>
    rw [standing_concat] at h
    have hkept (hsame : e.stand (standing es) = standing es) (he : e.supersedes = false) :
        Stands (es ++ [e]) t := by
      rw [hsame] at h
      obtain ⟨htask, before, after, rfl, hafter⟩ := ih h
      refine ⟨htask, before, after ++ [e], by simp, ?_⟩
      exact List.forall_mem_append.2 ⟨hafter, by simpa using he⟩
    cases e with
    | armed u =>
      cases hu : u.task.isDelayed with
      | true => exact hkept (if_pos hu) (by simp [Entry.supersedes, hu])
      | false =>
        obtain rfl : u = t := by simpa [Entry.stand, hu] using h
        exact ⟨hu, es, [], rfl, by simp⟩
    | fired u clock =>
      cases hu : u.task.isDelayed with
      | true => exact hkept (if_pos hu) rfl
      | false => simp [Entry.stand, hu] at h
    | accepted => cases h
    | stopped => cases h
    | _ => exact hkept rfl rfl

/-- A deferred event that was armed, and that nothing has superseded, stands until it fires, where
nothing fires but what stands. -/
theorem Stands.standing {es : List (Entry κ)} {t : Timer} (h : Stands es t)
    (hfirings : ∀ before u clock after, es = before ++ .fired u clock :: after →
      u.task.isDelayed = false → standing before = some u)
    (hnot : ∀ clock, .fired t clock ∉ es) : standing es = some t := by
  obtain ⟨htask, before, after, rfl, hafter⟩ := h
  induction after using List.reverseRecOn with
  | nil => simp [Entry.stand, htask]
  | append_singleton after e ih =>
    rw [← List.cons_append, ← List.append_assoc] at hfirings hnot ⊢
    have hstanding := ih (fun e he => hafter e (List.mem_append_left _ he))
      (fun first u clock more hes => hfirings first u clock (more ++ [e]) (by simp [hes]))
      (fun clock hin => hnot clock (List.mem_append_left _ hin))
    have he := hafter e (by simp)
    rw [standing_concat, hstanding]
    cases e with
    | armed u => exact if_pos (by simpa [Entry.supersedes] using he)
    | fired u clock =>
      cases hu : u.task.isDelayed with
      | true => exact if_pos hu
      | false =>
        have hsame := hfirings _ u clock [] rfl hu
        obtain rfl := Option.some.inj (hstanding.symm.trans hsame)
        exact absurd (by simp) (hnot clock)
    | accepted => simp [Entry.supersedes] at he
    | stopped => simp [Entry.supersedes] at he
    | _ => rfl

namespace Service

variable [BEq κ]

/-- On the way from one service to another a timer has fired behind the given entries, on a running
service, and its event was delivered. -/
def Delivers (s r : Service κ) (before : List (Entry κ)) (t : Timer) (clock : Duration) : Prop :=
  ∃ u event, t.task = .deferred event ∧ Steps s u ∧ u.status = .running ∧
    u.journal = before ++ [.fired t clock] ∧ Steps (u.deliver event).service r

/-- Each deferred event that has fired since stood until then and was delivered. -/
def Told (s r : Service κ) : Prop :=
  ∀ before t clock after, r.journal = before ++ .fired t clock :: after →
    t.task.isDelayed = false → standing before = some t ∧ Delivers s r before t clock

/-- A service that has kept to its deferred events since. -/
structure Minds (s r : Service κ) : Prop where
  steps : Steps s r
  faithful : r.Faithful
  awake : r.timers.pending = [] ∨ r.status = .running
  told : Told s r

/-- A part of an operation that keeps to the deferred events. -/
abbrev EndsMinding (s : Service κ) (o : Outcome κ) : Prop := o.Ends (Minds s) (Told s)

variable {s r u : Service κ}

theorem Delivers.steps {before : List (Entry κ)} {t : Timer} {clock : Duration}
    (h : Delivers s r before t clock) (hsteps : Steps r u) : Delivers s u before t clock := by
  obtain ⟨v, event, htask, hv, hrunning, hjournal, hreach⟩ := h
  exact ⟨v, event, htask, hv, hrunning, hjournal, hreach.trans hsteps⟩

/-- What takes no timer delivers no deferred event. -/
theorem Told.adds (h : Told s r) (hsteps : Steps r u)
    (hadds : Adds (fun e => e.fired? = none) r u) : Told s u := by
  obtain ⟨new, hu, hnew⟩ := hadds
  intro before t clock after hsplit ht
  rw [hu] at hsplit
  rcases split_append hsplit with ⟨rest, hr, _⟩ | ⟨late, _, hlate⟩
  · exact (h before t clock rest hr ht).imp_right fun hdelivers => hdelivers.steps hsteps
  · have := hnew (.fired t clock) (by simp [hlate])
    cases this

theorem Minds.quiet (h : Minds s r) {o : Outcome κ} (hsteps : Steps r o.service)
    (hadds : r.AddsNoTurn o.service) (hfaithful : EndsFaithful o)
    (hawake : o.service.timers.pending = [] ∨ o.service.status = .running) : EndsMinding s o := by
  have htold := h.told.adds hsteps (hadds.imp Entry.fired?_of_isTurn)
  cases o with
  | overflowed u => exact htold
  | completed u => exact ⟨h.steps.trans hsteps, hfaithful, hawake, htold⟩

theorem Minds.log (h : Minds s r) {e : Entry κ} (hsteps : Steps r (r.log e)) (he : e.Idle)
    (hturn : e.isTurn = false) : Minds s (r.log e) :=
  h.quiet (o := .completed (r.log e)) hsteps (adds_log r hturn) (h.faithful.log he) h.awake

variable {limit : Duration} {horizon : Nat}

theorem Minds.running (h : Minds s r) {t : Timer} {timers : TimerQueue}
    (hpop : r.timers.popDue? limit horizon = some (t, timers)) : r.status = .running :=
  h.awake.resolve_left (by simp [(TimerQueue.popDue?_eq_some hpop).1])

/-- A deferred event that is due is delivered to a running service. -/
theorem Minds.delivers (h : Minds s r) {t : Timer} {timers : TimerQueue}
    (hpop : r.timers.popDue? limit horizon = some (t, timers)) (ht : t.task.isDelayed = false) :
    Delivers s ((r.taken t timers).fire t).service r.journal t timers.now := by
  have hrunning := h.running hpop
  cases htask : t.task with
  | delayed => simp [htask, Task.isDelayed] at ht
  | deferred event =>
    refine ⟨r.taken t timers, event, htask, h.steps.tail (.taken hpop), hrunning,
      r.journal_withTimers timers _, ?_⟩
    have hfire : (r.taken t timers).fire t = (r.taken t timers).deliver event := by
      rw [fire, htask]
      exact if_pos (isRunning_iff.2 hrunning)
    rw [hfire]

/-- A turn of a drain keeps to the deferred events. -/
theorem Minds.turn (h : Minds s r) {t : Timer} {timers : TimerQueue}
    (hpop : r.timers.popDue? limit horizon = some (t, timers)) :
    EndsMinding s ((r.taken t timers).fire t) := by
  have hsteps : Steps r ((r.taken t timers).fire t).service := (acts_turn hpop).steps
  have hstatus : ((r.taken t timers).fire t).service.status = .running :=
    (follows_fire t (r.taken t timers)).status.trans (h.running hpop)
  have htold : Told s ((r.taken t timers).fire t).service := by
    obtain ⟨new, hnew, hquiet⟩ := adds_fire_unfired t (r.taken t timers)
    intro before v clock after hsplit hv
    rw [hnew, taken, journal_withTimers] at hsplit
    -- The firing is an earlier one, or that of this turn; what comes after takes no timer.
    rcases split_append hsplit with ⟨rest, hlast, _⟩ | ⟨late, _, hlate⟩
    · rcases split_concat hlast with ⟨more, hold, _⟩ | ⟨rfl, he, _⟩
      · exact (h.told before v clock more hold hv).imp_right fun hdelivers => hdelivers.steps hsteps
      · obtain ⟨rfl, rfl⟩ := Entry.fired.inj he
        exact ⟨h.faithful.standing_of_popDue? hpop hv, h.delivers hpop hv⟩
    · have := hquiet (.fired v clock) (by simp [hlate])
      cases this
  have hfaithful := ends_fire_faithful h.faithful hpop
  generalize (r.taken t timers).fire t = o at *
  cases o with
  | overflowed u => exact htold
  | completed u => exact ⟨h.steps.trans hsteps, hfaithful, .inr hstatus, htold⟩

theorem Drains.minding {ts : List Timer} {o : Outcome κ} (hdrains : Drains limit horizon r ts o)
    (h : Minds s r) : EndsMinding s o := by
  induction hdrains with
  | idle => exact h
  | cut hpop hfire =>
    have hturn := h.turn hpop
    rwa [hfire] at hturn
  | turn hpop hfire _ ih =>
    have hturn := h.turn hpop
    rw [hfire] at hturn
    exact ih hturn

theorem Minds.advance (h : Minds s r) (time : Duration) : EndsMinding s (r.advance time) := by
  unfold Service.advance
  split
  · exact h.told
  · rename_i limit _
    obtain ⟨ts, hts⟩ := drains_drain limit r (Nat.le_refl r.timers.nextId)
    refine (hts.minding h).andThen fun u hu => ?_
    have hclocked : Steps u (u.setNow limit) := .single .clocked
    have hadds : Adds (fun e => e.fired? = none) u (u.setNow limit) := adds_of_journal_eq _ rfl
    refine ⟨hu.steps.trans hclocked, ?_, hu.awake, hu.told.adds hclocked hadds⟩
    exact hu.faithful.of_sends (hu.faithful.slot.setNow limit) rfl (adds_of_journal_eq _ rfl)

theorem Sleeps.minding {last : Option Duration} {o : Outcome κ} (hsleeps : Sleeps limit last r o)
    (h : Minds s r) : EndsMinding s o := by
  have hadvance {r : Service κ} (h : Minds s r) (deadline time : Duration) :
      EndsMinding s ((r.log (.woke deadline)).advance time) :=
    (h.log (.single .woke) (fun _ => rfl) rfl).advance time
  induction hsleeps with
  | idle => exact h
  | late => exact h
  | held => exact h
  | @cut _ r _ deadline _ _ _ hrun =>
    have hr := hadvance h deadline (deadline.minus r.now)
    rwa [hrun] at hr
  | @turn _ r _ deadline _ _ _ _ hrun _ ih =>
    have hr := hadvance h deadline (deadline.minus r.now)
    rw [hrun] at hr
    exact ih (Minds.log hr (.single .drained) (fun _ => rfl) rfl)

/-- While the clock is not moved, only a running service lets anything wait. -/
theorem awake_apply {op : Operation} (hop : op.time? = none)
    (h : r.timers.pending = [] ∨ r.status = .running) :
    (r.apply op).service.timers.pending = [] ∨ (r.apply op).service.status = .running := by
  cases op with
  | start =>
    show r.start.service.timers.pending = [] ∨ r.start.service.status = .running
    unfold start
    split
    · exact h
    · have hfollows : ({ r with status := .running }.log (.started r.now)).Follows
          ((execute .start (r.machine.entryOf r.current.value)
            ({ r with status := .running }.log (.started r.now))).andThen fun s =>
              s.armDelayed.andThen resolve).service :=
        (follows_execute _ _ _).andThen fun u => (u.follows_armEach _ _ _).andThen follows_resolve
      exact .inr hfollows.status
  | stop =>
    show r.stop.timers.pending = [] ∨ r.stop.status = .running
    unfold stop
    split
    · exact .inl (by simp [log, TimerQueue.cancelAll, TimerQueue.keep])
    · exact h
  | send event =>
    show (r.send event).service.timers.pending = [] ∨ (r.send event).service.status = .running
    unfold send
    split
    · rename_i hs
      exact .inr ((follows_deliver event (r.log (.accepted event))).status.trans (isRunning_iff.1 hs))
    · exact h
  | sendAfter event delay =>
    show (r.sendAfter event delay).service.timers.pending = [] ∨
      (r.sendAfter event delay).service.status = .running
    unfold sendAfter
    split
    · rename_i hs
      exact .inr ((r.follows_defer event delay).status.trans (isRunning_iff.1 hs))
    · exact h
  | advance => cases hop
  | runFor => cases hop

/-- Every operation keeps to the deferred events. -/
theorem Minds.apply (h : Minds s r) (op : Operation) : EndsMinding s (r.apply op) := by
  have hquiet (hop : op.time? = none) (hfaithful : EndsFaithful (r.apply op)) :
      EndsMinding s (r.apply op) :=
    h.quiet (r.steps_apply op) (leads_apply hop r).2 hfaithful (awake_apply hop h.awake)
  cases op with
  | start => exact hquiet rfl (ends_start_faithful h.faithful)
  | stop => exact hquiet rfl h.faithful.stop
  | send event => exact hquiet rfl (ends_send_faithful event h.faithful)
  | sendAfter event delay => exact hquiet rfl (ends_sendAfter_faithful event delay h.faithful)
  | advance time => exact h.advance time
  | runFor time =>
    show EndsMinding s (r.runFor time)
    unfold runFor
    split
    · exact h.told
    · exact ((sleeps_sleep _ none r _).minding h).andThen fun u hu => hu.advance _

theorem Minds.run (h : Minds s r) (ops : List Operation) : EndsMinding s (run ops r) := by
  induction ops generalizing r with
  | nil => exact h
  | cons op rest ih => exact (h.apply op).andThen fun u hu => ih hu

theorem minds_create (machine : Machine κ) (options : Options κ) (channel : Nat) :
    Minds (create machine options channel) (create machine options channel) := by
  refine ⟨.refl, ⟨TimerQueue.slot_empty, ?_⟩, .inl rfl, ?_⟩
  · rw [journal_create]
    rfl
  · intro before t clock after hsplit
    simp at hsplit

/-- What stands and has not fired waits. -/
theorem Minds.waits (h : Minds s r) {t : Timer} (ht : Stands r.journal t)
    (hnot : ∀ clock, .fired t clock ∉ r.journal) : t ∈ r.timers.pending := by
  have hstanding := ht.standing
    (fun before u clock after hsplit hu => (h.told before u clock after hsplit hu).1) hnot
  have hin : t ∈ r.timers.sends := by
    rw [h.faithful.sends, hstanding]
    exact Option.mem_toList.2 rfl
  exact (TimerQueue.mem_sends.1 hin).1

/-- A deferred event that waits stands. -/
theorem Minds.stands (h : Minds s r) {t : Timer} (ht : t ∈ r.timers.pending)
    (htask : t.task.isDelayed = false) : Stands r.journal t := by
  have hin : t ∈ r.timers.sends := TimerQueue.mem_sends.2 ⟨ht, htask⟩
  rw [h.faithful.sends] at hin
  exact stands_of_standing (Option.mem_toList.1 hin)

/-- What the journal tells of deferred events, on the way from one service to another. -/
structure Deferral (s r : Service κ) : Prop where
  asked : ∀ before t after, r.journal = before ++ .armed t :: after →
    t.task.isDelayed = false → Asked s r before t
  answered : ∀ before run context event after request,
    r.journal = before ++ .called run context event :: after →
    Calling.request? ⟨run, context, event⟩ = some request → Answered s before request after
  delivered : ∀ before t clock after, r.journal = before ++ .fired t clock :: after →
    t.task.isDelayed = false →
    Stands before t ∧ Delivers s r before t clock ∧ ∀ clock', .fired t clock' ∉ before

/-- What becomes of deferred events from a service on. -/
structure Awaits (s r : Service κ) : Prop where
  /-- A caller's event, a caller's asking for a delivery and a stop are each written down. -/
  sent : r.status = .running → ∀ event,
    ∃ rest, (r.send event).service.since r = .accepted event :: rest
  deferred : r.status = .running → ∀ event delay u, r.sendAfter event delay = .completed u →
    ∃ ts t, r.Promises (event, delay) t ∧ u.since r = [.cancelled ts, .armed t]
  stopped : r.status = .running → r.stop.since r = [.stopped]
  /-- What nothing supersedes before it fires waits until then, and nothing else waits. -/
  waits : ∀ t, Remains r.journal t →
    t ∈ r.timers.pending ∨ ∃ clock, .fired t clock ∈ r.journal
  stands : ∀ t ∈ r.timers.pending, t.task.isDelayed = false →
    Stands r.journal t ∧ ∀ clock, .fired t clock ∉ r.journal
  /-- An advance through its deadline delivers it, unless a timer is held back, be it another one
  before it or itself. -/
  next : ∀ time u t, r.advance time = .completed u → Remains u.journal t →
    (∀ clock, .fired t clock ∉ r.journal) → t.key.deadline ≤ u.now →
    (∃ late clock, Delivers s u (r.journal ++ late) t clock) ∨
      ∃ v, HeldBack r u v ∧ (v = t ∨ v.key.Before t.key)

theorem Told.deferral (h : Told s r) (hsteps : Steps s r) (hs : s.journal = [])
    (hordered : r.InOrder) : Deferral s r where
  asked _ _ _ hsplit ht := hsteps.asked hs ht hsplit
  answered _ _ _ _ _ _ hsplit hrequest := hsteps.answered hs hrequest hsplit
  delivered before t clock after hsplit ht := by
    obtain ⟨hstanding, hdelivers⟩ := h before t clock after hsplit ht
    exact ⟨stands_of_standing hstanding, hdelivers, fun _ => hordered.not_mem_before hsplit⟩

theorem Minds.next (h : Minds s r) {time : Duration} {t : Timer}
    (hadvance : r.advance time = .completed u) (ht : Remains u.journal t)
    (hnot : ∀ clock, .fired t clock ∉ r.journal) (hdue : t.key.deadline ≤ u.now) :
    (∃ late clock, Delivers s u (r.journal ++ late) t clock) ∨
      ∃ v, HeldBack r u v ∧ (v = t ∨ v.key.Before t.key) := by
  have hu := h.advance time
  have hsteps := r.steps_apply (.advance time)
  rw [show r.apply (.advance time) = _ from hadvance, Outcome.service_completed] at hsteps
  rw [hadvance] at hu
  by_cases hfired : ∃ clock, .fired t clock ∈ u.journal
  · obtain ⟨clock, hin⟩ := hfired
    obtain ⟨before, after, hsplit⟩ := List.append_of_mem hin
    obtain ⟨new, hnew, _⟩ := (Steps.continues hsteps).journal
    have hdelivers := (hu.told before t clock after hsplit ht.1).2
    rw [hnew] at hsplit
    rcases split_append hsplit with ⟨rest, hold, _⟩ | ⟨late, rfl, _⟩
    · exact absurd (by rw [hold]; simp) (hnot clock)
    · exact .inl ⟨late, clock, hdelivers⟩
  · have hnever := not_exists.1 hfired
    have hwaits := hu.waits (ht.stands hnever) hnever
    rcases (drained_of_advance hadvance).rest with hlate | ⟨v, hheld⟩
    · exact absurd hdue (Nat.not_le_of_lt (hlate t hwaits))
    · exact .inr ⟨v, hheld, (hheld.least t hwaits).imp_left Eq.symm⟩

theorem Minds.awaits (h : Minds s r) (hordered : r.InOrder) : Awaits s r where
  sent hrunning event := by
    have hsend : r.send event = (r.log (.accepted event)).deliver event :=
      if_pos (isRunning_iff.2 hrunning)
    obtain ⟨new, hnew, _⟩ := (moves_deliver event (r.log (.accepted event))).addsNoTurn
    refine ⟨new, since_eq_of_append ?_⟩
    rw [hsend, hnew, journal_log, List.append_assoc]
    rfl
  deferred hrunning event delay u hcall := by
    have hasks := asks_defer event delay r
    rw [show r.defer event delay = .completed u from
      (if_pos (isRunning_iff.2 hrunning)).symm.trans hcall] at hasks
    obtain ⟨ts, t, hpromises, hu⟩ := hasks
    exact ⟨ts, t, hpromises, since_eq_of_append hu⟩
  stopped hrunning := by
    refine since_eq_of_append ?_
    rw [stop, if_pos (isRunning_iff.2 hrunning), journal_log]
    rfl
  waits t ht := by
    by_cases hfired : ∃ clock, .fired t clock ∈ r.journal
    · exact .inr hfired
    · have hnever := not_exists.1 hfired
      exact .inl (h.waits (ht.stands hnever) hnever)
  stands t ht htask := ⟨h.stands ht htask, fun _ hin => hordered.not_mem_pending hin ht⟩
  next _ _ _ hadvance ht hnot hdue := h.next hadvance ht hnot hdue

/-- Deferred sending is a slot that belongs to its last writer. In every session, each deferred event
that is armed was asked for by the caller of the running service or by an action, and each request
of an action is followed by the arming; the deadline is the delay past the clock reading at that
moment. One that fires is delivered to the running service; it was armed last, no event of the caller
and no stop came since, and it fires only once. If the session completes, what nothing supersedes
waits until it fires, and the first advance through its deadline delivers it, unless a timer that was
armed in it without any delay comes first, or is this one. -/
theorem deferral_attend (machine : Machine κ) (options : Options κ) (channel : Nat)
    (calls : List (Call κ)) (b : Switchboard κ) :
    let s := create machine options channel
    Deferral s (attend calls s b).1.service ∧
      (attend calls s b).1.Ends (Awaits s) (fun _ => True) := by
  intro s
  rw [attend_fst]
  have hminds := (minds_create machine options channel).run (calls.filterMap Call.operation?)
  have hsteps := s.steps_run (calls.filterMap Call.operation?)
  have hordered := Steps.inOrder hsteps (inOrder_create machine options channel)
  have htold := (hminds.imp (fun _ h => h.told) fun _ h => h).service
  refine ⟨htold.deferral hsteps (journal_create _ _ _) hordered, ?_⟩
  exact (hminds.and (Outcome.ends_of_service hordered)).imp (fun r h => h.1.awaits h.2)
    fun _ _ => trivial

end Service
end TimedMachine

import TimedMachine.Proofs.Act

/-!
The deferred event that stands, as the journal tells it. The last one that was armed stands until it
fires, another one takes its place, the caller of the running service sends an event, or the service
is stopped (`standing`). A service is `Faithful` if the deferred events that wait in its queue are that
one and no others. Every part of an operation that completes keeps it so, and it is so again after
the one moment at which it is not: an event has been taken up, and the queue is about to be cleared.
-/
namespace TimedMachine

variable {κ : Type}

namespace Entry

/-- What stands after an entry, by what stood before it. -/
def stand (waiting : Option Timer) : Entry κ → Option Timer
  | .armed t => if t.task.isDelayed then waiting else some t
  | .fired t _ => if t.task.isDelayed then waiting else none
  | .accepted _ | .stopped => none
  | _ => waiting

/-- The entry leaves what stands as it is. -/
def Idle (e : Entry κ) : Prop := ∀ waiting, e.stand waiting = waiting

theorem idle_armed {t : Timer} (h : t.task.isDelayed = true) : (.armed t : Entry κ).Idle :=
  fun _ => if_pos h

theorem idle_fired {t : Timer} {clock : Duration} (h : t.task.isDelayed = true) :
    (.fired t clock : Entry κ).Idle := fun _ => if_pos h

end Entry

/-- The deferred event that stands after the entries. -/
def standing (es : List (Entry κ)) : Option Timer := es.foldl Entry.stand none

@[simp] theorem standing_concat (es : List (Entry κ)) (e : Entry κ) :
    standing (es ++ [e]) = e.stand (standing es) := by
  rw [standing, List.foldl_append]
  rfl

theorem standing_append_of_idle {es new : List (Entry κ)} (h : ∀ e ∈ new, e.Idle) :
    standing (es ++ new) = standing es := by
  induction new generalizing es with
  | nil => rw [List.append_nil]
  | cons e rest ih =>
    rw [List.append_cons, ih fun e he => h e (List.mem_cons_of_mem _ he), standing_concat,
      h e List.mem_cons_self]

namespace TimerQueue

theorem mem_sends {q : TimerQueue} {t : Timer} :
    t ∈ q.sends ↔ t ∈ q.pending ∧ t.task.isDelayed = false := by
  simp [sends, List.mem_filter]

theorem Slot.sends_cancelDeferred {q : TimerQueue} (h : q.Slot) : q.cancelDeferred.sends = [] := by
  refine List.filter_eq_nil_iff.2 fun t ht => ?_
  simp [(h.mem_cancelDeferred.1 ht).2]

theorem sends_cancelAll (q : TimerQueue) : q.cancelAll.sends = [] := by
  simp [sends, cancelAll, keep]

end TimerQueue

namespace Service

/-- The queue holds the deferred event that stands, and no other. -/
structure Faithful (s : Service κ) : Prop where
  slot : s.timers.Slot
  sends : s.timers.sends = (standing s.journal).toList

/-- A part of an operation that leaves the service faithful if it completes. -/
abbrev EndsFaithful (o : Outcome κ) : Prop := o.Ends Faithful (fun _ => True)

variable {s r : Service κ}

theorem Faithful.of_sends (h : s.Faithful) (hslot : r.timers.Slot)
    (hsends : r.timers.sends = s.timers.sends) (hadds : Adds Entry.Idle s r) : r.Faithful := by
  obtain ⟨new, hr, hnew⟩ := hadds
  exact ⟨hslot, by rw [hsends, h.sends, hr, standing_append_of_idle hnew]⟩

/-- Nothing is changed by what leaves the queue alone and writes nothing of deferred events. -/
theorem Faithful.of_timers_eq (h : s.Faithful) (htimers : r.timers = s.timers)
    (hadds : Adds Entry.Idle s r) : r.Faithful :=
  h.of_sends (htimers ▸ h.slot) (congrArg TimerQueue.sends htimers) hadds

theorem Faithful.log (h : s.Faithful) {e : Entry κ} (he : e.Idle) : (s.log e).Faithful :=
  h.of_timers_eq rfl (adds_log s he)

theorem Faithful.cancelDelayed (h : s.Faithful) : s.cancelDelayed.Faithful :=
  h.of_sends h.slot.cancelDelayed s.timers.sends_cancelDelayed
    (s.adds_withTimers _ fun _ => rfl)

/-- Once the queue is cleared it is as if nothing had waited. -/
theorem faithful_cancelDeferred (hslot : s.timers.Slot) (hnone : standing s.journal = none) :
    s.cancelDeferred.Faithful where
  slot := hslot.cancelDeferred
  sends := by
    rw [cancelDeferred, journal_withTimers, standing_concat, hnone]
    exact hslot.sends_cancelDeferred

theorem ends_defer_faithful (event : Event) (delay : Duration) (hslot : s.timers.Slot) :
    EndsFaithful (s.defer event delay) := by
  unfold defer
  split
  · trivial
  · rename_i t timers hdefer
    have hsends := TimerQueue.sends_of_defer? hdefer hslot
    have hin : t ∈ timers.sends := by rw [hsends]; exact List.mem_singleton.2 rfl
    have htask := (TimerQueue.mem_sends.1 hin).2
    refine ⟨TimerQueue.slot_of_defer? hdefer hslot, ?_⟩
    rw [journal_withTimers, standing_concat]
    simp only [Entry.stand, htask]
    exact hsends

theorem ends_perform_faithful (run : ActionFn κ) (event : Event) (h : s.Faithful) :
    EndsFaithful (s.perform run event) := by
  have hcalled := h.log (e := .called run s.current.context event) fun _ => rfl
  unfold perform
  dsimp only
  split
  · exact hcalled
  · exact hcalled.of_timers_eq (timers_assign _ _) (adds_of_journal_eq _ (journal_assign _ _))
  · exact ends_defer_faithful _ _ hcalled.slot

theorem ends_execute_faithful (event : Event) (actions : List (Action κ)) (h : s.Faithful) :
    EndsFaithful (execute event actions s) := by
  induction actions generalizing s with
  | nil => exact h
  | cons action rest ih =>
    rw [execute]
    split
    · exact ih (h.log fun _ => rfl)
    · exact (ends_perform_faithful _ event h).andThen fun r hr => ih hr

theorem ends_armEach_faithful (state : String) (index : Nat) (ds : List (Delayed κ))
    (h : s.Faithful) : EndsFaithful (armEach state index ds s) := by
  induction ds generalizing index s with
  | nil => exact h
  | cons d rest ih =>
    rw [armEach, arm]
    split
    · trivial
    · rename_i t timers harm
      have ha := TimerQueue.arms_of_arm? harm
      have htask : t.task.isDelayed = true := by
        rw [ha.task]
        rfl
      refine ih (index + 1) (h.of_sends (h.slot.arms ha rfl) (TimerQueue.sends_of_arm? harm rfl) ?_)
      exact s.adds_withTimers timers (Entry.idle_armed htask)

theorem ends_commit_faithful (target : String) (actions : List (Action κ)) (event : Event)
    (h : s.Faithful) : EndsFaithful (s.commit target actions event) := by
  refine (ends_execute_faithful event _ h.cancelDelayed).andThen fun r hr => ?_
  have harrived : (r.arrive target actions event).Faithful :=
    hr.of_timers_eq rfl ⟨_, r.journal_arrive target actions event, by simp [Entry.Idle, Entry.stand]⟩
  refine (ends_execute_faithful event _ harrived).andThen fun u hu => ?_
  refine (ends_execute_faithful event _ hu).andThen fun v hv => ?_
  exact ends_armEach_faithful _ _ _ (hv.log fun _ => rfl)

theorem Faithful.weigh (h : s.Faithful) (ts : List (Eventless κ)) : (s.weigh ts).Faithful :=
  weigh_keeps h fun _ _ _ _ _ hr => hr.log fun _ => rfl

theorem ends_settle_faithful (visited : List String) (s : Service κ) (h : s.Faithful) :
    EndsFaithful (settle visited s) := by
  have hcommit {s : Service κ} (h : s.Faithful) (ts : List (Eventless κ)) (t : Eventless κ) :
      EndsFaithful ((s.weigh ts).commit t.target t.actions (.always s.current.value)) :=
    ends_commit_faithful _ _ _ (h.weigh ts)
  fun_induction settle visited s with
  | case1 => exact h
  | case2 => exact h
  | case3 => exact h.weigh _
  | case4 => trivial
  | case5 visited s _ _ ts t _ _ r hstep _ _ ih =>
    have hr := hcommit h ts t
    rw [hstep] at hr
    exact ih hr
  | case6 => exact (h.weigh _).log fun _ => rfl

theorem Faithful.judge (h : s.Faithful) (c : Candidate κ) (event : Event) :
    (s.judge c event).Faithful := by
  unfold Service.judge
  split
  · exact h
  · exact h.log fun _ => rfl

theorem ends_start_faithful (h : s.Faithful) : EndsFaithful s.start := by
  unfold start
  split
  · exact h
  · have hbegun : ({ s with status := .running }.log (.started s.now)).Faithful :=
      h.of_timers_eq rfl ⟨[_], journal_log _ _, by simp [Entry.Idle, Entry.stand]⟩
    refine (ends_execute_faithful .start _ hbegun).andThen fun r hr => ?_
    exact (ends_armEach_faithful _ _ _ hr).andThen fun u hu => ends_settle_faithful [] u hu

theorem Faithful.stop (h : s.Faithful) : s.stop.Faithful := by
  unfold Service.stop
  split
  · refine ⟨TimerQueue.slot_cancelAll _, ?_⟩
    rw [journal_log, standing_concat]
    exact s.timers.sends_cancelAll
  · exact h

theorem ends_sendAfter_faithful (event : Event) (delay : Duration) (h : s.Faithful) :
    EndsFaithful (s.sendAfter event delay) := by
  unfold sendAfter
  split
  · exact ends_defer_faithful event delay h.slot
  · exact h

/-- Taking the deferred event that stands leaves none. -/
theorem Faithful.taken (h : s.Faithful) {limit : Duration} {horizon : Nat} {t : Timer}
    {timers : TimerQueue} (hpop : s.timers.popDue? limit horizon = some (t, timers)) :
    (s.taken t timers).Faithful := by
  have hslot : timers.Slot := TimerQueue.slot_of_popDue? hpop h.slot
  have hpending : s.timers.pending = t :: timers.pending := (TimerQueue.popDue?_eq_some hpop).1
  cases htask : t.task.isDelayed with
  | true =>
    have hsends : timers.sends = s.timers.sends := by
      rw [TimerQueue.sends, TimerQueue.sends, hpending, List.filter_cons_of_neg (by simp [htask])]
    exact h.of_sends hslot hsends (s.adds_withTimers timers (Entry.idle_fired htask))
  | false =>
    refine ⟨hslot, ?_⟩
    rw [Service.taken, journal_withTimers, standing_concat]
    simp only [Entry.stand, htask]
    have hnone : timers.sends = [] := by
      refine List.filter_eq_nil_iff.2 fun u hu => ?_
      by_contra hutask
      have hsame : u = t := by
        refine h.slot.single ?_ ?_ (by simpa using hutask) htask
        · rw [hpending]
          exact List.mem_cons_of_mem _ hu
        · rw [hpending]
          exact List.mem_cons_self
      exact TimerQueue.not_mem_of_popDue? hpop (hsame ▸ hu)
    exact hnone

/-- A deferred event that is taken is the one that stands. -/
theorem Faithful.standing_of_popDue? (h : s.Faithful) {limit : Duration} {horizon : Nat}
    {t : Timer} {timers : TimerQueue}
    (hpop : s.timers.popDue? limit horizon = some (t, timers)) (htask : t.task.isDelayed = false) :
    standing s.journal = some t := by
  have hin : t ∈ s.timers.sends :=
    TimerQueue.mem_sends.2 ⟨(TimerQueue.mem_of_popDue? hpop t).2 (.inl rfl), htask⟩
  rw [h.sends] at hin
  exact Option.mem_toList.1 hin

variable [BEq κ]

theorem ends_proceed_faithful (next : Snapshot κ) (event : Event) (h : s.Faithful) :
    EndsFaithful (s.proceed next event) := by
  unfold proceed
  split
  · exact (ends_commit_faithful _ _ event h).andThen fun r hr => ends_settle_faithful [] r hr
  · have hnext : (s.withCurrent next).Faithful := h.of_timers_eq rfl (adds_of_journal_eq _ rfl)
    refine (ends_execute_faithful event _ hnext).andThen fun r hr => ?_
    split
    · exact hr
    · have hchanged : (r.withCurrent { r.current with changed := true }).Faithful :=
        hr.of_timers_eq rfl (adds_of_journal_eq _ rfl)
      exact hchanged.log fun _ => rfl

/-- Delivering an event clears the queue first, so nothing that stood before may stand. -/
theorem ends_deliver_faithful (event : Event) (hslot : s.timers.Slot)
    (hnone : standing s.journal = none) : EndsFaithful (s.deliver event) := by
  have hcleared := faithful_cancelDeferred hslot hnone
  unfold deliver
  dsimp only
  split
  · exact hcleared
  · split
    · exact ends_proceed_faithful _ event (hcleared.judge _ event)
    · exact hcleared.judge _ event

theorem ends_send_faithful (event : Event) (h : s.Faithful) : EndsFaithful (s.send event) := by
  unfold send
  split
  · refine ends_deliver_faithful (s := s.log (.accepted event)) event h.slot ?_
    rw [journal_log, standing_concat]
    rfl
  · exact h

theorem ends_fire_faithful (h : s.Faithful) {limit : Duration} {horizon : Nat} {t : Timer}
    {timers : TimerQueue} (hpop : s.timers.popDue? limit horizon = some (t, timers)) :
    EndsFaithful ((s.taken t timers).fire t) := by
  have htaken := h.taken hpop
  have hupshot := upshot_fire t (s.taken t timers)
  generalize (s.taken t timers).fire t = o at hupshot ⊢
  cases hupshot with
  | delivered htask =>
    refine ends_deliver_faithful _ htaken.slot ?_
    rw [taken, journal_withTimers, standing_concat]
    simp [Entry.stand, htask, Task.isDelayed]
  | unheard => exact htaken
  | lapsed => exact htaken.log fun _ => rfl
  | left =>
    exact (ends_commit_faithful _ _ _ htaken).andThen fun r hr => ends_settle_faithful [] r hr

end Service
end TimedMachine

import TimedMachine.Proofs.Act

/-!
Who asks for deliveries. A deferred event is armed because the caller of a running service asked for
its delivery, or an action that was called did (`Steps.asked`); and a call that asks for one is
followed at once by the arming, unless the clock has no such deadline (`Steps.answered`). In both
cases the deadline is the delay past the clock reading at that moment.
-/
namespace TimedMachine

variable {κ : Type}

/-- A deferred event is armed, or a call asks for one. -/
def Entry.asks : Entry κ → Bool
  | .armed t => !t.task.isDelayed
  | .called run context event => (Calling.request? ⟨run, context, event⟩).isSome
  | _ => false

namespace Service

/-- The timer is for a delivery that was asked for now. -/
structure Promises (s : Service κ) (request : Event × Duration) (t : Timer) : Prop where
  task : t.task = .deferred request.1
  deadline : s.now.add? request.2 = some t.key.deadline
  immediate : t.immediate = decide (request.2 = .zero)

/-- A delivery is asked for, and the timer for it is armed behind the given entries; or the clock has no
such deadline, and the part of the operation ends with these entries. -/
def Asks (s : Service κ) (request : Event × Duration) (asking : List Timer → List (Entry κ))
    (o : Outcome κ) : Prop :=
  o.Ends
    (fun r => ∃ ts t, s.Promises request t ∧ r.journal = s.journal ++ (asking ts ++ [.armed t]))
    (fun r => s.now.add? request.2 = none ∧ ∃ ts, r.journal = s.journal ++ asking ts)

theorem asks_defer (event : Event) (delay : Duration) (s : Service κ) :
    s.Asks (event, delay) (fun ts => [.cancelled ts]) (s.defer event delay) := by
  have hnow : s.timers.cancelDeferred.now = s.now := s.timers.leads_cancelDeferred.now
  unfold defer
  split
  · rename_i hnone
    refine ⟨?_, _, s.journal_withTimers _ _⟩
    simp only [TimerQueue.defer?, Option.map_eq_none_iff] at hnone
    rw [← hnow]
    unfold TimerQueue.arm? at hnone
    split at hnone
    · rename_i htimer
      exact Option.map_eq_none_iff.1 htimer
    · cases hnone
  · rename_i t timers hdefer
    obtain ⟨armed, harm, rfl⟩ := TimerQueue.defer?_eq_some hdefer
    have ha := TimerQueue.arms_of_arm? harm
    refine ⟨s.timers.pending.filter (fun u => s.timers.deferred = some u.key), t,
      ⟨ha.task, hnow ▸ ha.deadline, ha.immediate⟩, ?_⟩
    rw [journal_withTimers, cancelDeferred, journal_withTimers, List.append_assoc]

theorem asks_perform {run : ActionFn κ} {event : Event} {s : Service κ}
    {request : Event × Duration}
    (hrequest : Calling.request? ⟨run, s.current.context, event⟩ = some request) :
    s.Asks request (fun ts => [.called run s.current.context event, .cancelled ts])
      (s.perform run event) := by
  unfold Calling.request? at hrequest
  unfold perform
  dsimp only at hrequest ⊢
  cases heffect : (run s.current.context event).effect with
  | done => simp [heffect] at hrequest
  | assign update => simp [heffect] at hrequest
  | send later delay =>
    obtain rfl : (later, delay) = request := by simpa [heffect] using hrequest
    refine (asks_defer later delay (s.log (.called run s.current.context event))).imp ?_ ?_
    · rintro r ⟨ts, t, hpromises, hr⟩
      refine ⟨ts, t, ⟨hpromises.task, hpromises.deadline, hpromises.immediate⟩, ?_⟩
      rw [hr, journal_log, List.append_assoc]
      rfl
    · rintro r ⟨hnone, ts, hr⟩
      refine ⟨hnone, ts, ?_⟩
      rw [hr, journal_log, List.append_assoc]
      rfl

theorem Asks.mem {s : Service κ} {request : Event × Duration}
    {asking : List Timer → List (Entry κ)} {o : Outcome κ} (h : s.Asks request asking o)
    {new : List (Entry κ)} (hwrote : o.service.journal = s.journal ++ new) {e : Entry κ}
    (he : e ∈ new) : ∃ ts, e ∈ asking ts ∨ ∃ t, e = .armed t := by
  cases o with
  | overflowed r =>
    obtain ⟨_, ts, hr⟩ := h
    obtain rfl := List.append_cancel_left (hr.symm.trans hwrote)
    exact ⟨ts, .inl he⟩
  | completed r =>
    obtain ⟨ts, t, _, hr⟩ := h
    obtain rfl := List.append_cancel_left (hr.symm.trans hwrote)
    refine ⟨ts, (List.mem_append.1 he).imp_right fun hlast => ⟨t, List.mem_singleton.1 hlast⟩⟩

/-- The timer that is armed stands last, and it is the one that was asked for. -/
theorem Asks.armed {s : Service κ} {request : Event × Duration}
    {asking : List Timer → List (Entry κ)} {o : Outcome κ} (h : s.Asks request asking o)
    (hasking : ∀ ts t, .armed t ∉ asking ts) {first rest : List (Entry κ)} {t : Timer}
    (hwrote : o.service.journal = s.journal ++ (first ++ .armed t :: rest)) :
    ∃ r ts, o = .completed r ∧ s.Promises request t ∧ first = asking ts := by
  cases o with
  | overflowed r =>
    obtain ⟨_, ts, hr⟩ := h
    have hsplit := List.append_cancel_left (hr.symm.trans hwrote)
    exact absurd (by rw [hsplit]; simp) (hasking ts t)
  | completed r =>
    obtain ⟨ts, u, hpromises, hr⟩ := h
    rcases split_concat (List.append_cancel_left (hr.symm.trans hwrote)) with
      ⟨more, hmore, _⟩ | ⟨rfl, he, _⟩
    · exact absurd (by rw [hmore]; simp) (hasking ts t)
    · obtain rfl := Entry.armed.inj he
      exact ⟨r, ts, rfl, hpromises, rfl⟩

/-- The call that asks for a delivery stands first, and the arming follows. -/
theorem Asks.called {s : Service κ} {run run' : ActionFn κ} {context context' : Option κ}
    {event event' : Event} {request : Event × Duration} {o : Outcome κ}
    (h : s.Asks request (fun ts => [.called run context event, .cancelled ts]) o)
    {first rest : List (Entry κ)}
    (hwrote : o.service.journal = s.journal ++ (first ++ .called run' context' event' :: rest)) :
    first = [] ∧ (.called run context event : Entry κ) = .called run' context' event' ∧
      (s.now.add? request.2 = none ∨
        ∃ ts t, s.Promises request t ∧ rest = [.cancelled ts, .armed t]) := by
  have hfirst (tail : List (Entry κ))
      (hsplit : .called run context event :: tail = first ++ .called run' context' event' :: rest)
      (hnot : .called run' context' event' ∉ tail) :
      first = [] ∧ (.called run context event : Entry κ) = .called run' context' event' ∧
        rest = tail := by
    cases first with
    | nil =>
      obtain ⟨he, hrest⟩ := List.cons.inj hsplit
      exact ⟨rfl, he, hrest.symm⟩
    | cons e more =>
      obtain ⟨_, htail⟩ := List.cons.inj hsplit
      exact absurd (by rw [htail]; simp) hnot
  cases o with
  | overflowed r =>
    obtain ⟨hnone, ts, hr⟩ := h
    have hsplit := List.append_cancel_left (hr.symm.trans hwrote)
    obtain ⟨hnil, he, _⟩ := hfirst [.cancelled ts] hsplit (by simp)
    exact ⟨hnil, he, .inl hnone⟩
  | completed r =>
    obtain ⟨ts, t, hpromises, hr⟩ := h
    have hsplit := List.append_cancel_left (hr.symm.trans hwrote)
    obtain ⟨hnil, he, hrest⟩ := hfirst [.cancelled ts, .armed t] hsplit (by simp)
    exact ⟨hnil, he, .inr ⟨ts, t, hpromises, hrest⟩⟩

/-- An action that asks for no delivery arms none. -/
theorem adds_perform {run : ActionFn κ} {event : Event} {s : Service κ}
    (hnone : Calling.request? ⟨run, s.current.context, event⟩ = none) :
    Adds (fun e => e.asks = false) s (s.perform run event).service := by
  have hcalled : Adds (fun e => e.asks = false) s (s.log (.called run s.current.context event)) :=
    adds_log s (by simp [Entry.asks, hnone])
  unfold Calling.request? at hnone
  unfold perform
  dsimp only at hnone ⊢
  split
  · exact hcalled
  · exact hcalled.trans (adds_of_journal_eq _ (journal_assign _ _))
  · rename_i heffect
    simp [heffect] at hnone

/-- A step asks for no delivery, or is the caller's asking for one, or an action's. -/
theorem Step.asks_or {s r : Service κ} (h : Step s r) :
    Adds (fun e => e.asks = false) s r ∨
    (∃ event delay, s.status = .running ∧ r = (s.defer event delay).service) ∨
    ∃ run event request, Calling.request? ⟨run, s.current.context, event⟩ = some request ∧
      r = (s.perform run event).service := by
  cases h with
  | own hmove =>
    cases hmove with
    | judged => exact .inl (adds_log s rfl)
    | weighed => exact .inl (adds_log s rfl)
    | skipped => exact .inl (adds_log s rfl)
    | @called action run event =>
      cases hrequest : Calling.request? ⟨run, s.current.context, event⟩ with
      | none => exact .inl (adds_perform hrequest)
      | some request => exact .inr (.inr ⟨run, event, request, hrequest, rfl⟩)
    | astray => exact .inl (adds_log s rfl)
    | notified => exact .inl (adds_log s rfl)
    | left => exact .inl (s.adds_withTimers _ rfl)
    | cleared => exact .inl (s.adds_withTimers _ rfl)
    | armed =>
      unfold arm
      split
      · exact .inl (.refl _ s)
      · rename_i harm
        refine .inl (s.adds_withTimers _ ?_)
        simp [Entry.asks, (TimerQueue.arms_of_arm? harm).task, Task.isDelayed]
    | arrived => exact .inl ⟨_, s.journal_arrive _ _ _, by simp [Entry.asks]⟩
    | revisited => exact .inl (adds_of_journal_eq _ rfl)
    | changed => exact .inl (adds_of_journal_eq _ rfl)
  | begun => exact .inl ⟨[_], journal_log _ _, by simp [Entry.asks]⟩
  | halted => exact .inl ⟨[_], journal_log _ _, by simp [Entry.asks]⟩
  | accepted => exact .inl (adds_log s rfl)
  | @deferred event delay hs => exact .inr (.inl ⟨event, delay, hs, rfl⟩)
  | lapsed => exact .inl (adds_log s rfl)
  | taken => exact .inl (s.adds_withTimers _ rfl)
  | clocked => exact .inl (adds_of_journal_eq _ rfl)
  | woke => exact .inl (adds_log s rfl)
  | drained => exact .inl (adds_log s rfl)

/-- Why a deferred event was armed, behind the given entries, on the way from one service to
another. -/
inductive Asked (s r : Service κ) (before : List (Entry κ)) (t : Timer) : Prop
  | caller {u v : Service κ} {event : Event} {delay : Duration} {ts : List Timer}
      (hu : Steps s u) (hs : u.status = .running) (hcall : u.sendAfter event delay = .completed v)
      (hv : Steps v r) (hpromises : u.Promises (event, delay) t)
      (hbefore : before = u.journal ++ [.cancelled ts])
  | action {u v : Service κ} {run : ActionFn κ} {event : Event} {request : Event × Duration}
      {ts : List Timer} (hu : Steps s u)
      (hrequest : Calling.request? ⟨run, u.current.context, event⟩ = some request)
      (hcall : u.perform run event = .completed v) (hv : Steps v r)
      (hpromises : u.Promises request t)
      (hbefore : before =
        u.journal ++ [.called run u.current.context event, .cancelled ts])

/-- A call that asks for a delivery, behind the given entries, is followed by the arming. -/
def Answered (s : Service κ) (before : List (Entry κ)) (request : Event × Duration)
    (after : List (Entry κ)) : Prop :=
  ∃ u, Steps s u ∧ u.journal = before ∧
    (u.now.add? request.2 = none ∨
      ∃ ts t rest, u.Promises request t ∧ after = .cancelled ts :: .armed t :: rest)

variable {s r : Service κ} {before after : List (Entry κ)}

/-- Each entry was written by a step on the way from where nothing was written. -/
theorem Steps.writer (h : Steps s r) (hs : s.journal = []) {e : Entry κ}
    (hr : r.journal = before ++ e :: after) :
    ∃ u v first rest, Steps s u ∧ Step u v ∧ Steps v r ∧ before = u.journal ++ first ∧
      v.journal = u.journal ++ (first ++ e :: rest) := by
  have hgrows (u v : Service κ) (hstep : Step u v) : Adds (fun _ => True) u v :=
    hstep.continues.journal
  have hjournal : r.journal = s.journal ++ (before ++ e :: after) := by
    rw [hr, hs, List.nil_append]
  obtain ⟨u, v, first, rest, hu, hstep, hv, hbefore, hwrote⟩ := exists_writer hgrows h hjournal
  rw [hs, List.nil_append] at hbefore
  exact ⟨u, v, first, rest, hu, hstep, hv, hbefore, hwrote⟩

/-- Every deferred event that was armed was asked for. -/
theorem Steps.asked (h : Steps s r) (hs : s.journal = []) {t : Timer}
    (ht : t.task.isDelayed = false) (hr : r.journal = before ++ .armed t :: after) :
    Asked s r before t := by
  obtain ⟨u, v, first, rest, hu, hstep, hv, hbefore, hwrote⟩ := h.writer hs hr
  rcases hstep.asks_or with ⟨new, hnew, hnone⟩ | ⟨event, delay, hrunning, rfl⟩ |
    ⟨run, event, request, hrequest, rfl⟩
  · obtain rfl := List.append_cancel_left (hwrote.symm.trans hnew)
    have := hnone (.armed t) (by simp)
    simp [Entry.asks, ht] at this
  · obtain ⟨w, ts, ho, hpromises, rfl⟩ :=
      (asks_defer event delay u).armed (by simp) hwrote
    have hcall : u.sendAfter event delay = .completed w :=
      (if_pos (isRunning_iff.2 hrunning)).trans ho
    rw [ho] at hv
    exact .caller hu hrunning hcall hv hpromises hbefore
  · obtain ⟨w, ts, ho, hpromises, rfl⟩ := (asks_perform hrequest).armed (by simp) hwrote
    rw [ho] at hv
    exact .action hu hrequest ho hv hpromises hbefore

/-- Every delivery that an action asked for was armed, unless it has no deadline. -/
theorem Steps.answered (h : Steps s r) (hs : s.journal = []) {run : ActionFn κ}
    {context : Option κ} {event : Event} {request : Event × Duration}
    (hrequest : Calling.request? ⟨run, context, event⟩ = some request)
    (hr : r.journal = before ++ .called run context event :: after) :
    Answered s before request after := by
  obtain ⟨u, v, first, rest, hu, hstep, hv, hbefore, hwrote⟩ := h.writer hs hr
  rcases hstep.asks_or with ⟨new, hnew, hnone⟩ | ⟨later, delay, _, rfl⟩ |
    ⟨run', event', request', hrequest', rfl⟩
  · obtain rfl := List.append_cancel_left (hwrote.symm.trans hnew)
    have := hnone (.called run context event) (by simp)
    simp [Entry.asks, hrequest] at this
  · have hmem := (asks_defer later delay u).mem hwrote (e := .called run context event) (by simp)
    simp at hmem
  · obtain ⟨rfl, he, hanswer⟩ := (asks_perform hrequest').called hwrote
    obtain ⟨rfl, rfl, rfl⟩ := Entry.called.inj he
    obtain rfl := Option.some.inj (hrequest'.symm.trans hrequest)
    rw [List.append_nil] at hbefore
    obtain ⟨more, hmore, _⟩ := (Steps.continues hv).journal
    have hafter : after = rest ++ more := by
      rw [hmore, hwrote, hbefore, List.nil_append, List.append_assoc, List.cons_append] at hr
      exact (List.cons.inj (List.append_cancel_left hr)).2.symm
    refine ⟨u, hu, hbefore.symm, hanswer.imp_right ?_⟩
    rintro ⟨ts, t, hpromises, rfl⟩
    exact ⟨ts, t, more, hpromises, hafter⟩

end Service
end TimedMachine

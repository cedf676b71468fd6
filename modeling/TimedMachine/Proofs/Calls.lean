import TimedMachine.Proofs.Actions

/-!
What running actions does, exactly. The functions that the actions stand for are called once each, in
order, on one event, each with the context that the assignments of those before it leave; and of the
deliveries that they ask for the last one waits in the end (`ends_execute_performs`). A run that is
cut short has made the first of these calls, and no others.
-/
namespace TimedMachine

variable {κ : Type}

/-- A function that was called, with what it was shown. -/
structure Calling (κ : Type) where
  run : ActionFn κ
  context : Option κ
  event : Event

/-- The delivery that a call asks for. -/
def Calling.request? (c : Calling κ) : Option (Event × Duration) :=
  match (c.run c.context c.event).effect with
  | .send later delay => some (later, delay)
  | _ => none

def Entry.calling? : Entry κ → Option (Calling κ)
  | .called run context event => some ⟨run, context, event⟩
  | _ => none

/-- The calls among the entries. -/
def callings (es : List (Entry κ)) : List (Calling κ) := es.filterMap Entry.calling?

/-- What is written while actions run: calls, names that stand for no function, and the cancelling and
arming of deferred events. -/
def Entry.isDoing : Entry κ → Bool
  | .called .. | .unresolved _ => true
  | .armed t => !t.task.isDelayed
  | .cancelled ts => ts.all fun t => !t.task.isDelayed
  | _ => false

/-- The functions that the actions stand for; a name that stands for none is left out. -/
def Options.functions (o : Options κ) (actions : List (Action κ)) : List (ActionFn κ) :=
  actions.filterMap o.resolve

/-- The context after functions were called in order, each on the context left by those before it. -/
def contextAfter (event : Event) (context : Option κ) (runs : List (ActionFn κ)) : Option κ :=
  runs.foldl (fun context run => (run context event).effect.applyTo context) context

/-- The calls of functions in order: each is shown the context after those before it. -/
def callsOf (event : Event) (context : Option κ) (runs : List (ActionFn κ)) : List (Calling κ) :=
  runs.mapIdx fun i run => ⟨run, contextAfter event context (runs.take i), event⟩

theorem contextAfter_append (event : Event) (context : Option κ) (runs more : List (ActionFn κ)) :
    contextAfter event context (runs ++ more) =
      contextAfter event (contextAfter event context runs) more := List.foldl_append

theorem callsOf_cons (event : Event) (context : Option κ) (run : ActionFn κ)
    (rest : List (ActionFn κ)) :
    callsOf event context (run :: rest) =
      ⟨run, context, event⟩ ::
        callsOf event ((run context event).effect.applyTo context) rest := by
  rw [callsOf, List.mapIdx_cons]
  rfl

theorem callsOf_append (event : Event) (context : Option κ) (runs more : List (ActionFn κ)) :
    callsOf event context (runs ++ more) =
      callsOf event context runs ++ callsOf event (contextAfter event context runs) more := by
  induction runs generalizing context with
  | nil => rfl
  | cons run rest ih =>
    rw [List.cons_append, callsOf_cons, callsOf_cons, ih]
    rfl

theorem callings_append (es fs : List (Entry κ)) : callings (es ++ fs) = callings es ++ callings fs :=
  List.filterMap_append

namespace TimerQueue

/-- The deferred events that wait. -/
def sends (q : TimerQueue) : List Timer := q.pending.filter (fun t => !t.task.isDelayed)

/-- Deliveries were asked for in turn at one clock reading: the last of them waits in the end, or
without any, what waited before. -/
def Defers (q r : TimerQueue) (requests : List (Event × Duration)) : Prop :=
  match requests.getLast? with
  | none => r.sends = q.sends
  | some (later, delay) => ∃ t, r.sends = [t] ∧ t.task = .deferred later ∧
      q.now.add? delay = some t.key.deadline

theorem defers_nil {q r : TimerQueue} (h : r.sends = q.sends) : q.Defers r [] := h

/-- Only the deferred events that wait matter, and the clock. -/
theorem Defers.of_eq {q q' r r' : TimerQueue} {requests : List (Event × Duration)}
    (h : q.Defers r requests) (hsends : q'.sends = q.sends) (hnow : q'.now = q.now)
    (hafter : r'.sends = r.sends) : q'.Defers r' requests := by
  unfold Defers at *
  rw [hsends, hnow, hafter]
  exact h

theorem Defers.append {q r u : TimerQueue} {requests more : List (Event × Duration)}
    (h : q.Defers r requests) (k : r.Defers u more) (hnow : r.now = q.now) :
    q.Defers u (requests ++ more) := by
  unfold Defers at *
  rw [List.getLast?_append]
  cases hlast : more.getLast? with
  | none =>
    rw [hlast] at k
    simpa [k] using h
  | some request =>
    rw [hlast, hnow] at k
    exact k

theorem sends_cancelDelayed (q : TimerQueue) : q.cancelDelayed.sends = q.sends := by
  rw [sends, sends, cancelDelayed, keep, List.filter_filter]
  simp

/-- Among delayed transitions alone a deferred event is the only one of its kind. -/
theorem filter_place_deferred {t : Timer} (h : t.task.isDelayed = false) {l : List Timer}
    (hl : ∀ u ∈ l, u.task.isDelayed = true) :
    (t.place l).filter (fun u => !u.task.isDelayed) = [t] := by
  induction l with
  | nil => simp [Timer.place, h]
  | cons u rest ih =>
    have hu := hl u List.mem_cons_self
    have hrest : ∀ v ∈ rest, v.task.isDelayed = true := fun v hv => hl v (List.mem_cons_of_mem _ hv)
    rw [Timer.place]
    split
    · have hnone : rest.filter (fun v => !v.task.isDelayed) = [] :=
        List.filter_eq_nil_iff.2 fun v hv => by simp [hrest v hv]
      simp [h, hu, hnone]
    · simp [hu, ih hrest]

theorem pending_of_arm? {q r : TimerQueue} {delay : Duration} {task : Task} {t : Timer}
    (h : q.arm? delay task = some (t, r)) : r.pending = t.place q.pending := by
  unfold arm? at h
  split at h
  · cases h
  · cases h
    rfl

/-- A delayed transition takes its place among the deferred events without moving any of them. -/
theorem sends_of_arm? {q r : TimerQueue} {delay : Duration} {task : Task} {t : Timer}
    (h : q.arm? delay task = some (t, r)) (htask : task.isDelayed = true) : r.sends = q.sends := by
  have ht : t.task.isDelayed = true := by rw [(arms_of_arm? h).task, htask]
  rw [sends, sends, pending_of_arm? h]
  generalize q.pending = l
  induction l with
  | nil => simp [Timer.place, ht]
  | cons u rest ih =>
    rw [Timer.place]
    split
    · rw [List.filter_cons_of_neg (by simp [ht])]
    · rw [List.filter_cons, List.filter_cons, ih]

theorem sends_of_defer? {q r : TimerQueue} {event : Event} {delay : Duration} {t : Timer}
    (hd : q.defer? event delay = some (t, r)) (h : q.Slot) : r.sends = [t] := by
  obtain ⟨armed, harm, rfl⟩ := defer?_eq_some hd
  have htask : t.task.isDelayed = false := by
    rw [(arms_of_arm? harm).task]
    rfl
  show armed.sends = [t]
  rw [sends, pending_of_arm? harm]
  exact filter_place_deferred htask fun u hu => (h.mem_cancelDeferred.1 hu).2

theorem defers_of_defer? {q r : TimerQueue} {event : Event} {delay : Duration} {t : Timer}
    (hd : q.defer? event delay = some (t, r)) (h : q.Slot) : q.Defers r [(event, delay)] := by
  have hsends := sends_of_defer? hd h
  obtain ⟨armed, harm, rfl⟩ := defer?_eq_some hd
  have ha := arms_of_arm? harm
  have hnow : q.cancelDeferred.now = q.now := q.leads_cancelDeferred.now
  exact ⟨t, hsends, ha.task, hnow ▸ ha.deadline⟩

end TimerQueue

namespace Service

/-- The journal has grown by the given calls, and otherwise only by what is written while actions
run. -/
def Calls (s r : Service κ) (calls : List (Calling κ)) : Prop :=
  ∃ es, r.journal = s.journal ++ es ∧ callings es = calls ∧ ∀ e ∈ es, e.isDoing = true

theorem Calls.trans {s r u : Service κ} {calls more : List (Calling κ)} (h : s.Calls r calls)
    (k : r.Calls u more) : s.Calls u (calls ++ more) := by
  obtain ⟨es, hr, hcalls, hes⟩ := h
  obtain ⟨fs, hu, hmore, hfs⟩ := k
  exact ⟨es ++ fs, by rw [hu, hr, List.append_assoc], by rw [callings_append, hcalls, hmore],
    List.forall_mem_append.2 ⟨hes, hfs⟩⟩

theorem calls_of_journal_eq {s r : Service κ} (h : r.journal = s.journal) : s.Calls r [] :=
  ⟨[], by simpa using h, rfl, by simp⟩

theorem calls_log (s : Service κ) {e : Entry κ} (hdoing : e.isDoing = true) :
    s.Calls (s.log e) (callings [e]) := ⟨[e], s.journal_log e, rfl, by simpa using hdoing⟩

theorem calls_withTimers (s : Service κ) (timers : TimerQueue) {e : Entry κ}
    (hdoing : e.isDoing = true) (hcalling : e.calling? = none) :
    s.Calls (s.withTimers timers e) [] :=
  ⟨[e], s.journal_withTimers timers e, by simp [callings, hcalling], by simpa using hdoing⟩

/-- What has come of calling functions in turn. -/
structure Performs (event : Event) (runs : List (ActionFn κ)) (s r : Service κ) : Prop
    extends s.Stays r where
  context : r.current.context = contextAfter event s.current.context runs
  calls : s.Calls r (callsOf event s.current.context runs)
  defers : s.timers.Defers r.timers
    ((callsOf event s.current.context runs).filterMap Calling.request?)

/-- What has come of calling functions in turn, as far as it went. -/
def Attempts (event : Event) (runs : List (ActionFn κ)) (s r : Service κ) : Prop :=
  ∃ calls, s.Calls r calls ∧ calls <+: callsOf event s.current.context runs

theorem performs_nil (event : Event) (s : Service κ) : Performs event [] s s where
  toStays := .refl s
  context := rfl
  calls := calls_of_journal_eq rfl
  defers := TimerQueue.defers_nil rfl

theorem Performs.append {event : Event} {runs more : List (ActionFn κ)} {s r u : Service κ}
    (h : Performs event runs s r) (k : Performs event more r u) :
    Performs event (runs ++ more) s u where
  toStays := h.toStays.trans k.toStays
  context := by rw [k.context, h.context, contextAfter_append]
  calls := by
    rw [callsOf_append, ← h.context]
    exact h.calls.trans k.calls
  defers := by
    rw [callsOf_append, List.filterMap_append, ← h.context]
    exact h.defers.append k.defers h.timers.now

theorem Attempts.append {event : Event} {runs : List (ActionFn κ)} {s r : Service κ}
    (h : Attempts event runs s r) (more : List (ActionFn κ)) :
    Attempts event (runs ++ more) s r := by
  obtain ⟨calls, hcalls, hpre⟩ := h
  refine ⟨calls, hcalls, hpre.trans ?_⟩
  rw [callsOf_append]
  exact List.prefix_append _ _

theorem Performs.attempts {event : Event} {runs more : List (ActionFn κ)} {s r u : Service κ}
    (h : Performs event runs s r) (k : Attempts event more r u) :
    Attempts event (runs ++ more) s u := by
  obtain ⟨calls, hcalls, hpre⟩ := k
  refine ⟨_, h.calls.trans hcalls, ?_⟩
  rw [callsOf_append, ← h.context]
  exact (List.prefix_append_right_inj _).2 hpre

theorem performs_skip (event : Event) (name : String) (s : Service κ) :
    Performs event [] s (s.log (.unresolved name)) where
  toStays := s.stays_log rfl
  context := rfl
  calls := s.calls_log rfl
  defers := TimerQueue.defers_nil rfl

theorem calls_cancelDeferred {s : Service κ} (hs : s.timers.Slot) : s.Calls s.cancelDeferred [] := by
  refine s.calls_withTimers _ ?_ rfl
  -- The timer under the key that the queue knows of is a deferred event.
  simp only [Entry.isDoing, List.all_filter, List.all_eq_true, Bool.or_eq_true, Bool.not_eq_true',
    decide_eq_false_iff_not]
  intro t ht
  by_cases hkey : s.timers.deferred = some t.key
  · obtain ⟨u, hu, huk, hutask⟩ := (hs.known t.key).1 hkey
    rw [← TimerQueue.eq_of_key_eq hu ht huk]
    exact .inr hutask
  · exact .inl hkey

/-- A delivery that is asked for takes the place of the one that waits, which is cancelled in any
case. -/
theorem ends_defer_calls {s : Service κ} (hs : s.timers.Slot) (event : Event) (delay : Duration) :
    (s.defer event delay).Ends
      (fun r => s.Calls r [] ∧ r.current = s.current ∧
        s.timers.Defers r.timers [(event, delay)])
      (fun r => s.Calls r []) := by
  have hcleared := calls_cancelDeferred hs
  unfold defer
  split
  · exact hcleared
  · rename_i t timers hdefer
    have htask : t.task.isDelayed = false := by
      obtain ⟨armed, harm, rfl⟩ := TimerQueue.defer?_eq_some hdefer
      rw [(TimerQueue.arms_of_arm? harm).task]
      rfl
    have harmed : s.cancelDeferred.Calls (s.cancelDeferred.withTimers timers (.armed t)) [] :=
      calls_withTimers _ timers (by simp [Entry.isDoing, htask]) rfl
    exact ⟨hcleared.trans harmed, rfl, TimerQueue.defers_of_defer? hdefer hs⟩

theorem context_assign (update : κ → κ) (s : Service κ) :
    (s.assign update).current.context = s.current.context.map update := by
  unfold assign
  split
  · rename_i hcontext
    simp [hcontext]
  · rename_i hcontext
    simp [hcontext, withCurrent]

@[simp] theorem journal_assign (update : κ → κ) (s : Service κ) :
    (s.assign update).journal = s.journal := by
  unfold assign
  split <;> rfl

@[simp] theorem timers_assign (update : κ → κ) (s : Service κ) :
    (s.assign update).timers = s.timers := by
  unfold assign
  split <;> rfl

/-- A call does what its function asks for. -/
theorem ends_perform (run : ActionFn κ) (event : Event) {s : Service κ} (hs : s.timers.Slot) :
    (s.perform run event).Ends (Performs event [run] s) (Attempts event [run] s) := by
  have hcalls : callsOf event s.current.context [run] = [⟨run, s.current.context, event⟩] := by
    simp [callsOf, contextAfter]
  have hcontext : contextAfter event s.current.context [run] =
      (run s.current.context event).effect.applyTo s.current.context := rfl
  let called := s.log (.called run s.current.context event)
  have hcalled : s.Calls called [⟨run, s.current.context, event⟩] := s.calls_log rfl
  have hstays := Outcome.ends_of_service (s.stays_perform run event)
  cases heffect : (run s.current.context event).effect with
  | done =>
    have hperform : s.perform run event = .completed called := by simp [perform, heffect, called]
    rw [hperform] at hstays ⊢
    refine ⟨hstays, ?_, hcalls ▸ hcalled, ?_⟩
    · rw [hcontext, heffect]
      rfl
    · have hsame : called.timers.sends = s.timers.sends := rfl
      simpa [hcalls, Calling.request?, heffect] using TimerQueue.defers_nil hsame
  | assign update =>
    have hperform : s.perform run event = .completed (called.assign update) := by
      simp [perform, heffect, called]
    rw [hperform] at hstays ⊢
    refine ⟨hstays, ?_, ?_, ?_⟩
    · rw [hcontext, heffect]
      exact context_assign update called
    · have hassigned : called.Calls (called.assign update) [] :=
        calls_of_journal_eq (journal_assign update called)
      exact hcalls ▸ hcalled.trans hassigned
    · have hsame : (called.assign update).timers.sends = s.timers.sends := by
        rw [timers_assign]
        rfl
      simpa [hcalls, Calling.request?, heffect] using TimerQueue.defers_nil hsame
  | send later delay =>
    have hperform : s.perform run event = called.defer later delay := by
      simp [perform, heffect, called]
    rw [hperform] at hstays ⊢
    have hdeferred := ends_defer_calls (s := called) hs later delay
    refine (hstays.and hdeferred).imp ?_ ?_
    · rintro r ⟨hstays, hnone, hcurrent, hdefers⟩
      refine ⟨hstays, ?_, hcalls ▸ hcalled.trans hnone, ?_⟩
      · rw [hcontext, heffect, hcurrent]
        rfl
      · have hdefers : s.timers.Defers r.timers [(later, delay)] := hdefers
        simpa [hcalls, Calling.request?, heffect] using hdefers
    · rintro r ⟨_, hnone⟩
      exact ⟨_, hcalled.trans hnone, by simp [hcalls]⟩

/-- Running actions calls the functions they stand for, once each and in order. -/
theorem ends_execute_performs (event : Event) (actions : List (Action κ)) {s : Service κ}
    (hs : s.timers.Slot) :
    (execute event actions s).Ends (Performs event (s.options.functions actions) s)
      (Attempts event (s.options.functions actions) s) := by
  induction actions generalizing s with
  | nil => exact performs_nil event s
  | cons action rest ih =>
    rw [execute]
    cases hrun : s.options.resolve action with
    | none =>
      have hskipped := s.performs_skip event (action.name?.getD "")
      have hfunctions : s.options.functions (action :: rest) = [] ++ s.options.functions rest := by
        rw [Options.functions, List.filterMap_cons_none hrun]
        rfl
      have ih := ih (s := s.log (.unresolved (action.name?.getD ""))) hs
      rw [hfunctions]
      exact ih.imp (fun _ h => hskipped.append h) (fun _ h => hskipped.attempts h)
    | some run =>
      have hfunctions : s.options.functions (action :: rest) = [run] ++ s.options.functions rest := by
        rw [Options.functions, List.filterMap_cons_some hrun]
        rfl
      rw [hfunctions]
      refine ((s.ends_perform run event hs).imp (fun _ h => h) fun _ h => h.append _).andThen
        fun r hr => ?_
      have ih := ih (hr.slot hs)
      rw [hr.options] at ih
      exact ih.imp (fun _ h => hr.append h) (fun _ h => hr.attempts h)

end Service
end TimedMachine

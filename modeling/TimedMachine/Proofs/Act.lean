import TimedMachine.Proofs.Protocol
import TimedMachine.Proofs.Step
import TimedMachine.Session

/-!
What a service does in operations, one `Act` at a time: a whole commit, with what triggered it, or
any number of steps in which nothing is committed. Every run of operations is a chain of acts
(`acts_run`), whether or not it completes. So each record in the journal leads back to the commit that
wrote it, and with it to the whole protocol of that commit (`Acts.recounts`).
-/
namespace TimedMachine

variable {κ : Type}

theorem Entry.record?_of_isWork (e : Entry κ) (h : e.isWork = true) : e.record? = none := by
  cases e <;> simp [Entry.isWork, Entry.record?] at *

/-- The entry tells that an event was taken up: a caller's, or one that was deferred. -/
def Entry.Brings (event : Event) : Entry κ → Prop
  | .accepted e => e = event
  | .fired t _ => t.task = .deferred event
  | _ => False

/-- What is written between the taking up of an event and the commit that it triggers. -/
def Entry.isAsking : Entry κ → Bool
  | .cancelled _ | .judged .. => true
  | _ => false

namespace Service

/-- An event has been taken up, and all that was done with it is to ask whether it may lead on. -/
def Brought (event : Event) (s : Service κ) : Prop :=
  ∃ before e asking, s.journal = before ++ e :: asking ∧ e.Brings event ∧
    ∀ a ∈ asking, a.isAsking = true

theorem Brought.adds {event : Event} {s r : Service κ} (h : s.Brought event)
    (hadds : Adds (fun a => a.isAsking = true) s r) : r.Brought event := by
  obtain ⟨before, e, asking, hs, he, hasking⟩ := h
  obtain ⟨new, hr, hnew⟩ := hadds
  exact ⟨before, e, asking ++ new, by simp [hr, hs], he, List.forall_mem_append.2 ⟨hasking, hnew⟩⟩

/-- A timer has been taken, and nothing was done yet. -/
def Took (t : Timer) (s : Service κ) : Prop := ∃ before, s.journal = before ++ [.fired t s.now]

theorem Took.brought {t : Timer} {event : Event} {s : Service κ} (h : s.Took t)
    (htask : t.task = .deferred event) : s.Brought event := by
  obtain ⟨before, hs⟩ := h
  exact ⟨before, _, [], hs, htask, by simp⟩

/-- Why a transition is committed, and on which event: a handler of the event that was taken up, a
delayed transition that has just fired, or the first eventless one that is admitted. -/
inductive Triggers (s : Service κ) : String → List (Action κ) → Event → Prop
  | event {event : Event} {next : Snapshot κ} (hevent : s.Brought event)
      (hnext : s.machine.transition? (.snapshot s.current) event = some next)
      (hchanged : next.changed = true) : Triggers s next.value next.actions event
  | delayed {t : Timer} {index : Nat} {d : Delayed κ} (htook : s.Took t)
      (htask : t.task = .delayed s.current.value index)
      (hd : (s.machine.afterOf s.current.value)[index]? = some d)
      (hother : d.target ≠ s.current.value) (hdecl : s.machine.declares d.target = true) :
      Triggers s d.target d.actions (.after d.delay s.current.value)
  | eventless {t : Eventless κ}
      (hfirst : (s.machine.alwaysOf s.current.value).find? (·.enabled s.current) = some t)
      (hdecl : s.machine.declares t.target = true) :
      Triggers s t.target t.actions (.always s.current.value)

theorem Triggers.offers {s : Service κ} {target : String} {actions : List (Action κ)}
    {event : Event} (h : s.Triggers target actions event) :
    s.machine.Offers s.current.value target actions := by
  cases h with
  | event _ hnext =>
    obtain ⟨c, hc, hnext⟩ := Machine.transition?_eq_some hnext
    obtain ⟨node, handler, target, hnode, hhandler, htarget, _, rfl⟩ :=
      Machine.candidate?_eq_some_iff.1 hc
    exact hnext ▸ .event hnode hhandler htarget
  | delayed _ _ hd _ hdecl => exact .delayed (List.mem_of_getElem? hd) hdecl
  | eventless hfirst hdecl => exact .eventless (List.mem_of_find?_eq_some hfirst) hdecl

/-- A commit, or steps in which nothing is committed. -/
inductive Act : Service κ → Service κ → Prop
  | committed {s : Service κ} {target : String} {actions : List (Action κ)} {event : Event}
      (htriggers : s.Triggers target actions event) :
      Act s (s.commit target actions event).service
  | plain {s r : Service κ} (hsteps : Steps s r) (hadds : Adds (fun e => e.record? = none) s r) :
      Act s r

/-- Any number of acts. -/
abbrev Acts : Service κ → Service κ → Prop := Relation.ReflTransGen Act

theorem Act.steps {s r : Service κ} (h : Act s r) : Steps s r := by
  cases h with
  | committed htriggers => exact (moves_commit _ htriggers.offers).steps
  | plain hsteps => exact hsteps

theorem Acts.steps {s r : Service κ} (h : Acts s r) : Steps s r := by
  induction h with
  | refl => exact .refl
  | tail _ hact ih => exact ih.trans hact.steps

theorem Acts.andThen {s : Service κ} {o : Outcome κ} {next : Service κ → Outcome κ}
    (h : Acts s o.service) (k : ∀ r : Service κ, Acts r (next r).service) :
    Acts s (o.andThen next).service :=
  Outcome.service_andThen (R := Acts) Relation.ReflTransGen.trans h fun r _ => k r

theorem Moves.acts {s r : Service κ} (h : Moves s r) (hadds : Adds (fun e => e.record? = none) s r) :
    Acts s r := .single (.plain h.steps hadds)

theorem Step.acts {s r : Service κ} (h : Step s r) (hadds : Adds (fun e => e.record? = none) s r) :
    Acts s r := .single (.plain (.single h) hadds)

/-- Only what was asked is written when conditions are asked. -/
theorem adds_weigh {p : Entry κ → Prop} (hp : ∀ condition snapshot, p (.weighed condition snapshot))
    (ts : List (Eventless κ)) (s : Service κ) : Adds p s (s.weigh ts) :=
  weigh_keeps (.refl p s) fun r _ _ _ _ hr => hr.trans (adds_log r (hp _ _))

theorem acts_weigh (s : Service κ) : Acts s (s.weigh (s.machine.alwaysOf s.current.value)) :=
  (moves_weigh s).acts (adds_weigh (fun _ _ => rfl) _ s)

theorem acts_execute (event : Event) {actions : List (Action κ)} {s : Service κ}
    (h : ∀ a ∈ actions, s.machine.Mentions a) : Acts s (execute event actions s).service :=
  (moves_execute event h).acts ((stays_execute _ _ _).entries.imp Entry.record?_of_isWork)

theorem acts_armDelayed (s : Service κ) : Acts s s.armDelayed.service :=
  (moves_armDelayed s).acts ((arming_armEach _ _ _ s).entries.imp Entry.record?_of_isWork)

/-- The first admitted transition triggers a commit once all conditions up to its own were asked. -/
theorem triggers_weigh {s : Service κ} {t : Eventless κ}
    (hfirst : (s.machine.alwaysOf s.current.value).find? (·.enabled s.current) = some t)
    (hdecl : s.machine.declares t.target = true) :
    (s.weigh (s.machine.alwaysOf s.current.value)).Triggers t.target t.actions
      (.always s.current.value) := by
  have hmachine := (follows_weigh (s.machine.alwaysOf s.current.value) s).machine
  have hcurrent := current_weigh (s.machine.alwaysOf s.current.value) s
  have htriggers : (s.weigh (s.machine.alwaysOf s.current.value)).Triggers t.target t.actions
      (.always (s.weigh (s.machine.alwaysOf s.current.value)).current.value) :=
    .eventless (by rw [hmachine, hcurrent]; exact hfirst) (by rw [hmachine]; exact hdecl)
  rwa [hcurrent] at htriggers

theorem acts_settle (visited : List String) (s : Service κ) : Acts s (settle visited s).service := by
  have hcommit {s : Service κ} {t : Eventless κ}
      (hfind : (s.machine.alwaysOf s.current.value).find? (·.enabled s.current) = some t)
      (hdecl : s.machine.declares t.target = true) :
      Acts s ((s.weigh (s.machine.alwaysOf s.current.value)).commit t.target t.actions
        (.always s.current.value)).service :=
    (acts_weigh s).tail (.committed (triggers_weigh hfind hdecl))
  fun_induction settle visited s with
  | case1 => exact .refl
  | case2 => exact .refl
  | case3 visited s => exact acts_weigh s
  | case4 visited s _ _ ts t hfind hdecl r hstep =>
    have hr := hcommit hfind hdecl
    rw [hstep] at hr
    exact hr
  | case5 visited s _ _ ts t hfind hdecl r hstep _ _ ih =>
    have hr := hcommit hfind hdecl
    rw [hstep] at hr
    exact hr.trans ih
  | case6 visited s _ _ ts t hfind hnot =>
    have hlost := moves_astray (List.mem_of_find?_eq_some hfind) (by simpa using hnot)
    exact hlost.acts ((adds_weigh (fun _ _ => rfl) _ s).trans (adds_log _ rfl))

theorem adds_judge {p : Entry κ → Prop} (hp : ∀ guard snapshot event, p (.judged guard snapshot event))
    (c : Candidate κ) (event : Event) (s : Service κ) : Adds p s (s.judge c event) := by
  unfold judge
  split
  · exact .refl p s
  · exact adds_log s (hp _ _ _)

section

variable [BEq κ]

theorem acts_stay {c : Candidate κ} {event : Event} {s : Service κ}
    (h : s.machine.candidate? s.current event = some c) (hsame : c.next.changed = false) :
    Acts s (s.stay c.next event).service := by
  refine (moves_stay h hsame).acts ?_
  have htaken : Adds (fun e => e.record? = none) s (s.withCurrent c.next) := adds_of_journal_eq _ rfl
  have hrun : Adds (fun e => e.record? = none) (s.withCurrent c.next)
      (execute event c.next.actions (s.withCurrent c.next)).service :=
    (stays_execute _ _ _).entries.imp Entry.record?_of_isWork
  refine (htaken.trans hrun).andThen fun r => ?_
  split
  · exact .refl _ r
  · exact adds_log (r.withCurrent _) rfl

theorem acts_proceed {c : Candidate κ} {event : Event} {s : Service κ} (hevent : s.Brought event)
    (h : s.machine.candidate? s.current event = some c)
    (hholds : (c.verdict s.current event).holds = true) :
    Acts s (s.proceed c.next event).service := by
  unfold proceed
  split
  · rename_i hchanged
    have hnext := Machine.transition?_of_candidate? h hholds
    exact Acts.andThen (.single (.committed (.event hevent hnext hchanged))) fun r => acts_settle [] r
  · rename_i hsame
    exact acts_stay h (Bool.eq_false_iff.2 hsame)

theorem acts_deliver {event : Event} {s : Service κ} (hevent : s.Brought event) :
    Acts s (s.deliver event).service := by
  unfold deliver
  have hcleared : Acts s s.cancelDeferred := Step.acts (.own .cleared) (s.adds_withTimers _ rfl)
  refine hcleared.trans ?_
  dsimp only
  split
  · exact .refl
  · rename_i c hc
    have hjudged := (moves_judge hc).acts (adds_judge (fun _ _ _ => rfl) c event _)
    split
    · rename_i hholds
      have hmachine : (s.cancelDeferred.judge c event).machine = s.cancelDeferred.machine :=
        (follows_judge _ _ _).machine
      have hasked : Adds (fun a => a.isAsking = true) s (s.cancelDeferred.judge c event) := by
        have hcleared : Adds (fun a => a.isAsking = true) s s.cancelDeferred :=
          s.adds_withTimers _ rfl
        exact hcleared.trans (adds_judge (fun _ _ _ => rfl) c event _)
      refine hjudged.trans (acts_proceed (hevent.adds hasked) ?_ ?_)
      · rw [hmachine, current_judge]
        exact hc
      · rw [current_judge]
        exact hholds
    · exact hjudged

theorem acts_fire {t : Timer} {s : Service κ} (htook : s.Took t) : Acts s (s.fire t).service := by
  have hupshot := upshot_fire t s
  generalize s.fire t = o at hupshot ⊢
  cases hupshot with
  | delivered htask => exact acts_deliver (htook.brought htask)
  | unheard => exact .refl
  | lapsed htask hwhy => exact Step.acts (.lapsed htask hwhy) (adds_log s rfl)
  | left htask hd hother hdecl =>
    exact Acts.andThen (.single (.committed (.delayed htook htask hd hother hdecl)))
      fun r => acts_settle [] r

/-- A timer is taken, and what it is for is done. -/
theorem acts_turn {limit : Duration} {horizon : Nat} {s : Service κ} {t : Timer} {timers : TimerQueue}
    (hpop : s.timers.popDue? limit horizon = some (t, timers)) :
    Acts s ((s.taken t timers).fire t).service := by
  have htaken : Acts s (s.taken t timers) := Step.acts (.taken hpop) (s.adds_withTimers _ rfl)
  exact htaken.trans (acts_fire ⟨s.journal, s.journal_withTimers timers _⟩)

theorem acts_drain (limit : Duration) (horizon : Nat) (s : Service κ)
    (h : horizon ≤ s.timers.nextId) : Acts s (drain limit horizon s h).service := by
  fun_induction drain limit horizon s h with
  | case1 => exact .refl
  | case2 s _ t timers hpop r hfire =>
    have hr := acts_turn hpop
    rw [hfire] at hr
    exact hr
  | case3 s _ t timers hpop r hfire _ _ _ ih =>
    have hr := acts_turn hpop
    rw [hfire] at hr
    exact hr.trans ih

theorem acts_advance (time : Duration) (s : Service κ) : Acts s (s.advance time).service := by
  unfold advance
  split
  · exact .refl
  · exact (acts_drain _ _ s _).andThen fun r => Step.acts .clocked (adds_of_journal_eq _ rfl)

theorem acts_sleep (limit : Duration) (last : Option Duration) (s : Service κ)
    (h : ∀ instant ∈ last, s.timers.NotBefore instant) : Acts s (sleep limit last s h).service := by
  have hawake (s : Service κ) (deadline time : Duration) :
      Acts s ((s.log (.woke deadline)).advance time).service :=
    (Step.acts .woke (adds_log s rfl)).trans (acts_advance time _)
  have hdrained (s : Service κ) : Acts s (s.log (.drained s.now)) :=
    Step.acts .drained (adds_log s rfl)
  fun_induction sleep limit last s h with
  | case1 => exact .refl
  | case2 => exact .refl
  | case3 last s _ deadline _ _ _ awake r hrun =>
    have hr := hawake s deadline (deadline.minus s.now)
    rw [hrun] at hr
    exact hr
  | case4 last s _ deadline _ _ _ awake r hrun _ _ ih =>
    have hr := hawake s deadline (deadline.minus s.now)
    rw [hrun] at hr
    exact (hr.trans (hdrained r)).trans ih
  | case5 => exact .refl

theorem acts_runFor (time : Duration) (s : Service κ) : Acts s (s.runFor time).service := by
  unfold runFor
  split
  · exact .refl
  · exact (acts_sleep _ none s _).andThen fun r => acts_advance _ r

theorem acts_send (event : Event) (s : Service κ) : Acts s (s.send event).service := by
  unfold send
  split
  · rename_i hs
    have haccepted : Acts s (s.log (.accepted event)) :=
      Step.acts (.accepted (isRunning_iff.1 hs)) (adds_log s rfl)
    exact haccepted.trans (acts_deliver ⟨s.journal, _, [], s.journal_log _, rfl, by simp⟩)
  · exact .refl

end

theorem acts_start (s : Service κ) : Acts s s.start.service := by
  unfold start
  split
  · exact .refl
  · rename_i hs
    have hbegun : Acts s ({ s with status := .running }.log (.started s.now)) :=
      Step.acts (.begun (not_isRunning_iff.1 hs)) ⟨[_], journal_log _ _, by simp [Entry.record?]⟩
    refine hbegun.trans (Acts.andThen ?_ fun r => ?_)
    · exact acts_execute .start fun a ha => Machine.mentions_of_entryOf ha
    · exact (acts_armDelayed r).andThen fun u => acts_settle [] u

theorem acts_stop (s : Service κ) : Acts s s.stop := by
  unfold stop
  split
  · rename_i hs
    exact Step.acts (.halted (isRunning_iff.1 hs)) ⟨[_], journal_log _ _, by simp [Entry.record?]⟩
  · exact .refl

theorem acts_sendAfter (event : Event) (delay : Duration) (s : Service κ) :
    Acts s (s.sendAfter event delay).service := by
  unfold sendAfter
  split
  · rename_i hs
    exact Step.acts (.deferred (isRunning_iff.1 hs))
      ((s.stays_defer event delay).entries.imp Entry.record?_of_isWork)
  · exact .refl

/-- What holds of each record in a journal and of the entries before it. -/
def RecordsMeet (p : List (Entry κ) → Record Unit → Prop) (es : List (Entry κ)) : Prop :=
  ∀ before record after, es = before ++ .committed record :: after → p before record

/-- There is only one way to split entries at their only record. -/
theorem recordsMeet_unique {leaving rest : List (Entry κ)} {only : Record Unit}
    (hleaving : ∀ e ∈ leaving, e.record? = none) (hrest : ∀ e ∈ rest, e.record? = none) :
    RecordsMeet (fun before record => before = leaving ∧ record = only)
      (leaving ++ .committed only :: rest) := by
  intro before record after h
  rcases split_append h with ⟨more, hmore, _⟩ | ⟨late, hbefore, hlate⟩
  · have := hleaving (.committed record) (by simp [hmore])
    cases this
  · cases late with
    | nil =>
      obtain ⟨hsame, _⟩ := List.cons.inj hlate
      exact ⟨by simpa using hbefore, (Entry.committed.inj hsame).symm⟩
    | cons e more =>
      obtain ⟨rfl, hmore⟩ := List.cons.inj hlate
      have := hrest (.committed record) (by simp [hmore])
      cases this

/-- A record comes from a commit on the way from one service to another, which was triggered, wrote
the record with the given entries before it, and kept to its protocol. -/
def Recounts (s r : Service κ) (before : List (Entry κ)) (record : Record Unit) : Prop :=
  ∃ u target actions event, Steps s u ∧ u.Triggers target actions event ∧
    record = u.recordOf target event ∧
    (∃ leaving, before = u.journal ++ leaving ∧ u.Leaves event leaving) ∧
    (u.commit target actions event).Ends (Protocol target actions event u)
      (ProtocolCut target actions event u) ∧
    Steps (u.commit target actions event).service r

theorem Leaves.record? {s : Service κ} {event : Event} {es : List (Entry κ)}
    (h : s.Leaves event es) : ∀ e ∈ es, e.record? = none := by
  obtain ⟨exits, rfl, hdoing, _⟩ := h
  exact List.forall_mem_cons.2 ⟨rfl, fun e he => e.record?_of_isDoing (hdoing e he)⟩

/-- The records that one act writes. -/
theorem Act.recounts {s r : Service κ} (h : Act s r) (hs : s.timers.Slot) {new : List (Entry κ)}
    (hr : r.journal = s.journal ++ new) :
    RecordsMeet (fun before record => Recounts s r (s.journal ++ before) record) new := by
  intro before record after hnew
  have hin : .committed record ∈ new := by simp [hnew]
  have hquiet {es : List (Entry κ)} (hes : r.journal = s.journal ++ es)
      (hnone : ∀ e ∈ es, e.record? = none) : False := by
    obtain rfl := List.append_cancel_left (hr.symm.trans hes)
    cases hnone _ hin
  cases h with
  | plain _ hadds =>
    obtain ⟨es, hes, hnone⟩ := hadds
    exact (hquiet hes hnone).elim
  | @committed target actions event htriggers =>
    rcases commit_writes target actions event hs with ⟨leaving, rest, hes, hleaves, hrest⟩ | hadds
    · rw [List.append_assoc] at hes
      obtain rfl := List.append_cancel_left (hr.symm.trans hes)
      obtain ⟨rfl, rfl⟩ := recordsMeet_unique hleaves.record? hrest before record after hnew
      exact ⟨s, target, actions, event, .refl, htriggers, rfl, ⟨before, rfl, hleaves⟩,
        ends_commit_protocol target actions event hs, .refl⟩
    · obtain ⟨es, hes, hnone⟩ := hadds
      exact (hquiet hes hnone).elim

/-- The records that any number of acts write. -/
theorem Acts.recounts {s r : Service κ} (h : Acts s r) (hs : s.timers.Slot)
    {new : List (Entry κ)} (hr : r.journal = s.journal ++ new) :
    RecordsMeet (fun before record => Recounts s r (s.journal ++ before) record) new := by
  intro before record after hnew
  have hgrows (u v : Service κ) (hact : Act u v) : Adds (fun _ => True) u v :=
    (Steps.continues hact.steps).journal
  obtain ⟨u, v, first, rest, hu, hact, hv, hbefore, hwrote⟩ := exists_writer hgrows h (hnew ▸ hr)
  have hslot : u.timers.Slot := Steps.slot (Acts.steps hu) hs
  obtain ⟨w, target, actions, event, hw, htriggers, hrecord, hleft, hends, hreach⟩ :=
    hact.recounts hslot hwrote first record rest rfl
  exact ⟨w, target, actions, event, (Acts.steps hu).trans hw, htriggers, hrecord, hbefore ▸ hleft,
    hends, hreach.trans (Acts.steps hv)⟩

variable [BEq κ]

theorem acts_apply (op : Operation) (s : Service κ) : Acts s (s.apply op).service := by
  cases op with
  | start => exact s.acts_start
  | stop => exact s.acts_stop
  | send event => exact s.acts_send event
  | sendAfter event delay => exact s.acts_sendAfter event delay
  | advance time => exact s.acts_advance time
  | runFor time => exact s.acts_runFor time

theorem acts_run (ops : List Operation) (s : Service κ) : Acts s (run ops s).service := by
  induction ops generalizing s with
  | nil => exact .refl
  | cons op rest ih => exact (s.acts_apply op).andThen ih

theorem steps_apply (op : Operation) (s : Service κ) : Steps s (s.apply op).service :=
  (s.acts_apply op).steps

/-- A run of operations is a chain of steps, whether or not it completes. -/
theorem steps_run (ops : List Operation) (s : Service κ) : Steps s (run ops s).service :=
  (s.acts_run ops).steps

theorem acts_attend (calls : List (Call κ)) (b : Switchboard κ) (s : Service κ) :
    Acts s (attend calls s b).1.service := by
  rw [attend_fst]
  exact s.acts_run _

theorem steps_of_attend {calls : List (Call κ)} {b : Switchboard κ} {s r : Service κ}
    (h : (attend calls s b).1 = .completed r) : Steps s r := by
  have hsteps := Acts.steps (acts_attend calls b s)
  rw [h] at hsteps
  exact hsteps

end Service
end TimedMachine

import TimedMachine.Proofs.Act
import TimedMachine.Proofs.Enduring
import TimedMachine.Proofs.Notification
import TimedMachine.Proofs.Passes

/-!
Which snapshots a service can be on. The state is a declared one if the initial state is; a context is
there exactly if the machine declares one; and the pending actions, if there are any, are those of a
transition that leads to the state (`Snapshot.Fits`). If the initial state is not declared, nothing
ever happens (`Inert`). Both hold in all sessions (`placed_attend`).
-/
namespace TimedMachine

variable {κ : Type}

/-- The snapshot is one that the machine can have led to. -/
structure Snapshot.Fits (m : Machine κ) (s : Snapshot κ) : Prop where
  declared : m.declares m.initialValue = true → m.declares s.value = true
  context : s.context.isSome = m.context.isSome
  /-- The pending actions came with a transition of some state that leads here. -/
  actions : s.actions = [] ∨ ∃ state, m.Offers state s.value s.actions

/-- The snapshot that the entry shows to a guard, a condition or the listeners. -/
def Entry.shown? : Entry κ → Option (Snapshot κ)
  | .judged _ snapshot _ => some snapshot
  | .weighed _ snapshot => some snapshot
  | .notified snapshot => some snapshot
  | _ => none

def Entry.ShowsFitting (m : Machine κ) (e : Entry κ) : Prop :=
  ∀ snapshot, e.shown? = some snapshot → snapshot.Fits m

theorem Entry.showsFitting_of_shown? {m : Machine κ} {e : Entry κ} (h : e.shown? = none) :
    e.ShowsFitting m := by
  intro snapshot hshown
  rw [h] at hshown
  cases hshown

theorem Entry.shown?_of_isWork (e : Entry κ) (h : e.isWork = true) : e.shown? = none := by
  cases e <;> simp [isWork, shown?] at *

namespace Service

/-- Snapshots fit the machine: the current one, and all that were ever shown. -/
structure Placed (m : Machine κ) (s : Service κ) : Prop where
  machine : s.machine = m
  current : s.current.Fits m
  shown : ∀ e ∈ s.journal, e.ShowsFitting m

variable {m : Machine κ} {s r : Service κ}

theorem Placed.adds (h : s.Placed m) (hmachine : r.machine = s.machine)
    (hcurrent : r.current.Fits m) (hadds : Adds (Entry.ShowsFitting m) s r) : r.Placed m :=
  ⟨hmachine.trans h.machine, hcurrent, hadds.forall_mem h.shown⟩

theorem Placed.log (h : s.Placed m) {e : Entry κ} (he : e.ShowsFitting m) : (s.log e).Placed m :=
  h.adds rfl h.current (adds_log s he)

/-- An entry may show the snapshot as it is. -/
theorem Placed.log_current (h : s.Placed m) {e : Entry κ}
    (he : ∀ snapshot, e.shown? = some snapshot → snapshot = s.current) : (s.log e).Placed m :=
  h.log fun snapshot hshown => he snapshot hshown ▸ h.current

theorem Placed.withCurrent (h : s.Placed m) {next : Snapshot κ} (hnext : next.Fits m) :
    (s.withCurrent next).Placed m :=
  h.adds rfl hnext (adds_of_journal_eq _ rfl)

/-- Whether there is a context is not up to the actions. -/
theorem isSome_context_assign (update : κ → κ) (s : Service κ) :
    (s.assign update).current.context.isSome = s.current.context.isSome := by
  rw [context_assign, Option.isSome_map]

theorem isSome_context_perform (run : ActionFn κ) (event : Event) (s : Service κ) :
    (s.perform run event).service.current.context.isSome = s.current.context.isSome := by
  unfold perform
  dsimp only
  split
  · rfl
  · exact isSome_context_assign _ _
  · unfold defer
    split <;> rfl

theorem isSome_context_execute (event : Event) (actions : List (Action κ)) (s : Service κ) :
    (execute event actions s).service.current.context.isSome = s.current.context.isSome := by
  induction actions generalizing s with
  | nil => rfl
  | cons action rest ih =>
    rw [execute]
    split
    · exact ih _
    · rename_i run _
      have hrun := isSome_context_perform run event s
      cases ho : s.perform run event with
      | completed r =>
        rw [ho] at hrun
        exact (ih r).trans hrun
      | overflowed r =>
        rw [ho] at hrun
        exact hrun

theorem Placed.execute (h : s.Placed m) (event : Event) (actions : List (Action κ)) :
    (execute event actions s).service.Placed m := by
  have hstays := stays_execute event actions s
  refine h.adds hstays.machine ?_ (hstays.entries.imp fun e he =>
    Entry.showsFitting_of_shown? (e.shown?_of_isWork he))
  constructor
  · rw [hstays.value]
    exact h.current.declared
  · rw [isSome_context_execute]
    exact h.current.context
  · rw [hstays.value, hstays.actions]
    exact h.current.actions

theorem Placed.armDelayed (h : s.Placed m) : s.armDelayed.service.Placed m := by
  have harming := arming_armEach s.current.value 0 (s.machine.afterOf s.current.value) s
  refine h.adds harming.machine ?_ (harming.entries.imp fun e he =>
    Entry.showsFitting_of_shown? (e.shown?_of_isWork he))
  rw [Service.armDelayed, show (armEach _ _ _ s).service.current = s.current from harming.current]
  exact h.current

theorem Placed.arrive (h : s.Placed m) {state target : String} {actions : List (Action κ)}
    (hoffer : m.Offers state target actions) (event : Event) :
    (s.arrive target actions event).Placed m := by
  refine h.adds rfl ⟨fun _ => hoffer.declares, h.current.context, .inr ⟨state, hoffer⟩⟩
    ⟨[_], s.journal_arrive _ _ _, ?_⟩
  simp [Entry.ShowsFitting, Entry.shown?]

theorem Placed.commit (h : s.Placed m) {state target : String} {actions : List (Action κ)}
    (hoffer : m.Offers state target actions) (event : Event) :
    (s.commit target actions event).service.Placed m := by
  have hcleared : s.cancelDelayed.Placed m := h.adds rfl h.current
    (s.adds_withTimers _ (Entry.showsFitting_of_shown? rfl))
  refine Outcome.keeps_andThen (hcleared.execute _ _) fun r hr => ?_
  refine Outcome.keeps_andThen ((hr.arrive hoffer event).execute _ _) fun u hu => ?_
  refine Outcome.keeps_andThen (hu.execute _ _) fun v hv => ?_
  exact (hv.log_current (e := .notified v.current) (by simp [Entry.shown?])).armDelayed

theorem Placed.weigh (h : s.Placed m) (ts : List (Eventless κ)) : (s.weigh ts).Placed m :=
  weigh_keeps h fun _ _ _ _ _ hr => hr.log fun _ hshown => Option.some.inj hshown ▸ h.current

theorem Placed.settle (visited : List String) (s : Service κ) (h : s.Placed m) :
    (settle visited s).service.Placed m := by
  have hstep {s : Service κ} (h : s.Placed m) {t : Eventless κ}
      (hfind : (s.machine.alwaysOf s.current.value).find? (·.enabled s.current) = some t)
      (hdecl : s.machine.declares t.target = true) :
      ((s.weigh (s.machine.alwaysOf s.current.value)).commit t.target t.actions
        (.always s.current.value)).service.Placed m := by
    rw [h.machine] at hfind hdecl ⊢
    exact (h.weigh _).commit (.eventless (List.mem_of_find?_eq_some hfind) hdecl) _
  fun_induction Service.settle visited s with
  | case1 => exact h
  | case2 => exact h
  | case3 => exact h.weigh _
  | case4 visited s _ _ ts t hfind hdecl r hcommit =>
    have hr := hstep h hfind hdecl
    rwa [hcommit] at hr
  | case5 visited s _ _ ts t hfind hdecl r hcommit _ _ ih =>
    have hr := hstep h hfind hdecl
    rw [hcommit] at hr
    exact ih hr
  | case6 => exact (h.weigh _).log (Entry.showsFitting_of_shown? rfl)

theorem Placed.cancelDeferred (h : s.Placed m) : s.cancelDeferred.Placed m :=
  h.adds rfl h.current (s.adds_withTimers _ (Entry.showsFitting_of_shown? rfl))

theorem Placed.judge (h : s.Placed m) (c : Candidate κ) (event : Event) : (s.judge c event).Placed m := by
  unfold Service.judge
  split
  · exact h
  · exact h.log_current (by simp [Entry.shown?])

variable [BEq κ]

theorem Placed.proceed (h : s.Placed m) {c : Candidate κ} {event : Event}
    (hc : m.candidate? s.current event = some c) : (s.proceed c.next event).service.Placed m := by
  obtain ⟨node, handler, target, hnode, hhandler, htarget, _, rfl⟩ :=
    Machine.candidate?_eq_some_iff.1 hc
  have hoffer : m.Offers s.current.value target handler.actions := .event hnode hhandler htarget
  unfold Service.proceed
  split
  · exact Outcome.keeps_andThen (h.commit hoffer event) fun r hr => hr.settle [] r
  · have hnext : (Machine.nextOf s.current handler target).Fits m :=
      ⟨fun _ => hoffer.declares, h.current.context, .inr ⟨_, hoffer⟩⟩
    refine Outcome.keeps_andThen ((h.withCurrent hnext).execute _ _) fun r hr => ?_
    split
    · exact hr
    · have hchanged : (r.withCurrent { r.current with changed := true }).Placed m :=
        hr.withCurrent ⟨hr.current.declared, hr.current.context, hr.current.actions⟩
      exact hchanged.log_current (by simp [Entry.shown?])

theorem Placed.deliver (h : s.Placed m) (event : Event) : (s.deliver event).service.Placed m := by
  have hcleared := h.cancelDeferred
  unfold Service.deliver
  dsimp only
  split
  · exact hcleared
  · rename_i c hc
    rw [hcleared.machine] at hc
    split
    · exact (hcleared.judge c event).proceed (by rw [current_judge]; exact hc)
    · exact hcleared.judge c event

theorem Placed.fire (h : s.Placed m) (t : Timer) : (s.fire t).service.Placed m := by
  have hupshot := upshot_fire t s
  generalize s.fire t = o at hupshot ⊢
  cases hupshot with
  | delivered => exact h.deliver _
  | unheard => exact h
  | lapsed => exact h.log (Entry.showsFitting_of_shown? rfl)
  | left _ hd _ hdecl =>
    rw [h.machine] at hd hdecl
    have hoffer := Machine.Offers.delayed (List.mem_of_getElem? hd) hdecl
    exact Outcome.keeps_andThen (h.commit hoffer _) fun r hr => hr.settle [] r

/-- Everything that a service does keeps its snapshots fitting. -/
theorem endures_placed (m : Machine κ) : Endures (κ := κ) (Placed m) where
  start s h := by
    unfold Service.start
    split
    · exact h
    · have hbegun : ({ s with status := .running }.log (.started s.now)).Placed m :=
        h.adds rfl h.current ⟨[_], journal_log _ _, by simp [Entry.ShowsFitting, Entry.shown?]⟩
      refine Outcome.keeps_andThen (hbegun.execute _ _) fun r hr => ?_
      exact Outcome.keeps_andThen hr.armDelayed fun u hu => hu.settle [] u
  stop s h := by
    unfold Service.stop
    split
    · exact h.adds rfl h.current ⟨[_], journal_log _ _, by simp [Entry.ShowsFitting, Entry.shown?]⟩
    · exact h
  send event s h := by
    unfold Service.send
    split
    · exact (h.log (Entry.showsFitting_of_shown? rfl)).deliver event
    · exact h
  sendAfter event delay s h := by
    unfold Service.sendAfter
    split
    · unfold Service.defer
      split
      · exact h.cancelDeferred
      · exact h.cancelDeferred.adds rfl h.current
          (s.cancelDeferred.adds_withTimers _ (Entry.showsFitting_of_shown? rfl))
    · exact h
  fire _ _ t timers s h _ := by
    have htaken : (s.taken t timers).Placed m :=
      h.adds rfl h.current (s.adds_withTimers _ (Entry.showsFitting_of_shown? rfl))
    exact htaken.fire t
  clocked _ s h := h.adds rfl h.current (adds_of_journal_eq _ rfl)
  woke _ s h := h.log (Entry.showsFitting_of_shown? rfl)
  drained s h := h.log (Entry.showsFitting_of_shown? rfl)

end Service

/-- The entry tells of no transition, of no delayed one that was armed, and of no call. -/
def Entry.Uneventful : Entry κ → Prop
  | .armed t => t.task.isDelayed = false
  | .judged .. | .weighed .. | .called .. | .unresolved _ | .astray .. | .committed _ | .notified _ =>
    False
  | _ => True

namespace TimerQueue

variable {q r : TimerQueue} {t : Timer}

theorem mem_of_defer? {event : Event} {delay : Duration} (h : q.defer? event delay = some (t, r)) :
    t.task = .deferred event ∧ ∀ u ∈ r.pending, u = t ∨ u ∈ q.pending := by
  obtain ⟨armed, harm, rfl⟩ := defer?_eq_some h
  have ha := arms_of_arm? harm
  exact ⟨ha.task, fun v hv => ((ha.pending v).1 hv).imp_right mem_of_mem_cancelDeferred⟩

end TimerQueue

/-- A state that is not declared has no parts and handles nothing. -/
theorem Machine.find?_eq_none {m : Machine κ} {state : String} (h : m.declares state = false) :
    m.states.find? state = none := by
  rw [declares, Table.contains] at h
  exact Option.isNone_iff_eq_none.1 (by rw [← Option.not_isSome, h, Bool.not_false])

namespace Service

/-- The service has never left the snapshot on which it was created, nor called anything. -/
structure Inert (m : Machine κ) (s : Service κ) : Prop where
  machine : s.machine = m
  current : s.current = m.initialSnapshot
  history : s.history.records = []
  pending : ∀ t ∈ s.timers.pending, t.task.isDelayed = false
  entries : ∀ e ∈ s.journal, e.Uneventful

variable {m : Machine κ} {s r : Service κ}

theorem Inert.of_parts (h : s.Inert m) (hmachine : r.machine = s.machine)
    (hcurrent : r.current = s.current) (hhistory : r.history = s.history)
    (hpending : ∀ t ∈ r.timers.pending, t ∈ s.timers.pending ∨ t.task.isDelayed = false)
    (hadds : Adds Entry.Uneventful s r) : r.Inert m where
  machine := hmachine.trans h.machine
  current := hcurrent.trans h.current
  history := by
    rw [hhistory]
    exact h.history
  pending t ht := (hpending t ht).elim (h.pending t) id
  entries := hadds.forall_mem h.entries

theorem Inert.log (h : s.Inert m) {e : Entry κ} (he : e.Uneventful) : (s.log e).Inert m :=
  h.of_parts rfl rfl rfl (fun _ ht => .inl ht) (adds_log s he)

theorem Inert.cancelDeferred (h : s.Inert m) : s.cancelDeferred.Inert m :=
  h.of_parts rfl rfl rfl (fun _ ht => .inl (TimerQueue.mem_of_mem_cancelDeferred ht))
    (s.adds_withTimers _ trivial)

theorem Inert.defer (h : s.Inert m) (event : Event) (delay : Duration) :
    (s.defer event delay).service.Inert m := by
  unfold Service.defer
  split
  · exact h.cancelDeferred
  · rename_i t timers hdefer
    obtain ⟨htask, hmem⟩ := TimerQueue.mem_of_defer? hdefer
    have hdelayed : t.task.isDelayed = false := by rw [htask]; rfl
    refine h.of_parts rfl rfl rfl (fun u hu => ?_)
      ((s.adds_withTimers _ trivial).trans (s.cancelDeferred.adds_withTimers _ hdelayed))
    rcases hmem u hu with rfl | hu
    · exact .inr hdelayed
    · exact .inl hu

section Undeclared

variable (hm : m.declares m.initialValue = false) (h : s.Inert m)

include hm h

theorem Inert.find?_eq_none : s.machine.states.find? s.current.value = none := by
  rw [h.machine, h.current]
  exact Machine.find?_eq_none hm

/-- An undeclared state has no entry actions, no delayed and no eventless transitions. -/
theorem Inert.execute_entry (event : Event) :
    execute event (s.machine.entryOf s.current.value) s = .completed s := by
  rw [Machine.entryOf, h.find?_eq_none hm, Option.map_none, Option.getD_none, execute]

theorem Inert.armDelayed : s.armDelayed = .completed s := by
  rw [Service.armDelayed, Machine.afterOf, h.find?_eq_none hm, Option.map_none, Option.getD_none,
    armEach]

theorem Inert.resolve : s.resolve = .completed s := by
  refine settle_of_barren [] ?_
  rw [Machine.alwaysOf, h.find?_eq_none hm, Option.map_none, Option.getD_none]

/-- An undeclared state handles no event. -/
theorem Inert.deliver [BEq κ] (event : Event) :
    s.deliver event = .completed s.cancelDeferred := by
  have hnone : s.cancelDeferred.machine.candidate? s.cancelDeferred.current event = none := by
    rw [Machine.candidate?, h.cancelDeferred.find?_eq_none hm]
    rfl
  unfold Service.deliver
  simp only [hnone]

end Undeclared

variable [BEq κ]

/-- A service that starts out in an undeclared state stays there, whatever is done to it. -/
theorem endures_inert (hm : m.declares m.initialValue = false) : Endures (κ := κ) (Inert m) where
  start s h := by
    unfold Service.start
    split
    · exact h
    · have hbegun : ({ s with status := .running }.log (.started s.now)).Inert m :=
        h.of_parts rfl rfl rfl (fun _ ht => .inl ht)
          ⟨[_], journal_log _ _, by simp [Entry.Uneventful]⟩
      dsimp only
      rw [hbegun.execute_entry hm, Outcome.completed_andThen, hbegun.armDelayed hm,
        Outcome.completed_andThen, hbegun.resolve hm]
      exact hbegun
  stop s h := by
    unfold Service.stop
    split
    · refine h.of_parts rfl rfl rfl (fun t ht => ?_) ⟨[_], journal_log _ _, by simp [Entry.Uneventful]⟩
      exact absurd ht (by simp [log, TimerQueue.cancelAll, TimerQueue.keep])
    · exact h
  send event s h := by
    unfold Service.send
    split
    · have haccepted := h.log (e := .accepted event) trivial
      rw [haccepted.deliver hm]
      exact haccepted.cancelDeferred
    · exact h
  sendAfter event delay s h := by
    unfold Service.sendAfter
    split
    · exact h.defer event delay
    · exact h
  fire _ _ t timers s h hpop := by
    have hmem := TimerQueue.mem_of_popDue? hpop
    have htaken : (s.taken t timers).Inert m :=
      h.of_parts rfl rfl rfl (fun u hu => .inl ((hmem u).2 (.inr hu))) (s.adds_withTimers _ trivial)
    have hdelayed := h.pending t ((hmem t).2 (.inl rfl))
    have hupshot := upshot_fire t (s.taken t timers)
    generalize (s.taken t timers).fire t = o at hupshot ⊢
    cases hupshot with
    | delivered =>
      rw [htaken.deliver hm]
      exact htaken.cancelDeferred
    | unheard => exact htaken
    | lapsed => exact htaken.log trivial
    | left htask =>
      rw [htask] at hdelayed
      cases hdelayed
  clocked _ s h := h.of_parts rfl rfl rfl (fun _ ht => .inl ht) (adds_of_journal_eq _ rfl)
  woke _ s h := h.log trivial
  drained s h := h.log trivial

end Service

/-- Nothing is heard of uneventful entries. -/
theorem Entry.Uneventful.silent {e : Entry κ} (h : e.Uneventful) :
    e.notes = [] ∧ ∀ snapshot, e ≠ .notified snapshot := by
  cases e <;> simp [Uneventful, notes] at *

namespace Service

variable {m : Machine κ} {s : Service κ} [BEq κ]

/-- Nothing is heard of a service that stays in an undeclared state. -/
theorem attend_inert (hm : m.declares m.initialValue = false) (calls : List (Call κ))
    (h : s.Inert m) (b : Switchboard κ) : (attend calls s b).2.2 = [] := by
  induction calls generalizing s b with
  | nil => rfl
  | cons call rest ih =>
    cases call with
    | subscribe name l => exact ih h _
    | unsubscribe handle => exact ih h _
    | operate op =>
      have hafter := (endures_inert hm).apply op h
      have hconduct : s.conduct op b = (s.apply op, b, []) := by
        obtain ⟨new, hnew, _⟩ := (Steps.continues (s.steps_apply op)).journal
        have hsilent : ∀ e ∈ new, e.notes = [] ∧ ∀ snapshot, e ≠ .notified snapshot :=
          fun e he => (hafter.entries e (by rw [hnew]; exact List.mem_append_right _ he)).silent
        rw [conduct, since_eq_of_append hnew, Switchboard.relay_of_silent _ hsilent]
      cases ho : s.apply op with
      | completed r =>
        rw [ho] at hconduct hafter
        rw [attend_operate_completed hconduct]
        exact ih hafter b
      | overflowed r =>
        rw [ho] at hconduct
        rw [attend_operate_overflowed hconduct]

/-- In every session, completed or cut short, the current snapshot and all that were shown to guards,
conditions and listeners fit the machine. If the initial state is not declared, the service never
leaves its initial snapshot: no delayed transition is armed, nothing is recorded, and no function and
no listener is called. -/
theorem placed_attend (machine : Machine κ) (options : Options κ) (channel : Nat)
    (calls : List (Call κ)) (b : Switchboard κ) :
    let o := attend calls (create machine options channel) b
    o.1.service.Placed machine ∧
    (machine.declares machine.initialValue = true ∧
        machine.declares o.1.service.current.value = true ∨
      machine.declares machine.initialValue = false ∧ o.1.service.Inert machine ∧ o.2.2 = []) := by
  intro o
  have hservice : o.1 = run (calls.filterMap Call.operation?) (create machine options channel) :=
    attend_fst _ _ _
  have hnone : ∀ e ∈ (create machine options channel).journal, False := by simp
  have hplaced : o.1.service.Placed machine := by
    rw [hservice]
    refine (endures_placed machine).run _ ⟨rfl, ⟨id, rfl, .inl rfl⟩, fun e he => ?_⟩
    exact (hnone e he).elim
  refine ⟨hplaced, ?_⟩
  cases hm : machine.declares machine.initialValue with
  | true => exact .inl ⟨rfl, hplaced.current.declared hm⟩
  | false =>
    have hcreated : (create machine options channel).Inert machine :=
      ⟨rfl, rfl, rfl, fun t ht => (nomatch ht), fun e he => (hnone e he).elim⟩
    refine .inr ⟨rfl, ?_, attend_inert hm calls hcreated b⟩
    rw [hservice]
    exact (endures_inert hm).run _ hcreated

end Service
end TimedMachine

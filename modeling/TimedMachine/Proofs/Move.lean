import Mathlib.Logic.Relation
import TimedMachine.Proofs.Arming
import TimedMachine.Proofs.Resolution

/-!
What a service does of its own accord, one `Move` at a time. Each move names the part of the machine
that it comes from: a handler, a condition, a mentioned action, a transition that the current state
offers, a delayed transition of its list. Commits, passes of eventless transitions and deliveries are
chains of moves, also when they are cut short, and so is all that a timer does that fires, unless it
lapses (`moves_fire`). A property that every move keeps is kept by all of them.
-/
namespace TimedMachine.Service

variable {κ : Type}

/-- What is the case in the machine and the current state when a delayed transition lapses. -/
def Lapses (m : Machine κ) (current state : String) (index : Nat) : Lapse → Prop
  | .elsewhere => current ≠ state
  | .missing => (m.afterOf state)[index]? = none
  | .ownState => ∃ d, (m.afterOf state)[index]? = some d ∧ d.target = state
  | .undeclared => ∃ d, (m.afterOf state)[index]? = some d ∧ m.declares d.target = false

/-- A primitive change, with where it comes from. -/
inductive Move : Service κ → Service κ → Prop
  | judged {s : Service κ} {node : Node κ} {handler : Handler κ} {guard : Guard κ} {event : Event}
      (hnode : s.machine.states.find? s.current.value = some node)
      (hhandler : node.on.find? event.kind = some handler)
      (hguard : Machine.guardOf handler = some guard) :
      Move s (s.log (.judged guard s.current event))
  | weighed {s : Service κ} {t : Eventless κ} {condition : Condition κ}
      (ht : t ∈ s.machine.alwaysOf s.current.value) (hcondition : t.condition = some condition) :
      Move s (s.log (.weighed condition s.current))
  | skipped {s : Service κ} {action : Action κ} (haction : s.machine.Mentions action)
      (hnone : s.options.resolve action = none) :
      Move s (s.log (.unresolved (action.name?.getD "")))
  | called {s : Service κ} {action : Action κ} {run : ActionFn κ} {event : Event}
      (haction : s.machine.Mentions action) (hrun : s.options.resolve action = some run) :
      Move s (s.perform run event).service
  | astray {s : Service κ} {t : Eventless κ} (ht : t ∈ s.machine.alwaysOf s.current.value)
      (hnot : s.machine.declares t.target = false) :
      Move s (s.log (.astray s.current.value t.target))
  | notified {s : Service κ} : Move s s.notify
  | left {s : Service κ} : Move s s.cancelDelayed
  | cleared {s : Service κ} : Move s s.cancelDeferred
  | armed {s : Service κ} {index : Nat} {d : Delayed κ}
      (hd : (s.machine.afterOf s.current.value)[index]? = some d) :
      Move s (s.arm d.delay (.delayed s.current.value index)).service
  | arrived {s : Service κ} {target : String} {actions : List (Action κ)} {event : Event}
      (hoffer : s.machine.Offers s.current.value target actions) :
      Move s (s.arrive target actions event)
  | revisited {s : Service κ} {node : Node κ} {handler : Handler κ} {kind : String}
      (hnode : s.machine.states.find? s.current.value = some node)
      (hhandler : node.on.find? kind = some handler) :
      Move s (s.withCurrent (Machine.nextOf s.current handler s.current.value))
  | changed {s : Service κ} : Move s (s.withCurrent { s.current with changed := true })

theorem Move.follows {s r : Service κ} (h : Move s r) : s.Follows r := by
  cases h with
  | judged => exact s.follows_log _
  | weighed => exact s.follows_log _
  | skipped => exact s.follows_log _
  | called => exact s.follows_perform _ _
  | astray => exact s.follows_log _
  | notified => exact s.follows_log _
  | left => exact s.follows_cancelDelayed
  | cleared => exact s.follows_cancelDeferred
  | armed => exact s.follows_arm _ _
  | arrived => exact s.follows_arrive _ _ _
  | revisited => exact s.follows_withCurrent _
  | changed => exact s.follows_withCurrent _

/-- Any number of moves. -/
abbrev Moves : Service κ → Service κ → Prop := Relation.ReflTransGen Move

theorem Moves.follows {s r : Service κ} (h : Moves s r) : s.Follows r := by
  induction h with
  | refl => exact .refl s
  | tail _ hmove ih => exact ih.trans hmove.follows

theorem Moves.andThen {s : Service κ} {o : Outcome κ} {next : Service κ → Outcome κ}
    (h : Moves s o.service) (k : ∀ r, o = .completed r → Moves r (next r).service) :
    Moves s (o.andThen next).service :=
  Outcome.service_andThen (R := Moves) Relation.ReflTransGen.trans h k

theorem moves_execute (event : Event) {actions : List (Action κ)} {s : Service κ}
    (h : ∀ a ∈ actions, s.machine.Mentions a) : Moves s (execute event actions s).service := by
  induction actions generalizing s with
  | nil => exact .refl
  | cons action rest ih =>
    have haction := h action List.mem_cons_self
    have hrest : ∀ a ∈ rest, s.machine.Mentions a := fun a ha => h a (List.mem_cons_of_mem _ ha)
    rw [execute]
    split
    · rename_i hnone
      exact .head (.skipped haction hnone) (ih hrest)
    · rename_i run hrun
      have hcalled : Move s (s.perform run event).service := .called haction hrun
      refine Moves.andThen (.single hcalled) fun r hr => ?_
      rw [hr] at hcalled
      exact ih (by rwa [← hcalled.follows.machine] at hrest)

theorem moves_armEach {state : String} {index : Nat} {ts : List (Delayed κ)} {s : Service κ}
    (hstate : s.current.value = state)
    (h : ∀ i d, ts[i]? = some d → (s.machine.afterOf state)[index + i]? = some d) :
    Moves s (armEach state index ts s).service := by
  induction ts generalizing index s with
  | nil => exact .refl
  | cons d rest ih =>
    obtain rfl := hstate
    have harmed : Move s (s.arm d.delay (.delayed s.current.value index)).service :=
      .armed (h 0 d rfl)
    refine Moves.andThen (.single harmed) fun r hr => ?_
    have harming := s.arming_arm d.delay s.current.value index
    rw [hr] at harming
    refine ih (by rw [show r.current = s.current from harming.current]) fun i e he => ?_
    rw [show r.machine = s.machine from harming.machine,
      show index + 1 + i = index + (i + 1) by omega]
    exact h (i + 1) e he

theorem moves_armDelayed (s : Service κ) : Moves s s.armDelayed.service :=
  moves_armEach rfl fun i d hd => by rwa [Nat.zero_add]

theorem moves_commit {target : String} {actions : List (Action κ)} (event : Event) {s : Service κ}
    (h : s.machine.Offers s.current.value target actions) :
    Moves s (s.commit target actions event).service := by
  have hexit := stays_execute event (s.machine.exitOf s.current.value) s.cancelDelayed
  refine Moves.andThen ?_ fun r hr => ?_
  · exact .head .left (moves_execute event fun a ha => Machine.mentions_of_exitOf ha)
  rw [hr] at hexit
  have hmachine : r.machine = s.machine := hexit.machine
  have hoffer : r.machine.Offers r.current.value target actions := by
    rw [hmachine, show r.current.value = s.current.value from hexit.value]
    exact h
  have hentry := stays_execute event (r.machine.entryOf target) (r.arrive target actions event)
  refine Moves.andThen ?_ fun u hu => ?_
  · exact .head (.arrived hoffer) (moves_execute event fun a ha => Machine.mentions_of_entryOf ha)
  rw [hu] at hentry
  refine Moves.andThen ?_ fun v _ => ?_
  · refine moves_execute event fun a ha => ?_
    rw [show u.current.actions = actions from hentry.actions] at ha
    rw [show u.machine = r.machine from hentry.machine, hmachine]
    exact h.mentions ha
  · exact .head .notified (moves_armDelayed _)

/-- The conditions that are asked are those of transitions in the list. -/
theorem mem_of_consulted {snapshot : Snapshot κ} {ts : List (Eventless κ)}
    {condition : Condition κ} (h : condition ∈ consulted snapshot ts) :
    ∃ t ∈ ts, t.condition = some condition := by
  induction ts with
  | nil => cases h
  | cons t rest ih =>
    rw [consulted] at h
    split at h
    · cases h
    · rename_i first hfirst
      rcases List.mem_cons.1 h with rfl | h
      · exact ⟨t, List.mem_cons_self, hfirst⟩
      · split at h
        · cases h
        · obtain ⟨u, hu, hcondition⟩ := ih h
          exact ⟨u, List.mem_cons_of_mem _ hu, hcondition⟩

/-- What each entry about a condition keeps true is true after all of them. -/
theorem weigh_keeps {p : Service κ → Prop} {ts : List (Eventless κ)} {s : Service κ} (hs : p s)
    (hlog : ∀ r t condition, t ∈ ts → t.condition = some condition → p r →
      p (r.log (.weighed condition s.current))) : p (s.weigh ts) := by
  unfold weigh
  refine List.foldlRecOn _ _ hs fun r hr condition hin => ?_
  obtain ⟨t, ht, hcondition⟩ := mem_of_consulted hin
  exact hlog r t condition ht hcondition hr

@[simp] theorem current_weigh (ts : List (Eventless κ)) (s : Service κ) :
    (s.weigh ts).current = s.current :=
  weigh_keeps (p := fun r => r.current = s.current) rfl fun _ _ _ _ _ h => h

theorem moves_weigh (s : Service κ) : Moves s (s.weigh (s.machine.alwaysOf s.current.value)) := by
  -- The current snapshot stays, so each entry is about a condition of the current state.
  suffices hboth : Moves s (s.weigh (s.machine.alwaysOf s.current.value)) ∧
      (s.weigh (s.machine.alwaysOf s.current.value)).current = s.current from hboth.1
  refine weigh_keeps (p := fun r => Moves s r ∧ r.current = s.current) ⟨.refl, rfl⟩ ?_
  rintro r t condition ht hcondition ⟨hmoves, hcurrent⟩
  rw [← hmoves.follows.machine, ← hcurrent] at ht
  have hmove : Move r (r.log (.weighed condition s.current)) :=
    hcurrent ▸ .weighed ht hcondition
  exact ⟨hmoves.tail hmove, hcurrent⟩

theorem moves_astray {s : Service κ} {t : Eventless κ}
    (ht : t ∈ s.machine.alwaysOf s.current.value) (hnot : s.machine.declares t.target = false) :
    Moves s ((s.weigh (s.machine.alwaysOf s.current.value)).log
      (.astray s.current.value t.target)) := by
  have hmachine := (follows_weigh (s.machine.alwaysOf s.current.value) s).machine
  have hcurrent := current_weigh (s.machine.alwaysOf s.current.value) s
  have hlost : Move (s.weigh (s.machine.alwaysOf s.current.value)) _ :=
    .astray (t := t) (by rw [hmachine, hcurrent]; exact ht) (by rw [hmachine]; exact hnot)
  rw [hcurrent] at hlost
  exact (moves_weigh s).tail hlost

theorem moves_settle (visited : List String) (s : Service κ) :
    Moves s (settle visited s).service := by
  have hoffer {s : Service κ} {t : Eventless κ}
      (hfind : (s.machine.alwaysOf s.current.value).find? (·.enabled s.current) = some t)
      (hdecl : s.machine.declares t.target = true) :
      Moves s ((s.weigh (s.machine.alwaysOf s.current.value)).commit t.target t.actions
        (.always s.current.value)).service := by
    refine (moves_weigh s).trans (moves_commit _ ?_)
    rw [(follows_weigh _ s).machine, current_weigh]
    exact .eventless (List.mem_of_find?_eq_some hfind) hdecl
  fun_induction settle visited s with
  | case1 => exact .refl
  | case2 => exact .refl
  | case3 visited s => exact moves_weigh s
  | case4 visited s _ _ ts t hfind hdecl r hstep =>
    have hcommit := hoffer hfind hdecl
    rw [hstep] at hcommit
    exact hcommit
  | case5 visited s _ _ ts t hfind hdecl r hstep _ _ ih =>
    have hcommit := hoffer hfind hdecl
    rw [hstep] at hcommit
    exact hcommit.trans ih
  | case6 visited s _ _ ts t hfind hnot =>
    exact moves_astray (List.mem_of_find?_eq_some hfind) (by simpa using hnot)

theorem moves_judge {c : Candidate κ} {event : Event} {s : Service κ}
    (h : s.machine.candidate? s.current event = some c) : Moves s (s.judge c event) := by
  obtain ⟨node, handler, target, hnode, hhandler, _, _, rfl⟩ := Machine.candidate?_eq_some_iff.1 h
  unfold judge
  split
  · exact .refl
  · rename_i guard hguard
    exact .single (.judged hnode hhandler hguard)

variable [BEq κ]

/-- A handler that stays in the state runs its actions there. -/
theorem moves_stay {c : Candidate κ} {event : Event} {s : Service κ}
    (h : s.machine.candidate? s.current event = some c) (hsame : c.next.changed = false) :
    Moves s (s.stay c.next event).service := by
  obtain ⟨node, handler, target, hnode, hhandler, htarget, _, rfl⟩ :=
    Machine.candidate?_eq_some_iff.1 h
  have hvalue : target = s.current.value := by simpa [Machine.nextOf] using hsame
  subst hvalue
  unfold stay
  refine Moves.andThen ?_ fun r _ => ?_
  · exact .head (.revisited hnode hhandler)
      (moves_execute event fun a ha => Machine.mentions_of_handler hnode hhandler ha)
  · split
    · exact .refl
    · exact .head .changed (.single .notified)

theorem moves_proceed {c : Candidate κ} {event : Event} {s : Service κ}
    (h : s.machine.candidate? s.current event = some c) :
    Moves s (s.proceed c.next event).service := by
  unfold proceed
  split
  · obtain ⟨node, handler, target, hnode, hhandler, htarget, _, rfl⟩ :=
      Machine.candidate?_eq_some_iff.1 h
    exact (moves_commit event (.event hnode hhandler htarget)).andThen fun r _ => moves_settle [] r
  · rename_i hsame
    exact moves_stay h (Bool.eq_false_iff.2 hsame)

theorem moves_deliver (event : Event) (s : Service κ) : Moves s (s.deliver event).service := by
  unfold deliver
  refine .head .cleared ?_
  dsimp only
  split
  · exact .refl
  · rename_i c hc
    have hjudged := moves_judge hc
    split
    · have hmachine : (s.cancelDeferred.judge c event).machine = s.cancelDeferred.machine :=
        (follows_judge _ _ _).machine
      exact hjudged.trans (moves_proceed (by rw [hmachine, current_judge]; exact hc))
    · exact hjudged

/-- What a timer that fires does, by its task and the state it finds. -/
inductive Upshot (t : Timer) (s : Service κ) : Outcome κ → Prop
  | delivered {event : Event} (htask : t.task = .deferred event) (hs : s.status = .running) :
      Upshot t s (s.deliver event)
  | unheard {event : Event} (htask : t.task = .deferred event) (hs : s.status = .stopped) :
      Upshot t s (.completed s)
  | lapsed {state : String} {index : Nat} {why : Lapse} (htask : t.task = .delayed state index)
      (hwhy : Lapses s.machine s.current.value state index why) :
      Upshot t s (.completed (s.log (.lapsed t why)))
  | left {index : Nat} {d : Delayed κ} (htask : t.task = .delayed s.current.value index)
      (hd : (s.machine.afterOf s.current.value)[index]? = some d)
      (hother : d.target ≠ s.current.value) (hdecl : s.machine.declares d.target = true) :
      Upshot t s ((s.commit d.target d.actions (.after d.delay s.current.value)).andThen resolve)

theorem upshot_fire (t : Timer) (s : Service κ) : Upshot t s (s.fire t) := by
  unfold fire
  cases htask : t.task with
  | deferred event =>
    dsimp only
    split
    · rename_i hs
      exact .delivered htask (isRunning_iff.1 hs)
    · rename_i hs
      exact .unheard htask (not_isRunning_iff.1 hs)
  | delayed state index =>
    have hlapsed (why : Lapse) (hwhy : Lapses s.machine s.current.value state index why) :
        Upshot t s (.completed (s.log (.lapsed t why))) := .lapsed htask hwhy
    dsimp only
    split
    · rename_i hvalue
      exact hlapsed .elsewhere hvalue
    · rename_i hvalue
      obtain rfl := not_not.1 hvalue
      split
      · rename_i hnone
        exact hlapsed .missing hnone
      · rename_i d hd
        split
        · rename_i hown
          exact hlapsed .ownState ⟨d, hd, hown⟩
        · rename_i hother
          split
          · rename_i hdecl
            exact .left htask hd hother hdecl
          · rename_i hnot
            exact hlapsed .undeclared ⟨d, hd, Bool.eq_false_iff.2 hnot⟩

/-- A delayed transition that fires may lapse; anything else that a timer does, it does by moves. -/
theorem moves_fire (t : Timer) (s : Service κ) :
    (∃ state index why, t.task = .delayed state index ∧
      Lapses s.machine s.current.value state index why ∧
      s.fire t = .completed (s.log (.lapsed t why))) ∨
    Moves s (s.fire t).service := by
  have hupshot := upshot_fire t s
  generalize s.fire t = o at hupshot ⊢
  cases hupshot with
  | @delivered event => exact .inr (moves_deliver event s)
  | unheard => exact .inr .refl
  | @lapsed state index why htask hwhy => exact .inl ⟨state, index, why, htask, hwhy, rfl⟩
  | left _ hd _ hdecl =>
    have hoffer := Machine.Offers.delayed (List.mem_of_getElem? hd) hdecl
    exact .inr ((moves_commit _ hoffer).andThen fun r _ => moves_settle [] r)

end TimedMachine.Service

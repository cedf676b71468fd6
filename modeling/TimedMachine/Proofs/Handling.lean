import Mathlib.Logic.Basic
import TimedMachine.Proofs.Resolution

/-!
What the tables of a machine say of an event, apart from how `candidate?` goes through them. `Handles`
has one constructor for each way of naming a target: a bare one that is declared, one of a descriptor
that is declared, and the current state where a descriptor names none or none that is declared. An
event leads somewhere exactly if it is handled, the handler moves or acts, and its guard allows it
(`transition?_iff`); a guard is asked in no other case.
-/
namespace TimedMachine

variable {κ : Type}

/-- The snapshot that a reference stands for. -/
inductive StateRef.Refers : StateRef κ → Snapshot κ → Prop
  | name {value : String} : Refers (.name value) ⟨value, none, [], false⟩
  | snapshot {s : Snapshot κ} : Refers (.snapshot s) s

theorem StateRef.snapshot?_eq_some_iff {ref : StateRef κ} {s : Snapshot κ} :
    ref.snapshot? = some s ↔ ref.Refers s := by
  constructor
  · intro h
    cases ref with
    | absent => cases h
    | name value =>
      obtain rfl := Option.some.inj h
      exact .name
    | snapshot r =>
      obtain rfl := Option.some.inj h
      exact .snapshot
  · rintro (_ | _) <;> rfl

namespace Machine

/-- The node of a declared state has a handler for the kind of an event. -/
def Finds (m : Machine κ) (state kind : String) (handler : Handler κ) : Prop :=
  ∃ node, m.states.find? state = some node ∧ node.on.find? kind = some handler

/-- The target, the actions and the guard with which a state handles a kind of event. -/
inductive Handles (m : Machine κ) (state kind : String) :
    String → List (Action κ) → Option (Guard κ) → Prop
  | bare {target : String} (hfinds : m.Finds state kind (.bare target))
      (hdecl : m.declares target = true) : Handles m state kind target [] none
  | described {d : Descriptor κ} {target : String} (hfinds : m.Finds state kind (.described d))
      (htarget : d.target = some target) (hdecl : m.declares target = true) :
      Handles m state kind target d.actions d.guard
  /-- A descriptor without a target, or with one that is not declared, stays in the state. -/
  | staying {d : Descriptor κ} (hfinds : m.Finds state kind (.described d))
      (hnone : ∀ target, d.target = some target → m.declares target = false) :
      Handles m state kind state d.actions d.guard

/-- A transition to the current state counts only if it does something. -/
def Counts (state target : String) (actions : List (Action κ)) : Prop :=
  target ≠ state ∨ actions ≠ []

variable {m : Machine κ} {state kind : String} {current : Snapshot κ} {event : Event}

theorem Finds.declares {handler : Handler κ} (h : m.Finds state kind handler) :
    m.declares state = true := by
  obtain ⟨node, hnode, _⟩ := h
  exact declares_of_find? hnode

theorem Handles.declares {target : String} {actions : List (Action κ)} {guard : Option (Guard κ)}
    (h : m.Handles state kind target actions guard) : m.declares target = true := by
  cases h with
  | bare _ hdecl => exact hdecl
  | described _ _ hdecl => exact hdecl
  | staying hfinds => exact hfinds.declares

theorem targetOf_bare_eq_some_iff {name target : String} :
    m.targetOf state (.bare name) = some target ↔ name = target ∧ m.declares target = true := by
  rw [targetOf]
  constructor
  · intro h
    split at h
    · rename_i hdecl
      obtain rfl := Option.some.inj h
      exact ⟨rfl, hdecl⟩
    · cases h
  · rintro ⟨rfl, hdecl⟩
    rw [if_pos hdecl]

/-- The target of a descriptor, if it is declared. -/
theorem filter_declares_eq_none_iff {d : Descriptor κ} :
    d.target.filter (m.declares ·) = none ↔
      ∀ target, d.target = some target → m.declares target = false := by
  cases d.target with
  | none => simp
  | some name => simp [Option.filter]

/-- The tables say what `targetOf` finds. -/
theorem handles_iff {target : String} {actions : List (Action κ)} {guard : Option (Guard κ)} :
    m.Handles state kind target actions guard ↔
      ∃ handler, m.Finds state kind handler ∧ m.targetOf state handler = some target ∧
        handler.actions = actions ∧ guardOf handler = guard := by
  constructor
  · intro h
    cases h with
    | bare hfinds hdecl =>
      exact ⟨_, hfinds, targetOf_bare_eq_some_iff.2 ⟨rfl, hdecl⟩, rfl, rfl⟩
    | described hfinds htarget hdecl =>
      exact ⟨_, hfinds, by simp [targetOf, htarget, Option.filter, hdecl], rfl, rfl⟩
    | staying hfinds hnone =>
      refine ⟨_, hfinds, ?_, rfl, rfl⟩
      rw [targetOf, filter_declares_eq_none_iff.2 hnone, Option.getD_none]
  · rintro ⟨handler, hfinds, htarget, rfl, rfl⟩
    cases handler with
    | bare name =>
      obtain ⟨rfl, hdecl⟩ := targetOf_bare_eq_some_iff.1 htarget
      exact .bare hfinds hdecl
    | described d =>
      rw [targetOf, Option.some.injEq] at htarget
      cases hkept : d.target.filter (m.declares ·) with
      | none =>
        rw [hkept, Option.getD_none] at htarget
        subst htarget
        exact .staying hfinds (filter_declares_eq_none_iff.1 hkept)
      | some name =>
        rw [hkept, Option.getD_some] at htarget
        subst htarget
        obtain ⟨hname, hdecl⟩ := Option.filter_eq_some_iff.1 hkept
        exact .described hfinds hname hdecl

/-- There is a candidate exactly if the event is handled and its handler moves or acts. -/
theorem candidate?_iff {c : Candidate κ} :
    m.candidate? current event = some c ↔
      ∃ target actions guard, m.Handles current.value event.kind target actions guard ∧
        Counts current.value target actions ∧
        c = ⟨⟨target, current.context, actions, decide (target ≠ current.value)⟩, guard⟩ := by
  rw [candidate?_eq_some_iff]
  constructor
  · rintro ⟨node, handler, target, hnode, hon, htarget, hcounts, rfl⟩
    refine ⟨target, handler.actions, guardOf handler, ?_, not_and_or.1 hcounts, rfl⟩
    exact handles_iff.2 ⟨handler, ⟨node, hnode, hon⟩, htarget, rfl, rfl⟩
  · rintro ⟨target, _, _, hhandles, hcounts, rfl⟩
    obtain ⟨handler, ⟨node, hnode, hon⟩, htarget, rfl, rfl⟩ := handles_iff.1 hhandles
    exact ⟨node, handler, target, hnode, hon, htarget, not_and_or.2 hcounts, rfl⟩

theorem verdict_holds_iff {c : Candidate κ} :
    (c.verdict current event).holds = true ↔
      ∀ guard, c.guard = some guard → (guard current event).holds = true := by
  unfold Candidate.verdict
  cases c.guard with
  | none => simp
  | some guard => simp

theorem transition?_eq_some_iff {ref : StateRef κ} {next : Snapshot κ} :
    m.transition? ref event = some next ↔
      ∃ current c, ref.Refers current ∧ m.candidate? current event = some c ∧
        (c.verdict current event).holds = true ∧ c.next = next := by
  constructor
  · intro h
    unfold transition? resolve at h
    cases href : ref.snapshot? with
    | none => simp [href] at h
    | some current =>
      cases hc : m.candidate? current event with
      | none => simp [href, hc] at h
      | some c =>
        simp only [href, hc, Option.ite_none_right_eq_some, Option.some.injEq] at h
        exact ⟨current, c, StateRef.snapshot?_eq_some_iff.1 href, hc, h.1, h.2⟩
  · rintro ⟨current, c, href, hc, hholds, rfl⟩
    rw [transition?, resolve_of_candidate? (StateRef.snapshot?_eq_some_iff.2 href) hc]
    exact if_pos hholds

/-- The guard that is asked of an event, and the snapshot that it is asked about. -/
def Asks (m : Machine κ) (ref : StateRef κ) (event : Event) (current : Snapshot κ)
    (guard : Guard κ) : Prop :=
  ref.Refers current ∧ ∃ target actions,
    m.Handles current.value event.kind target actions (some guard) ∧
      Counts current.value target actions

theorem asks_iff {ref : StateRef κ} {guard : Guard κ} :
    m.Asks ref event current guard ↔
      ref.Refers current ∧ ∃ c, m.candidate? current event = some c ∧ c.guard = some guard := by
  refine and_congr_right fun _ => ?_
  constructor
  · rintro ⟨target, actions, hhandles, hcounts⟩
    exact ⟨_, candidate?_iff.2 ⟨target, actions, some guard, hhandles, hcounts, rfl⟩, rfl⟩
  · rintro ⟨c, hc, hguard⟩
    obtain ⟨target, actions, _, hhandles, hcounts, rfl⟩ := candidate?_iff.1 hc
    obtain rfl : _ = some guard := hguard
    exact ⟨target, actions, hhandles, hcounts⟩

/-- The notes of a guard that is asked are taken once. -/
theorem transitionNotes_of_asks {ref : StateRef κ} {guard : Guard κ}
    (h : m.Asks ref event current guard) :
    m.transitionNotes ref event = (guard current event).notes := by
  obtain ⟨href, c, hc, hguard⟩ := asks_iff.1 h
  rw [transitionNotes, resolve_of_candidate? (StateRef.snapshot?_eq_some_iff.2 href) hc]
  simp only [Candidate.verdict, hguard]

/-- No notes are taken unless some guard is asked. -/
theorem transitionNotes_of_not_asks {ref : StateRef κ}
    (h : ∀ current guard, ¬ m.Asks ref event current guard) : m.transitionNotes ref event = [] := by
  unfold transitionNotes resolve
  cases href : ref.snapshot? with
  | none => rfl
  | some current =>
    dsimp only
    cases hc : m.candidate? current event with
    | none => rfl
    | some c =>
      cases hguard : c.guard with
      | none => simp only [Candidate.verdict, hguard]
      | some guard =>
        have hasks := asks_iff.2 ⟨StateRef.snapshot?_eq_some_iff.1 href, c, hc, hguard⟩
        exact absurd hasks (h current guard)

/-- Where an event leads. From no state it leads nowhere, and a bare name has no context. It leads on
exactly if the current state is declared and handles it, the handler moves to another state or has
actions, and its guard, if it has one, allows the event in the current snapshot. The next snapshot is
then one of the target, which is declared; it keeps the context, carries the handler's actions and
counts as changed if the target is another state. The guard is asked once, about the current snapshot,
and only if the handler moves or acts. -/
theorem transition?_iff (m : Machine κ) (ref : StateRef κ) (event : Event) :
    (∀ next, m.transition? ref event = some next ↔
      ∃ current target actions guard, ref.Refers current ∧
        m.Handles current.value event.kind target actions guard ∧
        Counts current.value target actions ∧
        (∀ g, guard = some g → (g current event).holds = true) ∧
        next = ⟨target, current.context, actions, decide (target ≠ current.value)⟩) ∧
    (∀ next, m.transition? ref event = some next → m.declares next.value = true) ∧
    (∀ current guard, m.Asks ref event current guard →
      m.transitionNotes ref event = (guard current event).notes) ∧
    ((∀ current guard, ¬ m.Asks ref event current guard) → m.transitionNotes ref event = []) := by
  have hleads (next : Snapshot κ) : m.transition? ref event = some next ↔
      ∃ current target actions guard, ref.Refers current ∧
        m.Handles current.value event.kind target actions guard ∧
        Counts current.value target actions ∧
        (∀ g, guard = some g → (g current event).holds = true) ∧
        next = ⟨target, current.context, actions, decide (target ≠ current.value)⟩ := by
    rw [transition?_eq_some_iff]
    constructor
    · rintro ⟨current, c, href, hc, hholds, rfl⟩
      obtain ⟨target, actions, guard, hhandles, hcounts, rfl⟩ := candidate?_iff.1 hc
      exact ⟨current, target, actions, guard, href, hhandles, hcounts, verdict_holds_iff.1 hholds, rfl⟩
    · rintro ⟨current, target, actions, guard, href, hhandles, hcounts, hholds, rfl⟩
      have hc := candidate?_iff.2 ⟨target, actions, guard, hhandles, hcounts, rfl⟩
      exact ⟨current, _, href, hc, verdict_holds_iff.2 hholds, rfl⟩
  refine ⟨hleads, ?_, fun _ _ => transitionNotes_of_asks, transitionNotes_of_not_asks⟩
  intro next hnext
  obtain ⟨_, _, _, _, _, hhandles, _, _, rfl⟩ := (hleads next).1 hnext
  exact hhandles.declares

end Machine
end TimedMachine

import TimedMachine.Machine.Issue
import TimedMachine.Proofs.Resolution

/-!
What a run may rely on when validation finds nothing: every target and every initial state is
declared, and every action that stands in some list stands for a function (`Sound`). An event then
leads exactly where its handler says (`candidate?_eq`).
-/
namespace TimedMachine.Machine

variable {κ : Type}

structure Sound (m : Machine κ) (o : Options κ) : Prop where
  initial : m.declares m.initialValue = true
  handlers : ∀ state node kind handler target, m.states.find? state = some node →
    node.on.find? kind = some handler → handler.target? = some target → m.declares target = true
  after : ∀ state, ∀ d ∈ m.afterOf state, m.declares d.target = true
  always : ∀ state, ∀ t ∈ m.alwaysOf state, m.declares t.target = true
  actions : ∀ a, m.Mentions a → ∃ run, o.resolve a = some run

/-- The first declared state is declared. -/
theorem declares_of_head? {m : Machine κ} {state : String} (h : m.states.keys.head? = some state) :
    m.declares state = true :=
  (Table.contains_iff _ _).2 (List.mem_of_head? h)

theorem declares_initialValue {m : Machine κ} (h : m.issues = []) :
    m.declares m.initialValue = true := by
  simp only [issues, List.append_eq_nil_iff] at h
  obtain ⟨⟨hstates, hinitial⟩, _⟩ := h
  unfold initialValue
  cases hm : m.initial with
  | some initial => simpa [hm] using hinitial
  | none =>
    cases hhead : m.states.keys.head? with
    | some state => exact declares_of_head? hhead
    | none =>
      rw [List.head?_eq_none_iff, Table.keys, List.map_eq_nil_iff] at hhead
      simp [Table.isEmpty, hhead] at hstates

/-- A declared state has no target issues. -/
theorem targetIssues_eq_nil {m : Machine κ} (h : m.issues = []) {state : String} {node : Node κ}
    (hnode : m.states.find? state = some node) : m.targetIssues state node = [] := by
  simp only [issues, List.append_eq_nil_iff, List.flatMap_eq_nil_iff] at h
  exact h.2 (state, node) (Table.mem_entries_of_find? hnode)

theorem declares_of_filterMap_eq_nil {α : Type} {m : Machine κ} {l : List α} {target : α → String}
    {issue : α → Issue}
    (h : l.filterMap (fun a => if m.declares (target a) then none else some (issue a)) = [])
    {a : α} (ha : a ∈ l) : m.declares (target a) = true := by
  have hnone := List.filterMap_eq_nil_iff.1 h a ha
  simpa using hnone

theorem declares_of_mem_names {m : Machine κ} {o : Options κ} (h : m.issuesWith o = [])
    {state : String} {node : Node κ} (hnode : m.states.find? state = some node) {name : String}
    (hname : name ∈ node.actionNames) : o.actions.contains name = true := by
  simp only [issuesWith, List.append_eq_nil_iff, List.flatMap_eq_nil_iff,
    List.filterMap_eq_nil_iff] at h
  have hnone := h.2 (state, node) (Table.mem_entries_of_find? hnode) name hname
  simpa using hnone

theorem sound_of_issuesWith {m : Machine κ} {o : Options κ} (h : m.issuesWith o = []) :
    m.Sound o := by
  have hissues : m.issues = [] := (List.append_eq_nil_iff.1 h).1
  constructor
  · exact declares_initialValue hissues
  · intro state node kind handler target hnode hhandler htarget
    have htargets := targetIssues_eq_nil hissues hnode
    simp only [targetIssues, List.append_eq_nil_iff] at htargets
    have hnone := List.filterMap_eq_nil_iff.1 htargets.1.1 (kind, handler)
      (Table.mem_entries_of_find? hhandler)
    simpa [htarget] using hnone
  · intro state d hd
    obtain ⟨node, hnode, hd⟩ := find?_of_mem_getD hd
    have htargets := targetIssues_eq_nil hissues hnode
    simp only [targetIssues, List.append_eq_nil_iff] at htargets
    exact declares_of_filterMap_eq_nil htargets.1.2 hd
  · intro state t ht
    obtain ⟨node, hnode, ht⟩ := find?_of_mem_getD ht
    have htargets := targetIssues_eq_nil hissues hnode
    simp only [targetIssues, List.append_eq_nil_iff] at htargets
    exact declares_of_filterMap_eq_nil htargets.2 ht
  · rintro a ⟨state, node, actions, hnode, hactions, ha⟩
    cases a with
    | direct run => exact ⟨run, rfl⟩
    | named name =>
      have hname : name ∈ node.actionNames := by
        rw [Node.actionNames, List.mem_eraseDups, List.mem_flatMap]
        exact ⟨actions, hactions, List.mem_filterMap.2 ⟨.named name, ha, rfl⟩⟩
      exact Option.isSome_iff_exists.1 (declares_of_mem_names h hnode hname)

/-- In a sound machine a handler that names a target leads there: a bare target is not void, and a
described one does not fall back to the current state. -/
theorem Sound.targetOf_eq {m : Machine κ} {o : Options κ} (h : m.Sound o) {state : String}
    {node : Node κ} {kind : String} {handler : Handler κ} {target : String}
    (hnode : m.states.find? state = some node) (hhandler : node.on.find? kind = some handler)
    (htarget : handler.target? = some target) : m.targetOf state handler = some target := by
  have hdecl := h.handlers state node kind handler target hnode hhandler htarget
  cases handler with
  | bare name =>
    obtain rfl := Option.some.inj htarget
    simp [targetOf, hdecl]
  | described d =>
    have htarget : d.target = some target := htarget
    simp [targetOf, htarget, Option.filter, hdecl]

/-- Hence an event leads to the snapshot of that target, unless it would lead nowhere new and do
nothing. -/
theorem Sound.candidate?_eq {m : Machine κ} {o : Options κ} (h : m.Sound o)
    {current : Snapshot κ} {node : Node κ} {event : Event} {handler : Handler κ} {target : String}
    (hnode : m.states.find? current.value = some node)
    (hhandler : node.on.find? event.kind = some handler)
    (htarget : handler.target? = some target) :
    m.candidate? current event =
      if target = current.value ∧ handler.actions.isEmpty = true then none
      else some { next := nextOf current handler target, guard := guardOf handler } := by
  have hleads := h.targetOf_eq hnode hhandler htarget
  simp [candidate?, hnode, hhandler, hleads, nextOf]

/-- Every handler that names a target leads there, or nowhere if the guard refuses or if the target
is the current state and there is nothing to do. -/
def HonoursTargets (m : Machine κ) : Prop :=
  ∀ ref current event node handler target, ref.snapshot? = some current →
    m.states.find? current.value = some node → node.on.find? event.kind = some handler →
    handler.target? = some target →
      m.targetOf current.value handler = some target ∧
      m.transition? ref event =
        if target = current.value ∧ handler.actions.isEmpty = true then none
        else if ((guardOf handler).map fun guard => (guard current event).holds).getD true then
          some (nextOf current handler target)
        else none

theorem Sound.honoursTargets {m : Machine κ} {o : Options κ} (h : m.Sound o) :
    m.HonoursTargets := by
  intro ref current event node handler target href hnode hhandler htarget
  refine ⟨h.targetOf_eq hnode hhandler htarget, ?_⟩
  have hcandidate := h.candidate?_eq hnode hhandler htarget
  by_cases hvoid : target = current.value ∧ handler.actions.isEmpty = true
  · rw [if_pos hvoid] at hcandidate ⊢
    have hnone : m.resolve ref event = {} := resolve_of_candidate?_eq_none fun r hr => by
      rw [href] at hr
      exact Option.some.inj hr ▸ hcandidate
    rw [transition?, hnone]
  · rw [if_neg hvoid] at hcandidate ⊢
    rw [transition?, resolve_of_candidate? href hcandidate]
    cases guardOf handler with
    | none => rfl
    | some guard => rfl

end TimedMachine.Machine

import TimedMachine.Machine.Resolution

/-!
Where an event leads, in one statement (`candidate?_eq_some_iff`), with what follows for the snapshot
that would come next. `Offers` gathers the transitions of a state, whatever starts them, as they are
taken: with a declared target, and with actions that stand in the lists of a declared state.
-/
namespace TimedMachine.Machine

variable {κ : Type}

/-- The snapshot that a handler leads to. -/
def nextOf (current : Snapshot κ) (handler : Handler κ) (target : String) : Snapshot κ :=
  { value := target
    context := current.context
    actions := handler.actions
    changed := decide (target ≠ current.value) }

theorem candidate?_eq_some_iff {m : Machine κ} {current : Snapshot κ} {event : Event}
    {c : Candidate κ} :
    m.candidate? current event = some c ↔
      ∃ node handler target, m.states.find? current.value = some node ∧
        node.on.find? event.kind = some handler ∧
        m.targetOf current.value handler = some target ∧
        ¬ (target = current.value ∧ handler.actions = []) ∧
        c = { next := nextOf current handler target, guard := guardOf handler } := by
  unfold candidate?
  constructor
  · intro h
    obtain ⟨node, hnode, h⟩ := Option.bind_eq_some_iff.1 h
    obtain ⟨handler, hhandler, h⟩ := Option.bind_eq_some_iff.1 h
    obtain ⟨target, htarget, h⟩ := Option.bind_eq_some_iff.1 h
    split at h
    · cases h
    · rename_i hvoid
      rw [List.isEmpty_iff] at hvoid
      exact ⟨node, handler, target, hnode, hhandler, htarget, hvoid, (Option.some.inj h).symm⟩
  · rintro ⟨node, handler, target, hnode, hhandler, htarget, hvoid, rfl⟩
    rw [← List.isEmpty_iff] at hvoid
    simp only [hnode, hhandler, htarget, Option.bind_eq_bind, Option.bind_some, if_neg hvoid]
    rfl

/-- A snapshot that does not count as changed is one of the same state. -/
theorem value_of_candidate? {m : Machine κ} {current : Snapshot κ} {event : Event}
    {c : Candidate κ} (h : m.candidate? current event = some c) (hsame : c.next.changed = false) :
    c.next.value = current.value := by
  obtain ⟨_, handler, target, _, _, _, _, rfl⟩ := candidate?_eq_some_iff.1 h
  simpa [nextOf] using hsame

/-- A transition is that of a candidate whose guard allows it. -/
theorem transition?_eq_some {m : Machine κ} {current next : Snapshot κ} {event : Event}
    (h : m.transition? (.snapshot current) event = some next) :
    ∃ c, m.candidate? current event = some c ∧ c.next = next := by
  cases hc : m.candidate? current event with
  | none =>
    have hnone : m.resolve (.snapshot current) event = {} :=
      resolve_of_candidate?_eq_none fun _ href => Option.some.inj href ▸ hc
    rw [transition?, hnone] at h
    cases h
  | some c =>
    rw [transition?, resolve_of_candidate? rfl hc] at h
    dsimp only at h
    split at h
    · exact ⟨c, rfl, Option.some.inj h⟩
    · cases h

theorem transition?_of_candidate? {m : Machine κ} {current : Snapshot κ} {event : Event}
    {c : Candidate κ} (hc : m.candidate? current event = some c)
    (hholds : (c.verdict current event).holds = true) :
    m.transition? (.snapshot current) event = some c.next := by
  rw [transition?, resolve_of_candidate? rfl hc]
  exact if_pos hholds

/-- The action stands in one of the lists of a declared state. -/
def Mentions (m : Machine κ) (a : Action κ) : Prop :=
  ∃ state node actions, m.states.find? state = some node ∧ actions ∈ node.actionLists ∧ a ∈ actions

/-- The transitions of a state that can be taken, by where they lead and what they run. -/
inductive Offers (m : Machine κ) (state : String) : String → List (Action κ) → Prop
  | event {node : Node κ} {kind : String} {handler : Handler κ} {target : String}
      (hnode : m.states.find? state = some node) (hhandler : node.on.find? kind = some handler)
      (htarget : m.targetOf state handler = some target) :
      Offers m state target handler.actions
  | delayed {d : Delayed κ} (hd : d ∈ m.afterOf state) (hdecl : m.declares d.target = true) :
      Offers m state d.target d.actions
  | eventless {t : Eventless κ} (ht : t ∈ m.alwaysOf state) (hdecl : m.declares t.target = true) :
      Offers m state t.target t.actions

theorem declares_of_find? {m : Machine κ} {state : String} {node : Node κ}
    (h : m.states.find? state = some node) : m.declares state = true := by
  rw [declares, Table.contains, h, Option.isSome_some]

theorem declares_of_targetOf {m : Machine κ} {state target : String} {handler : Handler κ}
    (hstate : m.declares state = true) (h : m.targetOf state handler = some target) :
    m.declares target = true := by
  cases handler with
  | bare name =>
    simp only [targetOf] at h
    split at h
    · rename_i hname
      exact Option.some.inj h ▸ hname
    · cases h
  | described d =>
    simp only [targetOf, Option.some.injEq] at h
    cases hd : d.target.filter (m.declares ·) with
    | none =>
      rw [hd] at h
      exact h ▸ hstate
    | some name =>
      rw [hd] at h
      exact h ▸ (Option.filter_eq_some_iff.1 hd).2

theorem Offers.declares {m : Machine κ} {state target : String} {actions : List (Action κ)}
    (h : m.Offers state target actions) : m.declares target = true := by
  cases h with
  | event hnode _ htarget => exact declares_of_targetOf (declares_of_find? hnode) htarget
  | delayed _ hdecl => exact hdecl
  | eventless _ hdecl => exact hdecl

/-- A part of a state's node that holds something is a part of a declared one. -/
theorem find?_of_mem_getD {α : Type} {m : Machine κ} {state : String} {part : Node κ → List α}
    {a : α} (h : a ∈ ((m.states.find? state).map part).getD []) :
    ∃ node, m.states.find? state = some node ∧ a ∈ part node := by
  cases hnode : m.states.find? state with
  | none => simp [hnode] at h
  | some node => exact ⟨node, rfl, by simpa [hnode] using h⟩

theorem mentions_of_entryOf {m : Machine κ} {state : String} {a : Action κ}
    (h : a ∈ m.entryOf state) : m.Mentions a := by
  obtain ⟨node, hnode, ha⟩ := find?_of_mem_getD h
  exact ⟨state, node, node.entry, hnode, by simp [Node.actionLists], ha⟩

theorem mentions_of_exitOf {m : Machine κ} {state : String} {a : Action κ}
    (h : a ∈ m.exitOf state) : m.Mentions a := by
  obtain ⟨node, hnode, ha⟩ := find?_of_mem_getD h
  exact ⟨state, node, node.exit, hnode, by simp [Node.actionLists], ha⟩

theorem mentions_of_handler {m : Machine κ} {state kind : String} {node : Node κ}
    {handler : Handler κ} (hnode : m.states.find? state = some node)
    (hhandler : node.on.find? kind = some handler) {a : Action κ} (ha : a ∈ handler.actions) :
    m.Mentions a := by
  refine ⟨state, node, handler.actions, hnode, ?_, ha⟩
  have hmem : handler.actions ∈ node.on.entries.map (·.2.actions) :=
    List.mem_map.2 ⟨(kind, handler), Table.mem_entries_of_find? hhandler, rfl⟩
  simp only [Node.actionLists, List.mem_append]
  exact .inl (.inl (.inr hmem))

theorem Offers.mentions {m : Machine κ} {state target : String} {actions : List (Action κ)}
    (h : m.Offers state target actions) {a : Action κ} (ha : a ∈ actions) : m.Mentions a := by
  cases h with
  | event hnode hhandler _ => exact mentions_of_handler hnode hhandler ha
  | @delayed d hd _ =>
    obtain ⟨node, hnode, hd⟩ := find?_of_mem_getD hd
    refine ⟨state, node, d.actions, hnode, ?_, ha⟩
    simp only [Node.actionLists, List.mem_append]
    exact .inl (.inr (List.mem_map.2 ⟨d, hd, rfl⟩))
  | @eventless t ht _ =>
    obtain ⟨node, hnode, ht⟩ := find?_of_mem_getD ht
    refine ⟨state, node, t.actions, hnode, ?_, ha⟩
    simp only [Node.actionLists, List.mem_append]
    exact .inr (List.mem_map.2 ⟨t, ht, rfl⟩)

end TimedMachine.Machine

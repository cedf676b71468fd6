import TimedMachine.Proofs.Arrangement
import TimedMachine.Proofs.Enumeration

/-!
Validation finds exactly what dangles. Every reference in a machine has an address: numbers that lead
to it in the order of declaration. The relations `Machine.Dangles` and `Machine.Unresolved` say of an
address what is wrong there, without going through the machine; validation lists just that, in the
order of the addresses (`issues_enumerated`).
-/
namespace TimedMachine

variable {κ : Type}

/-- What dangles in the node of a state. The address is the number of the table, and of the entry in
it. -/
inductive Node.Dangles (m : Machine κ) (state : String) (n : Node κ) : List Nat → Issue → Prop
  | bare {j : Nat} {kind target : String} (hhandler : n.on.entries[j]? = some (kind, .bare target))
      (hnot : m.declares target = false) :
      Dangles m state n [0, j] (.unknownTarget state kind target)
  | described {j : Nat} {kind target : String} {d : Descriptor κ}
      (hhandler : n.on.entries[j]? = some (kind, .described d)) (htarget : d.target = some target)
      (hnot : m.declares target = false) :
      Dangles m state n [0, j] (.unknownTarget state kind target)
  | delayed {j : Nat} {d : Delayed κ} (hd : n.after[j]? = some d)
      (hnot : m.declares d.target = false) :
      Dangles m state n [1, j] (.unknownAfterTarget state d.delay d.target)
  | eventless {j : Nat} {t : Eventless κ} (ht : n.always[j]? = some t)
      (hnot : m.declares t.target = false) :
      Dangles m state n [2, j] (.unknownAlwaysTarget state t.target)

/-- What dangles in a machine: there are no states, the initial state that it names is not declared, or
something dangles in the node of a declared state. -/
inductive Machine.Dangles (m : Machine κ) : List Nat → Issue → Prop
  | noStates (hnone : ∀ state, m.declares state = false) : Dangles m [0] .noStates
  | initial {initial : String} (hinitial : m.initial = some initial)
      (hnot : m.declares initial = false) : Dangles m [1] (.unknownInitial initial)
  | node {i : Nat} {state : String} {node : Node κ} {address : List Nat} {issue : Issue}
      (hnode : m.states.entries[i]? = some (state, node))
      (hdangles : node.Dangles m state address issue) : Dangles m (2 :: i :: address) issue

/-- A name of an action stands in a node. The address is the number of the table, of the entry, and of
the action in its list. -/
inductive Node.Names (n : Node κ) : List Nat → String → Prop
  | entry {p : Nat} {name : String} (hname : n.entry[p]? = some (.named name)) : Names n [0, p] name
  | exit {p : Nat} {name : String} (hname : n.exit[p]? = some (.named name)) : Names n [1, p] name
  | handler {j p : Nat} {kind name : String} {d : Descriptor κ}
      (hhandler : n.on.entries[j]? = some (kind, .described d))
      (hname : d.actions[p]? = some (.named name)) : Names n [2, j, p] name
  | delayed {j p : Nat} {name : String} {d : Delayed κ} (hd : n.after[j]? = some d)
      (hname : d.actions[p]? = some (.named name)) : Names n [3, j, p] name
  | eventless {j p : Nat} {name : String} {t : Eventless κ} (ht : n.always[j]? = some t)
      (hname : t.actions[p]? = some (.named name)) : Names n [4, j, p] name

/-- A name stands in a node of a declared state for the first time, and no function goes by it. -/
inductive Machine.Unresolved (m : Machine κ) (o : Options κ) : List Nat → Issue → Prop
  | node {i : Nat} {state name : String} {node : Node κ} {address : List Nat}
      (hnode : m.states.entries[i]? = some (state, node)) (hname : node.Names address name)
      (hfirst : ∀ earlier, node.Names earlier name → ¬ earlier < address)
      (hnone : o.actions.find? name = none) :
      Unresolved m o (i :: address) (.unresolvedAction state name)

namespace Machine

variable {m : Machine κ}

theorem of_unless {declared : Bool} {issue found : Issue}
    (h : (if declared then none else some issue) = some found) : declared = false ∧ found = issue := by
  cases declared with
  | true => simp at h
  | false => exact ⟨rfl, (Option.some.inj h).symm⟩

theorem enumerates_targetIssues (m : Machine κ) (state : String) (n : Node κ) :
    Enumerates (n.Dangles m state) (m.targetIssues state n) := by
  have hhandlers := Enumerates.ofList n.on.entries
  have hdelayed := Enumerates.ofList n.after
  have heventless := Enumerates.ofList n.always
  rw [targetIssues, List.append_assoc]
  refine (hhandlers.filterMap.beside 0
    (hdelayed.filterMap.beside 1 (heventless.filterMap.under 2) .under)
    (.beside .under)).congr fun address issue => ?_
  constructor
  · rintro (⟨_, rfl, ⟨kind, handler⟩, ⟨j, rfl, hj⟩, hissue⟩ | ⟨_, rfl, d, ⟨j, rfl, hj⟩, hissue⟩ |
      ⟨_, rfl, t, ⟨j, rfl, hj⟩, hissue⟩)
    · cases handler with
      | bare target =>
        obtain ⟨hnot, rfl⟩ := of_unless hissue
        exact .bare hj hnot
      | described d =>
        cases htarget : d.target with
        | none => simp [Handler.target?, htarget] at hissue
        | some target =>
          simp only [Handler.target?, htarget] at hissue
          obtain ⟨hnot, rfl⟩ := of_unless hissue
          exact .described hj htarget hnot
    · obtain ⟨hnot, rfl⟩ := of_unless hissue
      exact .delayed hj hnot
    · obtain ⟨hnot, rfl⟩ := of_unless hissue
      exact .eventless hj hnot
  · rintro (⟨hj, hnot⟩ | ⟨hj, htarget, hnot⟩ | ⟨hj, hnot⟩ | ⟨hj, hnot⟩)
    · exact .inl ⟨_, rfl, _, ⟨_, rfl, hj⟩, by simp [Handler.target?, hnot]⟩
    · exact .inl ⟨_, rfl, _, ⟨_, rfl, hj⟩, by simp [Handler.target?, htarget, hnot]⟩
    · exact .inr (.inl ⟨_, rfl, _, ⟨_, rfl, hj⟩, by simp [hnot]⟩)
    · exact .inr (.inr ⟨_, rfl, _, ⟨_, rfl, hj⟩, by simp [hnot]⟩)

theorem isEmpty_iff (m : Machine κ) :
    m.states.isEmpty = true ↔ ∀ state, m.declares state = false := by
  rw [Table.isEmpty, List.isEmpty_iff, ← List.map_eq_nil_iff (f := Prod.fst),
    List.eq_nil_iff_forall_not_mem]
  refine forall_congr' fun state => ?_
  rw [Machine.declares, ← Bool.not_eq_true, Table.contains_iff, Table.keys]

theorem enumerates_noStates (m : Machine κ) :
    Enumerates (fun a issue => a = [] ∧ issue = Issue.noStates ∧ ∀ state, m.declares state = false)
      (if m.states.isEmpty then [Issue.noStates] else []) := by
  by_cases hnone : m.states.isEmpty = true
  · rw [if_pos hnone]
    refine (Enumerates.single [] Issue.noStates).congr fun a issue => ?_
    exact and_congr_right fun _ => (and_iff_left (m.isEmpty_iff.1 hnone)).symm
  · rw [if_neg hnone]
    exact .nil fun _ _ h => hnone (m.isEmpty_iff.2 h.2.2)

theorem enumerates_initial (m : Machine κ) :
    Enumerates (fun a issue => a = [] ∧ ∃ initial, m.initial = some initial ∧
        m.declares initial = false ∧ issue = Issue.unknownInitial initial)
      (m.initial.elim [] fun initial =>
        if m.declares initial then [] else [Issue.unknownInitial initial]) := by
  cases m.initial with
  | none => exact .nil (by simp)
  | some initial =>
    dsimp only [Option.elim_some]
    by_cases hdeclares : m.declares initial = true
    · rw [if_pos hdeclares]
      exact .nil (by simp [hdeclares])
    · rw [if_neg hdeclares]
      refine (Enumerates.single [] (Issue.unknownInitial initial)).congr fun a issue => ?_
      simp [hdeclares]

theorem enumerates_issues (m : Machine κ) : Enumerates m.Dangles m.issues := by
  have hnodes := Enumerates.flatMap (l := m.states.entries) fun e _ =>
    m.enumerates_targetIssues e.1 e.2
  have hall := m.enumerates_noStates.beside 0 (m.enumerates_initial.beside 1 (hnodes.under 2) .under)
    (.beside .under)
  have hissues : m.issues = (if m.states.isEmpty then [Issue.noStates] else []) ++
      ((m.initial.elim [] fun initial =>
        if m.declares initial then [] else [Issue.unknownInitial initial]) ++
        m.states.entries.flatMap fun e => m.targetIssues e.1 e.2) := by
    rw [issues, List.append_assoc]
    cases m.initial <;> rfl
  rw [hissues]
  refine hall.congr fun address issue => ?_
  constructor
  · rintro (⟨_, rfl, rfl, rfl, hnone⟩ | ⟨_, rfl, rfl, initial, hinitial, hnot, rfl⟩ |
      ⟨_, rfl, i, ⟨state, node⟩, rest, hnode, rfl, hdangles⟩)
    · exact .noStates hnone
    · exact .initial hinitial hnot
    · exact .node hnode hdangles
  · rintro (hnone | ⟨hinitial, hnot⟩ | ⟨hnode, hdangles⟩)
    · exact .inl ⟨_, rfl, rfl, rfl, hnone⟩
    · exact .inr (.inl ⟨_, rfl, rfl, _, hinitial, hnot, rfl⟩)
    · exact .inr (.inr ⟨_, rfl, _, _, _, hnode, rfl, hdangles⟩)

end Machine

theorem Action.enumerates_names (actions : List (Action κ)) :
    Enumerates (fun a name => ∃ p : Nat, a = [p] ∧ actions[p]? = some (.named name))
      (Action.names actions) := by
  refine (Enumerates.ofList actions).filterMap.congr fun a name => ?_
  constructor
  · rintro ⟨action, ⟨p, rfl, hp⟩, hname⟩
    cases action with
    | direct run => simp [Action.name?] at hname
    | named _ =>
      obtain rfl := Option.some.inj hname
      exact ⟨p, rfl, hp⟩
  · rintro ⟨p, rfl, hp⟩
    exact ⟨_, ⟨p, rfl, hp⟩, rfl⟩

namespace Node

variable {n : Node κ}

theorem enumerates_names (n : Node κ) :
    Enumerates n.Names (n.actionLists.flatMap Action.names) := by
  have hhandlers := Enumerates.flatMap (l := n.on.entries) fun e _ =>
    Action.enumerates_names e.2.actions
  have hdelayed := Enumerates.flatMap (l := n.after) fun d _ => Action.enumerates_names d.actions
  have heventless := Enumerates.flatMap (l := n.always) fun t _ =>
    Action.enumerates_names t.actions
  have hall := (Action.enumerates_names n.entry).beside 0
    ((Action.enumerates_names n.exit).beside 1
      (hhandlers.beside 2 (hdelayed.beside 3 (heventless.under 4) .under) (.beside .under))
      (.beside (.beside .under)))
    (.beside (.beside (.beside .under)))
  have hlists : n.actionLists.flatMap Action.names = Action.names n.entry ++
      (Action.names n.exit ++ (n.on.entries.flatMap (Action.names ·.2.actions) ++
        (n.after.flatMap (Action.names ·.actions) ++
          n.always.flatMap (Action.names ·.actions)))) := by
    simp [actionLists, List.flatMap_append, List.flatMap_map]
  rw [hlists]
  refine hall.congr fun address name => ?_
  constructor
  · rintro (⟨_, rfl, p, rfl, hname⟩ | ⟨_, rfl, p, rfl, hname⟩ |
      ⟨_, rfl, j, ⟨kind, handler⟩, _, hj, rfl, p, rfl, hname⟩ |
      ⟨_, rfl, j, d, _, hj, rfl, p, rfl, hname⟩ | ⟨_, rfl, j, t, _, hj, rfl, p, rfl, hname⟩)
    · exact .entry hname
    · exact .exit hname
    · cases handler with
      | bare target => simp [Handler.actions] at hname
      | described d => exact .handler hj hname
    · exact .delayed hj hname
    · exact .eventless hj hname
  · rintro (hname | hname | ⟨hj, hname⟩ | ⟨hj, hname⟩ | ⟨hj, hname⟩)
    · exact .inl ⟨_, rfl, _, rfl, hname⟩
    · exact .inr (.inl ⟨_, rfl, _, rfl, hname⟩)
    · exact .inr (.inr (.inl ⟨_, rfl, _, _, _, hj, rfl, _, rfl, hname⟩))
    · exact .inr (.inr (.inr (.inl ⟨_, rfl, _, _, _, hj, rfl, _, rfl, hname⟩)))
    · exact .inr (.inr (.inr (.inr ⟨_, rfl, _, _, _, hj, rfl, _, rfl, hname⟩)))

/-- Each name that stands in a node is listed at its first address. -/
theorem enumerates_actionNames (n : Node κ) :
    Enumerates (fun a name => n.Names a name ∧ ∀ earlier, n.Names earlier name → ¬ earlier < a)
      n.actionNames :=
  n.enumerates_names.eraseDups

theorem mem_actionNames {name : String} :
    name ∈ n.actionNames ↔ ∃ address, n.Names address name := by
  rw [actionNames, List.mem_eraseDups, n.enumerates_names.mem_iff]

end Node

namespace Machine

theorem enumerates_unresolved (m : Machine κ) (o : Options κ) :
    Enumerates (m.Unresolved o) (m.states.entries.flatMap fun e =>
      e.2.actionNames.filterMap fun name =>
        if o.actions.contains name then none else some (.unresolvedAction e.1 name)) := by
  refine (Enumerates.flatMap fun e _ => e.2.enumerates_actionNames.filterMap).congr
    fun address issue => ?_
  constructor
  · rintro ⟨i, ⟨state, node⟩, rest, hnode, rfl, name, ⟨hname, hfirst⟩, hissue⟩
    obtain ⟨hnone, rfl⟩ := of_unless hissue
    exact .node hnode hname hfirst (by simpa [Table.contains] using hnone)
  · rintro ⟨hnode, hname, hfirst, hnone⟩
    refine ⟨_, _, _, hnode, rfl, _, ⟨hname, hfirst⟩, ?_⟩
    simp [Table.contains, hnone]

theorem Unresolved.address_unique {m : Machine κ} {o : Options κ} {a b : List Nat} {issue : Issue}
    (h : m.Unresolved o a issue) (k : m.Unresolved o b issue) : a = b := by
  cases h with
  | @node i state name node rest hnode hname hfirst _ =>
    cases k with
    | @node j _ _ node' rest' hnode' hname' hfirst' _ =>
      have hi : m.states.keys[i]? = some state := by simp [Table.keys, hnode]
      have hj : m.states.keys[j]? = some state := by simp [Table.keys, hnode']
      have hlt : i < m.states.keys.length := (List.getElem?_eq_some_iff.1 hi).1
      obtain rfl := (List.getElem?_inj hlt m.states.keys_nodup).1 (hi.trans hj.symm)
      rw [hnode] at hnode'
      obtain rfl : node = node' := by simpa using hnode'
      rw [List.le_antisymm (List.not_lt.1 (hfirst rest' hname')) (List.not_lt.1 (hfirst' rest hname))]

/-- What is reported for a state is what stands there, wherever that is. -/
theorem unresolved_iff {m : Machine κ} {o : Options κ} {issue : Issue} :
    (∃ address, m.Unresolved o address issue) ↔
      ∃ state node name, issue = .unresolvedAction state name ∧
        m.states.find? state = some node ∧ (∃ address, node.Names address name) ∧
        o.actions.find? name = none := by
  constructor
  · rintro ⟨_, hnode, hname, _, hnone⟩
    exact ⟨_, _, _, rfl, Table.find?_of_mem_entries (List.mem_of_getElem? hnode), ⟨_, hname⟩, hnone⟩
  · rintro ⟨state, node, name, rfl, hnode, hname, hnone⟩
    obtain ⟨i, hi⟩ := List.getElem?_of_mem (Table.mem_entries_of_find? hnode)
    obtain ⟨address, hname, hfirst⟩ :=
      node.enumerates_actionNames.mem_iff.1 (Node.mem_actionNames.2 hname)
    exact ⟨i :: address, .node hi hname hfirst hnone⟩

/-- Validation reports exactly what dangles in the machine. With the functions that names stand for it
reports after that every name in a node that stands for none, once for each state. All of it is in the
order of declaration, and nothing is reported if nothing is wrong. -/
theorem issues_enumerated (m : Machine κ) (o : Options κ) :
    (∀ items, Enumerates m.Dangles items ↔ items = m.issues) ∧
    (m.issues = [] ↔ ∀ address issue, ¬ m.Dangles address issue) ∧
    ∃ names, m.issuesWith o = m.issues ++ names ∧
      (∀ items, Enumerates (m.Unresolved o) items ↔ items = names) ∧ names.Nodup ∧
      (∀ issue, issue ∈ names ↔ ∃ state node name, issue = .unresolvedAction state name ∧
        m.states.find? state = some node ∧ (∃ address, node.Names address name) ∧
        o.actions.find? name = none) ∧
      (m.issuesWith o = [] ↔ (∀ address issue, ¬ m.Dangles address issue) ∧
        ∀ address issue, ¬ m.Unresolved o address issue) := by
  have hissues := m.enumerates_issues
  have hnames := m.enumerates_unresolved o
  refine ⟨fun _ => hissues.iff_eq, hissues.eq_nil_iff, _, rfl, fun _ => hnames.iff_eq, ?_,
    fun issue => ?_, ?_⟩
  · exact hnames.nodup fun _ _ _ => Unresolved.address_unique
  · rw [hnames.mem_iff, unresolved_iff]
  · rw [issuesWith, List.append_eq_nil_iff, hissues.eq_nil_iff, hnames.eq_nil_iff]

example : ({ initial := some "off", states := .ofList [("on", {
      entry := [.named "ring"], after := [⟨.zero, "idle", [.named "ring", .named "dim"]⟩],
      on := .ofList [("kick", .bare "broken"), ("press", .described {})] })] } :
    Machine Nat).issuesWith {} =
      [.unknownInitial "off", .unknownTarget "on" "kick" "broken",
        .unknownAfterTarget "on" .zero "idle", .unresolvedAction "on" "ring",
        .unresolvedAction "on" "dim"] := by
  decide

end Machine
end TimedMachine

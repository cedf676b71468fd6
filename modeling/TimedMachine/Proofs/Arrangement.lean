import Mathlib.Data.List.Nodup
import Mathlib.Data.List.Perm.Basic
import TimedMachine.Machine.Clause
import TimedMachine.Machine.Issue
import TimedMachine.Proofs.Counterpart

/-!
Machines that differ only in how their declarations are arranged. Two lists of clauses agree if the
last clause that sets a thing sets it to the same, and the same delayed and eventless transitions are
added in the same order (`Machine.Clause.Agree`); in which order names and kinds first appear, and what
is set and then replaced, does not matter. Machines from clauses that agree are counterparts under any
options, resolve every event alike, and have the same issues up to order.
-/
namespace TimedMachine

variable {κ : Type}

/-- Values that correspond are both there or both missing. -/
theorem cases_of_rel {α β : Type} {p : α → β → Prop} {x : Option α} {y : Option β}
    (h : Option.Rel p x y) : (x = none ∧ y = none) ∨ ∃ a b, x = some a ∧ y = some b ∧ p a b := by
  cases h with
  | none => exact .inl ⟨rfl, rfl⟩
  | some h => exact .inr ⟨_, _, rfl, rfl, h⟩

theorem rel_imp {α β : Type} {p q : α → β → Prop} {x : Option α} {y : Option β}
    (h : Option.Rel p x y) (hpq : ∀ a b, p a b → q a b) : Option.Rel q x y := by
  cases h with
  | none => exact .none
  | some h => exact .some (hpq _ _ h)

/-- The clauses of two nodes leave the same handler for every kind and the same lists. -/
structure Node.Clause.Agree (cs cs' : List (Node.Clause κ)) : Prop where
  handler : ∀ kind, lastOf (handler? kind) cs' = lastOf (handler? kind) cs
  entry : (lastOf entry? cs').getD [] = (lastOf entry? cs).getD []
  exit : (lastOf exit? cs').getD [] = (lastOf exit? cs).getD []
  after : cs'.filterMap after? = cs.filterMap after?
  always : cs'.filterMap always? = cs.filterMap always?

/-- The clauses of two machines name the same initial state, leave the same context, and agree in the
node of every name. -/
structure Machine.Clause.Agree (cs cs' : List (Machine.Clause κ)) : Prop where
  initial : ∃ name, lastOf initial? cs = some name ∧ lastOf initial? cs' = some name
  context : lastOf context? cs' = lastOf context? cs
  state : ∀ name, Option.Rel Node.Clause.Agree (lastOf (state? name) cs) (lastOf (state? name) cs')

/-- The nodes have the same parts, though their handlers may stand in different orders. -/
structure Node.Same (n n' : Node κ) : Prop where
  on : ∀ kind, n'.on.find? kind = n.on.find? kind
  entry : n'.entry = n.entry
  exit : n'.exit = n.exit
  after : n'.after = n.after
  always : n'.always = n.always

/-- The machines start in the same state with the same context and have the same nodes under the same
names, though these may stand in different orders. -/
structure Machine.Same (m m' : Machine κ) : Prop where
  initial : ∃ name, m.initial = some name ∧ m'.initial = some name
  context : m'.context = m.context
  node : ∀ name, Option.Rel Node.Same (m.states.find? name) (m'.states.find? name)

theorem Node.Clause.Agree.same {cs cs' : List (Node.Clause κ)} (h : Agree cs cs') :
    (Node.ofClauses cs).Same (Node.ofClauses cs') where
  on kind := by rw [find?_on_ofClauses, find?_on_ofClauses, h.handler]
  entry := by rw [entry_ofClauses, entry_ofClauses, h.entry]
  exit := by rw [exit_ofClauses, exit_ofClauses, h.exit]
  after := by rw [after_ofClauses, after_ofClauses, h.after]
  always := by rw [always_ofClauses, always_ofClauses, h.always]

theorem Machine.Clause.Agree.same {cs cs' : List (Machine.Clause κ)} (h : Agree cs cs') :
    (Machine.ofClauses cs).Same (Machine.ofClauses cs') where
  initial := by
    rw [initial_ofClauses, initial_ofClauses]
    exact h.initial
  context := by rw [context_ofClauses, context_ofClauses, h.context]
  node name := by
    rw [find?_ofClauses, find?_ofClauses]
    obtain ⟨hnone, hnone'⟩ | ⟨node, node', hsome, hsome', hnode⟩ := cases_of_rel (h.state name)
    · rw [hnone, hnone']
      exact .none
    · rw [hsome, hsome']
      exact .some hnode.same

namespace Table

variable {α : Type}

theorem find?_of_mem_entries {t : Table α} {e : String × α} (h : e ∈ t.entries) :
    t.find? e.1 = some e.2 := by
  obtain ⟨value, hvalue⟩ : ∃ value, t.find? e.1 = some value :=
    Option.isSome_iff_exists.1 ((t.contains_iff e.1).2 (List.mem_map_of_mem h))
  have hsame : (e.1, value) = e :=
    List.inj_on_of_nodup_map t.nodup (mem_entries_of_find? hvalue) h rfl
  rw [hvalue, ← hsame]

theorem mem_entries_iff {t : Table α} {e : String × α} :
    e ∈ t.entries ↔ t.find? e.1 = some e.2 :=
  ⟨find?_of_mem_entries, mem_entries_of_find?⟩

theorem nodup_entries (t : Table α) : t.entries.Nodup := List.Nodup.of_map _ t.nodup

/-- Tables that are alike for every name have the same names. -/
theorem keys_perm {β : Type} {p : α → β → Prop} {t : Table α} {t' : Table β}
    (h : ∀ name, Option.Rel p (t.find? name) (t'.find? name)) : t.keys.Perm t'.keys := by
  refine (List.perm_ext_iff_of_nodup t.keys_nodup t'.keys_nodup).2 fun name => ?_
  rw [← t.contains_iff, ← t'.contains_iff, contains, contains]
  obtain ⟨hnone, hnone'⟩ | ⟨a, b, hsome, hsome', _⟩ := cases_of_rel (h name)
  · rw [hnone, hnone']
    exact Iff.rfl
  · rw [hsome, hsome', Option.isSome_some, Option.isSome_some]

/-- Tables with the same values under the same names have the same entries. -/
theorem entries_perm {t t' : Table α} (h : ∀ name, t'.find? name = t.find? name) :
    t.entries.Perm t'.entries := by
  refine (List.perm_ext_iff_of_nodup t.nodup_entries t'.nodup_entries).2 fun e => ?_
  rw [mem_entries_iff, mem_entries_iff, h]

/-- Going through the entries is going through the names. -/
theorem flatMap_entries {β : Type} (t : Table α) (f : String → α → List β) :
    (t.entries.flatMap fun e => f e.1 e.2) =
      t.keys.flatMap fun name => ((t.find? name).map (f name)).getD [] := by
  rw [keys, List.flatMap_map]
  refine List.flatMap_congr fun e he => ?_
  rw [find?_of_mem_entries he, Option.map_some, Option.getD_some]

/-- What is gathered from two tables is the same up to order if it is so for every name. -/
theorem flatMap_entries_perm {β : Type} {t t' : Table α} (f : String → α → List β)
    (h : ∀ name, Option.Rel (fun a b => (f name a).Perm (f name b)) (t.find? name)
      (t'.find? name)) :
    (t.entries.flatMap fun e => f e.1 e.2).Perm (t'.entries.flatMap fun e => f e.1 e.2) := by
  have hkeys : t.keys.Perm t'.keys :=
    keys_perm (p := fun _ _ => True) fun name => rel_imp (h name) fun _ _ _ => trivial
  rw [flatMap_entries, flatMap_entries]
  refine hkeys.flatMap fun name _ => ?_
  obtain ⟨hnone, hnone'⟩ | ⟨a, b, hsome, hsome', hvalues⟩ := cases_of_rel (h name)
  · rw [hnone, hnone']
  · rw [hsome, hsome']
    exact hvalues

end Table

/-- Taking repetitions out leaves none. -/
theorem nodup_eraseDups (names : List String) : names.eraseDups.Nodup := by
  match names with
  | [] => simp
  | name :: rest =>
    rw [List.eraseDups_cons, List.nodup_cons]
    exact ⟨by simp, nodup_eraseDups _⟩
termination_by names.length
decreasing_by exact Nat.lt_succ_of_le (List.length_filter_le _ _)

theorem eraseDups_perm {names names' : List String} (h : names.Perm names') :
    names.eraseDups.Perm names'.eraseDups := by
  refine (List.perm_ext_iff_of_nodup (nodup_eraseDups _) (nodup_eraseDups _)).2 fun name => ?_
  rw [List.mem_eraseDups, List.mem_eraseDups, h.mem_iff]

namespace Node.Same

variable {n n' : Node κ}

theorem actionLists_perm (h : n.Same n') : n.actionLists.Perm n'.actionLists := by
  have hon : (n.on.entries.map (·.2.actions)).Perm (n'.on.entries.map (·.2.actions)) :=
    (Table.entries_perm h.on).map _
  rw [actionLists, actionLists, h.entry, h.exit, h.after, h.always]
  exact ((hon.append_left _).append_right _).append_right _

theorem actionNames_perm (h : n.Same n') : n.actionNames.Perm n'.actionNames :=
  eraseDups_perm (h.actionLists_perm.flatMap_right _)

end Node.Same

namespace Machine

variable {m m' : Machine κ}

theorem Same.declares (h : m.Same m') (state : String) : m'.declares state = m.declares state := by
  rw [Machine.declares, Machine.declares, Table.contains, Table.contains]
  obtain ⟨hnone, hnone'⟩ | ⟨n, n', hn, hn', _⟩ := cases_of_rel (h.node state)
  · rw [hnone, hnone']
  · rw [hn, hn', Option.isSome_some, Option.isSome_some]

theorem Same.initialSnapshot (h : m.Same m') : m'.initialSnapshot = m.initialSnapshot := by
  obtain ⟨name, hname, hname'⟩ := h.initial
  rw [Machine.initialSnapshot, Machine.initialSnapshot, h.context, initialValue, initialValue,
    hname, hname']
  rfl

/-- A part of every state that is the same in nodes with the same parts. -/
theorem Same.part (h : m.Same m') {α : Type} {part : Node κ → List α}
    (hpart : ∀ n n' : Node κ, n.Same n' → part n' = part n) (state : String) :
    ((m'.states.find? state).map part).getD [] = ((m.states.find? state).map part).getD [] := by
  obtain ⟨hnone, hnone'⟩ | ⟨n, n', hn, hn', hsame⟩ := cases_of_rel (h.node state)
  · rw [hnone, hnone']
  · rw [hn, hn', Option.map_some, Option.map_some, hpart n n' hsame]

theorem Same.targetOf (h : m.Same m') (current : String) (handler : Handler κ) :
    m'.targetOf current handler = m.targetOf current handler := by
  cases handler with
  | bare target => rw [Machine.targetOf, Machine.targetOf, h.declares]
  | described d => simp only [Machine.targetOf, h.declares]

theorem Same.candidate? (h : m.Same m') (current : Snapshot κ) (event : Event) :
    m'.candidate? current event = m.candidate? current event := by
  unfold Machine.candidate?
  obtain ⟨hnone, hnone'⟩ | ⟨n, n', hn, hn', hsame⟩ := cases_of_rel (h.node current.value)
  · rw [hnone, hnone']
    rfl
  · simp only [hn, hn', Option.bind_eq_bind, Option.bind_some, hsame.on, h.targetOf]

theorem Same.resolve (h : m.Same m') (ref : StateRef κ) (event : Event) :
    m'.resolve ref event = m.resolve ref event := by
  simp only [Machine.resolve, h.candidate?]

/-- Machines with the same parts do the same under every options. -/
theorem Same.counterpart (h : m.Same m') (o : Options κ) : Counterpart Eq m o m' o where
  resolve := by rintro x _ rfl; rfl
  unresolved := by rintro x _ rfl _; rfl
  declares := h.declares
  entry state := by
    rw [entryOf, entryOf, h.part fun _ _ hn => hn.entry]
    exact List.forall₂_same.2 fun _ _ => rfl
  exit state := by
    rw [exitOf, exitOf, h.part fun _ _ hn => hn.exit]
    exact List.forall₂_same.2 fun _ _ => rfl
  after state := by
    rw [afterOf, afterOf, h.part fun _ _ hn => hn.after]
    exact List.forall₂_same.2 fun d _ => d.alike_self
  always state := by
    rw [alwaysOf, alwaysOf, h.part fun _ _ hn => hn.always]
    exact List.forall₂_same.2 fun t _ => t.alike_self
  candidate s s' hs event := by
    rw [hs.eq, h.candidate?]
    cases m.candidate? s event with
    | none => exact .none
    | some c => exact .some c.alike_self

theorem targetIssues_perm (m : Machine κ) (state : String) {n n' : Node κ} (h : n.Same n') :
    (m.targetIssues state n).Perm (m.targetIssues state n') := by
  rw [targetIssues, targetIssues, h.after, h.always]
  exact (((Table.entries_perm h.on).filterMap _).append_right _).append_right _

theorem Same.targetIssues (h : m.Same m') : m'.targetIssues = m.targetIssues := by
  funext state n
  simp only [Machine.targetIssues, h.declares]

theorem Same.isEmpty (h : m.Same m') : m'.states.isEmpty = m.states.isEmpty := by
  have hkeys := (Table.keys_perm h.node).isEmpty_eq
  rw [Table.keys, Table.keys, List.isEmpty_map, List.isEmpty_map] at hkeys
  exact hkeys.symm

theorem Same.issues_perm (h : m.Same m') : m.issues.Perm m'.issues := by
  obtain ⟨name, hname, hname'⟩ := h.initial
  simp only [issues, h.isEmpty, hname, hname', h.declares, h.targetIssues]
  refine (Table.flatMap_entries_perm m.targetIssues fun state => ?_).append_left _
  exact rel_imp (h.node state) fun _ _ hn => m.targetIssues_perm state hn

theorem Same.issuesWith_perm (h : m.Same m') (o : Options κ) :
    (m.issuesWith o).Perm (m'.issuesWith o) := by
  refine h.issues_perm.append (Table.flatMap_entries_perm
    (fun state (n : Node κ) => n.actionNames.filterMap fun name =>
      if o.actions.contains name then none else some (Issue.unresolvedAction state name))
    fun state => ?_)
  exact rel_imp (h.node state) fun _ _ hn => hn.actionNames_perm.filterMap _

end Machine
end TimedMachine

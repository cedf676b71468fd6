import Mathlib.Data.List.Induction
import TimedMachine.Machine

/-!
Machines and nodes written down clause by clause, in any order and with any repetitions. Of clauses
that set the same thing the last one stands: the initial state, the context, the node of a name, and in
a node the handler of a kind and the lists of entry and exit actions. Delayed and eventless
transitions are added one after another.
-/
namespace TimedMachine

variable {κ : Type}

inductive Node.Clause (κ : Type) where
  | on (kind : String) (handler : Handler κ)
  | entry (actions : List (Action κ))
  | exit (actions : List (Action κ))
  /-- The delay of the clause takes the place of any that came with the transition. -/
  | after (delay : Duration) (t : Delayed κ)
  | always (t : Eventless κ)

namespace Node

def add (n : Node κ) : Clause κ → Node κ
  | .on kind handler => { n with on := n.on.insert kind handler }
  | .entry actions => { n with entry := actions }
  | .exit actions => { n with exit := actions }
  | .after delay t => { n with after := n.after ++ [{ t with delay }] }
  | .always t => { n with always := n.always ++ [t] }

def ofClauses (cs : List (Clause κ)) : Node κ := cs.foldl add {}

/-- What a clause sets or adds. -/
def Clause.handler? (kind : String) : Clause κ → Option (Handler κ)
  | .on other handler => if other = kind then some handler else none
  | _ => none

def Clause.entry? : Clause κ → Option (List (Action κ))
  | .entry actions => some actions
  | _ => none

def Clause.exit? : Clause κ → Option (List (Action κ))
  | .exit actions => some actions
  | _ => none

def Clause.after? : Clause κ → Option (Delayed κ)
  | .after delay t => some { t with delay }
  | _ => none

def Clause.always? : Clause κ → Option (Eventless κ)
  | .always t => some t
  | _ => none

end Node

inductive Machine.Clause (κ : Type) where
  | initial (name : String)
  | context (value : κ)
  | state (name : String) (node : List (Node.Clause κ))

namespace Machine

def add (m : Machine κ) : Clause κ → Machine κ
  | .initial name => { m with initial := some name }
  | .context value => { m with context := some value }
  | .state name node => m.declare name (.ofClauses node)

def ofClauses (cs : List (Clause κ)) : Machine κ := cs.foldl add {}

def Clause.initial? : Clause κ → Option String
  | .initial name => some name
  | _ => none

def Clause.context? : Clause κ → Option κ
  | .context value => some value
  | _ => none

def Clause.state? (name : String) : Clause κ → Option (List (Node.Clause κ))
  | .state other node => if other = name then some node else none
  | _ => none

end Machine

section Folding

variable {σ α β : Type} {add : σ → α → σ}

/-- What the last of the clauses sets that set it. -/
def lastOf (f : α → Option β) (cs : List α) : Option β := (cs.filterMap f).getLast?

theorem lastOf_concat (f : α → Option β) (cs : List α) (c : α) :
    lastOf f (cs ++ [c]) = (f c).or (lastOf f cs) := by
  rw [lastOf, lastOf, List.filterMap_append, List.getLast?_append]
  cases hc : f c <;> simp [hc]

theorem lastOf_map {γ : Type} (f : α → Option β) (g : β → γ) (cs : List α) :
    lastOf (fun c => (f c).map g) cs = (lastOf f cs).map g := by
  rw [lastOf, lastOf, ← List.getLast?_map, List.map_filterMap]

/-- What each clause may set is in the end what the last one has set. -/
theorem foldl_sets (read : σ → Option β) {f : α → Option β}
    (h : ∀ s c, read (add s c) = (f c).or (read s)) (s : σ) (cs : List α) :
    read (cs.foldl add s) = (lastOf f cs).or (read s) := by
  induction cs using List.reverseRecOn with
  | nil => rfl
  | append_singleton cs c ih =>
    rw [List.foldl_append, List.foldl_cons, List.foldl_nil, h, ih, lastOf_concat, Option.or_assoc]

/-- What each clause may add stands in the order of the clauses. -/
theorem foldl_adds (read : σ → List β) {f : α → Option β}
    (h : ∀ s c, read (add s c) = read s ++ (f c).toList) (s : σ) (cs : List α) :
    read (cs.foldl add s) = read s ++ cs.filterMap f := by
  induction cs generalizing s with
  | nil => exact (List.append_nil _).symm
  | cons c rest ih =>
    rw [List.foldl_cons, ih, h, List.append_assoc, List.filterMap_cons]
    cases f c <;> rfl

end Folding

/-- Putting a value under a name, seen from a name. -/
theorem Table.find?_insert_or {α : Type} (t : Table α) (name : String) (value : α) (other : String) :
    (t.insert name value).find? other =
      (if name = other then some value else none).or (t.find? other) := by
  rw [find?_insert]
  by_cases hname : other = name
  · rw [if_pos hname, if_pos hname.symm, Option.some_or]
  · rw [if_neg hname, if_neg (Ne.symm hname), Option.none_or]

namespace Node

theorem find?_on_ofClauses (cs : List (Clause κ)) (kind : String) :
    (ofClauses cs).on.find? kind = lastOf (Clause.handler? kind) cs := by
  have hset (n : Node κ) (c : Clause κ) :
      (n.add c).on.find? kind = (c.handler? kind).or (n.on.find? kind) := by
    cases c with
    | on other handler => exact n.on.find?_insert_or other handler kind
    | _ => rfl
  exact (foldl_sets (fun n : Node κ => n.on.find? kind) hset {} cs).trans Option.or_none

theorem entry_ofClauses (cs : List (Clause κ)) :
    (ofClauses cs).entry = (lastOf Clause.entry? cs).getD [] := by
  have hset (n : Node κ) (c : Clause κ) : some (n.add c).entry = c.entry?.or (some n.entry) := by
    cases c <;> rfl
  exact Option.some.inj ((foldl_sets (fun n : Node κ => some n.entry) hset {} cs).trans Option.or_some)

theorem exit_ofClauses (cs : List (Clause κ)) :
    (ofClauses cs).exit = (lastOf Clause.exit? cs).getD [] := by
  have hset (n : Node κ) (c : Clause κ) : some (n.add c).exit = c.exit?.or (some n.exit) := by
    cases c <;> rfl
  exact Option.some.inj ((foldl_sets (fun n : Node κ => some n.exit) hset {} cs).trans Option.or_some)

theorem after_ofClauses (cs : List (Clause κ)) :
    (ofClauses cs).after = cs.filterMap Clause.after? := by
  refine foldl_adds Node.after (fun n c => ?_) {} cs
  cases c with
  | after => rfl
  | _ => exact (List.append_nil _).symm

theorem always_ofClauses (cs : List (Clause κ)) :
    (ofClauses cs).always = cs.filterMap Clause.always? := by
  refine foldl_adds Node.always (fun n c => ?_) {} cs
  cases c with
  | always => rfl
  | _ => exact (List.append_nil _).symm

end Node

namespace Machine

theorem initial_ofClauses (cs : List (Clause κ)) :
    (ofClauses cs).initial = lastOf Clause.initial? cs :=
  (foldl_sets Machine.initial (fun _ c => by cases c <;> rfl) {} cs).trans Option.or_none

theorem context_ofClauses (cs : List (Clause κ)) :
    (ofClauses cs).context = lastOf Clause.context? cs :=
  (foldl_sets Machine.context (fun _ c => by cases c <;> rfl) {} cs).trans Option.or_none

theorem find?_ofClauses (cs : List (Clause κ)) (name : String) :
    (ofClauses cs).states.find? name = (lastOf (Clause.state? name) cs).map Node.ofClauses := by
  have hset (m : Machine κ) (c : Clause κ) :
      (m.add c).states.find? name = ((c.state? name).map Node.ofClauses).or (m.states.find? name) := by
    cases c with
    | state other node =>
      have hinsert := m.states.find?_insert_or other (Node.ofClauses node) name
      rw [Clause.state?, apply_ite (Option.map Node.ofClauses)]
      exact hinsert
    | _ => rfl
  rw [← lastOf_map]
  exact (foldl_sets (fun m : Machine κ => m.states.find? name) hset {} cs).trans Option.or_none

end Machine
end TimedMachine

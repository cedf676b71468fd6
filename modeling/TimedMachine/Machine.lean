import TimedMachine.Snapshot
import TimedMachine.Table

/-!
Machines: named states, each with handlers for events, actions on entry and exit, and transitions
that are taken after a delay or without any event. Nothing requires the states that are named as
targets to be declared; see `TimedMachine.Machine.Issue` for the check.
-/
namespace TimedMachine

variable {κ : Type}

/-- A transition that may leave out its target, run actions and ask a guard. -/
structure Descriptor (κ : Type) where
  target : Option String := none
  actions : List (Action κ) := []
  guard : Option (Guard κ) := none

inductive Handler (κ : Type) where
  | bare (target : String)
  | described (d : Descriptor κ)

structure Delayed (κ : Type) where
  delay : Duration
  target : String
  actions : List (Action κ) := []

structure Eventless (κ : Type) where
  target : String
  actions : List (Action κ) := []
  condition : Option (Condition κ) := none

structure Node (κ : Type) where
  on : Table (Handler κ) := .empty
  entry : List (Action κ) := []
  exit : List (Action κ) := []
  after : List (Delayed κ) := []
  always : List (Eventless κ) := []

structure Machine (κ : Type) where
  initial : Option String := none
  context : Option κ := none
  states : Table (Node κ) := .empty

/-- The target as written. -/
def Handler.target? : Handler κ → Option String
  | .bare target => some target
  | .described d => d.target

def Handler.actions : Handler κ → List (Action κ)
  | .bare _ => []
  | .described d => d.actions

/-- The lists of actions in a node, in the order of declaration. -/
def Node.actionLists (n : Node κ) : List (List (Action κ)) :=
  [n.entry, n.exit] ++ n.on.entries.map (·.2.actions) ++ n.after.map (·.actions) ++
    n.always.map (·.actions)

/-- Whether the transition may be taken; without a condition it always may. -/
def Eventless.enabled (t : Eventless κ) (s : Snapshot κ) : Bool :=
  match t.condition with
  | none => true
  | some condition => (condition s).holds

namespace Machine

/-- Declare a state; a second declaration replaces the first where it stands. -/
def declare (m : Machine κ) (name : String) (node : Node κ) : Machine κ :=
  { m with states := m.states.insert name node }

def declares (m : Machine κ) (name : String) : Bool := m.states.contains name

/-- The configured initial state, else the first declared one, else the empty name. -/
def initialValue (m : Machine κ) : String := (m.initial.or m.states.keys.head?).getD ""

def initialSnapshot (m : Machine κ) : Snapshot κ :=
  { value := m.initialValue, context := m.context }

/-- The parts of a state's node; a state that is not declared has none of them. -/
def entryOf (m : Machine κ) (state : String) : List (Action κ) :=
  ((m.states.find? state).map Node.entry).getD []

def exitOf (m : Machine κ) (state : String) : List (Action κ) :=
  ((m.states.find? state).map Node.exit).getD []

def afterOf (m : Machine κ) (state : String) : List (Delayed κ) :=
  ((m.states.find? state).map Node.after).getD []

def alwaysOf (m : Machine κ) (state : String) : List (Eventless κ) :=
  ((m.states.find? state).map Node.always).getD []

theorem declares_of_alwaysOf_ne_nil {m : Machine κ} {state : String}
    (h : m.alwaysOf state ≠ []) : state ∈ m.states.keys := by
  rw [← Table.contains_iff, Table.contains]
  cases hf : m.states.find? state with
  | none => simp [alwaysOf, hf] at h
  | some node => rfl

end Machine
end TimedMachine

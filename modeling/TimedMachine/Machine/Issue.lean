import TimedMachine.Options

/-!
What is wrong with a machine: targets that name no declared state, and names of actions that stand
for no function. None of it keeps a machine from running, so all of it is reported, in the order of
declaration, the structure first and the names after it.
-/
namespace TimedMachine

variable {κ : Type}

inductive Issue where
  | noStates
  | unknownInitial (initial : String)
  | unknownTarget (state event target : String)
  | unknownAfterTarget (state : String) (delay : Duration) (target : String)
  | unknownAlwaysTarget (state target : String)
  | unresolvedAction (state action : String)
  deriving DecidableEq

namespace Issue

/-- The state in which the issue was found, if it belongs to one. -/
def state? : Issue → Option String
  | .noStates | .unknownInitial _ => none
  | .unknownTarget state _ _ | .unknownAfterTarget state _ _ | .unknownAlwaysTarget state _
  | .unresolvedAction state _ => some state

def message : Issue → String
  | .noStates => "No states declared"
  | .unknownInitial initial => "Initial state '" ++ initial ++ "' is not declared"
  | .unknownTarget state event target =>
    "Event '" ++ event ++ "' in state '" ++ state ++ "' targets undeclared state '" ++ target ++ "'"
  | .unknownAfterTarget state delay target =>
    "Delayed transition after " ++ delay.inspect ++ " in state '" ++ state ++
      "' targets undeclared state '" ++ target ++ "'"
  | .unknownAlwaysTarget state target =>
    "Eventless transition in state '" ++ state ++ "' targets undeclared state '" ++ target ++ "'"
  | .unresolvedAction state action =>
    "Action '" ++ action ++ "' used in state '" ++ state ++ "' has no implementation"

def inspect : Issue → String
  | .noStates => "NoStates"
  | .unknownInitial initial => Inspect.record "UnknownInitial" [("initial", Inspect.quote initial)]
  | .unknownTarget state event target =>
    Inspect.record "UnknownTarget"
      [("state", Inspect.quote state), ("event", Inspect.quote event),
        ("target", Inspect.quote target)]
  | .unknownAfterTarget state delay target =>
    Inspect.record "UnknownAfterTarget"
      [("state", Inspect.quote state), ("delay", delay.inspect), ("target", Inspect.quote target)]
  | .unknownAlwaysTarget state target =>
    Inspect.record "UnknownAlwaysTarget"
      [("state", Inspect.quote state), ("target", Inspect.quote target)]
  | .unresolvedAction state action =>
    Inspect.record "UnresolvedAction"
      [("state", Inspect.quote state), ("action", Inspect.quote action)]

end Issue

/-- The names of actions in a node, each once, in order of first occurrence. -/
def Node.actionNames (n : Node κ) : List String :=
  (n.actionLists.flatMap Action.names).eraseDups

namespace Machine

/-- The targets in a state that are not declared. -/
def targetIssues (m : Machine κ) (state : String) (n : Node κ) : List Issue :=
  n.on.entries.filterMap (fun e =>
      match e.2.target? with
      | none => none
      | some target =>
        if m.declares target then none else some (.unknownTarget state e.1 target)) ++
    n.after.filterMap (fun t =>
      if m.declares t.target then none else some (.unknownAfterTarget state t.delay t.target)) ++
    n.always.filterMap (fun t =>
      if m.declares t.target then none else some (.unknownAlwaysTarget state t.target))

/-- The issues of the structure alone. -/
def issues (m : Machine κ) : List Issue :=
  (if m.states.isEmpty then [.noStates] else []) ++
    (match m.initial with
      | none => []
      | some initial => if m.declares initial then [] else [.unknownInitial initial]) ++
    m.states.entries.flatMap (fun e => m.targetIssues e.1 e.2)

/-- All issues, given the functions that names of actions stand for. -/
def issuesWith (m : Machine κ) (o : Options κ) : List Issue :=
  m.issues ++ m.states.entries.flatMap fun e =>
    e.2.actionNames.filterMap fun name =>
      if o.actions.contains name then none else some (.unresolvedAction e.1 name)

end Machine
end TimedMachine

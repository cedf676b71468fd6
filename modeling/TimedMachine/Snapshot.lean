import TimedMachine.Event

/-!
Where a machine is: a state name, a context of some type `κ` if the machine has one, the actions
that came with the transition into this snapshot, and whether it differs from the one before.

Actions, guards and conditions are arbitrary functions on what they are shown. Besides its answer a
function gives the notes it takes while it runs; nothing in a machine depends on notes.
-/
namespace TimedMachine

/-- What a function supplied by the user writes down about one of its calls. -/
inductive Note (κ : Type) where
  | guard (label : String) (state : Option String) (event : Option Event) (result : Bool)
  | action (label : String) (event : Event) (context : Option κ)

/-- What an action asks for: nothing, a new context computed from the present one, or a delivery of
an event after a delay. -/
inductive Effect (κ : Type) where
  | done
  | assign (update : κ → κ)
  | send (event : Event) (delay : Duration)

structure Reply (κ : Type) where
  effect : Effect κ
  notes : List (Note κ) := []

/-- An action's function sees the context, if there is one, and the event under way. -/
abbrev ActionFn (κ : Type) := Option κ → Event → Reply κ

/-- A name to be looked up when the action is run, or a function. -/
inductive Action (κ : Type) where
  | named (name : String)
  | direct (run : ActionFn κ)

structure Snapshot (κ : Type) where
  value : String
  context : Option κ := none
  actions : List (Action κ) := []
  changed : Bool := false

structure Verdict (κ : Type) where
  holds : Bool
  notes : List (Note κ) := []

/-- Decides an event transition from the snapshot before it and the event. -/
abbrev Guard (κ : Type) := Snapshot κ → Event → Verdict κ

/-- Decides an eventless transition from the snapshot alone. -/
abbrev Condition (κ : Type) := Snapshot κ → Verdict κ

namespace Action

variable {κ : Type}

def name? : Action κ → Option String
  | .named name => some name
  | .direct _ => none

def inspect : Action κ → String
  | .named name => "Named(" ++ Inspect.quote name ++ ")"
  | .direct _ => "Direct(<fn>)"

/-- The names among the actions, in order. -/
def names (actions : List (Action κ)) : List String := actions.filterMap name?

def inspectAll (actions : List (Action κ)) : String := Inspect.list (actions.map inspect)

end Action

def Effect.inspect {κ : Type} : Effect κ → String
  | .done => "Done"
  | .assign _ => "Assign(<fn>)"
  | .send event delay =>
    "Send(" ++
      Inspect.record "SendRequest" [("event", event.inspect), ("delay", delay.inspect)] ++ ")"

/-- The context an assignment leaves; other effects leave it alone, and without a context there is
nothing to assign to. -/
def Effect.applyTo {κ : Type} (effect : Effect κ) (context : Option κ) : Option κ :=
  match effect with
  | .assign update => context.map update
  | _ => context

namespace Snapshot

variable {κ : Type}

def isAt (s : Snapshot κ) (value : String) : Bool := s.value = value

/-- The actions are left out, and the context if there is none. -/
def toJson (s : Snapshot Json) : Json :=
  .ofMembers <|
    (match s.context with
      | none => []
      | some context => [("context", context)]) ++
    [("changed", .bool s.changed), ("value", .str s.value)]

def inspect (s : Snapshot Json) : String :=
  Inspect.record "State"
    [("value", Inspect.quote s.value),
      ("context", Inspect.option (s.context.map Json.inspect)),
      ("actions", Action.inspectAll s.actions),
      ("changed", Inspect.truth s.changed)]

end Snapshot
end TimedMachine

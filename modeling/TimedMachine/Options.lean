import TimedMachine.Machine

/-!
What a service is created with besides its machine: functions for the names of actions, and how many
committed transitions to remember.
-/
namespace TimedMachine

variable {κ : Type}

structure Options (κ : Type) where
  actions : Table (ActionFn κ) := .empty
  historyLimit : Nat := 64

namespace Options

instance : Inhabited (Options κ) := ⟨{}⟩

/-- Register a named action; a later registration of a name replaces an earlier one. -/
def register (o : Options κ) (name : String) (run : ActionFn κ) : Options κ :=
  { o with actions := o.actions.insert name run }

/-- The function an action stands for; a name without an entry stands for none. -/
def resolve (o : Options κ) : Action κ → Option (ActionFn κ)
  | .direct run => some run
  | .named name => o.actions.find? name

/-- The registered names in increasing order. -/
def sortedNames (o : Options κ) : List String := o.actions.keys.mergeSort

def inspect (o : Options κ) : String :=
  Inspect.record "ServiceOptions"
    [("actions", Inspect.list (o.sortedNames.map Inspect.quote)),
      ("history_limit", toString o.historyLimit)]

end Options
end TimedMachine

import TimedMachine.Machine

/-!
Where an event leads. `candidate?` finds the snapshot that would come next, with the guard that has
still to allow it; `resolve` asks the guard, and hands over the notes that it took with the answer.
Neither runs any action.
-/
namespace TimedMachine

variable {κ : Type}

/-- A state to resolve from: none, a bare name, or a whole snapshot. -/
inductive StateRef (κ : Type) where
  | absent
  | name (value : String)
  | snapshot (s : Snapshot κ)

/-- A bare name stands for its snapshot without a context. -/
def StateRef.snapshot? : StateRef κ → Option (Snapshot κ)
  | .absent => none
  | .name value => some { value }
  | .snapshot s => some s

structure Candidate (κ : Type) where
  next : Snapshot κ
  guard : Option (Guard κ) := none

/-- The verdict of the guard on the snapshot before the transition. -/
def Candidate.verdict (c : Candidate κ) (current : Snapshot κ) (event : Event) : Verdict κ :=
  match c.guard with
  | none => ⟨true, []⟩
  | some guard => guard current event

/-- What has been found out of an event: the next snapshot, if it leads anywhere, and the notes of the
guard that was asked. -/
structure Resolution (κ : Type) where
  next : Option (Snapshot κ) := none
  notes : List (Note κ) := []

namespace Machine

/-- A bare target must be declared. A described one falls back to the current state if its target is
absent or not declared. -/
def targetOf (m : Machine κ) (current : String) : Handler κ → Option String
  | .bare target => if m.declares target then some target else none
  | .described d => some ((d.target.filter (m.declares ·)).getD current)

def guardOf : Handler κ → Option (Guard κ)
  | .bare _ => none
  | .described d => d.guard

/-- The next snapshot and its guard, if the current state is declared and handles the event.
A transition to the current state without actions does not count. -/
def candidate? (m : Machine κ) (current : Snapshot κ) (event : Event) : Option (Candidate κ) := do
  let node ← m.states.find? current.value
  let handler ← node.on.find? event.kind
  let target ← m.targetOf current.value handler
  if target = current.value ∧ handler.actions.isEmpty then none
  else
    some
      { next :=
          { value := target
            context := current.context
            actions := handler.actions
            changed := decide (target ≠ current.value) }
        guard := guardOf handler }

/-- Find out where an event leads. The guard is asked once, and only about a candidate. -/
def resolve (m : Machine κ) (ref : StateRef κ) (event : Event) : Resolution κ :=
  match ref.snapshot? with
  | none => {}
  | some current =>
    match m.candidate? current event with
    | none => {}
    | some c =>
      let verdict := c.verdict current event
      { next := if verdict.holds then some c.next else none, notes := verdict.notes }

/-- The next snapshot, if the event leads anywhere. -/
def transition? (m : Machine κ) (ref : StateRef κ) (event : Event) : Option (Snapshot κ) :=
  (m.resolve ref event).next

/-- The notes that are taken on the way. -/
def transitionNotes (m : Machine κ) (ref : StateRef κ) (event : Event) : List (Note κ) :=
  (m.resolve ref event).notes

theorem resolve_of_candidate? {m : Machine κ} {ref : StateRef κ} {event : Event}
    {current : Snapshot κ} {c : Candidate κ} (href : ref.snapshot? = some current)
    (hc : m.candidate? current event = some c) :
    m.resolve ref event =
      { next := if (c.verdict current event).holds then some c.next else none
        notes := (c.verdict current event).notes } := by
  simp only [resolve, href, hc]

theorem resolve_of_candidate?_eq_none {m : Machine κ} {ref : StateRef κ} {event : Event}
    (h : ∀ current, ref.snapshot? = some current → m.candidate? current event = none) :
    m.resolve ref event = {} := by
  unfold resolve
  cases href : ref.snapshot? with
  | none => rfl
  | some current => simp only [h current href]

end Machine
end TimedMachine

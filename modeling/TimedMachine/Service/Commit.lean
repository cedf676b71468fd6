import TimedMachine.Service

/-!
Committing a transition: the delayed transitions of the state that is left are cancelled, its exit
actions run, the new snapshot replaces the old one and is recorded, the entry actions and then the
transition's own actions run, the listeners are told, and the delayed transitions of the new state
are armed. All actions see the same event.
-/
namespace TimedMachine.Service

variable {κ : Type}

/-- Replace the snapshot by one of the target, keeping the context, and record the transition. -/
def arrive (target : String) (actions : List (Action κ)) (event : Event) (s : Service κ) :
    Service κ :=
  let record : Record Unit := ⟨s.current.value, target, event.kind, s.now, ()⟩
  { s with
    current := { value := target, context := s.current.context, actions, changed := true }
    history := s.history.push record
    written := s.written.push (.committed record) }

theorem follows_arrive (target : String) (actions : List (Action κ)) (event : Event)
    (s : Service κ) : s.Follows (s.arrive target actions event) :=
  ⟨rfl, rfl, rfl, rfl, .refl _⟩

def commit (target : String) (actions : List (Action κ)) (event : Event) (s : Service κ) :
    Outcome κ :=
  (execute event (s.machine.exitOf s.current.value) s.cancelDelayed).andThen fun s =>
    (execute event (s.machine.entryOf target) (s.arrive target actions event)).andThen fun s =>
      (execute event s.current.actions s).andThen fun s => s.notify.armDelayed

theorem follows_commit (target : String) (actions : List (Action κ)) (event : Event)
    (s : Service κ) : s.Follows (s.commit target actions event).service := by
  refine .andThen (s.follows_cancelDelayed.trans (follows_execute _ _ _)) fun s => ?_
  refine .andThen ((s.follows_arrive _ _ _).trans (follows_execute _ _ _)) fun s => ?_
  refine .andThen (follows_execute _ _ _) fun s => ?_
  exact (s.follows_log _).trans (follows_armEach _ _ _ _)

end TimedMachine.Service

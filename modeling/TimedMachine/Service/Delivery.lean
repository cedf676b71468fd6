import TimedMachine.Service.Eventless

/-!
Delivering an event. It clears the deferred event first, whether or not it leads anywhere. If it
leads to another state the transition is committed and eventless transitions follow. If it stays in
the state, only the actions run, and the listeners are told only of a changed context.
-/
namespace TimedMachine.Service

variable {κ : Type}

/-- Note in the journal that the candidate's guard was asked. -/
def judge (c : Candidate κ) (event : Event) (s : Service κ) : Service κ :=
  match c.guard with
  | none => s
  | some guard => s.log (.judged guard s.current event)

theorem current_judge (c : Candidate κ) (event : Event) (s : Service κ) :
    (s.judge c event).current = s.current := by
  unfold judge
  split <;> rfl

theorem follows_judge (c : Candidate κ) (event : Event) (s : Service κ) :
    s.Follows (s.judge c event) := by
  unfold judge
  split
  · exact .refl s
  · exact s.follows_log _

variable [BEq κ]

/-- Take up a snapshot of the same state: run its actions, and report the context if it is no longer
equal to what it was. -/
def stay (next : Snapshot κ) (event : Event) (s : Service κ) : Outcome κ :=
  (execute event next.actions (s.withCurrent next)).andThen fun r =>
    if r.current.context == s.current.context then .completed r
    else .completed (r.withCurrent { r.current with changed := true }).notify

theorem follows_stay (next : Snapshot κ) (event : Event) (s : Service κ) :
    s.Follows (s.stay next event).service := by
  refine .andThen ((follows_withCurrent _ s).trans (follows_execute _ _ _)) fun r => ?_
  split
  · exact .refl r
  · exact (follows_withCurrent _ r).trans (follows_log _ _)

/-- Go on to the next snapshot. -/
def proceed (next : Snapshot κ) (event : Event) (s : Service κ) : Outcome κ :=
  if next.changed then (s.commit next.value next.actions event).andThen resolve
  else s.stay next event

theorem follows_proceed (next : Snapshot κ) (event : Event) (s : Service κ) :
    s.Follows (s.proceed next event).service := by
  unfold proceed
  split
  · exact (s.follows_commit _ _ _).andThen follows_resolve
  · exact s.follows_stay _ _

/-- Deliver an event to a running service. -/
def deliver (event : Event) (s : Service κ) : Outcome κ :=
  let s := s.cancelDeferred
  match s.machine.candidate? s.current event with
  | none => .completed s
  | some c =>
    if (c.verdict s.current event).holds then (s.judge c event).proceed c.next event
    else .completed (s.judge c event)

theorem follows_deliver (event : Event) (s : Service κ) :
    s.Follows (s.deliver event).service := by
  unfold deliver
  refine s.follows_cancelDeferred.trans ?_
  dsimp only
  split
  · exact .refl _
  · split
    · exact (follows_judge _ _ _).trans (follows_proceed _ _ _)
    · exact follows_judge _ _ _

end TimedMachine.Service

import TimedMachine.TimerQueue

/-!
The same timers in a plain list. A roster keeps its alarms in the order in which they were set and
looks through all of them for the one that goes off next. It keeps nothing sorted, and it takes no note
of the deferred event: that one is cancelled by going through the list. A queue and a roster answer the
same commands, and `reports` is what is seen of either while it does.
-/
namespace TimedMachine

/-- A timer as it was set: how long it waits, when it goes off, and how many were set before it. -/
structure Alarm where
  task : Task
  delay : Duration
  deadline : Duration
  number : Nat
  deriving DecidableEq

/-- The alarm with the least deadline, and of those with one deadline the one in front. -/
def Alarm.earliest? : List Alarm → Option Alarm
  | [] => none
  | a :: rest =>
    match earliest? rest with
    | none => some a
    | some b => if b.deadline < a.deadline then some b else some a

structure Roster where
  now : Duration := .zero
  /-- How many alarms were ever set. -/
  count : Nat := 0
  alarms : List Alarm := []

namespace Roster

def setNow (r : Roster) (now : Duration) : Roster :=
  { r with now := if r.now < now then now else r.now }

def nextDeadline (r : Roster) : Option Duration := (Alarm.earliest? r.alarms).map Alarm.deadline

/-- None if the clock has no such deadline. -/
def set? (r : Roster) (delay : Duration) (task : Task) : Option Roster :=
  (r.now.add? delay).map fun deadline =>
    { r with count := r.count + 1, alarms := r.alarms ++ [⟨task, delay, deadline, r.count⟩] }

def cancelDelayed (r : Roster) : Roster :=
  { r with alarms := r.alarms.filter fun a => !a.task.isDelayed }

def cancelDeferred (r : Roster) : Roster :=
  { r with alarms := r.alarms.filter fun a => a.task.isDelayed }

def cancelAll (r : Roster) : Roster := { r with alarms := [] }

def defer? (r : Roster) (event : Event) (delay : Duration) : Option Roster :=
  r.cancelDeferred.set? delay (.deferred event)

/-- Take out the earliest alarm if it goes off by `limit`. One without delay is refused if it was set
when the count stood at the horizon or past it. -/
def popDue? (r : Roster) (limit : Duration) (horizon : Nat) : Option (Task × Roster) :=
  match Alarm.earliest? r.alarms with
  | none => none
  | some a =>
    if limit < a.deadline ∨ a.delay = .zero ∧ horizon ≤ a.number then none
    else some (a.task, { r with alarms := r.alarms.erase a }.setNow a.deadline)

end Roster

/-- What a queue of timers can be told to do. -/
inductive Command where
  | arm (state : String) (index : Nat) (delay : Duration)
  | defer (event : Event) (delay : Duration)
  | cancelDelayed
  | cancelDeferred
  | cancelAll
  | setNow (now : Duration)
  | popDue (limit : Duration) (horizon : Nat)

/-- What is seen after a command: the task that it took out, if any, and all that can be asked of the
timers then. -/
structure Report where
  task : Option Task
  nextDeadline : Option Duration
  length : Nat
  horizon : Nat
  now : Duration
  deriving DecidableEq

namespace TimerQueue

def report (q : TimerQueue) (task : Option Task) : Report :=
  ⟨task, q.nextDeadline, q.pending.length, q.nextId, q.now⟩

/-- The task that a command takes out, and the queue after it; none if a deadline does not exist. -/
def obey? (q : TimerQueue) : Command → Option (Option Task × TimerQueue)
  | .arm state index delay => (q.arm? delay (.delayed state index)).map fun (_, r) => (none, r)
  | .defer event delay => (q.defer? event delay).map fun (_, r) => (none, r)
  | .cancelDelayed => some (none, q.cancelDelayed)
  | .cancelDeferred => some (none, q.cancelDeferred)
  | .cancelAll => some (none, q.cancelAll)
  | .setNow now => some (none, q.setNow now)
  | .popDue limit horizon =>
    match q.popDue? limit horizon with
    | none => some (none, q)
    | some (t, r) => some (some t.task, r)

def answer? (q : TimerQueue) (c : Command) : Option (Report × TimerQueue) :=
  (q.obey? c).map fun (task, r) => (r.report task, r)

end TimerQueue

namespace Roster

def report (r : Roster) (task : Option Task) : Report :=
  ⟨task, r.nextDeadline, r.alarms.length, r.count, r.now⟩

def obey? (r : Roster) : Command → Option (Option Task × Roster)
  | .arm state index delay => (r.set? delay (.delayed state index)).map fun s => (none, s)
  | .defer event delay => (r.defer? event delay).map fun s => (none, s)
  | .cancelDelayed => some (none, r.cancelDelayed)
  | .cancelDeferred => some (none, r.cancelDeferred)
  | .cancelAll => some (none, r.cancelAll)
  | .setNow now => some (none, r.setNow now)
  | .popDue limit horizon =>
    match r.popDue? limit horizon with
    | none => some (none, r)
    | some (task, s) => some (some task, s)

def answer? (r : Roster) (c : Command) : Option (Report × Roster) :=
  (r.obey? c).map fun (task, s) => (s.report task, s)

end Roster

/-- The reports on one command after another. A command without an answer has none, and ends them. -/
def reports {σ : Type} (answer? : σ → Command → Option (Report × σ)) :
    σ → List Command → List (Option Report)
  | _, [] => []
  | s, c :: rest =>
    match answer? s c with
    | none => [none]
    | some (report, t) => some report :: reports answer? t rest

end TimedMachine

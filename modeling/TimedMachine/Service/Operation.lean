import TimedMachine.Service.Clock

/-!
What a caller can do with a service. A stopped service ignores events and arms no timers, though its
clock can be moved.
-/
namespace TimedMachine.Service

variable {κ : Type} [BEq κ]

/-- Run the entry actions of the current state, arm its delayed transitions and follow eventless
ones. Listeners are not told. -/
def start (s : Service κ) : Outcome κ :=
  if s.isRunning then .completed s
  else
    let s := { s with status := .running }.log (.started s.now)
    (execute .start (s.machine.entryOf s.current.value) s).andThen fun s =>
      s.armDelayed.andThen resolve

/-- Cancel all timers. Stopping is not a transition, so no exit actions run. -/
def stop (s : Service κ) : Service κ :=
  if s.isRunning then
    { s with status := .stopped, timers := s.timers.cancelAll }.log .stopped
  else s

def send (event : Event) (s : Service κ) : Outcome κ :=
  if s.isRunning then (s.log (.accepted event)).deliver event else .completed s

/-- Let an event be delivered later, in place of any that waits to be. -/
def sendAfter (event : Event) (delay : Duration) (s : Service κ) : Outcome κ :=
  if s.isRunning then s.defer event delay else .completed s

/-- The operations on a service. -/
inductive Operation where
  | start
  | stop
  | send (event : Event)
  | sendAfter (event : Event) (delay : Duration)
  | advance (time : Duration)
  | runFor (time : Duration)

def apply : Operation → Service κ → Outcome κ
  | .start, s => s.start
  | .stop, s => .completed s.stop
  | .send event, s => s.send event
  | .sendAfter event delay, s => s.sendAfter event delay
  | .advance time, s => s.advance time
  | .runFor time, s => s.runFor time

/-- Apply operations in order, up to the first that overflows. -/
def run : List Operation → Service κ → Outcome κ
  | [], s => .completed s
  | op :: rest, s => (s.apply op).andThen (run rest)

/-- How a service looks when inspected, with the number of its listeners. -/
def inspect (s : Service Json) (listeners : Nat) : String :=
  Inspect.record "Service"
    [("status", s.status.name),
      ("state", s.current.inspect),
      ("now", s.now.inspect),
      ("pending_timers", toString s.timers.pending.length),
      ("listeners", toString listeners)]

end TimedMachine.Service

import TimedMachine.Duration
import TimedMachine.Json.Inspect

/-!
Events: a kind, matched against the handlers of a state, and a JSON payload. Three families of kinds
are made by the machine itself: for starting, for a delayed transition that falls due, and for an
eventless one. The JSON form of an event leaves out a payload that is null.
-/
namespace TimedMachine

structure Event where
  kind : String
  payload : Json := .null
  deriving DecidableEq, Inhabited

namespace Event

instance : BEq Event := ⟨fun e f => e.kind == f.kind && e.payload == f.payload⟩

/-- The event that entry actions see when a service starts. -/
def start : Event := ⟨"machine.start", .null⟩

/-- The event of a delayed transition: its delay in whole milliseconds and the state it leaves. -/
def after (delay : Duration) (state : String) : Event :=
  ⟨"machine.after(" ++ String.ofList (Decimal.digits delay.millis) ++ ")#" ++ state, .null⟩

/-- The event of an eventless transition, named for the state it leaves. -/
def always (state : String) : Event := ⟨"machine.always#" ++ state, .null⟩

def toJson (e : Event) : Json :=
  if e.payload = .null then .ofMembers [("type", .str e.kind)]
  else .ofMembers [("payload", e.payload), ("type", .str e.kind)]

/-- Reads an object with a text under `type`, whatever else it holds, or the fields by position.
An absent payload is null. -/
def ofJson? : Json → Option Event
  | .obj members => do
    let kind ← (← members.lookup "type").str?
    return ⟨kind, (members.lookup "payload").getD .null⟩
  | .arr [.str kind] => some ⟨kind, .null⟩
  | .arr [.str kind, payload] => some ⟨kind, payload⟩
  | _ => none

def inspect (e : Event) : String :=
  Inspect.record "Event" [("kind", Inspect.quote e.kind), ("payload", e.payload.inspect)]

end Event
end TimedMachine

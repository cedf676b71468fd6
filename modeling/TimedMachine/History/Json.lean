import TimedMachine.History
import TimedMachine.Instant.Rfc3339
import TimedMachine.Json

/-!
The JSON form of a history whose records are stamped with instants. A record or a history is an
object with all of its fields; others beside them are passed over. Either may also be a list of its
fields in order. Times of the virtual clock are written in seconds and nanoseconds.
-/
namespace TimedMachine

namespace Duration

def toJson (d : Duration) : Json := .ofMembers [("nanos", .num d.subsec), ("secs", .num d.secs)]

def ofJsonParts? (secs nanos : Json) : Option Duration := do
  let secs ← secs.natBelow? 18446744073709551616
  let nanos ← nanos.natBelow? 4294967296
  ofParts? secs nanos

/-- Seconds and nanoseconds, of which whole seconds carry; nothing else may stand beside them. -/
def ofJson? : Json → Option Duration
  | .obj members => do
    if members.all (fun m => m.1 = "secs" || m.1 = "nanos") then
      ofJsonParts? (← members.lookup "secs") (← members.lookup "nanos")
    else none
  | .arr [secs, nanos] => ofJsonParts? secs nanos
  | _ => none

end Duration

namespace Record

def toJson (r : Record Instant) : Json :=
  .ofMembers
    [("at", r.clock.toJson), ("event", .str r.event), ("from", .str r.source),
      ("timestamp", .str r.stamp.text), ("to", .str r.target)]

def ofFields? (source target event clock stamp : Json) : Option (Record Instant) := do
  return {
    source := ← source.str?
    target := ← target.str?
    event := ← event.str?
    clock := ← Duration.ofJson? clock
    stamp := ← Instant.ofText? (← stamp.str?) }

def ofJson? : Json → Option (Record Instant)
  | .obj members => do
    ofFields? (← members.lookup "from") (← members.lookup "to") (← members.lookup "event")
      (← members.lookup "at") (← members.lookup "timestamp")
  | .arr [source, target, event, clock, stamp] => ofFields? source target event clock stamp
  | _ => none

end Record

namespace History

def toJson (h : History Instant) : Json :=
  .ofMembers [("limit", .num h.limit), ("transitions", .arr (h.records.map Record.toJson))]

def ofFields? (limit transitions : Json) : Option (History Instant) := do
  let limit ← limit.natBelow? 18446744073709551616
  match transitions with
  | .arr items => return { limit, kept := .ofList (← items.mapM Record.ofJson?) }
  | _ => none

def ofJson? : Json → Option (History Instant)
  | .obj members => do ofFields? (← members.lookup "limit") (← members.lookup "transitions")
  | .arr [limit, transitions] => ofFields? limit transitions
  | _ => none

/-- The time from the first record to the last by their stamps, unless it is negative. -/
def span? (h : History Instant) : Option Duration := do
  let first ← h.records.head?
  let last ← h.records.getLast?
  last.stamp.since? first.stamp

end History
end TimedMachine

import TimedMachine.Service.Operation

/-!
Who listens to which service. Each service has a channel with listeners in the order in which they
subscribed; numbers on a channel are never given out twice. Subscribing gives a handle, kept under a
name in a table shared by all services, so that a listener can end any subscription while it is
being called.

Listeners see snapshots, remember the calls so far, and can end subscriptions. They have no way to
reach a service, so telling them what a service did is a matter of reading its journal in order
(`relay`).
-/
namespace TimedMachine

variable {κ : Type}

/-- A subscription: the channel, and the listener's number on it. -/
structure Handle where
  channel : Nat
  id : Nat
  deriving DecidableEq

/-- A call of a listener: who was called, and with which snapshot. -/
structure Heard (κ : Type) where
  listener : String
  snapshot : Snapshot κ

/-- A listener, by the name under which it reports, with the subscriptions that it ends, in order,
when it is called with a snapshot while the table of handles is as given. It may go by all calls of
listeners before, the latest first, so that no two calls of it need to end the same. -/
structure Listener (κ : Type) where
  label : String
  ends : List (Heard κ) → Snapshot κ → Table Handle → List Handle

structure Channel (κ : Type) where
  nextId : Nat := 0
  listeners : List (Nat × Listener κ) := []

/-- A channel is closed for good when its service is gone. -/
structure Switchboard (κ : Type) where
  channels : List (Option (Channel κ)) := []
  handles : Table Handle := .empty
  /-- The calls of listeners so far, the latest first. -/
  calls : List (Heard κ) := []

/-- What can be seen of the calls made during an operation. -/
inductive Line (κ : Type) where
  | note (n : Note κ)
  | heard (listener : String) (snapshot : Snapshot κ)

namespace Switchboard

instance : Inhabited (Switchboard κ) := ⟨{}⟩

/-- Open a channel for a new service. -/
def openChannel (b : Switchboard κ) : Nat × Switchboard κ :=
  (b.channels.length, { b with channels := b.channels ++ [some {}] })

def close (b : Switchboard κ) (channel : Nat) : Switchboard κ :=
  { b with channels := b.channels.set channel none }

def channel? (b : Switchboard κ) (channel : Nat) : Option (Channel κ) :=
  (b.channels[channel]?).join

/-- The listeners of a channel, in the order in which they subscribed. -/
def listeners (b : Switchboard κ) (channel : Nat) : List (Nat × Listener κ) :=
  ((b.channel? channel).map Channel.listeners).getD []

/-- Subscribe, keeping the handle under a name. A handle kept there before is lost, but its listener
stays. -/
def subscribe (b : Switchboard κ) (channel : Nat) (name : String) (l : Listener κ) :
    Switchboard κ :=
  match b.channel? channel with
  | none => b
  | some c =>
    { b with
      channels :=
        b.channels.set channel
          (some { nextId := c.nextId + 1, listeners := c.listeners ++ [(c.nextId, l)] })
      handles := b.handles.insert name ⟨channel, c.nextId⟩ }

/-- End a subscription; one that has ended, or whose channel is closed, stays as it is. -/
def unsubscribe (b : Switchboard κ) (h : Handle) : Switchboard κ :=
  match b.channel? h.channel with
  | none => b
  | some c =>
    { b with
      channels :=
        b.channels.set h.channel
          (some { c with listeners := c.listeners.filter (fun l => l.1 ≠ h.id) }) }

def isActive (b : Switchboard κ) (h : Handle) : Bool :=
  (b.listeners h.channel).any (fun l => l.1 = h.id)

/-- The listener has been called. -/
def told (b : Switchboard κ) (l : Listener κ) (snapshot : Snapshot κ) : Switchboard κ :=
  { b with calls := ⟨l.label, snapshot⟩ :: b.calls }

/-- The subscriptions that a listener ends if it is called now. -/
def endedBy (b : Switchboard κ) (l : Listener κ) (snapshot : Snapshot κ) : List Handle :=
  l.ends b.calls snapshot b.handles

/-- Call a listener. -/
def call (b : Switchboard κ) (l : Listener κ) (snapshot : Snapshot κ) : Switchboard κ :=
  (b.endedBy l snapshot).foldl unsubscribe (b.told l snapshot)

/-- Call the given listeners of a channel in order, each only if it is still subscribed when its turn
comes. -/
def callEach (channel : Nat) (snapshot : Snapshot κ) :
    List (Nat × Listener κ) → Switchboard κ → Switchboard κ × List (Line κ)
  | [], b => (b, [])
  | (id, l) :: rest, b =>
    if b.isActive ⟨channel, id⟩ then
      let (b, lines) := callEach channel snapshot rest (b.call l snapshot)
      (b, .heard l.label snapshot :: lines)
    else callEach channel snapshot rest b

/-- Tell the listeners of a channel about a snapshot. -/
def announce (channel : Nat) (snapshot : Snapshot κ) (b : Switchboard κ) :
    Switchboard κ × List (Line κ) :=
  callEach channel snapshot (b.listeners channel) b

/-- Go through journal entries of the service on a channel: gather the notes, and tell the listeners
wherever they were to be told. -/
def relay (channel : Nat) : List (Entry κ) → Switchboard κ → Switchboard κ × List (Line κ)
  | [], b => (b, [])
  | .notified snapshot :: rest, b =>
    let (b, heard) := b.announce channel snapshot
    let (b, lines) := relay channel rest b
    (b, heard ++ lines)
  | e :: rest, b =>
    let (b, lines) := relay channel rest b
    (b, e.notes.map .note ++ lines)

/-- Entries can be relayed in two parts. -/
theorem relay_append (channel : Nat) (es fs : List (Entry κ)) (b : Switchboard κ) :
    relay channel (es ++ fs) b =
      ((relay channel fs (relay channel es b).1).1,
        (relay channel es b).2 ++ (relay channel fs (relay channel es b).1).2) := by
  induction es generalizing b with
  | nil => rfl
  | cons e rest ih => cases e <;> simp [relay, ih]

/-- How a subscription looks when inspected. -/
def inspect (b : Switchboard κ) (h : Handle) : String :=
  Inspect.record "Subscription"
    [("id", toString h.id), ("active", Inspect.truth (b.isActive h))]

end Switchboard

/-- A new service with a channel of its own. -/
def Service.host (machine : Machine κ) (options : Options κ) (b : Switchboard κ) :
    Service κ × Switchboard κ :=
  let (channel, b) := b.openChannel
  (.create machine options channel, b)

/-- The entries that a service has added to its journal since an earlier moment. -/
def Service.since (s earlier : Service κ) : List (Entry κ) :=
  s.written.since earlier.written.size

theorem Service.since_eq_of_append {s r : Service κ} {new : List (Entry κ)}
    (h : r.journal = s.journal ++ new) : r.since s = new := by
  rw [Service.since, Journal.since_eq, ← Journal.length_toList]
  show r.journal.drop s.journal.length = new
  rw [h, List.drop_left]

/-- Apply an operation and relay what it did, whether or not it completes. -/
def Service.conduct [BEq κ] (op : Service.Operation) (s : Service κ) (b : Switchboard κ) :
    Outcome κ × Switchboard κ × List (Line κ) :=
  let o := s.apply op
  (o, Switchboard.relay s.channel (o.service.since s) b)

end TimedMachine

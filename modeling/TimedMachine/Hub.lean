import TimedMachine.Registry
import TimedMachine.Switchboard

/-!
Services of one machine, side by side. The active ones are in a registry; a service that is retired
is kept aside under its key, where it can still be reached, until it is dropped. All share one
switchboard, so a listener of one service can end subscriptions to any other. A service that is
dropped takes its channel with it.
-/
namespace TimedMachine

variable {κ : Type}

/-- Where in a hub a service is kept. -/
inductive Shelf where
  | active
  | retired
  deriving DecidableEq

structure Hub (κ : Type) where
  machine : Machine κ
  options : Options κ
  active : Registry κ := {}
  retired : Registry κ := {}
  board : Switchboard κ := {}

namespace Hub

def registry (h : Hub κ) : Shelf → Registry κ
  | .active => h.active
  | .retired => h.retired

def setRegistry (h : Hub κ) (r : Registry κ) : Shelf → Hub κ
  | .active => { h with active := r }
  | .retired => { h with retired := r }

@[simp] theorem registry_setRegistry (h : Hub κ) (r : Registry κ) (shelf other : Shelf) :
    (h.setRegistry r shelf).registry other = if other = shelf then r else h.registry other := by
  cases shelf <;> cases other <;> rfl

def service? (h : Hub κ) (shelf : Shelf) (key : String) : Option (Service κ) :=
  (h.registry shelf).get? key

/-- Close the channel of the service under a key, if there is one. -/
def silence (h : Hub κ) (shelf : Shelf) (key : String) : Hub κ :=
  match h.service? shelf key with
  | none => h
  | some s => { h with board := h.board.close s.channel }

/-- Put a new service under a key, dropping the active one that is there. -/
def create (h : Hub κ) (key : String) (options : Options κ) : Service κ × Hub κ :=
  let h := h.silence .active key
  let (s, board) := Service.host h.machine options h.board
  (s, { h with active := h.active.put key s, board })

/-- Drop a service. -/
def drop (h : Hub κ) (shelf : Shelf) (key : String) : Hub κ :=
  (h.silence shelf key).setRegistry ((h.registry shelf).remove key).2 shelf

/-- The active service under a key, made with the hub's own options if there is none. -/
def request (h : Hub κ) (key : String) : Service κ × Hub κ :=
  let (s, active, board) := h.active.request key (Service.host h.machine h.options) h.board
  (s, { h with active, board })

/-- Take a service out of the active ones, stopped, and keep it aside in place of the one kept under
its key. -/
def retire (h : Hub κ) (key : String) : Option (Service κ) × Hub κ :=
  match h.active.remove key with
  | (none, active) => (none, { h with active })
  | (some s, active) =>
    let h := h.silence .retired key
    (some s, { h with active, retired := h.retired.put key s })

/-- Subscribe to a service, keeping the handle under a name. -/
def subscribe (h : Hub κ) (shelf : Shelf) (key name : String) (l : Listener κ) : Hub κ :=
  match h.service? shelf key with
  | none => h
  | some s => { h with board := h.board.subscribe s.channel name l }

/-- Apply an operation to the service under a key, none if there is no such service. -/
def conduct [BEq κ] (h : Hub κ) (shelf : Shelf) (key : String) (op : Service.Operation) :
    Option (Outcome κ × List (Line κ) × Hub κ) :=
  (h.service? shelf key).map fun s =>
    let (o, board, lines) := s.conduct op h.board
    (o, lines, { h with board }.setRegistry ((h.registry shelf).put key o.service) shelf)

/-- An operation on one service leaves the services under other keys, and on the other shelf, as they
are. -/
theorem service?_conduct [BEq κ] {h r : Hub κ} {shelf : Shelf} {key : String}
    {op : Service.Operation} {o : Outcome κ} {lines : List (Line κ)}
    (hr : h.conduct shelf key op = some (o, lines, r)) (other : Shelf) (name : String) :
    r.service? other name =
      if other = shelf ∧ name = key then some o.service else h.service? other name := by
  obtain ⟨s, hs, he⟩ := Option.map_eq_some_iff.1 hr
  simp only [Prod.mk.injEq] at he
  obtain ⟨rfl, _, rfl⟩ := he
  simp only [service?, registry_setRegistry]
  by_cases hshelf : other = shelf
  · by_cases hname : name = key <;> simp [hshelf, hname]
  · simp only [hshelf, false_and]
    cases other <;> rfl

/-- The handle kept under a name. -/
def handle? (h : Hub κ) (name : String) : Option Handle := h.board.handles.find? name

def unsubscribe (h : Hub κ) (handle : Handle) : Hub κ :=
  { h with board := h.board.unsubscribe handle }

end Hub
end TimedMachine

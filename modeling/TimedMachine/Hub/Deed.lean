import TimedMachine.Hub

/-!
What a caller does with a hub, in any order: services are made, retired and dropped, subscriptions
begun and ended, and operations applied. A deed for a service that is not there does nothing.
-/
namespace TimedMachine

variable {κ : Type}

inductive Deed (κ : Type) where
  | create (key : String) (options : Options κ)
  | request (key : String)
  | retire (key : String)
  | drop (shelf : Shelf) (key : String)
  | subscribe (shelf : Shelf) (key name : String) (l : Listener κ)
  | unsubscribe (handle : Handle)
  | operate (shelf : Shelf) (key : String) (op : Service.Operation)

/-- What comes of deeds: the hub as it then is, what can be seen, and whether a sum of times did not
exist. -/
structure Hub.Response (κ : Type) where
  hub : Hub κ
  lines : List (Line κ) := []
  overflowed : Bool := false

def Outcome.isOverflow : Outcome κ → Bool
  | .completed _ => false
  | .overflowed _ => true

namespace Hub

variable [BEq κ]

def perform (h : Hub κ) : Deed κ → Response κ
  | .create key options => { hub := (h.create key options).2 }
  | .request key => { hub := (h.request key).2 }
  | .retire key => { hub := (h.retire key).2 }
  | .drop shelf key => { hub := h.drop shelf key }
  | .subscribe shelf key name l => { hub := h.subscribe shelf key name l }
  | .unsubscribe handle => { hub := h.unsubscribe handle }
  | .operate shelf key op =>
    match h.conduct shelf key op with
    | none => { hub := h }
    | some (o, lines, hub) => { hub, lines, overflowed := o.isOverflow }

/-- Do deeds in order, up to the first that overflows. -/
def attend : List (Deed κ) → Hub κ → Response κ
  | [], h => { hub := h }
  | d :: rest, h =>
    let now := h.perform d
    if now.overflowed then now
    else
      let more := attend rest now.hub
      { more with lines := now.lines ++ more.lines }

end Hub
end TimedMachine

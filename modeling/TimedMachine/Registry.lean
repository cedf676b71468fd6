import TimedMachine.Service.Operation

/-!
Services by key, at most one for each, in the order in which their keys were last taken up. A
service is made when its key is first asked for, and stopped when its key is removed.
-/
namespace TimedMachine

variable {κ : Type}

structure Registry (κ : Type) where
  services : Table (Service κ) := .empty

namespace Registry

instance : Inhabited (Registry κ) := ⟨{}⟩

def get? (r : Registry κ) (key : String) : Option (Service κ) := r.services.find? key

def contains (r : Registry κ) (key : String) : Bool := r.services.contains key

def keys (r : Registry κ) : List String := r.services.keys

def size (r : Registry κ) : Nat := r.services.size

/-- Put a service under a key, in place of any that stands there. -/
def put (r : Registry κ) (key : String) (s : Service κ) : Registry κ :=
  { services := r.services.insert key s }

/-- The service under a key. If there is none, `make` makes it from some resource, and only then is
the resource used. -/
def request {σ : Type} (r : Registry κ) (key : String) (make : σ → Service κ × σ) (resource : σ) :
    Service κ × Registry κ × σ :=
  match r.get? key with
  | some s => (s, r, resource)
  | none =>
    let (s, resource) := make resource
    (s, r.put key s, resource)

/-- Take a service out, stopping it; the other keys keep their order. -/
def remove (r : Registry κ) (key : String) : Option (Service κ) × Registry κ :=
  ((r.get? key).map (·.stop), { services := r.services.erase key })

def inspect (r : Registry κ) : String :=
  Inspect.record "ServiceRegistry" [("keys", Inspect.list (r.keys.map Inspect.quote))]

@[simp] theorem get?_put (r : Registry κ) (key : String) (s : Service κ) (other : String) :
    (r.put key s).get? other = if other = key then some s else r.get? other :=
  Table.find?_insert r.services key s other

@[simp] theorem get?_remove (r : Registry κ) (key other : String) :
    (r.remove key).2.get? other = if other = key then none else r.get? other :=
  Table.find?_erase r.services key other

theorem keys_put (r : Registry κ) (key : String) (s : Service κ) :
    (r.put key s).keys = if key ∈ r.keys then r.keys else r.keys ++ [key] :=
  Table.keys_insert r.services key s

end Registry
end TimedMachine

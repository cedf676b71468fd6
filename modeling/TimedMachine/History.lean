import TimedMachine.Duration
import TimedMachine.Queue

/-!
The transitions that were committed, oldest first, up to a limit. A record may carry a stamp of
some type `σ`: a wall-clock instant where records are kept or exchanged, nothing inside a service,
whose behaviour does not depend on wall-clock time.
-/
namespace TimedMachine

/-- A transition with the event that led to it and the virtual time at which it happened. -/
structure Record (σ : Type) where
  source : String
  target : String
  event : String
  clock : Duration
  stamp : σ
  deriving DecidableEq

structure History (σ : Type) where
  limit : Nat := 64
  kept : Queue (Record σ) := {}

namespace History

variable {σ : Type}

/-- The records, oldest first. -/
def records (h : History σ) : List (Record σ) := h.kept.toList

def size (h : History σ) : Nat := h.kept.size

/-- Add a record, dropping as many of the oldest as the limit requires. A limit of zero keeps
everything out. -/
def push (h : History σ) (r : Record σ) : History σ :=
  if h.limit = 0 then h else { h with kept := (Queue.drop (h.size + 1 - h.limit) h.kept).push r }

/-- The states passed through: where the first record starts and where each one ends. -/
def path (h : History σ) : List String :=
  match h.records with
  | [] => []
  | first :: rest => first.source :: (first :: rest).map (·.target)

@[simp] theorem length_records (h : History σ) : h.records.length = h.size := h.kept.length_toList

@[simp] theorem limit_push (h : History σ) (r : Record σ) : (h.push r).limit = h.limit := by
  unfold push
  split <;> rfl

theorem push_of_limit_eq_zero (h : History σ) (r : Record σ) (hl : h.limit = 0) :
    h.push r = h := if_pos hl

theorem records_push (h : History σ) (r : Record σ) (hl : h.limit ≠ 0) :
    (h.push r).records = h.records.drop (h.records.length + 1 - h.limit) ++ [r] := by
  simp [push, hl, records, size]

end History
end TimedMachine

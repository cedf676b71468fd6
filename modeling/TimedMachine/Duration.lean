import TimedMachine.Text.Decimal

/-!
Spans of virtual time, counted in nanoseconds. The longest is `2 ^ 64 - 1` seconds and
`999999999` nanoseconds; a sum beyond it does not exist, and a difference stops at zero.
-/
namespace TimedMachine

structure Duration where
  nanos : Nat
  nanos_lt : nanos < 18446744073709551616 * 1000000000
  deriving DecidableEq

namespace Duration

def zero : Duration := ⟨0, by decide⟩

instance : Inhabited Duration := ⟨zero⟩

instance : LE Duration := ⟨fun a b => a.nanos ≤ b.nanos⟩
instance : LT Duration := ⟨fun a b => a.nanos < b.nanos⟩
instance (a b : Duration) : Decidable (a ≤ b) := inferInstanceAs (Decidable (a.nanos ≤ b.nanos))
instance (a b : Duration) : Decidable (a < b) := inferInstanceAs (Decidable (a.nanos < b.nanos))

theorem le_def {a b : Duration} : a ≤ b ↔ a.nanos ≤ b.nanos := Iff.rfl
theorem lt_def {a b : Duration} : a < b ↔ a.nanos < b.nanos := Iff.rfl

theorem ext {a b : Duration} (h : a.nanos = b.nanos) : a = b := by
  cases a
  cases b
  simpa using h

theorem eq_iff {a b : Duration} : a = b ↔ a.nanos = b.nanos := ⟨congrArg nanos, ext⟩

def ofNanos? (n : Nat) : Option Duration :=
  if h : n < 18446744073709551616 * 1000000000 then some ⟨n, h⟩ else none

def ofMillis? (n : Nat) : Option Duration := ofNanos? (n * 1000000)

/-- Nanoseconds of a second and more carry into the seconds. -/
def ofParts? (secs nanos : Nat) : Option Duration := ofNanos? (secs * 1000000000 + nanos)

def secs (d : Duration) : Nat := d.nanos / 1000000000

/-- Nanoseconds past the last whole second. -/
def subsec (d : Duration) : Nat := d.nanos % 1000000000

/-- Whole milliseconds. -/
def millis (d : Duration) : Nat := d.nanos / 1000000

def add? (a b : Duration) : Option Duration := ofNanos? (a.nanos + b.nanos)

theorem add?_eq_some {a b c : Duration} (h : a.add? b = some c) :
    c.nanos = a.nanos + b.nanos := by
  unfold add? ofNanos? at h
  split at h
  · cases h
    rfl
  · cases h

theorem add?_of_nanos {a b c : Duration} (h : c.nanos = a.nanos + b.nanos) :
    a.add? b = some c := by
  unfold add? ofNanos?
  rw [dif_pos (h ▸ c.nanos_lt), Option.some.injEq]
  exact ext h.symm

/-- The time from `b` to `a`, none if `a` is earlier. -/
def minus (a b : Duration) : Duration := ⟨a.nanos - b.nanos, by have := a.nanos_lt; omega⟩

def later (a b : Duration) : Duration := if a ≤ b then b else a

theorem nanos_later (a b : Duration) : (a.later b).nanos = max a.nanos b.nanos := by
  unfold later
  split <;> rename_i h <;> rw [le_def] at h <;> omega

/-- In seconds from one second on, else in the largest of `ms`, `µs` and `ns` that is not below one;
always exact. -/
def inspect (d : Duration) : String :=
  let amount (unit : String) (whole width rest : Nat) : String :=
    String.ofList (Decimal.digits whole ++ Decimal.fraction width rest) ++ unit
  if 1000000000 ≤ d.nanos then amount "s" d.secs 9 d.subsec
  else if 1000000 ≤ d.nanos then amount "ms" (d.nanos / 1000000) 6 (d.nanos % 1000000)
  else if 1000 ≤ d.nanos then amount "µs" (d.nanos / 1000) 3 (d.nanos % 1000)
  else amount "ns" d.nanos 0 0

end Duration
end TimedMachine

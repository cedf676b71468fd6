import TimedMachine.Duration

/-!
Instants of civil time in the Gregorian calendar, extended to all years, without time zone: seconds
since the start of 1970 and nanoseconds. During a leap second, which the count of seconds leaves out,
the nanoseconds run on past `999999999`.
-/
namespace TimedMachine

structure Instant where
  secs : Int
  nanos : Nat
  deriving DecidableEq, Inhabited

structure Date where
  year : Int
  month : Nat
  day : Nat
  deriving DecidableEq

namespace Date

def isLeap (year : Int) : Bool := year % 4 = 0 && (year % 100 ≠ 0 || year % 400 = 0)

def monthLengths (year : Int) : List Nat :=
  [31, if isLeap year then 29 else 28, 31, 30, 31, 30, 31, 31, 30, 31, 30, 31]

/-- Days from the start of the year 1 to the start of a year. -/
def daysBefore (year : Int) : Int :=
  365 * (year - 1) + (year - 1) / 4 - (year - 1) / 100 + (year - 1) / 400

/-- Whether the date is in the calendar. -/
def Valid (d : Date) : Prop :=
  1 ≤ d.month ∧ 1 ≤ d.day ∧ ∃ length ∈ (monthLengths d.year)[d.month - 1]?, d.day ≤ length

instance (d : Date) : Decidable d.Valid :=
  match h : (monthLengths d.year)[d.month - 1]? with
  | none => isFalse fun v => by simp [Valid, h] at v
  | some length =>
    decidable_of_iff (1 ≤ d.month ∧ 1 ≤ d.day ∧ d.day ≤ length) (by simp [Valid, h])

/-- Days from the start of 1970. -/
def toDays (d : Date) : Int :=
  daysBefore d.year + ((monthLengths d.year).take (d.month - 1)).foldr Nat.add 0 + (d.day - 1) -
    719162

/-- The month and day of the month, both counted from one, that a day of the year falls on, counted
from zero; `month` is the first of the given months. -/
def monthDay (month : Nat) : List Nat → Nat → Nat × Nat
  | [], n => (month, n + 1)
  | length :: rest, n => if n < length then (month, n + 1) else monthDay (month + 1) rest (n - length)

/-- The year that holds a day counted from the start of the year 1. The mean length of a year gives
it up to one, so one of its neighbours may have to be taken. -/
def yearOf (days : Int) : Int :=
  let guess := 400 * days / 146097 + 1
  if days < daysBefore guess then guess - 1
  else if daysBefore (guess + 1) ≤ days then guess + 1
  else guess

def ofDays (n : Int) : Date :=
  let days := n + 719162
  let year := yearOf days
  let (month, day) := monthDay 1 (monthLengths year) (days - daysBefore year).toNat
  { year, month, day }

/-- The first and last year of the range that instants are read in. -/
def InRange (d : Date) : Prop := -262143 ≤ d.year ∧ d.year ≤ 262142

instance (d : Date) : Decidable d.InRange := inferInstanceAs (Decidable (_ ∧ _))

end Date

namespace Instant

def date (i : Instant) : Date := .ofDays (i.secs / 86400)

/-- Seconds since midnight. -/
def secondOfDay (i : Instant) : Nat := (i.secs % 86400).toNat

/-- Nanoseconds from `b` to `a`. A leap second between them counts, where one of the two instants
shows it. -/
def nanosSince (a b : Instant) : Int :=
  let whole := a.secs - b.secs
  let leap : Int :=
    if b.secondOfDay < a.secondOfDay ∧ 1000000000 ≤ b.nanos then 1
    else if a.secondOfDay < b.secondOfDay ∧ 1000000000 ≤ a.nanos then -1
    else 0
  (whole + leap) * 1000000000 + (a.nanos - b.nanos)

/-- The time from `b` to `a`, unless `a` is the earlier one. -/
def since? (a b : Instant) : Option Duration :=
  let n := a.nanosSince b
  if n < 0 then none else Duration.ofNanos? n.toNat

end Instant
end TimedMachine

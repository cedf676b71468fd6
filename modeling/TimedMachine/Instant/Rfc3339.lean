import TimedMachine.Instant
import TimedMachine.Text.Blank

/-!
Instants written as in RFC 3339. They are written in UTC, with as many digits of the second as are
needed out of none, three, six and nine. The reader takes any offset and is relaxed: numbers may be
short, years signed, and blanks stand between the parts.
-/
namespace TimedMachine.Instant

/-- Four digits, and a sign and as many as it takes outside of the years 0 to 9999. -/
def yearDigits (year : Int) : List Char :=
  if 0 ≤ year ∧ year ≤ 9999 then Decimal.padded 4 year.toNat
  else
    let digits := Decimal.digits year.natAbs
    (if year < 0 then '-' else '+') :: List.replicate (4 - digits.length) '0' ++ digits

def fractionDigits (nanos : Nat) : List Char :=
  if nanos = 0 then []
  else if nanos % 1000000 = 0 then '.' :: Decimal.padded 3 (nanos / 1000000)
  else if nanos % 1000 = 0 then '.' :: Decimal.padded 6 (nanos / 1000)
  else '.' :: Decimal.padded 9 nanos

/-- A leap second is written as second 60. -/
def write (i : Instant) : List Char :=
  let d := i.date
  let t := i.secondOfDay
  let (second, nanos) :=
    if 1000000000 ≤ i.nanos then (t % 60 + 1, i.nanos - 1000000000) else (t % 60, i.nanos)
  yearDigits d.year ++ '-' :: Decimal.padded 2 d.month ++ '-' :: Decimal.padded 2 d.day ++
    'T' :: Decimal.padded 2 (t / 3600) ++ ':' :: Decimal.padded 2 (t / 60 % 60) ++
    ':' :: Decimal.padded 2 second ++ fractionDigits nanos ++ ['Z']

def text (i : Instant) : String := String.ofList i.write

/-- The digits at the head of a text, and what follows them. -/
def span (cs : List Char) : List Char × List Char :=
  (cs.takeWhile (fun c => decide (Decimal.IsDigit c)),
    cs.dropWhile (fun c => decide (Decimal.IsDigit c)))

/-- A number of one to `width` digits after blanks. -/
def number (width : Nat) (cs : List Char) : Option (Nat × List Char) :=
  let cs := Blank.skip cs
  let digits := (span (cs.take width)).1
  if digits.isEmpty then none else some (Decimal.value digits, cs.drop digits.length)

/-- Up to four digits, or a sign and any number of them. -/
def year (cs : List Char) : Option (Int × List Char) :=
  let signed (sign : Int) (cs : List Char) : Option (Int × List Char) :=
    let (digits, rest) := span cs
    if digits.isEmpty then none else some (sign * Decimal.value digits, rest)
  match Blank.skip cs with
  | '-' :: cs => signed (-1) cs
  | '+' :: cs => signed 1 cs
  | cs => (number 4 cs).map fun (n, rest) => ((n : Int), rest)

/-- A mark after blanks. -/
def mark (c : Char) (cs : List Char) : Option (List Char) :=
  match Blank.skip cs with
  | [] => none
  | d :: rest => if d = c then some rest else none

/-- A fraction of a second in nanoseconds; digits past the ninth are dropped. Without a point there
is none. -/
def fraction (cs : List Char) : Option (Nat × List Char) :=
  match cs with
  | '.' :: cs =>
    let (digits, rest) := span cs
    if digits.isEmpty then none
    else
      let kept := digits.take 9
      some (Decimal.value kept * Nat.pow 10 (9 - kept.length), rest)
  | cs => some (0, cs)

/-- The offset from UTC in seconds: a `Z`, the word `UTC`, or a sign with two digits each for hours
and minutes, between which there may be colons and blanks. -/
def offset (cs : List Char) : Option (Int × List Char) :=
  let clock (sign : Int) (cs : List Char) : Option (Int × List Char) :=
    match cs with
    | h :: k :: cs =>
      match cs.dropWhile (fun c => c = ':' || Blank.isBlank c) with
      | m :: n :: rest =>
        if Decimal.IsDigit h ∧ Decimal.IsDigit k ∧ Decimal.IsDigit m ∧ Decimal.IsDigit n ∧
            m ≤ '5' then
          some (sign * (Decimal.value [h, k] * 3600 + Decimal.value [m, n] * 60 : Nat), rest)
        else none
      | _ => none
    | _ => none
  match Blank.skip cs with
  | 'Z' :: rest => some (0, rest)
  | 'z' :: rest => some (0, rest)
  | '+' :: rest => clock 1 rest
  | '-' :: rest => clock (-1) rest
  | '−' :: rest => clock (-1) rest
  | u :: t :: c :: rest =>
    if u.toUpper = 'U' ∧ t.toUpper = 'T' ∧ c.toUpper = 'C' then some (0, rest) else none
  | _ => none

/-- The instant of a date and a time of day at an offset from UTC, if all of them exist. Second 60
is a leap second, at any minute. -/
def ofParts? (date : Date) (hour minute second nanos : Nat) (offset : Int) : Option Instant :=
  if date.Valid ∧ date.InRange ∧ hour ≤ 23 ∧ minute ≤ 59 ∧ second ≤ 60 ∧ offset.natAbs < 86400 then
    let leap := second = 60
    let i : Instant :=
      { secs :=
          date.toDays * 86400 + (hour * 3600 + minute * 60 + if leap then 59 else second : Nat) -
            offset
        nanos := if leap then nanos + 1000000000 else nanos }
    if i.date.InRange then some i else none
  else none

def read (cs : List Char) : Option Instant := do
  let (year, cs) ← year cs
  let cs ← mark '-' cs
  let (month, cs) ← number 2 cs
  let cs ← mark '-' cs
  let (day, cs) ← number 2 cs
  let cs ←
    match cs with
    | c :: rest => if c = 'T' ∨ c = 't' ∨ c = ' ' then some rest else none
    | [] => none
  let (hour, cs) ← number 2 cs
  let cs ← mark ':' cs
  let (minute, cs) ← number 2 cs
  let cs ← mark ':' cs
  let (second, cs) ← number 2 cs
  let (nanos, cs) ← fraction cs
  let (offset, cs) ← offset cs
  if (Blank.skip cs).isEmpty then ofParts? ⟨year, month, day⟩ hour minute second nanos offset
  else none

def ofText? (s : String) : Option Instant := read s.toList

end TimedMachine.Instant

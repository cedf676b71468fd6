import TimedMachine.Pattern

/-!
The written form of patterns. A text is cut into symbols, of which a set in brackets is one, and the
symbols are read with a stack of open groups.

Inside brackets a dash between two characters makes a range. It stands for itself first, last, and
right after a range; so does a closing bracket that comes first. A question mark right after a sign
of repetition asks for short stretches. That makes no difference to whether there is one, so it is
no symbol.
-/
namespace TimedMachine.Pattern

inductive Symbol where
  | one (s : CharSet)
  | start
  | stop
  | opening
  | closing
  | bar
  | star
  | plus
  | optional

/-- What the next character of a set in brackets can do. -/
inductive Place where
  /-- Negate the set. -/
  | first
  /-- Be a dash or a bracket that stands for itself. -/
  | leading
  | between
  /-- Be the dash of a range that begins with this character. -/
  | low (c : Char)
  /-- End that range. -/
  | high (c : Char)

/-- A set in brackets that is being read. -/
structure OpenSet where
  negated : Bool := false
  ranges : List (Char × Char) := []
  place : Place := .first

namespace OpenSet

def add (o : OpenSet) (c : Char) : OpenSet := { o with ranges := (c, c) :: o.ranges }

/-- Take a character that stands for itself. -/
def take (o : OpenSet) (c : Char) : Option OpenSet :=
  match o.place with
  | .high low =>
    if low ≤ c then some { o with ranges := (low, c) :: o.ranges, place := .between } else none
  | .low previous => some { o.add previous with place := .low c }
  | _ => some { o with place := .low c }

/-- Leave the set. -/
def close (o : OpenSet) : CharSet :=
  let o :=
    match o.place with
    | .low c => o.add c
    | .high c => (o.add c).add '-'
    | _ => o
  { negated := o.negated, ranges := o.ranges }

end OpenSet

/-- What the next character belongs to. -/
inductive Mode where
  | plain
  | repeated
  | escaped
  | inSet (o : OpenSet)
  | escapedInSet (o : OpenSet)

/-- Only signs can be escaped. -/
def sign? (c : Char) : Option Char := if c.isAlphanum then none else some c

/-- Outside of sets: the symbol that a character makes, and what the next one belongs to. -/
def plainStep (c : Char) : Option (List Symbol × Mode) :=
  match c with
  | '(' => some ([.opening], .plain)
  | ')' => some ([.closing], .plain)
  | '|' => some ([.bar], .plain)
  | '*' => some ([.star], .repeated)
  | '+' => some ([.plus], .repeated)
  | '?' => some ([.optional], .repeated)
  | '^' => some ([.start], .plain)
  | '$' => some ([.stop], .plain)
  | '.' => some ([.one .withinLine], .plain)
  | '[' => some ([], .inSet {})
  | '\\' => some ([], .escaped)
  | '\x7b' => none
  | c => some ([.one (.single c)], .plain)

/-- Within a set. -/
def setStep (o : OpenSet) (c : Char) : Option (List Symbol × Mode) :=
  match o.place, c with
  | .first, '^' => some ([], .inSet { o with negated := true, place := .leading })
  | .first, '-' | .leading, '-' => some ([], .inSet { o.add '-' with place := .leading })
  | .high _, '-' => none
  | .low '-', '-' => none
  | .low low, '-' => some ([], .inSet { o with place := .high low })
  | place, ']' =>
    match place, o.ranges with
    | .first, [] | .leading, [] => some ([], .inSet { o.add ']' with place := .between })
    | _, _ => some ([.one o.close], .plain)
  | _, '\\' => some ([], .escapedInSet o)
  | .high _, c => (o.take c).map fun o => ([], .inSet o)
  | _, '[' => none
  | _, c => (o.take c).map fun o => ([], .inSet o)

def step (c : Char) : Mode → Option (List Symbol × Mode)
  | .plain => plainStep c
  | .repeated => if c = '?' then some ([], .plain) else plainStep c
  | .escaped => (sign? c).map fun c => ([.one (.single c)], .plain)
  | .inSet o => setStep o c
  | .escapedInSet o => do
    let o ← o.take (← sign? c)
    return ([], .inSet o)

/-- The symbols of a text. -/
def symbols? : List Char → Mode → Option (List Symbol)
  | [], .plain | [], .repeated => some []
  | [], _ => none
  | c :: rest, mode => do
    let (made, mode) ← step c mode
    return made ++ (← symbols? rest mode)

/-- A group that is being read: the choices that are complete, and the parts of the present one,
both with the latest first. -/
structure Group where
  choices : List Pattern := []
  parts : List Pattern := []

namespace Group

def push (g : Group) (p : Pattern) : Group := { g with parts := p :: g.parts }

def sequence (g : Group) : Pattern :=
  match g.parts with
  | [] => .empty
  | last :: before => before.foldl (fun rest p => .cat p rest) last

/-- Begin the next choice. -/
def bar (g : Group) : Group := { choices := g.sequence :: g.choices, parts := [] }

def close (g : Group) : Pattern := g.choices.foldl (fun rest p => .alt p rest) g.sequence

/-- Change the latest part; there has to be one. -/
def change (g : Group) (f : Pattern → Pattern) : Option Group :=
  match g.parts with
  | [] => none
  | p :: rest => some { g with parts := f p :: rest }

end Group

/-- Read symbols, with the groups that are open around the present one. -/
def ofSymbols? : List Symbol → Group → List Group → Option Pattern
  | [], g, [] => some g.close
  | [], _, _ :: _ => none
  | .one s :: rest, g, outer => ofSymbols? rest (g.push (.one s false)) outer
  | .start :: rest, g, outer => ofSymbols? rest (g.push .start) outer
  | .stop :: rest, g, outer => ofSymbols? rest (g.push .stop) outer
  | .opening :: rest, g, outer => ofSymbols? rest {} (g :: outer)
  | .closing :: _, _, [] => none
  | .closing :: rest, g, around :: outer => ofSymbols? rest (around.push g.close) outer
  | .bar :: rest, g, outer => ofSymbols? rest g.bar outer
  | .star :: rest, g, outer => do ofSymbols? rest (← g.change .star) outer
  | .plus :: rest, g, outer => do ofSymbols? rest (← g.change .plus) outer
  | .optional :: rest, g, outer => do ofSymbols? rest (← g.change (.alt · .empty)) outer

def ofString? (s : String) : Option Pattern := do ofSymbols? (← symbols? s.toList .plain) {} []

end TimedMachine.Pattern

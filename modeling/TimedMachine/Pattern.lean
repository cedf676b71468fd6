/-!
Patterns for state names: characters, sets of characters, both ends of the text, sequence, choice
and repetition. A pattern is found in a text if some stretch of the text matches it.

The search goes through the text once and keeps marks on the pattern itself: a character set is
marked if a match under way has just come past it. So the work for one character of the text depends
on the pattern alone.
-/
namespace TimedMachine

/-- Characters by ranges, or all but those. -/
structure CharSet where
  negated : Bool := false
  ranges : List (Char × Char)

namespace CharSet

def has (s : CharSet) (c : Char) : Bool :=
  s.ranges.any (fun r => r.1 ≤ c && c ≤ r.2) != s.negated

def single (c : Char) : CharSet := { ranges := [(c, c)] }

/-- Every character but the line feed. -/
def withinLine : CharSet := { negated := true, ranges := [('\n', '\n')] }

end CharSet

inductive Pattern where
  | empty
  | one (s : CharSet) (marked : Bool)
  | start
  | stop
  | cat (a b : Pattern)
  | alt (a b : Pattern)
  | star (a : Pattern)
  | plus (a : Pattern)

namespace Pattern

/-- Whether the pattern matches the empty stretch at a place, given which ends of the text are
there. -/
def matchesEmpty (atStart atStop : Bool) : Pattern → Bool
  | .empty => true
  | .one .. => false
  | .start => atStart
  | .stop => atStop
  | .cat a b => a.matchesEmpty atStart atStop && b.matchesEmpty atStart atStop
  | .alt a b => a.matchesEmpty atStart atStop || b.matchesEmpty atStart atStop
  | .star _ => true
  | .plus a => a.matchesEmpty atStart atStop

/-- Whether a match under way can end at the place. It has come past a character, so the place is
not the start. -/
def canEnd (atStop : Bool) : Pattern → Bool
  | .empty | .start | .stop => false
  | .one _ marked => marked
  | .cat a b => (a.canEnd atStop && b.matchesEmpty false atStop) || b.canEnd atStop
  | .alt a b => a.canEnd atStop || b.canEnd atStop
  | .star a | .plus a => a.canEnd atStop

/-- Go past a character. A match under way goes on, and a new one can begin if `fresh` is set. -/
def pass (c : Char) (atStart : Bool) : Bool → Pattern → Pattern
  | _, .empty => .empty
  | _, .start => .start
  | _, .stop => .stop
  | fresh, .one s _ => .one s (fresh && s.has c)
  | fresh, .cat a b =>
    .cat (pass c atStart fresh a)
      (pass c atStart ((fresh && a.matchesEmpty atStart false) || a.canEnd false) b)
  | fresh, .alt a b => .alt (pass c atStart fresh a) (pass c atStart fresh b)
  | fresh, .star a => .star (pass c atStart (fresh || a.canEnd false) a)
  | fresh, .plus a => .plus (pass c atStart (fresh || a.canEnd false) a)

/-- Whether a match under way ends somewhere in the rest of the text, or one that begins there. -/
def search (atStart : Bool) : List Char → Pattern → Bool
  | [], p => p.matchesEmpty atStart true || p.canEnd true
  | c :: rest, p =>
    p.matchesEmpty atStart false || p.canEnd false || search false rest (p.pass c atStart true)

/-- Whether the pattern, without marks, matches somewhere in the text. -/
def found (p : Pattern) (s : String) : Bool := p.search true s.toList

end Pattern
end TimedMachine

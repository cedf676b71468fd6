/-!
The characters that count as blank between the parts of a written instant: those with the Unicode
property White_Space.
-/
namespace TimedMachine.Blank

def isBlank (c : Char) : Bool :=
  let n := c.toNat
  (9 ≤ n && n ≤ 13) || n = 0x20 || n = 0x85 || n = 0xa0 || n = 0x1680 ||
    (0x2000 ≤ n && n ≤ 0x200a) || n = 0x2028 || n = 0x2029 || n = 0x202f || n = 0x205f || n = 0x3000

/-- The text from its first character that is not blank. -/
def skip (cs : List Char) : List Char := cs.dropWhile isBlank

end TimedMachine.Blank

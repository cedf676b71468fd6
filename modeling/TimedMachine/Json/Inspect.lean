import TimedMachine.Json
import TimedMachine.Text.Decimal
import TimedMachine.Text.Inspect

/-!
How JSON values look when inspected: each kind by name, objects with their keys in order.
-/
namespace TimedMachine

/-- The number in positions, if its point falls among its digits or not far from them, and else with
one digit before the point and an exponent. -/
def Scientific.inspect (x : Scientific) : String :=
  let digits := Decimal.digits x.coefficient
  let point : Int := digits.length + x.exponent
  let sign := if x.negative then "-" else ""
  let written : List Char :=
    if 0 ≤ x.exponent ∧ point ≤ 16 then
      digits ++ List.replicate x.exponent.toNat '0' ++ ['.', '0']
    else if 0 < point ∧ point ≤ 16 then
      digits.take point.toNat ++ '.' :: digits.drop point.toNat
    else if -5 < point ∧ point ≤ 0 then
      '0' :: '.' :: List.replicate (-point).toNat '0' ++ digits
    else
      let fraction := if digits.length = 1 then [] else '.' :: digits.drop 1
      digits.take 1 ++ fraction ++ 'e' :: (toString (point - 1)).toList
  sign ++ String.ofList written

namespace Json

mutual

def inspect : Json → String
  | .null => "Null"
  | .bool b => "Bool(" ++ Inspect.truth b ++ ")"
  | .num n => "Number(" ++ toString n ++ ")"
  | .real x => "Number(" ++ x.inspect ++ ")"
  | .str s => "String(" ++ Inspect.quote s ++ ")"
  | .arr items => "Array " ++ Inspect.list (inspectItems items)
  | .obj members => "Object \x7b" ++ String.intercalate ", " (inspectMembers members) ++ "\x7d"

def inspectItems : List Json → List String
  | [] => []
  | x :: xs => inspect x :: inspectItems xs

def inspectMembers : List (String × Json) → List String
  | [] => []
  | (k, x) :: rest => (Inspect.quote k ++ ": " ++ inspect x) :: inspectMembers rest

end

end Json
end TimedMachine

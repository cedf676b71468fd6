import TimedMachine.Text.Hidden

/-!
The form in which values are shown to someone who inspects them: quoted texts, lists in brackets,
and named records with their fields in braces.
-/
namespace TimedMachine.Inspect

/-- A quote, a backslash and the usual blanks have short escapes, other hidden characters are shown
by number, and everything else stands for itself. -/
def escape (c : Char) : List Char :=
  match c with
  | '\x00' => ['\\', '0']
  | '\t' => ['\\', 't']
  | '\r' => ['\\', 'r']
  | '\n' => ['\\', 'n']
  | '\\' => ['\\', '\\']
  | '"' => ['\\', '"']
  | c =>
    if Hidden.isHidden c then
      ['\\', 'u', '\x7b'] ++ Nat.toDigits 16 c.toNat ++ ['\x7d']
    else [c]

def quote (s : String) : String :=
  String.ofList ('"' :: s.toList.flatMap escape ++ ['"'])

def list (items : List String) : String := "[" ++ String.intercalate ", " items ++ "]"

def option (value : Option String) : String :=
  match value with
  | none => "None"
  | some text => "Some(" ++ text ++ ")"

def truth (b : Bool) : String := if b then "true" else "false"

/-- A record by name, with each field's name and inspected value. -/
def record (name : String) (fields : List (String × String)) : String :=
  name ++ " \x7b " ++ String.intercalate ", " (fields.map (fun f => f.1 ++ ": " ++ f.2)) ++ " \x7d"

end TimedMachine.Inspect

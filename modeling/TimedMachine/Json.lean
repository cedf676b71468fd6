/-!
JSON values. A number is an integer, or written with a fraction or an exponent and then kept as the
shortest decimal that stands for it. An object lists its members in strictly increasing key order
(`Canonical`), so two canonical values hold the same members exactly when they are equal as trees.
Equality as values, `==`, is that of trees but for the two zeros with a fraction, which are equal.
`ofMembers` sorts members given in any order, the last of two with one key winning, and `merge` lays
one value over another without descending into members.
-/
namespace TimedMachine

/-- The number `coefficient * 10 ^ exponent` with its sign. Zero has both signs. -/
structure Scientific where
  negative : Bool
  coefficient : Nat
  exponent : Int
  shortest : (coefficient = 0 ∧ exponent = 0) ∨ coefficient % 10 ≠ 0
  deriving DecidableEq

namespace Scientific

instance : BEq Scientific where
  beq x y := decide (x = y) || (x.coefficient == 0 && y.coefficient == 0)

@[simp] theorem beq_self (x : Scientific) : (x == x) = true := by simp [BEq.beq]

end Scientific

inductive Json where
  | null
  | bool (b : Bool)
  | num (n : Int)
  | real (x : Scientific)
  | str (s : String)
  | arr (items : List Json)
  | obj (members : List (String × Json))
  deriving Inhabited

namespace Json

section Agreement

variable (test : Scientific → Scientific → Bool)

mutual

/-- Whether two values have one shape and the same leaves, with a test for numbers that are no
integers. -/
def agree : Json → Json → Bool
  | .null, .null => true
  | .bool a, .bool b => a == b
  | .num a, .num b => a == b
  | .real a, .real b => test a b
  | .str a, .str b => a == b
  | .arr a, .arr b => agreeItems a b
  | .obj a, .obj b => agreeMembers a b
  | _, _ => false

def agreeItems : List Json → List Json → Bool
  | [], [] => true
  | x :: xs, y :: ys => agree x y && agreeItems xs ys
  | _, _ => false

def agreeMembers : List (String × Json) → List (String × Json) → Bool
  | [], [] => true
  | (k, x) :: xs, (l, y) :: ys => k == l && agree x y && agreeMembers xs ys
  | _, _ => false

end

variable {test}

mutual

theorem agree_iff (h : ∀ x y, test x y = true ↔ x = y) : ∀ a b, agree test a b = true ↔ a = b
  | .null, b => by cases b <;> simp [agree]
  | .bool _, b => by cases b <;> simp [agree]
  | .num _, b => by cases b <;> simp [agree]
  | .real _, b => by cases b <;> simp [agree, h]
  | .str _, b => by cases b <;> simp [agree]
  | .arr xs, b => by cases b <;> simp [agree, agreeItems_iff h xs]
  | .obj xs, b => by cases b <;> simp [agree, agreeMembers_iff h xs]

theorem agreeItems_iff (h : ∀ x y, test x y = true ↔ x = y) :
    ∀ a b, agreeItems test a b = true ↔ a = b
  | [], b => by cases b <;> simp [agreeItems]
  | x :: xs, b => by cases b <;> simp [agreeItems, agree_iff h x, agreeItems_iff h xs]

theorem agreeMembers_iff (h : ∀ x y, test x y = true ↔ x = y) :
    ∀ a b, agreeMembers test a b = true ↔ a = b
  | [], b => by cases b <;> simp [agreeMembers]
  | (k, x) :: xs, b => by
    cases b with
    | nil => simp [agreeMembers]
    | cons m ys => simp [agreeMembers, agree_iff h x, agreeMembers_iff h xs, Prod.ext_iff]

end

mutual

theorem agree_self (h : ∀ x, test x x = true) : ∀ a, agree test a a = true
  | .null | .bool _ | .num _ | .str _ => by simp [agree]
  | .real x => by simp [agree, h]
  | .arr xs => by simp [agree, agreeItems_self h xs]
  | .obj xs => by simp [agree, agreeMembers_self h xs]

theorem agreeItems_self (h : ∀ x, test x x = true) : ∀ a, agreeItems test a a = true
  | [] => by simp [agreeItems]
  | x :: xs => by simp [agreeItems, agree_self h x, agreeItems_self h xs]

theorem agreeMembers_self (h : ∀ x, test x x = true) : ∀ a, agreeMembers test a a = true
  | [] => by simp [agreeMembers]
  | (_, x) :: xs => by simp [agreeMembers, agree_self h x, agreeMembers_self h xs]

end

end Agreement

instance : DecidableEq Json := fun a b =>
  decidable_of_iff (agree (fun x y => decide (x = y)) a b = true)
    (agree_iff (fun _ _ => decide_eq_true_iff) a b)

instance : BEq Json := ⟨agree (· == ·)⟩

instance : ReflBEq Json := ⟨fun {a} => agree_self Scientific.beq_self a⟩

/-- Every object inside the value lists its keys in strictly increasing order. -/
inductive Canonical : Json → Prop where
  | null : Canonical .null
  | bool (b : Bool) : Canonical (.bool b)
  | num (n : Int) : Canonical (.num n)
  | real (x : Scientific) : Canonical (.real x)
  | str (s : String) : Canonical (.str s)
  | arr {items : List Json} (each : ∀ x ∈ items, Canonical x) : Canonical (.arr items)
  | obj {members : List (String × Json)} (ordered : members.Pairwise (fun a b => a.1 < b.1))
      (each : ∀ m ∈ members, Canonical m.2) : Canonical (.obj members)

/-- Put a member where its key belongs, replacing the member that has this key. -/
def putMember (key : String) (value : Json) : List (String × Json) → List (String × Json)
  | [] => [(key, value)]
  | (k, v) :: rest =>
    if key = k then (key, value) :: rest
    else if key < k then (key, value) :: (k, v) :: rest
    else (k, v) :: putMember key value rest

theorem lookup_putMember_self (key : String) (value : Json) (ms : List (String × Json)) :
    (putMember key value ms).lookup key = some value := by
  induction ms with
  | nil => simp [putMember]
  | cons m rest ih => grind [putMember]

theorem lookup_putMember_ne {key other : String} (h : other ≠ key) (value : Json)
    (ms : List (String × Json)) :
    (putMember key value ms).lookup other = ms.lookup other := by
  induction ms with
  | nil => grind [putMember]
  | cons m rest ih => grind [putMember]

theorem mem_putMember {key : String} {value : Json} {m : String × Json}
    {ms : List (String × Json)} (h : m ∈ putMember key value ms) : m = (key, value) ∨ m ∈ ms := by
  induction ms with
  | nil => simpa [putMember] using h
  | cons n rest ih =>
    obtain ⟨k, v⟩ := n
    rw [putMember] at h
    split at h <;> grind

/-- Lay the members of `patch` over those of `base`, in the order of `patch`. -/
def overlay (base patch : List (String × Json)) : List (String × Json) :=
  patch.foldl (fun ms m => putMember m.1 m.2 ms) base

@[simp] theorem overlay_nil (base : List (String × Json)) : overlay base [] = base := rfl
@[simp] theorem overlay_cons (base : List (String × Json)) (m : String × Json)
    (rest : List (String × Json)) :
    overlay base (m :: rest) = overlay (putMember m.1 m.2 base) rest := rfl

/-- The object with the given members, sorted by key. -/
def ofMembers (members : List (String × Json)) : Json := .obj (overlay [] members)

/-- A patch replaces the value, unless both are objects: then its members replace or join those
that are there. -/
def merge (patch value : Json) : Json :=
  match value, patch with
  | .obj base, .obj top => .obj (overlay base top)
  | _, _ => patch

/-- The member of an object under a key; nothing else has members. -/
def member? (key : String) : Json → Option Json
  | .obj members => members.lookup key
  | _ => none

/-- The integers of 64 signed bits. -/
def Signed64 (n : Int) : Prop := -9223372036854775808 ≤ n ∧ n ≤ 9223372036854775807

instance (n : Int) : Decidable (Signed64 n) := inferInstanceAs (Decidable (_ ∧ _))

/-- The number in the value, if it has 64 signed bits. -/
def signed64? : Json → Option Int
  | .num n => if Signed64 n then some n else none
  | _ => none

/-- The text in the value, if it is one. -/
def str? : Json → Option String
  | .str s => some s
  | _ => none

/-- The natural number in the value, if it is one below `bound`. -/
def natBelow? (bound : Nat) : Json → Option Nat
  | .num n => if 0 ≤ n ∧ n < bound then some n.toNat else none
  | _ => none

end Json
end TimedMachine

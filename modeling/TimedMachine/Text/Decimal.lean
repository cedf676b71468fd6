/-!
Decimal numerals as lists of characters: the shortest numeral of a number (`digits`), its numeral of
a fixed width (`padded`), and the number a numeral stands for (`value`). Reading undoes writing.
-/
namespace TimedMachine.Decimal

def digit (d : Nat) : Char := Char.ofNat (48 + d)

def digitValue (c : Char) : Nat := c.toNat - 48

def IsDigit (c : Char) : Prop := '0' ≤ c ∧ c ≤ '9'

instance (c : Char) : Decidable (IsDigit c) := inferInstanceAs (Decidable (_ ∧ _))

theorem isDigit_digit : ∀ d : Nat, d < 10 → IsDigit (digit d) := by decide

theorem digitValue_digit : ∀ d : Nat, d < 10 → digitValue (digit d) = d := by decide

/-- The numeral without leading zeros. -/
def digits (n : Nat) : List Char :=
  if n < 10 then [digit n] else digits (n / 10) ++ [digit (n % 10)]

/-- The last `width` digits of the number, with leading zeros. -/
def padded : Nat → Nat → List Char
  | 0, _ => []
  | width + 1, n => padded width (n / 10) ++ [digit (n % 10)]

def value (cs : List Char) : Nat := cs.foldl (fun n c => n * 10 + digitValue c) 0

@[simp] theorem value_nil : value [] = 0 := rfl
@[simp] theorem value_concat (cs : List Char) (c : Char) :
    value (cs ++ [c]) = value cs * 10 + digitValue c := by simp [value]

theorem value_digits (n : Nat) : value (digits n) = n := by
  induction n using Nat.strongRecOn with
  | _ n ih =>
    rw [digits]
    split
    · rename_i h
      simp [value, digitValue_digit n h]
    · rename_i h
      rw [value_concat, ih (n / 10) (by omega), digitValue_digit _ (by omega)]
      omega

theorem digits_injective {m n : Nat} (h : digits m = digits n) : m = n := by
  rw [← value_digits m, h, value_digits]

theorem value_padded (width n : Nat) : value (padded width n) = n % Nat.pow 10 width := by
  induction width generalizing n with
  | zero => simp [padded, Nat.mod_one]
  | succ width ih =>
    have hpow : Nat.pow 10 (width + 1) = 10 * Nat.pow 10 width := Nat.mul_comm _ _
    rw [padded, value_concat, ih, digitValue_digit _ (by omega), hpow, Nat.mod_mul]
    omega

@[simp] theorem length_padded (width n : Nat) : (padded width n).length = width := by
  induction width generalizing n with
  | zero => rfl
  | succ width ih => simp [padded, ih]

theorem isDigit_of_mem_digits {n : Nat} {c : Char} (h : c ∈ digits n) : IsDigit c := by
  induction n using Nat.strongRecOn with
  | _ n ih =>
    rw [digits] at h
    split at h
    · rename_i hn
      rw [List.mem_singleton.1 h]
      exact isDigit_digit n hn
    · rcases List.mem_append.1 h with h | h
      · exact ih (n / 10) (by omega) h
      · rw [List.mem_singleton.1 h]
        exact isDigit_digit _ (by omega)

theorem isDigit_of_mem_padded {width n : Nat} {c : Char} (h : c ∈ padded width n) : IsDigit c := by
  induction width generalizing n with
  | zero => simp [padded] at h
  | succ width ih =>
    rcases List.mem_append.1 h with h | h
    · exact ih h
    · rw [List.mem_singleton.1 h]
      exact isDigit_digit _ (by omega)

/-- The fraction `n / 10 ^ width`, its point included, without trailing zeros; nothing for zero. -/
def fraction (width n : Nat) : List Char :=
  match (((padded width n).reverse.dropWhile (· = '0')).reverse) with
  | [] => []
  | kept => '.' :: kept

end TimedMachine.Decimal

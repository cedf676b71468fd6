import Mathlib.Data.List.TakeWhile
import TimedMachine.Event

/-!
The kinds of the events that a machine makes itself tell what made them. In the kind of a delayed
transition the delay is a numeral, which no digit follows; so it can be read off whatever the state is
called, and the state after it (`after_eq_after_iff`). A numeral is that of one number, and it is
written for as many milliseconds as there are.
-/
namespace TimedMachine

namespace Decimal

theorem digit_eq_digitChar : ∀ d : Nat, d < 10 → digit d = d.digitChar := by decide

theorem digits_eq_toDigits (n : Nat) : digits n = Nat.toDigits 10 n := by
  induction n using Nat.strongRecOn with
  | _ n ih =>
    rw [digits, Nat.toDigits_eq_if (by decide)]
    split
    · rename_i hn
      rw [digit_eq_digitChar n hn]
    · rw [ih (n / 10) (by omega), digit_eq_digitChar _ (by omega)]

/-- Where a numeral ends, something else than a digit has to follow. -/
theorem takeWhile_digits (n : Nat) {c : Char} (hc : ¬ IsDigit c) (cs : List Char) :
    (digits n ++ c :: cs).takeWhile (fun c => decide (IsDigit c)) = digits n := by
  have hdigits : ∀ d ∈ digits n, decide (IsDigit d) = true :=
    fun d hd => decide_eq_true (isDigit_of_mem_digits hd)
  rw [List.takeWhile_append_of_pos hdigits, List.takeWhile_cons, if_neg (by simp [hc]),
    List.append_nil]

/-- Two texts that begin with numerals are the same only if the numbers are, and what follows. -/
theorem digits_append_inj {m n : Nat} {c : Char} (hc : ¬ IsDigit c) {cs ds : List Char}
    (h : digits m ++ c :: cs = digits n ++ c :: ds) : m = n ∧ cs = ds := by
  have hnumerals : digits m = digits n := by
    rw [← takeWhile_digits m hc cs, h, takeWhile_digits n hc ds]
  rw [hnumerals] at h
  exact ⟨digits_injective hnumerals, (List.cons.inj (List.append_cancel_left h)).2⟩

end Decimal

theorem Duration.millis_eq (d : Duration) : d.millis = d.secs * 1000 + d.subsec / 1000000 := by
  unfold millis secs subsec
  omega

namespace Event

theorem after_eq_mk (d : Duration) (state : String) :
    after d state = ⟨"machine.after(" ++ toString d.millis ++ ")#" ++ state, .null⟩ := by
  have hnumeral : String.ofList (Decimal.digits d.millis) = toString d.millis := by
    rw [Decimal.digits_eq_toDigits]
    exact Nat.repr_eq_ofList_toDigits.symm
  rw [← hnumeral]
  rfl

theorem toList_kind_after (d : Duration) (state : String) :
    (after d state).kind.toList =
      "machine.after(".toList ++ (Decimal.digits d.millis ++ ')' :: '#' :: state.toList) := by
  have hnumeral : (toString d.millis).toList = Decimal.digits d.millis := by
    rw [Decimal.digits_eq_toDigits]
    exact Nat.toList_repr
  rw [after_eq_mk, String.toList_append, String.toList_append, String.toList_append, hnumeral,
    List.append_assoc, List.append_assoc]
  rfl

theorem toList_kind_always (state : String) :
    (always state).kind.toList = "machine.always#".toList ++ state.toList :=
  String.toList_append

theorem after_eq_after_iff {d₁ d₂ : Duration} {s₁ s₂ : String} :
    after d₁ s₁ = after d₂ s₂ ↔ s₁ = s₂ ∧ d₁.millis = d₂.millis := by
  constructor
  · intro h
    have hkind := congrArg (fun e => e.kind.toList) h
    simp only [toList_kind_after] at hkind
    obtain ⟨hmillis, hrest⟩ :=
      Decimal.digits_append_inj (by decide) (List.append_cancel_left hkind)
    exact ⟨String.toList_injective (List.cons.inj hrest).2, hmillis⟩
  · rintro ⟨rfl, hmillis⟩
    rw [after_eq_mk, after_eq_mk, hmillis]

theorem always_eq_always_iff {s₁ s₂ : String} : always s₁ = always s₂ ↔ s₁ = s₂ := by
  constructor
  · intro h
    have hkind := congrArg (fun e => e.kind.toList) h
    simp only [toList_kind_always] at hkind
    exact String.toList_injective (List.append_cancel_left hkind)
  · rintro rfl
    rfl

/-- Events differ if one letter of their kinds does. -/
theorem ne_of_letter {e f : Event} (n : Nat) (h : e.kind.toList[n]? ≠ f.kind.toList[n]?) : e ≠ f := by
  rintro rfl
  exact h rfl

theorem start_ne_after (d : Duration) (state : String) : start ≠ after d state := by
  refine ne_of_letter 8 ?_
  rw [toList_kind_after]
  exact (by decide : some 's' ≠ some 'a')

theorem start_ne_always (state : String) : start ≠ always state := by
  refine ne_of_letter 8 ?_
  rw [toList_kind_always]
  exact (by decide : some 's' ≠ some 'a')

theorem after_ne_always (d : Duration) (s t : String) : after d s ≠ always t := by
  refine ne_of_letter 9 ?_
  rw [toList_kind_after, toList_kind_always]
  exact (by decide : some 'f' ≠ some 'l')

/-- No two of the events that a machine makes itself are the same, but for those of one state after
delays of as many whole milliseconds. The milliseconds are counted to the last one, and their number
stands in the kind as it is usually written, whatever the length of the delay. -/
theorem origins_apart :
    (∀ d₁ d₂ s₁ s₂, after d₁ s₁ = after d₂ s₂ ↔ s₁ = s₂ ∧ d₁.millis = d₂.millis) ∧
    (∀ s₁ s₂, always s₁ = always s₂ ↔ s₁ = s₂) ∧
    (∀ d s, start ≠ after d s) ∧ (∀ s, start ≠ always s) ∧ (∀ d s t, after d s ≠ always t) ∧
    (∀ d : Duration, d.millis = d.secs * 1000 + d.subsec / 1000000) ∧
    (∀ d s, (after d s).kind = "machine.after(" ++ toString d.millis ++ ")#" ++ s) :=
  ⟨fun _ _ _ _ => after_eq_after_iff, fun _ _ => always_eq_always_iff, start_ne_after,
    start_ne_always, after_ne_always, Duration.millis_eq,
    fun d s => congrArg kind (after_eq_mk d s)⟩

/-- The longest delay has more milliseconds than fit in 64 bits. -/
example : (⟨18446744073709551615999999999, by decide⟩ : Duration).millis =
    18446744073709551615999 := rfl

end Event
end TimedMachine

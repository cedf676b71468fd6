import Mathlib.Algebra.GroupWithZero.Nat
import TimedMachine.Instant

/-!
The calendar is a numbering of the days. The years tile the days without gap or overlap
(`daysBefore_succ`, `mem_yearOf`), and the months of a year tile the days of the year
(`exists_monthDay`). So a day has a date in the calendar, and the number of that date is the day again
(`valid_ofDays`, `toDays_ofDays`).
-/
namespace TimedMachine.Date

theorem daysBefore_succ (year : Int) :
    daysBefore (year + 1) = daysBefore year + if isLeap year then 366 else 365 := by
  unfold daysBefore isLeap
  simp only [Bool.and_eq_true, Bool.or_eq_true, decide_eq_true_eq]
  split <;> omega

theorem sum_monthLengths (year : Int) :
    (monthLengths year).sum = if isLeap year then 366 else 365 := by
  unfold monthLengths
  split <;> rfl

theorem length_monthLengths (year : Int) : (monthLengths year).length = 12 := rfl

theorem le_of_mem_monthLengths {year : Int} {length : Nat} (h : length ∈ monthLengths year) :
    length ≤ 31 := by
  simp only [monthLengths, List.mem_cons, List.not_mem_nil, or_false] at h
  split at h <;> omega

/-- A day is in its year. -/
theorem mem_yearOf (days : Int) :
    daysBefore (yearOf days) ≤ days ∧ days < daysBefore (yearOf days + 1) := by
  -- By the mean length of a year the day is in the guessed year, in the one before or in the one
  -- after, wherever the leap years lie.
  have hguess : daysBefore (400 * days / 146097) ≤ days ∧
      days < daysBefore (400 * days / 146097 + 3) := by
    unfold daysBefore
    omega
  unfold yearOf
  dsimp only
  split
  · rename_i hbefore
    rw [Int.add_sub_cancel]
    exact ⟨hguess.1, hbefore⟩
  · split
    · rename_i hafter
      have hnext : 400 * days / 146097 + 1 + 1 + 1 = 400 * days / 146097 + 3 := by omega
      exact ⟨hafter, hnext ▸ hguess.2⟩
    · omega

/-- A day of the year is in one of its months, after the months that come first. -/
theorem exists_monthDay {lengths : List Nat} {n : Nat} (month : Nat) (h : n < lengths.sum) :
    ∃ k, ∃ length ∈ lengths[k]?, (lengths.take k).sum ≤ n ∧ n < (lengths.take k).sum + length ∧
      monthDay month lengths n = (month + k, n - (lengths.take k).sum + 1) := by
  induction lengths generalizing n month with
  | nil => simp at h
  | cons first rest ih =>
    rw [List.sum_cons] at h
    rw [monthDay]
    split
    · rename_i hfirst
      exact ⟨0, first, rfl, by simp, by simpa using hfirst, by simp⟩
    · obtain ⟨k, length, hlength, hle, hlt, hday⟩ := ih (n := n - first) (month + 1) (by omega)
      refine ⟨k + 1, length, by simpa using hlength, ?_, ?_, ?_⟩
      · rw [List.take_succ_cons, List.sum_cons]
        omega
      · rw [List.take_succ_cons, List.sum_cons]
        omega
      · rw [hday, List.take_succ_cons, List.sum_cons, Nat.sub_sub]
        congr 1
        omega

/-- The day of its year that a day is. -/
theorem exists_dayOfYear (days : Int) :
    ∃ n : Nat, days = daysBefore (yearOf days) + n ∧ n < (monthLengths (yearOf days)).sum := by
  obtain ⟨hle, hlt⟩ := mem_yearOf days
  rw [daysBefore_succ] at hlt
  refine ⟨(days - daysBefore (yearOf days)).toNat, by omega, ?_⟩
  rw [sum_monthLengths]
  split at hlt <;> rename_i hleap
  · rw [if_pos hleap]
    omega
  · rw [if_neg hleap]
    omega

theorem ofDays_spec (n : Int) : (ofDays n).Valid ∧ (ofDays n).toDays = n := by
  obtain ⟨day, hday, hlt⟩ := exists_dayOfYear (n + 719162)
  obtain ⟨k, length, hlength, hle, hbound, hdate⟩ := exists_monthDay 1 hlt
  have hof : ofDays n = ⟨yearOf (n + 719162), 1 + k,
      day - ((monthLengths (yearOf (n + 719162))).take k).sum + 1⟩ := by
    have htoNat : (n + 719162 - daysBefore (yearOf (n + 719162))).toNat = day := by omega
    unfold ofDays
    simp only [htoNat, hdate]
  have hindex : 1 + k - 1 = k := by omega
  rw [hof]
  refine ⟨⟨Nat.le_add_right 1 k, Nat.le_add_left 1 _, length, by simpa only [hindex] using hlength,
    ?_⟩, ?_⟩
  · show day - ((monthLengths (yearOf (n + 719162))).take k).sum + 1 ≤ length
    omega
  have hsum (lengths : List Nat) : lengths.foldr Nat.add 0 = lengths.sum := rfl
  simp only [toDays, hindex, hsum]
  omega

theorem valid_ofDays (n : Int) : (ofDays n).Valid := (ofDays_spec n).1

theorem toDays_ofDays (n : Int) : (ofDays n).toDays = n := (ofDays_spec n).2

theorem Valid.month_le {d : Date} (h : d.Valid) : d.month ≤ 12 := by
  obtain ⟨hone, _, length, hlength, _⟩ := h
  have hlt := (List.getElem?_eq_some_iff.1 hlength).1
  rw [length_monthLengths] at hlt
  omega

theorem Valid.day_le {d : Date} (h : d.Valid) : d.day ≤ 31 := by
  obtain ⟨_, _, length, hlength, hle⟩ := h
  exact Nat.le_trans hle (le_of_mem_monthLengths (List.mem_of_getElem? hlength))

end TimedMachine.Date

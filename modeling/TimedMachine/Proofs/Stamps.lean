import TimedMachine.Instant.Rfc3339
import TimedMachine.Proofs.Calendar
import Mathlib.Data.List.Induction
import Mathlib.Data.List.TakeWhile

/-!
The reader of instants undoes the writer. Each part of the text is read back with what follows it left
over, so the parts can be read one after the other (`read_written`). What the writer takes apart is
put together again by the calendar: an instant that is read is one that can be written and read again
(`Readable`, `readable_of_read`), and the text of such an instant is read as that instant
(`read_write`).
-/
namespace TimedMachine

namespace Decimal

theorem isBlank_of_isDigit {c : Char} (h : IsDigit c) : Blank.isBlank c = false := by
  have hlow : 48 ≤ c.toNat := h.1
  have hhigh : c.toNat ≤ 57 := h.2
  simp only [Blank.isBlank, Bool.or_eq_false_iff, Bool.and_eq_false_iff, decide_eq_false_iff_not]
  omega

theorem digitValue_lt {c : Char} (h : IsDigit c) : digitValue c < 10 := by
  have hhigh : c.toNat ≤ 57 := h.2
  unfold digitValue
  omega

/-- A numeral is below the power of its width. -/
theorem value_lt {cs : List Char} (h : ∀ c ∈ cs, IsDigit c) : value cs < 10 ^ cs.length := by
  induction cs using List.reverseRecOn with
  | nil => decide
  | append_singleton cs c ih =>
    have hlast := digitValue_lt (h c (by simp))
    have hinit := ih fun d hd => h d (by simp [hd])
    rw [value_concat, List.length_append, List.length_singleton, Nat.pow_succ]
    omega

theorem value_zeros (count : Nat) (cs : List Char) :
    value (List.replicate count '0' ++ cs) = value cs := by
  induction count with
  | zero => rfl
  | succ count ih => rwa [List.replicate_succ, List.cons_append]

theorem digits_ne_nil (n : Nat) : digits n ≠ [] := by
  rw [digits]
  split <;> simp

theorem padded_ne_nil {width : Nat} (h : 0 < width) (n : Nat) : padded width n ≠ [] := by
  cases width with
  | zero => simp at h
  | succ width => simp [padded]

theorem value_padded_of_lt {width n : Nat} (h : n < 10 ^ width) : value (padded width n) = n :=
  (value_padded width n).trans (Nat.mod_eq_of_lt h)

end Decimal

namespace Instant

/-- Text that goes on with something else than a digit. -/
def NoDigitFirst (cs : List Char) : Prop := ∀ c ∈ cs.head?, ¬ Decimal.IsDigit c

theorem skip_cons {c : Char} (h : Blank.isBlank c = false) (cs : List Char) :
    Blank.skip (c :: cs) = c :: cs := by simp [Blank.skip, h]

theorem span_append {ds cs : List Char} (hds : ∀ c ∈ ds, Decimal.IsDigit c) (hcs : NoDigitFirst cs) :
    span (ds ++ cs) = (ds, cs) := by
  have hpos : ∀ c ∈ ds, decide (Decimal.IsDigit c) = true := fun c hc => decide_eq_true (hds c hc)
  unfold span
  rw [List.takeWhile_append_of_pos hpos, List.dropWhile_append_of_pos hpos]
  cases cs with
  | nil => simp
  | cons c cs =>
    have hc : ¬ Decimal.IsDigit c := hcs c rfl
    simp [hc]

theorem span_self {ds : List Char} (hds : ∀ c ∈ ds, Decimal.IsDigit c) : span ds = (ds, []) := by
  have hnil : NoDigitFirst [] := by simp [NoDigitFirst]
  simpa using span_append hds hnil

theorem isDigit_of_mem_span {cs : List Char} {c : Char} (h : c ∈ (span cs).1) :
    Decimal.IsDigit c := by
  have hdigit := List.mem_takeWhile_imp (p := fun c => decide (Decimal.IsDigit c)) h
  exact of_decide_eq_true hdigit

theorem skip_append {ds : List Char} (hne : ds ≠ []) (hds : ∀ c ∈ ds, Decimal.IsDigit c)
    (cs : List Char) : Blank.skip (ds ++ cs) = ds ++ cs := by
  cases ds with
  | nil => exact absurd rfl hne
  | cons d ds => exact skip_cons (Decimal.isBlank_of_isDigit (hds d (by simp))) _

/-- A numeral of full width is read and no more. -/
theorem number_padded {width n : Nat} (hwidth : 0 < width) (hn : n < 10 ^ width) (cs : List Char) :
    number width (Decimal.padded width n ++ cs) = some (n, cs) := by
  have hdigits (c : Char) (hc : c ∈ Decimal.padded width n) := Decimal.isDigit_of_mem_padded hc
  have hlength := Decimal.length_padded width n
  have hne := Decimal.padded_ne_nil hwidth n
  have htake : (Decimal.padded width n ++ cs).take width = Decimal.padded width n :=
    List.take_left' hlength
  unfold number
  simp only [skip_append hne hdigits, htake, span_self hdigits, List.isEmpty_eq_false_iff.2 hne,
    Decimal.value_padded_of_lt hn, hlength, List.drop_left' hlength, Bool.false_eq_true, if_false]

theorem mark_cons {c : Char} (h : Blank.isBlank c = false) (cs : List Char) :
    mark c (c :: cs) = some cs := by simp [mark, skip_cons h]

theorem year_cons_of_isDigit {d : Char} (hd : Decimal.IsDigit d) (cs : List Char) :
    year (d :: cs) = (number 4 (d :: cs)).map fun (n, rest) => ((n : Int), rest) := by
  have hskip : Blank.skip (d :: cs) = d :: cs := skip_cons (Decimal.isBlank_of_isDigit hd) cs
  unfold year
  simp only [hskip]
  split
  · rename_i heq
    obtain ⟨rfl, -⟩ := List.cons.inj heq
    exact absurd hd (by decide)
  · rename_i heq
    obtain ⟨rfl, -⟩ := List.cons.inj heq
    exact absurd hd (by decide)
  · rfl

theorem year_padded {n : Nat} (hn : n < 10000) (cs : List Char) :
    year (Decimal.padded 4 n ++ cs) = some ((n : Int), cs) := by
  have hread : number 4 (Decimal.padded 4 n ++ cs) = some (n, cs) :=
    number_padded (by decide) hn cs
  cases hds : Decimal.padded 4 n with
  | nil => simpa using congrArg List.length hds
  | cons d ds =>
    have hd : Decimal.IsDigit d := Decimal.isDigit_of_mem_padded (hds ▸ List.mem_cons_self)
    rw [hds, List.cons_append] at hread
    rw [List.cons_append, year_cons_of_isDigit hd, hread, Option.map_some]

/-- A sign is followed by as many digits as there are. -/
theorem year_signed {ds cs : List Char} (hne : ds ≠ []) (hds : ∀ c ∈ ds, Decimal.IsDigit c)
    (hcs : NoDigitFirst cs) :
    year ('-' :: (ds ++ cs)) = some (-(Decimal.value ds : Int), cs) ∧
      year ('+' :: (ds ++ cs)) = some ((Decimal.value ds : Int), cs) := by
  have hfull : ds.isEmpty = false := List.isEmpty_eq_false_iff.2 hne
  have hminus : Blank.skip ('-' :: (ds ++ cs)) = '-' :: (ds ++ cs) := skip_cons (by decide) _
  have hplus : Blank.skip ('+' :: (ds ++ cs)) = '+' :: (ds ++ cs) := skip_cons (by decide) _
  constructor
  · simp only [year, hminus, span_append hds hcs, hfull, Bool.false_eq_true, if_false,
      Int.neg_one_mul]
  · simp only [year, hplus, span_append hds hcs, hfull, Bool.false_eq_true, if_false, Int.one_mul]

theorem year_yearDigits {y : Int} {cs : List Char} (hcs : NoDigitFirst cs) :
    year (yearDigits y ++ cs) = some (y, cs) := by
  unfold yearDigits
  split
  · rw [year_padded (by omega), Int.toNat_of_nonneg (by omega)]
  · -- The leading zeros of a signed year are read as part of the number.
    let ds := List.replicate (4 - (Decimal.digits y.natAbs).length) '0' ++ Decimal.digits y.natAbs
    have hds : ∀ c ∈ ds, Decimal.IsDigit c := by
      intro c hc
      rcases List.mem_append.1 hc with hc | hc
      · rw [List.eq_of_mem_replicate hc]
        decide
      · exact Decimal.isDigit_of_mem_digits hc
    have hne : ds ≠ [] := List.append_ne_nil_of_right_ne_nil _ (Decimal.digits_ne_nil _)
    have hvalue : Decimal.value ds = y.natAbs := by
      rw [Decimal.value_zeros, Decimal.value_digits]
    obtain ⟨hminus, hplus⟩ := year_signed hne hds hcs
    rw [hvalue] at hminus hplus
    show year ((if y < 0 then '-' else '+') :: (ds ++ cs)) = some (y, cs)
    split
    · rw [hminus]
      congr 2
      omega
    · rw [hplus]
      congr 2
      omega

theorem fraction_padded {width n : Nat} (hwidth : 0 < width) (hle : width ≤ 9) (hn : n < 10 ^ width)
    {cs : List Char} (hcs : NoDigitFirst cs) :
    fraction ('.' :: (Decimal.padded width n ++ cs)) = some (n * 10 ^ (9 - width), cs) := by
  have hdigits (c : Char) (hc : c ∈ Decimal.padded width n) := Decimal.isDigit_of_mem_padded hc
  have hlength := Decimal.length_padded width n
  have hne := Decimal.padded_ne_nil hwidth n
  have htake : (Decimal.padded width n).take 9 = Decimal.padded width n :=
    List.take_of_length_le (by omega)
  simp only [fraction, span_append hdigits hcs, List.isEmpty_eq_false_iff.2 hne, htake,
    Decimal.value_padded_of_lt hn, hlength, Bool.false_eq_true, if_false]
  rfl

theorem fraction_fractionDigits {n : Nat} (hn : n < 1000000000) (cs : List Char) :
    fraction (fractionDigits n ++ 'Z' :: cs) = some (n, 'Z' :: cs) := by
  have hz : NoDigitFirst ('Z' :: cs) := by
    rintro c ⟨⟩
    decide
  unfold fractionDigits
  split
  · rename_i h
    rw [h]
    rfl
  · split
    · rw [List.cons_append, fraction_padded (by decide) (by decide) (by omega) hz]
      congr 2
      omega
    · split
      · rw [List.cons_append, fraction_padded (by decide) (by decide) (by omega) hz]
        congr 2
        omega
      · rw [List.cons_append, fraction_padded (by decide) (by decide) (by omega) hz]
        congr 2
        omega

theorem offset_Z (cs : List Char) : offset ('Z' :: cs) = some (0, cs) := by
  have hskip : Blank.skip ('Z' :: cs) = 'Z' :: cs := skip_cons (by decide) cs
  simp only [offset, hskip]

/-- The text after the mark between a date and a time. -/
def separated : List Char → Option (List Char)
  | c :: rest => if c = 'T' ∨ c = 't' ∨ c = ' ' then some rest else none
  | [] => none

/-- The rest of what is read, after a date. -/
def readTime (date : Date) (cs : List Char) : Option Instant := do
  let (hour, cs) ← number 2 cs
  let cs ← mark ':' cs
  let (minute, cs) ← number 2 cs
  let cs ← mark ':' cs
  let (second, cs) ← number 2 cs
  let (nanos, cs) ← fraction cs
  let (offset, cs) ← offset cs
  if (Blank.skip cs).isEmpty then ofParts? date hour minute second nanos offset else none

theorem read_eq (cs : List Char) :
    read cs = (year cs).bind fun y => (mark '-' y.2).bind fun cs => (number 2 cs).bind fun m =>
      (mark '-' m.2).bind fun cs => (number 2 cs).bind fun d =>
        (separated d.2).bind fun cs => readTime ⟨y.1, m.1, d.1⟩ cs := by
  refine Option.bind_congr fun y _ => Option.bind_congr fun _ _ => Option.bind_congr fun m _ =>
    Option.bind_congr fun _ _ => Option.bind_congr fun d _ => ?_
  obtain ⟨day, rest⟩ := d
  cases rest with
  | nil => rfl
  | cons c rest =>
    by_cases hc : c = 'T' ∨ c = 't' ∨ c = ' '
    · simp only [separated, if_pos hc]
      rfl
    · simp only [separated, if_neg hc]
      rfl

/-- What stands in a text part after part is read part after part. -/
theorem read_written {y : Int} {month day hour minute second nanos : Nat} (hmonth : month < 100)
    (hday : day < 100) (hhour : hour < 100) (hminute : minute < 100) (hsecond : second < 100)
    (hnanos : nanos < 1000000000) :
    read (yearDigits y ++ '-' :: Decimal.padded 2 month ++ '-' :: Decimal.padded 2 day ++
      'T' :: Decimal.padded 2 hour ++ ':' :: Decimal.padded 2 minute ++
      ':' :: Decimal.padded 2 second ++ fractionDigits nanos ++ ['Z']) =
      ofParts? ⟨y, month, day⟩ hour minute second nanos 0 := by
  have hdash (cs : List Char) : mark '-' ('-' :: cs) = some cs := mark_cons (by decide) cs
  have hcolon (cs : List Char) : mark ':' (':' :: cs) = some cs := mark_cons (by decide) cs
  have hnumber {n : Nat} (hn : n < 100) (cs : List Char) :
      number 2 (Decimal.padded 2 n ++ cs) = some (n, cs) := number_padded (by decide) hn cs
  have hyear (cs : List Char) : year (yearDigits y ++ '-' :: cs) = some (y, '-' :: cs) :=
    year_yearDigits (by rintro c ⟨⟩; decide)
  have hseparated (cs : List Char) : separated ('T' :: cs) = some cs := rfl
  simp only [read_eq, List.append_assoc, List.cons_append, hyear, hdash, hnumber hmonth,
    hnumber hday, hseparated, Option.bind_some]
  simp only [readTime, hcolon, hnumber hhour, hnumber hminute, hnumber hsecond,
    fraction_fractionDigits hnanos, offset_Z, Option.bind_eq_bind, Option.bind_some]
  rfl

/-- What the reader can have found: a date in its range, and a leap second only at the end of a
minute. -/
structure Readable (i : Instant) : Prop where
  inRange : i.date.InRange
  nanos : i.nanos < 1000000000 ∨ (i.nanos < 2000000000 ∧ i.secs % 60 = 59)

/-- An instant of the years with four digits that is in no leap second. -/
theorem readable_of_plain {i : Instant} (hyear : 0 ≤ i.date.year ∧ i.date.year ≤ 9999)
    (hnanos : i.nanos < 1000000000) : i.Readable :=
  ⟨⟨by omega, by omega⟩, .inl hnanos⟩

theorem secondOfDay_eq (i : Instant) : (i.secondOfDay : Int) = i.secs % 86400 := by
  unfold secondOfDay
  omega

/-- The parts that are written name the instant, in a leap second as well as in any other. -/
theorem ofParts?_written {i : Instant} {second nanos : Nat} (hrange : i.date.InRange)
    (h : (i.secondOfDay % 60 = 59 ∧ second = 60 ∧ i.nanos = nanos + 1000000000) ∨
      (second = i.secondOfDay % 60 ∧ i.nanos = nanos)) :
    ofParts? i.date (i.secondOfDay / 3600) (i.secondOfDay / 60 % 60) second nanos 0 = some i := by
  have hdays : i.date.toDays = i.secs / 86400 := Date.toDays_ofDays _
  have hsecs := i.secondOfDay_eq
  have htime : (i.secondOfDay / 3600 * 3600 + i.secondOfDay / 60 % 60 * 60 +
      if second = 60 then 59 else second) = i.secondOfDay := by
    split <;> omega
  have hnanos : (if second = 60 then nanos + 1000000000 else nanos) = i.nanos := by
    split <;> omega
  have hwhole : i.date.toDays * 86400 + (i.secondOfDay : Int) - 0 = i.secs := by omega
  unfold ofParts?
  rw [if_pos ⟨Date.valid_ofDays _, hrange, by omega, by omega, by omega, by decide⟩]
  simp only [htime, hnanos, hwhole, hrange, if_true]

/-- The text of an instant is read as this instant. -/
theorem read_write {i : Instant} (h : i.Readable) : read i.write = some i := by
  have hmonth := (Date.valid_ofDays (i.secs / 86400)).month_le
  have hday := (Date.valid_ofDays (i.secs / 86400)).day_le
  have hsecs := i.secondOfDay_eq
  rw [← date] at hmonth hday
  unfold write
  dsimp only
  split
  · rename_i hleap
    have hminute : i.secondOfDay % 60 = 59 := by
      rcases h.nanos with hnanos | hnanos <;> omega
    have hnanos : i.nanos - 1000000000 < 1000000000 := by
      rcases h.nanos with hnanos | hnanos <;> omega
    rw [read_written (by omega) (by omega) (by omega) (by omega) (by omega) hnanos]
    exact ofParts?_written h.inRange (.inl ⟨hminute, by omega, by omega⟩)
  · rename_i hplain
    rw [read_written (by omega) (by omega) (by omega) (by omega) (by omega) (by omega)]
    exact ofParts?_written h.inRange (.inr ⟨rfl, rfl⟩)

theorem ofText?_text {i : Instant} (h : i.Readable) : ofText? i.text = some i := by
  rw [ofText?, text, String.toList_ofList]
  exact read_write h

theorem nanos_of_fraction {cs rest : List Char} {nanos : Nat} (h : fraction cs = some (nanos, rest)) :
    nanos < 1000000000 := by
  unfold fraction at h
  split at h
  · rename_i digits
    dsimp only at h
    split at h
    · cases h
    · obtain ⟨rfl, -⟩ := Prod.mk.inj (Option.some.inj h)
      have hdigits : ∀ c ∈ ((span digits).1).take 9, Decimal.IsDigit c :=
        fun c hc => isDigit_of_mem_span (List.mem_of_mem_take hc)
      have hlt := Decimal.value_lt hdigits
      have hlength : (((span digits).1).take 9).length ≤ 9 := List.length_take_le _ _
      calc Decimal.value (((span digits).1).take 9) *
            Nat.pow 10 (9 - (((span digits).1).take 9).length)
          < 10 ^ (((span digits).1).take 9).length *
            10 ^ (9 - (((span digits).1).take 9).length) :=
            Nat.mul_lt_mul_of_pos_right hlt (Nat.pow_pos (by decide))
        _ = 1000000000 := by
            rw [← Nat.pow_add, Nat.add_sub_cancel' hlength]
  · obtain ⟨rfl, -⟩ := Prod.mk.inj (Option.some.inj h)
    decide

/-- An offset is of whole minutes. -/
theorem minutes_of_offset {cs rest : List Char} {secs : Int} (h : offset cs = some (secs, rest)) :
    secs % 60 = 0 := by
  unfold offset at h
  dsimp only at h
  split at h
  · obtain ⟨rfl, -⟩ := Prod.mk.inj (Option.some.inj h)
    rfl
  · obtain ⟨rfl, -⟩ := Prod.mk.inj (Option.some.inj h)
    rfl
  -- Three signs introduce hours and minutes, which all of them read in the same way.
  iterate 3
    · split at h
      · split at h
        · split at h
          · obtain ⟨rfl, -⟩ := Prod.mk.inj (Option.some.inj h)
            omega
          · cases h
        · cases h
      · cases h
  · split at h
    · obtain ⟨rfl, -⟩ := Prod.mk.inj (Option.some.inj h)
      rfl
    · cases h
  · cases h

theorem readable_of_ofParts? {date : Date} {hour minute second nanos : Nat} {offset : Int}
    {i : Instant} (hnanos : nanos < 1000000000) (hoffset : offset % 60 = 0)
    (h : ofParts? date hour minute second nanos offset = some i) : i.Readable := by
  unfold ofParts? at h
  split at h
  · dsimp only at h
    by_cases hleap : second = 60
    · simp only [hleap, if_true] at h
      split at h
      · rename_i hrange
        obtain rfl := Option.some.inj h
        refine ⟨hrange, .inr ⟨?_, ?_⟩⟩
        · dsimp only
          omega
        · dsimp only
          omega
      · cases h
    · simp only [hleap, if_false] at h
      split at h
      · rename_i hrange
        obtain rfl := Option.some.inj h
        exact ⟨hrange, .inl hnanos⟩
      · cases h
  · cases h

theorem readable_of_read {cs : List Char} {i : Instant} (h : read cs = some i) : i.Readable := by
  simp only [read_eq, Option.bind_eq_some_iff] at h
  obtain ⟨_, -, _, -, _, -, _, -, _, -, _, -, h⟩ := h
  simp only [readTime, Option.bind_eq_bind, Option.bind_eq_some_iff] at h
  obtain ⟨_, -, _, -, _, -, _, -, _, -, ⟨_, _⟩, hfraction, ⟨_, _⟩, hoffset, h⟩ := h
  split at h
  · exact readable_of_ofParts? (nanos_of_fraction hfraction) (minutes_of_offset hoffset) h
  · cases h

end Instant
end TimedMachine

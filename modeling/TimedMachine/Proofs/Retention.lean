import Mathlib.Data.List.DropRight
import Mathlib.Data.List.Induction
import TimedMachine.History

/-!
What a history keeps of the records that are pushed to it. It may hold more records than its limit to
begin with, as one that was read from elsewhere can; the first push brings it down to the limit, and
the others keep it there. So after any number of pushes it holds the last of all the records, the old
ones and the new, as many as the limit allows (`retains_foldl_push`).
-/
namespace TimedMachine

theorem Queue.size_tail {α : Type} (q : Queue α) : q.tail.size = q.size - 1 := by
  unfold tail
  split <;> rfl

namespace History

variable {σ : Type}

/-- As long as the limit is reached, the oldest record leaves before another one joins. -/
theorem push_of_full {h : History σ} (hlimit : h.limit ≠ 0) (hfull : h.limit ≤ h.size)
    (r : Record σ) : h.push r = { h with kept := h.kept.tail }.push r := by
  have htail : h.kept.tail.size = h.size - 1 := h.kept.size_tail
  have hgo : h.size + 1 - h.limit = (h.kept.tail.size + 1 - h.limit) + 1 := by omega
  simp only [push, hlimit, if_false]
  rw [hgo, Queue.drop]
  rfl

theorem push_of_room {h : History σ} (hroom : h.size < h.limit) (r : Record σ) :
    h.push r = { h with kept := h.kept.push r } := by
  have hlimit : h.limit ≠ 0 := by omega
  have hnone : h.size + 1 - h.limit = 0 := by omega
  simp only [push, hlimit, if_false, hnone, Queue.drop]

theorem limit_foldl_push (rs : List (Record σ)) (h : History σ) :
    (rs.foldl push h).limit = h.limit := by
  induction rs generalizing h with
  | nil => rfl
  | cons r rest ih => rw [List.foldl_cons, ih, limit_push]

theorem foldl_push_of_limit_eq_zero {h : History σ} (hlimit : h.limit = 0) (rs : List (Record σ)) :
    rs.foldl push h = h := by
  induction rs with
  | nil => rfl
  | cons r rest ih => rw [List.foldl_cons, push_of_limit_eq_zero h r hlimit, ih]

/-- One push is enough to bring a history down to its limit, however many records it held. -/
theorem records_foldl_push_of_ne_nil {h : History σ} (hlimit : h.limit ≠ 0) {rs : List (Record σ)}
    (hrs : rs ≠ []) :
    (rs.foldl push h).records =
      (h.records ++ rs).drop (h.records.length + rs.length - h.limit) := by
  induction rs using List.reverseRecOn with
  | nil => exact absurd rfl hrs
  | append_singleton rs r ih =>
    rw [List.foldl_concat, records_push _ _ (by rwa [limit_foldl_push]), limit_foldl_push,
      List.length_append, List.length_singleton]
    by_cases hfirst : rs = []
    · subst hfirst
      rw [List.foldl_nil, List.nil_append, List.length_nil, Nat.zero_add,
        List.drop_append_of_le_length (by omega)]
    · have hlength : (rs.foldl push h).records.length =
          h.records.length + rs.length - (h.records.length + rs.length - h.limit) := by
        rw [ih hfirst, List.length_drop, List.length_append]
      have hgone : h.records.length + rs.length - h.limit +
          ((rs.foldl push h).records.length + 1 - h.limit) =
            h.records.length + (rs.length + 1) - h.limit := by omega
      have hle : h.records.length + (rs.length + 1) - h.limit ≤ (h.records ++ rs).length := by
        rw [List.length_append]
        omega
      rw [ih hfirst, List.drop_drop, ← ih hfirst, hgone, ← List.append_assoc,
        List.drop_append_of_le_length hle]

/-- Of all records pushed to an empty history the last are kept, up to the limit. -/
theorem records_foldl_push {h : History σ} (hempty : h.records = []) (rs : List (Record σ)) :
    (rs.foldl push h).records = rs.drop (rs.length - h.limit) := by
  by_cases hrs : rs = []
  · simp [hrs, hempty]
  by_cases hlimit : h.limit = 0
  · simp [foldl_push_of_limit_eq_zero hlimit, hlimit, hempty]
  · simp [records_foldl_push_of_ne_nil hlimit hrs, hempty]

/-- What has become of a history to which records were pushed. -/
structure Retains (h : History σ) (rs : List (Record σ)) (r : History σ) : Prop where
  limit : r.limit = h.limit
  /-- A limit of zero keeps everything out, and what was there stays. -/
  closed : h.limit = 0 → r.records = h.records
  latest : h.limit ≠ 0 → rs ≠ [] →
    r.records = (h.records ++ rs).rtake (min h.limit (h.size + rs.length))
  bounded : h.limit ≠ 0 → rs ≠ [] → r.size ≤ h.limit
  last : h.limit ≠ 0 → rs ≠ [] → r.records.getLast? = rs.getLast?

theorem retains_foldl (h : History σ) (rs : List (Record σ)) : Retains h rs (rs.foldl push h) := by
  have hdropped (hlimit : h.limit ≠ 0) (hrs : rs ≠ []) := records_foldl_push_of_ne_nil hlimit hrs
  constructor
  case limit => exact limit_foldl_push rs h
  case closed =>
    intro hlimit
    rw [foldl_push_of_limit_eq_zero hlimit]
  case latest =>
    intro hlimit hrs
    rw [hdropped hlimit hrs, List.rtake, List.length_append, length_records]
    congr 1
    omega
  case bounded =>
    intro hlimit hrs
    rw [← length_records, hdropped hlimit hrs, List.length_drop, List.length_append]
    omega
  case last =>
    intro hlimit hrs
    have hlength : 0 < rs.length := List.length_pos_iff.2 hrs
    rw [hdropped hlimit hrs, List.getLast?_drop, if_neg (by rw [List.length_append]; omega),
      List.getLast?_append_of_ne_nil _ hrs]

/-- The states that the records of a history lead through. -/
structure LeadsThrough (h : History σ) (states : List String) : Prop where
  empty : states = [] ↔ h.records = []
  through : ∀ first rest, h.records = first :: rest →
    states = first.source :: h.records.map Record.target
  length : h.records ≠ [] → states.length = h.size + 1

theorem leadsThrough_path (h : History σ) : LeadsThrough h h.path := by
  unfold path
  cases hrecords : h.records with
  | nil => exact ⟨by simp [hrecords], by simp [hrecords], by simp [hrecords]⟩
  | cons first rest =>
    refine ⟨by simp [hrecords], ?_, fun _ => ?_⟩
    · intro other more hother
      rw [hother] at hrecords
      rw [hother, (List.cons.inj hrecords).1, (List.cons.inj hrecords).2]
    · rw [← length_records, hrecords]
      simp

/-- Whatever a history holds, also if it is more than its limit: records that are pushed to it one
after another leave it with the last of all, in their order and never more than the limit, and a limit
of zero leaves it as it is. A push lets the oldest records go one by one until there is room. The path
starts where the first record that is kept does, and goes to where each one ends. -/
theorem retains_foldl_push (h : History σ) (rs : List (Record σ)) :
    Retains h rs (rs.foldl push h) ∧
    (∀ r, h.limit ≠ 0 → h.push r =
      if h.limit ≤ h.size then { h with kept := h.kept.tail }.push r
      else { h with kept := h.kept.push r }) ∧
    LeadsThrough h h.path := by
  refine ⟨retains_foldl h rs, fun r hlimit => ?_, leadsThrough_path h⟩
  split
  · rename_i hfull
    exact push_of_full hlimit hfull r
  · rename_i hroom
    exact push_of_room (Nat.lt_of_not_le hroom) r

example (r s t : Record Unit) :
    (push { limit := 2, kept := .ofList [r, r, s] } t).records = [s, t] := rfl

end History
end TimedMachine

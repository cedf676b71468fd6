import Mathlib.Algebra.Order.Field.Power
import Mathlib.Tactic.Linarith
import Mathlib.Tactic.Positivity
import Mathlib.Tactic.Ring
import TimedMachine.Event
import TimedMachine.Proofs.Overlay

/-!
The JSON form of events. Written is an object that holds the kind and, unless it is null, the payload
(`Shows`). Read is more than that: objects with other members or with a payload of null, and the fields
by position (`Tells`). An event comes back from its form, so forms tell events apart; and a value that
was read has its event's form as its normal form (`toJson_faithful`). Numbers in a payload are equal
exactly if they stand for the same number (`beq_iff_value_eq`), and events that are equal in this sense
are those with equal forms.
-/
namespace TimedMachine

namespace Scientific

/-- The number that is meant. -/
def value (x : Scientific) : ℚ :=
  (if x.negative then -1 else 1) * (x.coefficient * 10 ^ x.exponent)

variable {x y : Scientific}

theorem magnitude_pos (h : x.coefficient ≠ 0) : (0 : ℚ) < x.coefficient * 10 ^ x.exponent := by
  have hcoefficient : (0 : ℚ) < x.coefficient := Nat.cast_pos.2 (Nat.pos_of_ne_zero h)
  positivity

theorem value_eq_zero_iff : x.value = 0 ↔ x.coefficient = 0 := by
  by_cases h : x.coefficient = 0
  · simp [value, h]
  · have hpos := magnitude_pos h
    by_cases hsign : x.negative = true <;> simp [value, hsign, h, hpos.ne']

/-- No multiple of ten is left in the coefficient for a larger exponent. -/
theorem exponent_le {m n : Nat} {i j : Int} (hm : m % 10 ≠ 0)
    (h : (m : ℚ) * 10 ^ i = n * 10 ^ j) : j ≤ i := by
  by_contra hlt
  obtain ⟨k, hk⟩ : ∃ k : Nat, j = i + (k + 1) := ⟨(j - i - 1).toNat, by omega⟩
  have hten : (10 : ℚ) ^ i ≠ 0 := (zpow_pos (by norm_num) i).ne'
  have hcast : (m : ℚ) = ((n * 10 ^ k * 10 : Nat) : ℚ) := by
    apply mul_right_cancel₀ hten
    have hsplit : (10 : ℚ) ^ j = 10 ^ i * (10 ^ k * 10) := by
      rw [hk, zpow_add₀ (by norm_num), zpow_add₀ (by norm_num), zpow_natCast, zpow_one]
    rw [h, hsplit]
    push_cast
    ring
  have hdvd : m = n * 10 ^ k * 10 := Nat.cast_injective hcast
  omega

theorem eq_of_value_eq (h : x.value = y.value) (hx : x.coefficient ≠ 0)
    (hy : y.coefficient ≠ 0) : x = y := by
  have hsign : x.negative = y.negative := by
    have hxpos := magnitude_pos hx
    have hypos := magnitude_pos hy
    unfold value at h
    cases hxs : x.negative with
    | false =>
      cases hys : y.negative with
      | false => rfl
      | true =>
        simp only [hxs, hys, Bool.false_eq_true, if_false, if_true] at h
        linarith
    | true =>
      cases hys : y.negative with
      | false =>
        simp only [hxs, hys, Bool.false_eq_true, if_false, if_true] at h
        linarith
      | true => rfl
  have hmagnitude : (x.coefficient : ℚ) * 10 ^ x.exponent = y.coefficient * 10 ^ y.exponent := by
    have hunit : (if y.negative then -1 else 1 : ℚ) ≠ 0 := by split <;> norm_num
    rw [value, value, hsign] at h
    exact mul_left_cancel₀ hunit h
  have hxten : x.coefficient % 10 ≠ 0 := x.shortest.resolve_left fun hz => hx hz.1
  have hyten : y.coefficient % 10 ≠ 0 := y.shortest.resolve_left fun hz => hy hz.1
  have hexponent : x.exponent = y.exponent :=
    le_antisymm (exponent_le hyten hmagnitude.symm) (exponent_le hxten hmagnitude)
  have hcoefficient : x.coefficient = y.coefficient := by
    have hten : (10 : ℚ) ^ y.exponent ≠ 0 := (zpow_pos (by norm_num) _).ne'
    rw [hexponent] at hmagnitude
    exact Nat.cast_injective (mul_right_cancel₀ hten hmagnitude)
  obtain ⟨_, _, _, _⟩ := x
  obtain ⟨_, _, _, _⟩ := y
  simp_all

theorem beq_iff : (x == y) = true ↔ x = y ∨ (x.coefficient = 0 ∧ y.coefficient = 0) := by
  simp [BEq.beq]

/-- Numbers are equal if they stand for the same number, whatever the sign of zero. -/
theorem beq_iff_value_eq : (x == y) = true ↔ x.value = y.value := by
  rw [beq_iff]
  constructor
  · intro h
    cases h with
    | inl h => rw [h]
    | inr h => rw [value_eq_zero_iff.2 h.1, value_eq_zero_iff.2 h.2]
  · intro h
    by_cases hx : x.coefficient = 0
    · exact .inr ⟨hx, value_eq_zero_iff.1 (h ▸ value_eq_zero_iff.2 hx)⟩
    · have hy : y.coefficient ≠ 0 := fun hy =>
        hx (value_eq_zero_iff.1 (h.trans (value_eq_zero_iff.2 hy)))
      exact .inl (eq_of_value_eq h hx hy)

example : (⟨true, 0, 0, by decide⟩ : Scientific) == ⟨false, 0, 0, by decide⟩ := by decide

end Scientific

namespace Event

/-- What is found in the form of an event. -/
structure Shows (json : Json) (e : Event) : Prop where
  object : json.IsObject
  kind : json.member? "type" = some (.str e.kind)
  payload : json.member? "payload" = if e.payload = .null then none else some e.payload
  other : ∀ key, key ≠ "type" → key ≠ "payload" → json.member? key = none

/-- The values that tell of an event, and of which one. -/
inductive Tells : Json → Event → Prop
  | object {members : List (String × Json)} {kind : String}
      (hkind : members.lookup "type" = some (.str kind)) :
      Tells (.obj members) ⟨kind, (members.lookup "payload").getD .null⟩
  | kind (kind : String) : Tells (.arr [.str kind]) ⟨kind, .null⟩
  | pair (kind : String) (payload : Json) : Tells (.arr [.str kind, payload]) ⟨kind, payload⟩

/-- The form of the event that a value tells of. -/
def normal? (json : Json) : Option Json := (ofJson? json).map toJson

theorem toJson_of_eq_null {e : Event} (h : e.payload = .null) :
    e.toJson = .obj [("type", .str e.kind)] := by
  have hkeys : ["type"].Pairwise (· < ·) := by decide
  rw [toJson, if_pos h]
  exact Json.ofMembers_of_ordered hkeys

theorem toJson_of_ne_null {e : Event} (h : e.payload ≠ .null) :
    e.toJson = .obj [("payload", e.payload), ("type", .str e.kind)] := by
  have hkeys : ["payload", "type"].Pairwise (· < ·) := by decide
  rw [toJson, if_neg h]
  exact Json.ofMembers_of_ordered hkeys

theorem shows_toJson (e : Event) : Shows e.toJson e := by
  by_cases h : e.payload = .null
  · rw [toJson_of_eq_null h]
    refine ⟨trivial, rfl, by rw [if_pos h]; rfl, fun key hkind _ => ?_⟩
    exact List.lookup_eq_none_iff.2 (by simp [hkind])
  · rw [toJson_of_ne_null h]
    refine ⟨trivial, rfl, by rw [if_neg h]; rfl, fun key hkind hpayload => ?_⟩
    exact List.lookup_eq_none_iff.2 (by simp [hkind, hpayload])

theorem canonical_toJson_iff (e : Event) : e.toJson.Canonical ↔ e.payload.Canonical := by
  by_cases h : e.payload = .null
  · rw [toJson_of_eq_null h, h]
    refine ⟨fun _ => .null, fun _ => .obj (List.pairwise_singleton _ _) ?_⟩
    simp [Json.Canonical.str]
  · rw [toJson_of_ne_null h]
    constructor
    · intro hform
      cases hform with
      | obj _ heach => exact heach _ List.mem_cons_self
    · intro hpayload
      have hkeys : ("payload" : String) < "type" := by decide
      exact .obj (List.pairwise_pair.2 hkeys) (by simp [hpayload, Json.Canonical.str])

theorem ofJson?_eq_some_iff {json : Json} {e : Event} : ofJson? json = some e ↔ Tells json e := by
  constructor
  · intro h
    unfold ofJson? at h
    split at h
    · rename_i members
      simp only [Option.bind_eq_bind, Option.bind_eq_some_iff] at h
      obtain ⟨value, hvalue, kind, hkind, he⟩ := h
      obtain rfl := Option.some.inj he
      cases value with
      | str s =>
        obtain rfl := Option.some.inj hkind
        exact .object hvalue
      | _ => cases hkind
    · obtain rfl := Option.some.inj h
      exact .kind _
    · obtain rfl := Option.some.inj h
      exact .pair _ _
    · cases h
  · intro h
    cases h with
    | object hkind => simp [ofJson?, hkind, Json.str?]
    | kind kind => rfl
    | pair kind payload => rfl

/-- The form of an event tells of it. -/
theorem ofJson?_toJson (e : Event) : ofJson? e.toJson = some e := by
  rw [ofJson?_eq_some_iff]
  obtain ⟨kind, payload⟩ := e
  by_cases h : payload = .null
  · subst h
    exact toJson_of_eq_null (e := ⟨kind, .null⟩) rfl ▸ .object rfl
  · rw [toJson_of_ne_null h]
    exact .object rfl

theorem toJson_eq_iff {e f : Event} : e.toJson = f.toJson ↔ e = f := by
  refine ⟨fun h => ?_, congrArg toJson⟩
  have hread := congrArg ofJson? h
  rw [ofJson?_toJson, ofJson?_toJson] at hread
  exact Option.some.inj hread

theorem null_beq_eq_false {json : Json} (h : json ≠ .null) : (Json.null == json) = false := by
  cases json with
  | null => exact absurd rfl h
  | _ => rfl

theorem beq_null_eq_false {json : Json} (h : json ≠ .null) : (json == Json.null) = false := by
  cases json with
  | null => exact absurd rfl h
  | _ => rfl

theorem beq_eq (e f : Event) : (e == f) = (e.kind == f.kind && e.payload == f.payload) := rfl

@[simp] theorem beq_self (e : Event) : (e == e) = true := by simp [beq_eq]

/-- Forms are equal exactly if the events are. -/
theorem toJson_beq (e f : Event) : (e.toJson == f.toJson) = (e == f) := by
  rw [beq_eq]
  by_cases he : e.payload = .null <;> by_cases hf : f.payload = .null
  · rw [toJson_of_eq_null he, toJson_of_eq_null hf, he, hf]
    calc (_ == _) = ("type" == "type" && e.kind == f.kind && true) := rfl
      _ = (e.kind == f.kind && Json.null == Json.null) := by simp
  · rw [toJson_of_eq_null he, toJson_of_ne_null hf, he, null_beq_eq_false hf, Bool.and_false]
    rfl
  · rw [toJson_of_ne_null he, toJson_of_eq_null hf, hf, beq_null_eq_false he, Bool.and_false]
    rfl
  · rw [toJson_of_ne_null he, toJson_of_ne_null hf]
    calc (_ == _) = ("payload" == "payload" && e.payload == f.payload &&
          ("type" == "type" && e.kind == f.kind && true)) := rfl
      _ = (e.kind == f.kind && e.payload == f.payload) := by simp [Bool.and_comm]

/-- An event is read from its form as it was. The form is an object with a payload exactly if the
payload is not null, and two events with one form are one event; with equal forms they are equal, and
no others are. Every value that tells of an event, and no other, is read, and to write and read again
what was read changes nothing: the form of its event is the normal form of a value, and the normal
form of itself. -/
theorem toJson_faithful :
    (∀ e : Event, ofJson? e.toJson = some e) ∧
    (∀ e : Event, Shows e.toJson e ∧
      (e.toJson.member? "payload" ≠ none ↔ e.payload ≠ .null) ∧
      (e.toJson.Canonical ↔ e.payload.Canonical)) ∧
    (∀ e f : Event, e.toJson = f.toJson ↔ e = f) ∧
    (∀ e f : Event, (e.toJson == f.toJson) = (e == f) ∧ (e == e) = true) ∧
    (∀ json e, ofJson? json = some e ↔ Tells json e) ∧
    (∀ json, (normal? json).bind ofJson? = ofJson? json) ∧
    (∀ json, (normal? json).bind normal? = normal? json) := by
  have hnormal (json : Json) : (normal? json).bind ofJson? = ofJson? json := by
    rw [normal?]
    cases ofJson? json with
    | none => rfl
    | some e => exact ofJson?_toJson e
  refine ⟨ofJson?_toJson, fun e => ⟨shows_toJson e, ?_, canonical_toJson_iff e⟩,
    fun _ _ => toJson_eq_iff, fun e f => ⟨toJson_beq e f, beq_self e⟩,
    fun _ _ => ofJson?_eq_some_iff, hnormal, fun json => ?_⟩
  · rw [(shows_toJson e).payload]
    by_cases h : e.payload = .null <;> simp [h]
  · calc (normal? json).bind normal?
        = ((normal? json).bind ofJson?).map toJson := by rw [Option.map_bind]; rfl
      _ = normal? json := by rw [hnormal]; rfl

example : normal? (.obj [("note", .num 1), ("payload", .null), ("type", .str "go")]) =
    some (.obj [("type", .str "go")]) := rfl

end Event
end TimedMachine

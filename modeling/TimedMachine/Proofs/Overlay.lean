import Mathlib.Data.List.Perm.Basic
import TimedMachine.Json

/-!
Objects laid over one another. What is found under a key of the result is what the upper object has
there, and else what the lower one has (`lookup_overlay`). Members in the order of their keys are
determined by what is found among them (`eq_of_lookup_eq`), so the laws of merging are laws of looking
up: patches compose, a patch is spent after its first use, and no member is touched that the patch does
not name (`merge_composes`).
-/
namespace TimedMachine.Json

/-- The keys come in strictly increasing order, as in an object of a canonical value. -/
def Ordered (ms : List (String × Json)) : Prop := ms.Pairwise fun a b => a.1 < b.1

variable {ms base top upper : List (String × Json)} {key : String} {value : Json}

theorem Ordered.ne_of_mem {m n : String × Json} (h : Ordered (m :: ms)) (hn : n ∈ ms) :
    m.1 ≠ n.1 := by
  intro heq
  have hless := (List.pairwise_cons.1 h).1 n hn
  exact String.lt_irrefl n.1 (heq ▸ hless)

/-- What is found under a key of ordered members is the member that has it. -/
theorem Ordered.lookup_eq_some_iff (h : Ordered ms) :
    ms.lookup key = some value ↔ (key, value) ∈ ms := by
  induction ms with
  | nil => simp
  | cons m rest ih =>
    obtain ⟨k, v⟩ := m
    have hrest := ih (List.pairwise_cons.1 h).2
    rw [List.lookup_cons, List.mem_cons, Prod.mk.injEq]
    by_cases hkey : key = k
    · subst hkey
      have hnot : (key, value) ∉ rest := fun hm => h.ne_of_mem hm rfl
      simp [hnot, eq_comm]
    · simp [beq_false_of_ne hkey, hkey, hrest]

theorem Ordered.nodup (h : Ordered ms) : ms.Nodup := by
  refine h.imp ?_
  rintro m _ hless rfl
  exact String.lt_irrefl m.1 hless

/-- Ordered members among which the same is found under every key are the same. -/
theorem eq_of_lookup_eq {l : List (String × Json)} (hl : Ordered l) (hms : Ordered ms)
    (h : ∀ key, l.lookup key = ms.lookup key) : l = ms := by
  have hmem (m : String × Json) : m ∈ l ↔ m ∈ ms := by
    rw [← hl.lookup_eq_some_iff, h, hms.lookup_eq_some_iff]
  have hperm := (List.perm_ext_iff_of_nodup hl.nodup hms.nodup).2 hmem
  exact hperm.eq_of_pairwise (fun _ _ _ _ hab hba => absurd hba (String.lt_asymm hab)) hl hms

theorem Ordered.putMember (h : Ordered ms) (key : String) (value : Json) :
    Ordered (putMember key value ms) := by
  induction ms with
  | nil => exact List.pairwise_singleton _ _
  | cons m rest ih =>
    obtain ⟨k, v⟩ := m
    obtain ⟨hless, hrest⟩ := List.pairwise_cons.1 h
    rw [Json.putMember]
    split
    · rename_i heq
      exact List.pairwise_cons.2 ⟨fun n hn => heq ▸ hless n hn, hrest⟩
    · rename_i hne
      split
      · rename_i hbefore
        refine List.pairwise_cons.2 ⟨fun n hn => ?_, h⟩
        rcases List.mem_cons.1 hn with rfl | hn
        · exact hbefore
        · exact String.lt_trans hbefore (hless n hn)
      · rename_i hnot
        refine List.pairwise_cons.2 ⟨fun n hn => ?_, ih hrest⟩
        rcases mem_putMember hn with rfl | hn
        · exact Std.lt_of_le_of_ne (String.not_lt.1 hnot) (Ne.symm hne)
        · exact hless n hn

theorem Ordered.overlay (h : Ordered base) (top : List (String × Json)) :
    Ordered (overlay base top) := by
  induction top generalizing base with
  | nil => exact h
  | cons m rest ih => exact ih (h.putMember m.1 m.2)

theorem mem_of_mem_overlay {m : String × Json} (h : m ∈ overlay base top) : m ∈ base ∨ m ∈ top := by
  induction top generalizing base with
  | nil => exact .inl h
  | cons n rest ih =>
    rcases ih h with h | h
    · rcases mem_putMember h with rfl | h
      · exact .inr List.mem_cons_self
      · exact .inl h
    · exact .inr (List.mem_cons_of_mem _ h)

/-- The upper member is found if there is one, and else the lower one. -/
theorem lookup_overlay (htop : Ordered top) (base : List (String × Json)) (key : String) :
    (overlay base top).lookup key = (top.lookup key).or (base.lookup key) := by
  induction top generalizing base with
  | nil => simp
  | cons m rest ih =>
    obtain ⟨k, v⟩ := m
    rw [overlay_cons, ih (List.pairwise_cons.1 htop).2, List.lookup_cons]
    by_cases hkey : key = k
    · subst hkey
      have hnone : rest.lookup key = none := by
        refine List.lookup_eq_none_iff.2 fun n hn => ?_
        simpa using htop.ne_of_mem hn
      simp [hnone, lookup_putMember_self]
    · simp [beq_false_of_ne hkey, lookup_putMember_ne hkey]

theorem overlay_overlay (hbase : Ordered base) (htop : Ordered top) (hupper : Ordered upper) :
    overlay (overlay base top) upper = overlay base (overlay top upper) := by
  refine eq_of_lookup_eq ((hbase.overlay top).overlay upper) (hbase.overlay _) fun key => ?_
  calc (overlay (overlay base top) upper).lookup key
      = (upper.lookup key).or ((top.lookup key).or (base.lookup key)) := by
        rw [lookup_overlay hupper, lookup_overlay htop]
    _ = ((upper.lookup key).or (top.lookup key)).or (base.lookup key) := Option.or_assoc.symm
    _ = (overlay base (overlay top upper)).lookup key := by
        rw [lookup_overlay (htop.overlay upper), lookup_overlay hupper]

theorem overlay_self (htop : Ordered top) : overlay top top = top := by
  refine eq_of_lookup_eq (htop.overlay top) htop fun key => ?_
  rw [lookup_overlay htop, Option.or_self]

theorem putMember_of_forall_lt (h : ∀ m ∈ ms, m.1 < key) :
    putMember key value ms = ms ++ [(key, value)] := by
  induction ms with
  | nil => rfl
  | cons m rest ih =>
    have hless := h m List.mem_cons_self
    have hne : key ≠ m.1 := fun heq => String.lt_irrefl key (heq ▸ hless)
    rw [putMember, if_neg hne, if_neg (String.lt_asymm hless),
      ih fun n hn => h n (List.mem_cons_of_mem m hn), List.cons_append]

theorem overlay_of_ordered (h : Ordered (base ++ top)) : overlay base top = base ++ top := by
  induction top generalizing base with
  | nil => rw [overlay_nil, List.append_nil]
  | cons m rest ih =>
    have hlast := (List.pairwise_append.1 h).2.2
    rw [overlay_cons, putMember_of_forall_lt fun n hn => hlast n hn m List.mem_cons_self, ih]
    · rw [List.append_assoc, List.singleton_append]
    · simpa [Ordered] using h

/-- Members that are given in the order of their keys stay as they are. -/
theorem ofMembers_of_ordered {members : List (String × Json)}
    (h : (members.map Prod.fst).Pairwise (· < ·)) : ofMembers members = .obj members :=
  congrArg obj (@overlay_of_ordered [] members (List.pairwise_map.1 h))

/-- What becomes of the members of two objects of which one is laid over the other. -/
structure Covers (top base result : List (String × Json)) : Prop where
  keys : ∀ key, key ∈ result.map Prod.fst ↔ key ∈ base.map Prod.fst ∨ key ∈ top.map Prod.fst
  upper : ∀ key value, (key, value) ∈ top → (key, value) ∈ result
  lower : ∀ key value, (key, value) ∈ base → key ∉ top.map Prod.fst → (key, value) ∈ result

theorem mem_keys_iff : key ∈ ms.map Prod.fst ↔ (ms.lookup key).isSome = true := by
  simp [List.lookup_isSome_iff]

theorem covers_overlay (hbase : Ordered base) (htop : Ordered top) :
    Covers top base (overlay base top) where
  keys key := by
    simp only [mem_keys_iff, lookup_overlay htop, Option.isSome_or, Bool.or_eq_true]
    exact or_comm
  upper key value h := by
    rw [← (hbase.overlay top).lookup_eq_some_iff, lookup_overlay htop, htop.lookup_eq_some_iff.2 h]
    rfl
  lower key value h hnot := by
    rw [mem_keys_iff, Option.not_isSome_iff_eq_none] at hnot
    rw [← (hbase.overlay top).lookup_eq_some_iff, lookup_overlay htop, hnot,
      hbase.lookup_eq_some_iff.2 h]
    rfl

/-! ## Merging -/

def IsObject : Json → Prop
  | .obj _ => True
  | _ => False

theorem Canonical.ordered (h : Canonical (.obj ms)) : Ordered ms := by
  cases h with
  | obj hordered _ => exact hordered

/-- Merging leads from values to values. -/
theorem Canonical.merge {p c : Json} (hp : p.Canonical) (hc : c.Canonical) :
    (p.merge c).Canonical := by
  unfold Json.merge
  split
  · rename_i base top
    cases hc with
    | obj hbase heach =>
      cases hp with
      | obj _ htop =>
        refine .obj (Ordered.overlay hbase top) fun m hm => ?_
        rcases mem_of_mem_overlay hm with hm | hm
        · exact heach m hm
        · exact htop m hm
  · exact hp

theorem merge_of_not_isObject {p : Json} (h : ¬ p.IsObject) (c : Json) : p.merge c = p := by
  unfold merge
  split
  · exact absurd trivial h
  · rfl

theorem merge_merge {c p q : Json} (hc : c.Canonical) (hp : p.Canonical) (hq : q.Canonical)
    (hside : p.IsObject ∨ ¬ q.IsObject) : q.merge (p.merge c) = (q.merge p).merge c := by
  rcases Classical.em q.IsObject with hobject | hother
  · -- An object is laid over an object, so all depends on what lies below.
    obtain hpatch := hside.resolve_right (not_not.2 hobject)
    cases p with
    | obj top =>
      cases q with
      | obj upper =>
        cases c with
        | obj base => exact congrArg obj (overlay_overlay hc.ordered hp.ordered hq.ordered)
        | _ => rfl
      | _ => exact hobject.elim
    | _ => exact hpatch.elim
  · rw [merge_of_not_isObject hother, merge_of_not_isObject hother, merge_of_not_isObject hother]

theorem merge_self {p : Json} (hp : p.Canonical) : p.merge p = p := by
  cases p with
  | obj top => exact congrArg obj (overlay_self hp.ordered)
  | _ => rfl

/-- Merging one patch and then another is merging the second into the first and then that, as long as
no object is merged into a patch that is none. A patch that was merged changes nothing any more. Where
both are objects, the result has the keys of both, all of the patch is in it, and all that the patch
has no key for is in it as it was. -/
theorem merge_composes {c p q : Json} (hc : c.Canonical) (hp : p.Canonical) (hq : q.Canonical) :
    (p.IsObject ∨ ¬ q.IsObject → q.merge (p.merge c) = (q.merge p).merge c) ∧
    p.merge (p.merge c) = p.merge c ∧
    (∀ base top, c = .obj base → p = .obj top →
      ∃ result, p.merge c = .obj result ∧ Covers top base result) ∧
    (p.merge c).Canonical := by
  refine ⟨merge_merge hc hp hq, ?_, ?_, hp.merge hc⟩
  · rw [merge_merge hc hp hp (Classical.em _), merge_self hp]
  · rintro base top rfl rfl
    exact ⟨overlay base top, rfl, covers_overlay hc.ordered hp.ordered⟩

/-- A context with an object inside, and two patches for it that name a key of it in common. -/
def tally : Json :=
  .obj [("count", .num 1), ("keep", .bool true), ("nested", .obj [("a", .num 1)])]

def bump : Json := .obj [("count", .num 2), ("nested", .obj [("b", .num 2)])]

def reset : Json := .obj [("nested", .null), ("note", .arr [.str "again"])]

theorem canonical_tally : tally.Canonical := by
  have hnested : Canonical (.obj [("a", .num 1)]) :=
    .obj (List.pairwise_singleton _ _) (by simp [Canonical.num])
  exact .obj (by decide) (by simp [Canonical.num, Canonical.bool, hnested])

theorem canonical_bump : bump.Canonical := by
  have hnested : Canonical (.obj [("b", .num 2)]) :=
    .obj (List.pairwise_singleton _ _) (by simp [Canonical.num])
  exact .obj (by decide) (by simp [Canonical.num, hnested])

theorem canonical_reset : reset.Canonical := by
  have hnote : Canonical (.arr [.str "again"]) := .arr (by simp [Canonical.str])
  exact .obj (by decide) (by simp [Canonical.null, hnote])

theorem merge_composes_tally :
    tally.Canonical ∧ bump.Canonical ∧ reset.Canonical ∧ bump.IsObject ∧
    reset.merge (bump.merge tally) = (reset.merge bump).merge tally ∧
    reset.merge (bump.merge tally) =
      .obj [("count", .num 2), ("keep", .bool true), ("nested", .null),
        ("note", .arr [.str "again"])] ∧
    bump.merge (bump.merge tally) = bump.merge tally ∧
    ∃ result, bump.merge tally = .obj result ∧
      ("keep", .bool true) ∈ result ∧ ("nested", .obj [("b", .num 2)]) ∈ result := by
  have hcomposes := merge_composes canonical_tally canonical_bump canonical_reset
  obtain ⟨result, hresult, hcovers⟩ := hcomposes.2.2.1 _ _ rfl rfl
  refine ⟨canonical_tally, canonical_bump, canonical_reset, trivial, hcomposes.1 (.inl trivial),
    by decide, hcomposes.2.1, result, hresult, ?_, ?_⟩
  · exact hcovers.lower "keep" (.bool true) (by simp) (by simp)
  · exact hcovers.upper "nested" _ (by simp)

/-- The first patch wipes the context if it is merged by itself, but not if an object was merged into
it before. -/
example : reset.merge (Json.null.merge tally) ≠ (reset.merge .null).merge tally := by decide

end TimedMachine.Json

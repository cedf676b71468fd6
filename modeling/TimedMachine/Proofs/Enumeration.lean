import Mathlib.Data.List.Induction
import Mathlib.Data.List.Nodup
import Mathlib.Data.List.Perm.Basic

/-!
Lists that are given by what stands where. A relation says what is found at an address, a list of
numbers; a list enumerates it if its items are what is found, in the order of the addresses, first in
the first number and then in what follows it. A relation has at most one such list (`unique`).
-/
namespace TimedMachine

variable {α β : Type}

/-- The items of a list are what a relation finds at addresses, in their order: one item at each, and
none is left out. -/
def Enumerates (found : List Nat → α → Prop) (items : List α) : Prop :=
  ∃ rows : List (List Nat × α), rows.map Prod.snd = items ∧
    rows.Pairwise (fun r q => r.1 < q.1) ∧
    ∀ address item, (address, item) ∈ rows ↔ found address item

/-- Addresses begin with a number that is not less than a bound. -/
def StartsFrom (n : Nat) (found : List Nat → α → Prop) : Prop :=
  ∀ address x, found address x → ∃ m rest, address = m :: rest ∧ n ≤ m

namespace StartsFrom

variable {n : Nat} {found other : List Nat → α → Prop}

theorem under : StartsFrom n (fun a x => ∃ rest, a = n :: rest ∧ found rest x) := by
  rintro _ x ⟨rest, rfl, _⟩
  exact ⟨n, rest, rfl, Nat.le_refl n⟩

theorem beside (h : StartsFrom (n + 1) other) :
    StartsFrom n (fun a x => (∃ rest, a = n :: rest ∧ found rest x) ∨ other a x) := by
  rintro a x (⟨rest, rfl, _⟩ | hother)
  · exact ⟨n, rest, rfl, Nat.le_refl n⟩
  · obtain ⟨m, rest, rfl, hle⟩ := h a x hother
    exact ⟨m, rest, rfl, Nat.le_of_succ_le hle⟩

end StartsFrom

namespace Enumerates

variable {found other : List Nat → α → Prop} {xs ys : List α}

theorem congr (h : Enumerates found xs)
    (hiff : ∀ address x, found address x ↔ other address x) : Enumerates other xs := by
  obtain ⟨rows, hrows, hsorted, hmem⟩ := h
  exact ⟨rows, hrows, hsorted, fun address x => (hmem address x).trans (hiff address x)⟩

theorem nil (h : ∀ address x, ¬ found address x) : Enumerates found [] :=
  ⟨[], rfl, .nil, fun address x => by simp [h address x]⟩

theorem single (address : List Nat) (x : α) :
    Enumerates (fun a y => a = address ∧ y = x) [x] :=
  ⟨[(address, x)], rfl, List.pairwise_singleton _ _, fun a y => by simp⟩

theorem append (h : Enumerates found xs) (k : Enumerates other ys)
    (hlt : ∀ a x b y, found a x → other b y → a < b) :
    Enumerates (fun a x => found a x ∨ other a x) (xs ++ ys) := by
  obtain ⟨rows, rfl, hsorted, hmem⟩ := h
  obtain ⟨more, rfl, hsorted', hmem'⟩ := k
  refine ⟨rows ++ more, List.map_append, ?_, fun a x => ?_⟩
  · refine List.pairwise_append.2 ⟨hsorted, hsorted', ?_⟩
    rintro ⟨a, x⟩ hx ⟨b, y⟩ hy
    exact hlt a x b y ((hmem a x).1 hx) ((hmem' b y).1 hy)
  · rw [List.mem_append, hmem, hmem']

/-- All addresses begin with a number. -/
theorem under (n : Nat) (h : Enumerates found xs) :
    Enumerates (fun a x => ∃ rest, a = n :: rest ∧ found rest x) xs := by
  obtain ⟨rows, rfl, hsorted, hmem⟩ := h
  refine ⟨rows.map fun r => (n :: r.1, r.2), ?_, ?_, fun a x => ?_⟩
  · rw [List.map_map]
    rfl
  · refine List.pairwise_map.2 (hsorted.imp fun hless => ?_)
    exact List.cons_lt_cons_iff.2 (.inr ⟨rfl, hless⟩)
  · simp only [List.mem_map, Prod.mk.injEq, Prod.exists]
    constructor
    · rintro ⟨rest, y, hin, rfl, rfl⟩
      exact ⟨rest, rfl, (hmem rest y).1 hin⟩
    · rintro ⟨rest, rfl, hfound⟩
      exact ⟨rest, x, (hmem rest x).2 hfound, rfl, rfl⟩

/-- One list at addresses that begin with a number, and another at addresses that begin with greater
ones. -/
theorem beside (n : Nat) (h : Enumerates found xs) (k : Enumerates other ys)
    (hbehind : StartsFrom (n + 1) other) :
    Enumerates (fun a x => (∃ rest, a = n :: rest ∧ found rest x) ∨ other a x) (xs ++ ys) := by
  refine (h.under n).append k ?_
  rintro _ x b y ⟨rest, rfl, _⟩ hother
  obtain ⟨m, more, rfl, hle⟩ := hbehind b y hother
  exact List.cons_lt_cons_iff.2 (.inl hle)

/-- What is found in the entries of a list, each under its number. -/
theorem flatMap {l : List β} {items : β → List α} {within : β → List Nat → α → Prop}
    (h : ∀ b ∈ l, Enumerates (within b) (items b)) :
    Enumerates (fun a x => ∃ i b rest, l[i]? = some b ∧ a = i :: rest ∧ within b rest x)
      (l.flatMap items) := by
  induction l using List.reverseRecOn with
  | nil => exact nil (by simp)
  | append_singleton l last ih =>
    have hbefore := ih fun b hb => h b (List.mem_append_left _ hb)
    have hlast := (h last (by simp)).under l.length
    have hboth := hbefore.append hlast ?_
    · rw [List.flatMap_append, List.flatMap_singleton]
      refine hboth.congr fun a x => ?_
      constructor
      · rintro (⟨i, b, rest, hb, rfl, hfound⟩ | ⟨rest, rfl, hfound⟩)
        · have hlt := (List.getElem?_eq_some_iff.1 hb).1
          exact ⟨i, b, rest, by rw [List.getElem?_append_left hlt, hb], rfl, hfound⟩
        · exact ⟨l.length, last, rest, by simp, rfl, hfound⟩
      · rintro ⟨i, b, rest, hb, rfl, hfound⟩
        by_cases hlt : i < l.length
        · rw [List.getElem?_append_left hlt] at hb
          exact .inl ⟨i, b, rest, hb, rfl, hfound⟩
        · have hi : i < (l ++ [last]).length := (List.getElem?_eq_some_iff.1 hb).1
          obtain rfl : i = l.length := by
            rw [List.length_append, List.length_singleton] at hi
            omega
          obtain rfl : last = b := by simpa using hb
          exact .inr ⟨rest, rfl, hfound⟩
    · rintro _ x _ y ⟨i, b, rest, hb, rfl, _⟩ ⟨_, rfl, _⟩
      exact List.cons_lt_cons_iff.2 (.inl (List.getElem?_eq_some_iff.1 hb).1)

theorem filterMap {f : α → Option β} (h : Enumerates found xs) :
    Enumerates (fun a y => ∃ x, found a x ∧ f x = some y) (xs.filterMap f) := by
  obtain ⟨rows, rfl, hsorted, hmem⟩ := h
  refine ⟨rows.filterMap fun r => (f r.2).map (r.1, ·), ?_, ?_, fun a y => ?_⟩
  · rw [List.filterMap_map, List.map_filterMap]
    exact List.filterMap_congr fun r _ => by simp [Function.comp_def]
  · refine List.pairwise_filterMap.2 (hsorted.imp fun {r q} hless u hu v hv => ?_)
    obtain ⟨_, _, rfl⟩ := Option.map_eq_some_iff.1 hu
    obtain ⟨_, _, rfl⟩ := Option.map_eq_some_iff.1 hv
    exact hless
  · simp only [List.mem_filterMap, Option.map_eq_some_iff, Prod.mk.injEq, Prod.exists]
    constructor
    · rintro ⟨b, x, hin, z, hz, rfl, rfl⟩
      exact ⟨x, (hmem b x).1 hin, hz⟩
    · rintro ⟨x, hfound, hy⟩
      exact ⟨a, x, (hmem a x).2 hfound, y, hy, rfl, rfl⟩

/-- The entries of a list, each at its number. -/
theorem ofList (l : List α) : Enumerates (fun a x => ∃ i : Nat, a = [i] ∧ l[i]? = some x) l := by
  have h : Enumerates _ (l.flatMap fun x => [x]) := flatMap fun x _ => single [] x
  rw [List.flatMap_singleton'] at h
  refine h.congr fun a x => ?_
  constructor
  · rintro ⟨i, _, _, hx, rfl, rfl, rfl⟩
    exact ⟨i, rfl, hx⟩
  · rintro ⟨i, rfl, hx⟩
    exact ⟨i, x, [], hx, rfl, rfl, rfl⟩

theorem mem_iff (h : Enumerates found xs) {x : α} : x ∈ xs ↔ ∃ address, found address x := by
  obtain ⟨rows, rfl, _, hmem⟩ := h
  simp [hmem]

theorem eq_nil_iff (h : Enumerates found xs) : xs = [] ↔ ∀ address x, ¬ found address x := by
  rw [List.eq_nil_iff_forall_not_mem]
  constructor
  · exact fun hnone address x hfound => hnone x (h.mem_iff.2 ⟨address, hfound⟩)
  · rintro hnone x hx
    obtain ⟨address, hfound⟩ := h.mem_iff.1 hx
    exact hnone address x hfound

theorem nodup_rows {rows : List (List Nat × α)} (h : rows.Pairwise (fun r q => r.1 < q.1)) :
    rows.Nodup := by
  refine h.imp fun {r q} hless heq => ?_
  rw [heq] at hless
  exact List.lt_irrefl _ hless

/-- There is only one such list. -/
theorem unique (h : Enumerates found xs) (k : Enumerates found ys) : xs = ys := by
  obtain ⟨rows, rfl, hsorted, hmem⟩ := h
  obtain ⟨more, rfl, hsorted', hmem'⟩ := k
  have hperm : rows.Perm more :=
    (List.perm_ext_iff_of_nodup (nodup_rows hsorted) (nodup_rows hsorted')).2 fun r =>
      (hmem r.1 r.2).trans (hmem' r.1 r.2).symm
  have hrows : rows = more :=
    hperm.eq_of_pairwise (fun _ _ _ _ hless hmore => (List.lt_asymm hless hmore).elim)
      hsorted hsorted'
  rw [hrows]

theorem iff_eq (h : Enumerates found xs) : Enumerates found ys ↔ ys = xs := by
  constructor
  · exact fun k => k.unique h
  · rintro rfl
    exact h

/-- What is found in one place only is listed once. -/
theorem nodup (h : Enumerates found xs)
    (hone : ∀ a b x, found a x → found b x → a = b) : xs.Nodup := by
  obtain ⟨rows, rfl, hsorted, hmem⟩ := h
  refine (nodup_rows hsorted).map_on ?_
  rintro ⟨a, x⟩ hx ⟨b, y⟩ hy (rfl : x = y)
  rw [hone a b x ((hmem a x).1 hx) ((hmem b x).1 hy)]

/-- Of equal items the first stays. -/
theorem eraseDups [DecidableEq α] (h : Enumerates found xs) :
    Enumerates (fun a x => found a x ∧ ∀ b, found b x → ¬ b < a) xs.eraseDups := by
  obtain ⟨rows, rfl, hsorted, hmem⟩ := h
  suffices ∃ kept : List (List Nat × α), kept.map Prod.snd = (rows.map Prod.snd).eraseDups ∧
      kept.Sublist rows ∧ ∀ a x, (a, x) ∈ kept ↔
        (a, x) ∈ rows ∧ ∀ b, (b, x) ∈ rows → ¬ b < a by
    obtain ⟨kept, hkept, hsub, hfirst⟩ := this
    refine ⟨kept, hkept, hsorted.sublist hsub, fun a x => ?_⟩
    rw [hfirst]
    simp only [hmem]
  clear hmem
  induction rows using List.reverseRecOn with
  | nil => exact ⟨[], rfl, .slnil, by simp⟩
  | append_singleton rows last ih =>
    obtain ⟨a, x⟩ := last
    obtain ⟨hsorted, _, hlast⟩ := List.pairwise_append.1 hsorted
    obtain ⟨kept, hkept, hsub, hfirst⟩ := ih hsorted
    have hbefore {b : List Nat} {y : α} (hin : (b, y) ∈ rows) : b < a :=
      hlast (b, y) hin (a, x) (List.mem_singleton.2 rfl)
    have hstays {b : List Nat} {y : α} (hin : (b, y) ∈ rows) :
        (∀ c, (c, y) ∈ rows ++ [(a, x)] → ¬ c < b) ↔ ∀ c, (c, y) ∈ rows → ¬ c < b := by
      refine ⟨fun h c hc => h c (List.mem_append_left _ hc), fun h c hc => ?_⟩
      rcases List.mem_append.1 hc with hc | hc
      · exact h c hc
      · obtain ⟨rfl, rfl⟩ := Prod.mk.inj (List.mem_singleton.1 hc)
        exact List.lt_asymm (hbefore hin)
    have hold {b : List Nat} {y : α} : (b, y) ∈ kept ↔
        (b, y) ∈ rows ∧ ∀ c, (c, y) ∈ rows ++ [(a, x)] → ¬ c < b := by
      rw [hfirst]
      exact and_congr_right fun hin => (hstays hin).symm
    rw [List.map_append, List.eraseDups_append, ← hkept]
    -- The last row stays unless its item has been seen before.
    by_cases hseen : ∃ b, (b, x) ∈ rows
    · have hnone : ([(a, x)].map Prod.snd).removeAll (rows.map Prod.snd) = [] := by
        simpa [List.removeAll] using hseen
      rw [hnone]
      refine ⟨kept, by simp, hsub.trans (List.sublist_append_left _ _), fun b y => ?_⟩
      rw [hold, List.mem_append, or_and_right]
      refine (or_iff_left ?_).symm
      rintro ⟨hin, hmin⟩
      obtain ⟨rfl, rfl⟩ := Prod.mk.inj (List.mem_singleton.1 hin)
      obtain ⟨c, hc⟩ := hseen
      exact hmin c (List.mem_append_left _ hc) (hbefore hc)
    · have hsome : ([(a, x)].map Prod.snd).removeAll (rows.map Prod.snd) = [x] := by
        simpa [List.removeAll] using hseen
      rw [hsome]
      refine ⟨kept ++ [(a, x)], by simp [List.eraseDups_cons], hsub.append (List.Sublist.refl _), fun b y => ?_⟩
      rw [List.mem_append, hold, List.mem_append, or_and_right]
      refine or_congr_right ⟨fun hin => ⟨hin, fun c hc => ?_⟩, And.left⟩
      obtain ⟨rfl, rfl⟩ := Prod.mk.inj (List.mem_singleton.1 hin)
      rcases List.mem_append.1 hc with hc | hc
      · exact absurd ⟨c, hc⟩ hseen
      · obtain ⟨rfl, _⟩ := Prod.mk.inj (List.mem_singleton.1 hc)
        exact List.lt_irrefl _

end Enumerates

end TimedMachine

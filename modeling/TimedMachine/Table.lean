/-!
Finite maps from names that remember the order in which their names first appeared. Putting a value
under a name that is present replaces the value and keeps the place; a new name goes last.
-/
namespace TimedMachine

structure Table (α : Type u) where
  entries : List (String × α)
  nodup : (entries.map Prod.fst).Nodup

namespace Table

variable {α : Type u}

def empty : Table α := ⟨[], by simp⟩

instance : Inhabited (Table α) := ⟨empty⟩

def find? (t : Table α) (name : String) : Option α := t.entries.lookup name

def contains (t : Table α) (name : String) : Bool := (t.find? name).isSome

def keys (t : Table α) : List String := t.entries.map Prod.fst

def size (t : Table α) : Nat := t.entries.length

def isEmpty (t : Table α) : Bool := t.entries.isEmpty

/-- Replace the value where the name stands, or append. -/
def putEntry (name : String) (value : α) : List (String × α) → List (String × α)
  | [] => [(name, value)]
  | (n, v) :: rest =>
    if n = name then (name, value) :: rest else (n, v) :: putEntry name value rest

theorem map_fst_putEntry (name : String) (value : α) (l : List (String × α)) :
    (putEntry name value l).map Prod.fst =
      if name ∈ l.map Prod.fst then l.map Prod.fst else l.map Prod.fst ++ [name] := by
  induction l with
  | nil => simp [putEntry]
  | cons e rest ih =>
    obtain ⟨n, v⟩ := e
    rw [putEntry]
    split
    · rename_i h
      simp [h]
    · rename_i h
      simp only [List.map_cons, ih, List.mem_cons, Ne.symm h, false_or]
      split <;> simp

theorem lookup_putEntry_self (name : String) (value : α) (l : List (String × α)) :
    (putEntry name value l).lookup name = some value := by
  induction l with
  | nil => simp [putEntry]
  | cons e rest ih => grind [putEntry]

theorem lookup_putEntry_ne {name other : String} (h : other ≠ name) (value : α)
    (l : List (String × α)) : (putEntry name value l).lookup other = l.lookup other := by
  induction l with
  | nil => grind [putEntry]
  | cons e rest ih => grind [putEntry]

def insert (t : Table α) (name : String) (value : α) : Table α where
  entries := putEntry name value t.entries
  nodup := by
    rw [map_fst_putEntry]
    split
    · exact t.nodup
    · rename_i h
      exact List.nodup_append.2 ⟨t.nodup, by simp, by
        intro a ha b hb
        rw [List.mem_singleton.1 hb]
        exact fun e => h (e ▸ ha)⟩

/-- Take a name out; the others keep their order. -/
def erase (t : Table α) (name : String) : Table α where
  entries := t.entries.filter (fun e => e.1 ≠ name)
  nodup := t.nodup.sublist (List.Sublist.map _ List.filter_sublist)

theorem lookup_filter_ne (name other : String) (l : List (String × α)) :
    (l.filter fun e => e.1 ≠ name).lookup other = if other = name then none else l.lookup other := by
  induction l with
  | nil => simp
  | cons e rest ih => grind

/-- Change the values; the names keep their places. -/
def map {β : Type v} (change : α → β) (t : Table α) : Table β where
  entries := t.entries.map fun e => (e.1, change e.2)
  nodup := by
    rw [List.map_map]
    exact t.nodup

/-- The table built by inserting the pairs in list order. -/
def ofList (pairs : List (String × α)) : Table α :=
  pairs.foldl (fun t e => t.insert e.1 e.2) empty

@[simp] theorem find?_empty (name : String) : (empty : Table α).find? name = none := rfl

@[simp] theorem keys_empty : (empty : Table α).keys = [] := rfl

@[simp] theorem find?_insert (t : Table α) (name : String) (value : α) (other : String) :
    (t.insert name value).find? other = if other = name then some value else t.find? other := by
  split
  · rename_i h
    rw [h]
    exact lookup_putEntry_self name value t.entries
  · rename_i h
    exact lookup_putEntry_ne h value t.entries

@[simp] theorem find?_erase (t : Table α) (name other : String) :
    (t.erase name).find? other = if other = name then none else t.find? other :=
  lookup_filter_ne name other t.entries

theorem find?_map {β : Type v} (change : α → β) (t : Table α) (name : String) :
    (t.map change).find? name = (t.find? name).map change := by
  obtain ⟨l, h⟩ := t
  show (l.map fun e => (e.1, change e.2)).lookup name = (l.lookup name).map change
  clear h
  induction l with
  | nil => rfl
  | cons e rest ih => grind

theorem keys_map {β : Type v} (change : α → β) (t : Table α) : (t.map change).keys = t.keys :=
  List.map_map

theorem keys_insert (t : Table α) (name : String) (value : α) :
    (t.insert name value).keys = if name ∈ t.keys then t.keys else t.keys ++ [name] :=
  map_fst_putEntry name value t.entries

theorem mem_entries_of_find? {t : Table α} {name : String} {value : α}
    (h : t.find? name = some value) : (name, value) ∈ t.entries := by
  obtain ⟨before, behind, hentries, _⟩ := List.lookup_eq_some_iff.1 h
  rw [hentries]
  exact List.mem_append_right _ List.mem_cons_self

theorem keys_nodup (t : Table α) : t.keys.Nodup := t.nodup

theorem contains_iff (t : Table α) (name : String) : t.contains name = true ↔ name ∈ t.keys := by
  obtain ⟨l, h⟩ := t
  unfold contains find? keys
  induction l with
  | nil => simp
  | cons e rest ih =>
    have ih := ih (List.nodup_cons.1 h).2
    grind

end Table
end TimedMachine

/-!
Journals grow at their end. The latest entry is at hand, and the size is known, so that what was
written since an earlier size can be read without going through what stood before.
-/
namespace TimedMachine

structure Journal (α : Type u) where
  latestFirst : List α := []
  size : Nat := latestFirst.length
  size_eq : size = latestFirst.length := by rfl

namespace Journal

variable {α : Type u}

/-- The entries, oldest first. -/
def toList (j : Journal α) : List α := j.latestFirst.reverse

def push (j : Journal α) (a : α) : Journal α where
  latestFirst := a :: j.latestFirst
  size := j.size + 1
  size_eq := by rw [j.size_eq, List.length_cons]

/-- Change every entry. -/
def map {β : Type v} (change : α → β) (j : Journal α) : Journal β where
  latestFirst := j.latestFirst.map change
  size := j.size
  size_eq := by rw [j.size_eq, List.length_map]

/-- The entries past the first ones, oldest first. -/
def since (j : Journal α) (size : Nat) : List α := (j.latestFirst.take (j.size - size)).reverse

@[simp] theorem toList_push (j : Journal α) (a : α) : (j.push a).toList = j.toList ++ [a] := by
  simp [toList, push]

@[simp] theorem toList_map {β : Type v} (change : α → β) (j : Journal α) :
    (j.map change).toList = j.toList.map change := List.map_reverse.symm

/-- The entries determine the journal. -/
theorem eq_of_toList_eq {j k : Journal α} (h : k.toList = j.toList) : k = j := by
  obtain ⟨entries, size, hsize⟩ := j
  obtain ⟨entries', size', hsize'⟩ := k
  obtain rfl : entries' = entries := List.reverse_inj.1 h
  obtain rfl : size' = size := hsize'.trans hsize.symm
  rfl

@[simp] theorem length_toList (j : Journal α) : j.toList.length = j.size := by
  simp [toList, j.size_eq]

theorem since_eq (j : Journal α) (size : Nat) : j.since size = j.toList.drop size := by
  rw [since, toList, List.drop_reverse, j.size_eq]

end Journal
end TimedMachine

/-!
Queues: what came first leaves first. The front is kept oldest first and the back latest first, so
that both ends are at hand; the queue that they stand for is `toList`.
-/
namespace TimedMachine

structure Queue (α : Type u) where
  front : List α := []
  back : List α := []
  size : Nat := front.length + back.length
  size_eq : size = front.length + back.length := by rfl

namespace Queue

variable {α : Type u}

instance : Inhabited (Queue α) := ⟨{}⟩

/-- The elements, oldest first. -/
def toList (q : Queue α) : List α := q.front ++ q.back.reverse

def ofList (l : List α) : Queue α := { front := l }

def push (q : Queue α) (a : α) : Queue α where
  front := q.front
  back := a :: q.back
  size := q.size + 1
  size_eq := by rw [q.size_eq, List.length_cons, Nat.add_assoc]

/-- The queue without its oldest element. -/
def tail (q : Queue α) : Queue α :=
  match h : q.front with
  | _ :: rest =>
    { front := rest, back := q.back, size := q.size - 1
      size_eq := by rw [q.size_eq, h, List.length_cons]; omega }
  | [] =>
    { front := q.back.reverse.tail, back := [], size := q.size - 1
      size_eq := by rw [q.size_eq, h]; simp }

/-- The queue without its oldest elements, as many as are given. -/
def drop : Nat → Queue α → Queue α
  | 0, q => q
  | n + 1, q => drop n q.tail

@[simp] theorem toList_empty : ({} : Queue α).toList = [] := rfl

@[simp] theorem toList_ofList (l : List α) : (ofList l).toList = l := List.append_nil l

@[simp] theorem length_toList (q : Queue α) : q.toList.length = q.size := by
  simp [toList, q.size_eq]

@[simp] theorem toList_push (q : Queue α) (a : α) : (q.push a).toList = q.toList ++ [a] := by
  simp [toList, push]

@[simp] theorem toList_tail (q : Queue α) : q.tail.toList = q.toList.tail := by
  unfold tail toList
  split
  · rename_i h
    simp [h]
  · rename_i h
    simp [h]

@[simp] theorem toList_drop (n : Nat) (q : Queue α) : (drop n q).toList = q.toList.drop n := by
  induction n generalizing q with
  | zero => rfl
  | succ n ih => rw [drop, ih, toList_tail, List.drop_tail]

end Queue
end TimedMachine

import Mathlib.Data.List.Sort

/-!
# The smallest samples

Some smallest elements of a list, in ascending order.  A new sample is inserted into
the ones that are kept, and the largest one falls off; the sample may also replace
the largest one and move down from there.
-/

namespace SysProg.Logic

section Smallest

variable {α : Type} [LinearOrder α] {x y : α} {l samples : List α} {k : Nat}

/-- The `k` smallest samples. -/
def smallest (k : Nat) (samples : List α) : List α := (samples.insertionSort (· ≤ ·)).take k

theorem smallest_sorted (k : Nat) (samples : List α) :
    (smallest k samples).Pairwise (· ≤ ·) :=
  (List.pairwise_insertionSort (· ≤ ·) samples).sublist (List.take_sublist _ _)

@[simp] theorem smallest_length (k : Nat) (samples : List α) :
    (smallest k samples).length = min k samples.length := by
  rw [smallest, List.length_take, List.length_insertionSort]

theorem mem_of_mem_smallest (member : x ∈ smallest k samples) : x ∈ samples :=
  (List.mem_insertionSort (· ≤ ·)).mp (List.mem_of_mem_take member)

/-- The first of the smallest samples is a least one. -/
theorem le_of_smallest (first : (smallest k samples)[0]? = some x) (member : y ∈ samples) :
    x ≤ y := by
  have inside : y ∈ samples.insertionSort (· ≤ ·) := (List.mem_insertionSort (· ≤ ·)).mpr member
  have sorted := List.pairwise_insertionSort (· ≤ ·) samples
  rw [smallest] at first
  cases k with
  | zero => simp at first
  | succ k =>
      cases ascending : samples.insertionSort (· ≤ ·) with
      | nil => simp [ascending] at first
      | cons z rest =>
          rw [ascending] at first inside sorted
          obtain rfl : z = x := by simpa using first
          rcases List.mem_cons.mp inside with rfl | later
          · exact le_refl _
          · exact (List.pairwise_cons.mp sorted).1 y later

/-! ## Inserting -/

/-- The first elements after an insertion depend on the first ones before. -/
theorem take_orderedInsert (k : Nat) (x : α) (l : List α) :
    (l.orderedInsert (· ≤ ·) x).take k = ((l.take k).orderedInsert (· ≤ ·) x).take k := by
  induction l generalizing k with
  | nil => rw [List.take_nil]
  | cons y l ih =>
      cases k with
      | zero => rfl
      | succ k =>
          rw [List.take_succ_cons, List.orderedInsert_cons, List.orderedInsert_cons]
          split
          · rw [List.take_succ_cons, List.take_succ_cons]
            cases k with
            | zero => rfl
            | succ k =>
                rw [List.take_succ_cons, List.take_succ_cons, List.take_take,
                  Nat.min_eq_left (Nat.le_succ k)]
          · rw [List.take_succ_cons, List.take_succ_cons, ih]

/-- A new sample. -/
theorem smallest_cons (k : Nat) (x : α) (samples : List α) :
    smallest k (x :: samples) = ((smallest k samples).orderedInsert (· ≤ ·) x).take k := by
  rw [smallest, List.insertionSort_cons, take_orderedInsert]
  rfl

/-- An insertion below the last element. -/
theorem orderedInsert_append (below : x ≤ y) (l : List α) :
    (l ++ [y]).orderedInsert (· ≤ ·) x = l.orderedInsert (· ≤ ·) x ++ [y] := by
  induction l with
  | nil => simp [below]
  | cons z l ih =>
      rw [List.cons_append, List.orderedInsert_cons, List.orderedInsert_cons]
      split
      · rfl
      · rw [ih, List.cons_append]

/-- An insertion above all elements. -/
theorem orderedInsert_above (sorted : l.Pairwise (· ≤ ·)) (above : ∀ y ∈ l, y ≤ x) :
    l.orderedInsert (· ≤ ·) x = l ++ [x] := by
  refine List.Perm.eq_of_pairwise' (sorted.orderedInsert x l) ?_
    ((List.perm_orderedInsert (· ≤ ·) x l).trans (List.perm_append_singleton x l).symm)
  refine List.pairwise_append.mpr ⟨sorted, List.pairwise_singleton _ _, ?_⟩
  intro y inside z last
  rw [List.mem_singleton.mp last]
  exact above y inside

/-- In a full list a sample replaces the largest one. -/
theorem take_orderedInsert_full (sorted : (l ++ [y]).Pairwise (· ≤ ·)) :
    ((l ++ [y]).orderedInsert (· ≤ ·) x).take (l.length + 1) =
      if x < y then l.orderedInsert (· ≤ ·) x else l ++ [y] := by
  split
  · rename_i smaller
    rw [orderedInsert_append smaller.le]
    exact List.take_left' (List.orderedInsert_length _ l x)
  · rename_i larger
    have above : ∀ z ∈ l ++ [y], z ≤ x := by
      intro z member
      have last : z ≤ y := by
        rcases List.mem_append.mp member with before | here
        · exact (List.pairwise_append.mp sorted).2.2 z before y (List.mem_singleton_self y)
        · rw [List.mem_singleton.mp here]
      exact last.trans (not_lt.mp larger)
    rw [orderedInsert_above sorted above]
    exact List.take_left' (List.length_append.trans rfl)

end Smallest

end SysProg.Logic

import Mathlib.Algebra.Group.Nat.Defs
import Mathlib.Data.List.Basic

/-!
# The block list of the tracer

`memlist.c` keeps one item for each address it has seen, in the order of the
addresses, with a count of the allocations that have not been freed.  The list
here starts after the dummy head; addresses are numbers and `NULL` is 0.
-/

namespace SysProg.Memtrace

/-- `item`. -/
structure Item where
  ptr : Nat
  size : UInt64
  cnt : Int

/-- `alloc`, without the returned item. -/
def alloc : List Item → Nat → UInt64 → List Item
  | [], ptr, size => [⟨ptr, size, 1⟩]
  | cur :: rest, ptr, size =>
      if cur.ptr < ptr then cur :: alloc rest ptr size
      else if cur.ptr = ptr then { cur with size := size, cnt := cur.cnt + 1 } :: rest
      else ⟨ptr, size, 1⟩ :: cur :: rest

/-- `dealloc`, without the returned item. -/
def dealloc : List Item → Nat → List Item
  | [], _ => []
  | cur :: rest, ptr =>
      if cur.ptr = ptr then { cur with cnt := cur.cnt - 1 } :: rest else cur :: dealloc rest ptr

/-- `find`. -/
def find : List Item → Nat → Option Item
  | [], _ => none
  | cur :: rest, ptr =>
      if ptr > cur.ptr then find rest ptr else if cur.ptr = ptr then some cur else none

/-- The allocate count of an address, 0 where there is no item. -/
def count (items : List Item) (ptr : Nat) : Int :=
  match find items ptr with
  | none => 0
  | some i => i.cnt

/-- An address with a positive count. -/
def Live (items : List Item) (ptr : Nat) : Prop :=
  ∃ i ∈ items, i.ptr = ptr ∧ 0 < i.cnt

/-- The addresses are in strictly increasing order. -/
def Sorted (items : List Item) : Prop :=
  items.Pairwise fun a b => a.ptr < b.ptr

section Find

variable {cur i : Item} {items rest : List Item} {p : Nat}

theorem find_cons_gt (above : cur.ptr < p) : find (cur :: rest) p = find rest p := by
  rw [find, if_pos above]

theorem find_cons_self : find (cur :: rest) cur.ptr = some cur := by
  rw [find, if_neg (Nat.lt_irrefl _), if_pos rfl]

theorem find_cons_lt (below : p < cur.ptr) : find (cur :: rest) p = none := by
  rw [find, if_neg (by omega), if_neg (by omega)]

theorem find_ptr (found : find items p = some i) : i ∈ items ∧ i.ptr = p := by
  induction items with
  | nil => cases found
  | cons cur rest ih =>
      rcases Nat.lt_trichotomy p cur.ptr with below | rfl | above
      · rw [find_cons_lt below] at found
        cases found
      · rw [find_cons_self] at found
        cases found
        exact ⟨List.mem_cons_self, rfl⟩
      · rw [find_cons_gt above] at found
        obtain ⟨member, same⟩ := ih found
        exact ⟨List.mem_cons_of_mem _ member, same⟩

/-- In a sorted list the search does not miss an item. -/
theorem Sorted.find_mem (sorted : Sorted items) (member : i ∈ items) :
    find items i.ptr = some i := by
  induction items with
  | nil => cases member
  | cons cur rest ih =>
      obtain ⟨first, others⟩ := List.pairwise_cons.mp sorted
      rcases List.mem_cons.mp member with rfl | later
      · exact find_cons_self
      · rw [find_cons_gt (first i later)]
        exact ih others later

/-- In a sorted list the live addresses are those with a positive count. -/
theorem Sorted.live_iff (sorted : Sorted items) : Live items p ↔ 0 < count items p := by
  constructor
  · rintro ⟨i, member, rfl, positive⟩
    rw [count, sorted.find_mem member]
    exact positive
  · intro positive
    unfold count at positive
    cases found : find items p with
    | none => simp [found] at positive
    | some i =>
        obtain ⟨member, same⟩ := find_ptr found
        exact ⟨i, member, same, by simpa [found] using positive⟩

end Find

section Updates

variable {items : List Item} {p : Nat} {size : UInt64}

/-- `alloc` counts one address up. -/
theorem count_alloc (items : List Item) (p q : Nat) (size : UInt64) :
    count (alloc items p size) q = count items q + if q = p then 1 else 0 := by
  induction items with
  | nil =>
      simp only [alloc, count]
      rcases Nat.lt_trichotomy q p with below | rfl | above
      · rw [find_cons_lt below, if_neg (by omega)]
        rfl
      · rw [show find [⟨q, size, 1⟩] q = some ⟨q, size, 1⟩ from find_cons_self, if_pos rfl]
        rfl
      · rw [find_cons_gt above, if_neg (by omega)]
        rfl
  | cons cur rest ih =>
      simp only [alloc]
      split
      · rename_i below
        unfold count at ih ⊢
        rcases Nat.lt_trichotomy q cur.ptr with low | rfl | high
        · rw [find_cons_lt low, find_cons_lt low, if_neg (by omega), Int.add_zero]
        · rw [find_cons_self, find_cons_self, if_neg (by omega), Int.add_zero]
        · rw [find_cons_gt high, find_cons_gt high]
          exact ih
      · split
        · rename_i same
          subst same
          unfold count
          rcases Nat.lt_trichotomy q cur.ptr with low | rfl | high
          · rw [find_cons_lt low, find_cons_lt (by exact low), if_neg (by omega), Int.add_zero]
          · rw [find_cons_self, if_pos rfl, find, if_neg (Nat.lt_irrefl _), if_pos rfl]
          · rw [find_cons_gt high, find_cons_gt (by exact high), if_neg (by omega), Int.add_zero]
        · have above : p < cur.ptr := by omega
          unfold count
          rcases Nat.lt_trichotomy q p with low | rfl | high
          · rw [find_cons_lt (by exact low), find_cons_lt (by omega), if_neg (by omega),
              Int.add_zero]
          · rw [find_cons_lt above, if_pos rfl, find, if_neg (Nat.lt_irrefl _), if_pos rfl]
            rfl
          · rw [find_cons_gt (by exact high), if_neg (by omega), Int.add_zero]

/-- An entry found behind the first one has a larger address. -/
theorem above_of_found {cur i : Item} (found : find (cur :: items) p = some i)
    (differ : ¬ cur.ptr = p) : cur.ptr < p := by
  rcases Nat.lt_trichotomy p cur.ptr with low | same | high
  · rw [find_cons_lt low] at found
    cases found
  · exact absurd same.symm differ
  · exact high

/-- `dealloc` of a found address counts it down. -/
theorem count_dealloc {i : Item} (found : find items p = some i) (q : Nat) :
    count (dealloc items p) q = count items q - if q = p then 1 else 0 := by
  induction items with
  | nil => cases found
  | cons cur rest ih =>
      simp only [dealloc]
      split
      · rename_i same
        subst same
        unfold count
        rcases Nat.lt_trichotomy q cur.ptr with low | rfl | high
        · rw [find_cons_lt low, find_cons_lt (by exact low), if_neg (by omega), Int.sub_zero]
        · rw [find_cons_self, if_pos rfl, find, if_neg (Nat.lt_irrefl _), if_pos rfl]
        · rw [find_cons_gt high, find_cons_gt (by exact high), if_neg (by omega), Int.sub_zero]
      · rename_i differ
        have above := above_of_found found differ
        rw [find_cons_gt above] at found
        have later := ih found
        unfold count at later ⊢
        rcases Nat.lt_trichotomy q cur.ptr with low | rfl | high
        · rw [find_cons_lt low, find_cons_lt low, if_neg (by omega), Int.sub_zero]
        · rw [find_cons_self, find_cons_self, if_neg (by omega), Int.sub_zero]
        · rw [find_cons_gt high, find_cons_gt high]
          exact later

theorem alloc_ptr {i : Item} (member : i ∈ alloc items p size) :
    i.ptr = p ∨ ∃ j ∈ items, j.ptr = i.ptr := by
  induction items with
  | nil =>
      obtain rfl := List.mem_singleton.mp member
      exact .inl rfl
  | cons cur rest ih =>
      simp only [alloc] at member
      split at member
      · rcases List.mem_cons.mp member with rfl | later
        · exact .inr ⟨i, List.mem_cons_self, rfl⟩
        · rcases ih later with here | ⟨j, inside, same⟩
          · exact .inl here
          · exact .inr ⟨j, List.mem_cons_of_mem _ inside, same⟩
      · split at member
        · rcases List.mem_cons.mp member with rfl | later
          · exact .inr ⟨cur, List.mem_cons_self, rfl⟩
          · exact .inr ⟨i, List.mem_cons_of_mem _ later, rfl⟩
        · rcases List.mem_cons.mp member with rfl | later
          · exact .inl rfl
          · exact .inr ⟨i, later, rfl⟩

/-- `alloc` keeps the order. -/
theorem Sorted.alloc (sorted : Sorted items) (p : Nat) (size : UInt64) :
    Sorted (alloc items p size) := by
  induction items with
  | nil => exact List.pairwise_singleton _ _
  | cons cur rest ih =>
      obtain ⟨first, others⟩ := List.pairwise_cons.mp sorted
      simp only [Memtrace.alloc]
      split
      · rename_i below
        refine List.pairwise_cons.mpr ⟨?_, ih others⟩
        intro i member
        rcases alloc_ptr member with here | ⟨j, inside, same⟩
        · omega
        · have after := first j inside
          omega
      · split
        · exact List.pairwise_cons.mpr ⟨first, others⟩
        · refine List.pairwise_cons.mpr ⟨?_, sorted⟩
          have above : p < cur.ptr := by omega
          intro i member
          rcases List.mem_cons.mp member with rfl | later
          · exact above
          · exact Nat.lt_trans above (first i later)

theorem dealloc_ptr {i : Item} (member : i ∈ dealloc items p) : ∃ j ∈ items, j.ptr = i.ptr := by
  induction items with
  | nil => cases member
  | cons cur rest ih =>
      simp only [dealloc] at member
      split at member
      · rcases List.mem_cons.mp member with rfl | later
        · exact ⟨cur, List.mem_cons_self, rfl⟩
        · exact ⟨i, List.mem_cons_of_mem _ later, rfl⟩
      · rcases List.mem_cons.mp member with rfl | later
        · exact ⟨i, List.mem_cons_self, rfl⟩
        · obtain ⟨j, inside, same⟩ := ih later
          exact ⟨j, List.mem_cons_of_mem _ inside, same⟩

/-- `dealloc` keeps the order. -/
theorem Sorted.dealloc (sorted : Sorted items) (p : Nat) : Sorted (dealloc items p) := by
  induction items with
  | nil => exact sorted
  | cons cur rest ih =>
      obtain ⟨first, others⟩ := List.pairwise_cons.mp sorted
      simp only [Memtrace.dealloc]
      split
      · exact List.pairwise_cons.mpr ⟨first, others⟩
      · refine List.pairwise_cons.mpr ⟨?_, ih others⟩
        intro i member
        obtain ⟨j, inside, same⟩ := dealloc_ptr member
        have after := first j inside
        omega

end Updates

end SysProg.Memtrace

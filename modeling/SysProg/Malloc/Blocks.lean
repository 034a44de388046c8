import Mathlib.Algebra.BigOperators.Group.List.Basic

/-!
# Block lists

The abstract heap is the list of its blocks in address order.  A block
carries the size constraints that every block of the heap obeys; its address
follows from the sizes before it.
-/

namespace SysProg.Malloc

/-- A block with its boundary tags: at least 16 bytes, in double words. -/
structure Block where
  size : Nat
  alloc : Bool
  size_ge : 16 ≤ size
  aligned : size % 8 = 0
  deriving DecidableEq

namespace Block

/-- The word that both boundary tags of a block hold. -/
def tag (b : Block) : Nat := b.size + b.alloc.toNat

/-- The same block with another allocation bit. -/
def mark (b : Block) (alloc : Bool) : Block := { b with alloc := alloc }

/-- Two adjacent blocks as one block. -/
def join (b c : Block) (alloc : Bool) : Block where
  size := b.size + c.size
  alloc := alloc
  size_ge := Nat.le_trans b.size_ge (Nat.le_add_right _ _)
  aligned := by
    have first := b.aligned
    have second := c.aligned
    omega

@[simp] theorem mark_size (b : Block) (alloc : Bool) : (b.mark alloc).size = b.size := rfl

@[simp] theorem mark_alloc (b : Block) (alloc : Bool) : (b.mark alloc).alloc = alloc := rfl

@[simp] theorem join_size (b c : Block) (alloc : Bool) :
    (b.join c alloc).size = b.size + c.size := rfl

@[simp] theorem join_alloc (b c : Block) (alloc : Bool) : (b.join c alloc).alloc = alloc := rfl

end Block

/-- The prologue block. -/
def prologue : Block := ⟨16, true, by decide, by decide⟩

/-- The bytes that a run of blocks occupies. -/
def span : List Block → Nat
  | [] => 0
  | b :: bs => b.size + span bs

/-- The blocks of a run that starts at `a`, each with its block pointer. -/
def located : Nat → List Block → List (Nat × Block)
  | _, [] => []
  | a, b :: bs => (a, b) :: located (a + b.size) bs

@[simp] theorem span_nil : span [] = 0 := rfl

@[simp] theorem span_cons (b : Block) (bs : List Block) : span (b :: bs) = b.size + span bs := rfl

@[simp] theorem span_append (xs ys : List Block) : span (xs ++ ys) = span xs + span ys := by
  induction xs with
  | nil => simp
  | cons b xs ih => simp [ih, Nat.add_assoc]

theorem length_le_span (bs : List Block) : 16 * bs.length ≤ span bs := by
  induction bs with
  | nil => simp
  | cons b bs ih =>
      have large := b.size_ge
      simp only [List.length_cons, span_cons]
      omega

theorem span_ge {bs : List Block} (some_block : bs ≠ []) : 16 ≤ span bs := by
  have blocks := length_le_span bs
  have positive := List.length_pos_iff.mpr some_block
  omega

theorem span_aligned (bs : List Block) : span bs % 8 = 0 := by
  induction bs with
  | nil => rfl
  | cons b bs ih =>
      have aligned := b.aligned
      simp only [span_cons]
      omega

@[simp] theorem located_nil (a : Nat) : located a [] = [] := rfl

@[simp] theorem located_cons (a : Nat) (b : Block) (bs : List Block) :
    located a (b :: bs) = (a, b) :: located (a + b.size) bs := rfl

@[simp] theorem located_append (a : Nat) (xs ys : List Block) :
    located a (xs ++ ys) = located a xs ++ located (a + span xs) ys := by
  induction xs generalizing a with
  | nil => simp
  | cons b xs ih => simp [ih, Nat.add_assoc]

theorem located_length (a : Nat) (bs : List Block) : (located a bs).length = bs.length := by
  induction bs generalizing a with
  | nil => rfl
  | cons b bs ih => simp [ih]

/-- A located block lies between the ends of its run. -/
theorem located_bounds {a x : Nat} {b : Block} {bs : List Block}
    (member : (x, b) ∈ located a bs) : a ≤ x ∧ x + b.size ≤ a + span bs := by
  induction bs generalizing a with
  | nil => cases member
  | cons c bs ih =>
      rcases List.mem_cons.mp member with here | later
      · cases here
        simp only [span_cons]
        omega
      · have bounds := ih later
        simp only [span_cons]
        omega

/-- Block pointers of a double-word aligned run are double-word aligned. -/
theorem located_aligned {a x : Nat} {b : Block} {bs : List Block} (aligned : a % 8 = 0)
    (member : (x, b) ∈ located a bs) : x % 8 = 0 := by
  induction bs generalizing a with
  | nil => cases member
  | cons c bs ih =>
      rcases List.mem_cons.mp member with here | later
      · cases here
        exact aligned
      · have size := c.aligned
        exact ih (by omega) later

/-- Two located blocks are the same block or do not overlap. -/
theorem located_disjoint {a x y : Nat} {b c : Block} {bs : List Block}
    (first : (x, b) ∈ located a bs) (second : (y, c) ∈ located a bs) :
    (x = y ∧ b = c) ∨ x + b.size ≤ y ∨ y + c.size ≤ x := by
  induction bs generalizing a with
  | nil => cases first
  | cons d bs ih =>
      rcases List.mem_cons.mp first with here | later
      · cases here
        rcases List.mem_cons.mp second with here' | later'
        · cases here'
          exact .inl ⟨rfl, rfl⟩
        · exact .inr (.inl (located_bounds later').1)
      · rcases List.mem_cons.mp second with here' | later'
        · cases here'
          exact .inr (.inr (located_bounds later).1)
        · exact ih later later'

/-- A block pointer names at most one block of a run. -/
theorem located_unique {a x : Nat} {b c : Block} {bs : List Block}
    (first : (x, b) ∈ located a bs) (second : (x, c) ∈ located a bs) : b = c := by
  have big := b.size_ge
  have big' := c.size_ge
  rcases located_disjoint first second with ⟨-, same⟩ | below | above
  · exact same
  · omega
  · omega

/-- A located block splits its run, and its pointer is the end of the front part. -/
theorem mem_located_iff {a x : Nat} {b : Block} {bs : List Block} :
    (x, b) ∈ located a bs ↔ ∃ front back, bs = front ++ b :: back ∧ x = a + span front := by
  constructor
  · intro member
    induction bs generalizing a with
    | nil => cases member
    | cons c bs ih =>
        rcases List.mem_cons.mp member with here | later
        · cases here
          exact ⟨[], bs, rfl, rfl⟩
        · obtain ⟨front, back, split, place⟩ := ih later
          refine ⟨c :: front, back, by rw [split]; rfl, ?_⟩
          rw [place, span_cons]
          omega
  · rintro ⟨front, back, rfl, rfl⟩
    simp

/-- A block that is not the first one starts where the one before it ends. -/
theorem exists_before {front : List Block} (behind : front ≠ []) (start : Nat) :
    ∃ init p, front = init ++ [p] ∧ start + span front = start + span init + p.size := by
  rcases List.eq_nil_or_concat front with rfl | ⟨init, p, rfl⟩
  · exact absurd rfl behind
  · exact ⟨init, p, by simp, by simp [Nat.add_assoc]⟩

/-- The front part of a split is determined by its span. -/
theorem split_unique {front front' back back' : List Block} {b b' : Block}
    (same : front ++ b :: back = front' ++ b' :: back') (spans : span front = span front') :
    front = front' ∧ b = b' ∧ back = back' := by
  induction front generalizing front' with
  | nil =>
      cases front' with
      | nil =>
          cases same
          exact ⟨rfl, rfl, rfl⟩
      | cons c rest =>
          have large := c.size_ge
          simp only [span_nil, span_cons] at spans
          omega
  | cons c rest ih =>
      cases front' with
      | nil =>
          have large := c.size_ge
          simp only [span_nil, span_cons] at spans
          omega
      | cons c' rest' =>
          obtain ⟨rfl, tails⟩ := List.cons.inj same
          simp only [span_cons] at spans
          obtain ⟨rfl, rest⟩ := ih tails (by omega)
          exact ⟨rfl, rest⟩

/-- A block is determined by its tag. -/
theorem Block.eq_of_tag {b c : Block} (same : b.tag = c.tag) : b = c := by
  have aligned := b.aligned
  have aligned' := c.aligned
  unfold tag at same
  have bits : b.alloc = c.alloc := by
    cases first : b.alloc with
    | false =>
        cases second : c.alloc with
        | false => rfl
        | true =>
            simp only [first, second, Bool.toNat_false, Bool.toNat_true] at same
            omega
    | true =>
        cases second : c.alloc with
        | false =>
            simp only [first, second, Bool.toNat_false, Bool.toNat_true] at same
            omega
        | true => rfl
  have sizes : b.size = c.size := by
    rw [bits] at same
    exact Nat.add_right_cancel same
  cases b
  cases c
  cases sizes
  cases bits
  rfl

end SysProg.Malloc

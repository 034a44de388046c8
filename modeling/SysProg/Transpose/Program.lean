import SysProg.Logic.Loops

/-!
# The transpose functions of `trans.c`

`A` has `N` rows of `M` entries and `B` has `M` rows of `N` entries, in separate
storage.  An access fails outside the declared bounds.  The drivers accept at
most 256 rows and columns, so that no `int` overflows; the counters and indices
are natural numbers, and the entries, which are only moved, of any type.
-/

namespace SysProg.Transpose

open Logic

/-- The entries of the two matrices: `A[row][col]` and `B[row][col]`. -/
inductive Cell where
  | A (row col : Nat)
  | B (row col : Nat)
  deriving DecidableEq

/-- The contents of the two matrices. -/
abbrev Matrices (α : Type) := Cell → α

/-- The entry lies inside the declared bounds. -/
def Cell.Inside (M N : Nat) : Cell → Prop
  | A row col => row < N ∧ col < M
  | B row col => row < M ∧ col < N

instance (M N : Nat) : DecidablePred (Cell.Inside M N)
  | .A row col => inferInstanceAs (Decidable (row < N ∧ col < M))
  | .B row col => inferInstanceAs (Decidable (row < M ∧ col < N))

section Program

variable (M N : Nat) {α : Type}

def load (x : Cell) : Prog (Matrices α) α := fun s =>
  if x.Inside M N then some (s x, s) else none

def store (x : Cell) (v : α) : Prog (Matrices α) Unit := fun s =>
  if x.Inside M N then some ((), Function.update s x v) else none

/-- `x = y` -/
def assign (x y : Cell) : Prog (Matrices α) Unit := do
  let v ← load M N y
  store M N x v

/-- `t0 = x; x = y; y = t0` -/
def exchange (x y : Cell) : Prog (Matrices α) Unit := do
  let t0 ← load M N x
  assign M N x y
  store M N y t0

/-! ## `N == 32` -/

/-- The temporaries `t0` and `t1`, which hold a diagonal position and its entry,
or nothing yet. -/
abbrev Diagonal (α : Type) := Option (Nat × α)

/-- The innermost loop body. -/
def copyOrKeep (nn mm n : Nat) (t : Diagonal α) (m : Nat) : Prog (Matrices α) (Diagonal α) :=
  if nn + n ≠ mm + m then do
    assign M N (.B (mm + m) (nn + n)) (.A (nn + n) (mm + m))
    pure t
  else do
    let t1 ← load M N (.A (nn + n) (nn + n))
    pure (some (nn + n, t1))

/-- `B[t0][t0] = t1`, which fails while the temporaries are not set. -/
def storeDiagonal : Diagonal α → Prog (Matrices α) Unit
  | some (t0, t1) => store M N (.B t0 t0) t1
  | none => fun _ => none

/-- One row of a block. -/
def blockRow32 (nn mm : Nat) (t : Diagonal α) (n : Nat) : Prog (Matrices α) (Diagonal α) := do
  let t ← (counters 0 8 1).foldlM (copyOrKeep M N nn mm n) t
  if nn = mm then do
    storeDiagonal M N t
    pure t
  else pure t

/-- The branch for 32 columns of `B`. -/
def transpose32 : Prog (Matrices α) Unit := do
  let _ ← (counters 0 N 8).foldlM (fun t nn =>
    (counters 0 M 8).foldlM (fun t mm => (counters 0 8 1).foldlM (blockRow32 M N nn mm) t) t) none
  pure ()

/-! ## `N == 64` -/

/-- Transpose-copy of `a3` to `b2`, with `b2` moved to `b3`, for one `m`. -/
def moveQuadrant (nn mm m : Nat) : Prog (Matrices α) Unit := do
  let t0 ← load M N (.A (nn + 4) (mm + m))
  let t1 ← load M N (.A (nn + 5) (mm + m))
  let t2 ← load M N (.A (nn + 6) (mm + m))
  let t3 ← load M N (.A (nn + 7) (mm + m))
  let t4 ← load M N (.B (mm + m) (nn + 4))
  let t5 ← load M N (.B (mm + m) (nn + 5))
  let t6 ← load M N (.B (mm + m) (nn + 6))
  let t7 ← load M N (.B (mm + m) (nn + 7))
  store M N (.B (mm + m) (nn + 4)) t0
  store M N (.B (mm + m) (nn + 5)) t1
  store M N (.B (mm + m) (nn + 6)) t2
  store M N (.B (mm + m) (nn + 7)) t3
  store M N (.B (mm + 4 + m) (nn + 0)) t4
  store M N (.B (mm + 4 + m) (nn + 1)) t5
  store M N (.B (mm + 4 + m) (nn + 2)) t6
  store M N (.B (mm + 4 + m) (nn + 3)) t7

/-- A block off the diagonal, in four quadrants. -/
def offDiagonal (nn mm : Nat) : Prog (Matrices α) Unit := do
  forEach (counters 0 4 1) fun n => forEach (counters 0 8 1) fun m =>
    assign M N (.B (mm + n) (nn + m)) (.A (nn + n) (mm + m))
  forEach (counters 0 4 1) fun n => forEach (counters (n + 1) 4 1) fun m => do
    exchange M N (.B (mm + n) (nn + m)) (.B (mm + m) (nn + n))
    exchange M N (.B (mm + n) (nn + 4 + m)) (.B (mm + m) (nn + 4 + n))
  forEach (counters 0 4 1) (moveQuadrant M N nn mm)
  forEach (counters 4 8 1) fun n => forEach (counters 4 8 1) fun m =>
    assign M N (.B (mm + m) (nn + n)) (.A (nn + n) (mm + m))

/-- A block on the diagonal, through the block to its right. -/
def throughNext (nn mm : Nat) : Prog (Matrices α) Unit := do
  forEach (counters 0 8 1) fun n => forEach (counters 0 8 1) fun m =>
    assign M N (.B (nn + n) (mm + m + 8)) (.A (nn + n) (mm + m))
  forEach (counters 0 8 1).reverse fun m => forEach (counters 4 8 1) fun n =>
    assign M N (.B (mm + m) (nn + n)) (.B (nn + n) (mm + m + 8))
  forEach (counters 0 8 1) fun m => forEach (counters 0 4 1) fun n =>
    assign M N (.B (mm + m) (nn + n)) (.B (nn + n) (mm + m + 8))

/-- One row of the last block on the diagonal. -/
def lastRow (nn mm n : Nat) : Prog (Matrices α) Unit := do
  let t0 ← load M N (.A (nn + n) (mm + 0))
  let t1 ← load M N (.A (nn + n) (mm + 1))
  let t2 ← load M N (.A (nn + n) (mm + 2))
  let t3 ← load M N (.A (nn + n) (mm + 3))
  let t4 ← load M N (.A (nn + n) (mm + 4))
  let t5 ← load M N (.A (nn + n) (mm + 5))
  let t6 ← load M N (.A (nn + n) (mm + 6))
  let t7 ← load M N (.A (nn + n) (mm + 7))
  store M N (.B (mm + 0) (nn + n)) t0
  store M N (.B (mm + 1) (nn + n)) t1
  store M N (.B (mm + 2) (nn + n)) t2
  store M N (.B (mm + 3) (nn + n)) t3
  store M N (.B (mm + 4) (nn + n)) t4
  store M N (.B (mm + 5) (nn + n)) t5
  store M N (.B (mm + 6) (nn + n)) t6
  store M N (.B (mm + 7) (nn + n)) t7

/-- One block. -/
def block64 (nn mm : Nat) : Prog (Matrices α) Unit :=
  if nn ≠ mm then offDiagonal M N nn mm
  else if nn + 8 < N then throughNext M N nn mm
  else forEach (counters 0 8 1) (lastRow M N nn mm)

/-- The branch for 64 columns of `B`. -/
def transpose64 : Prog (Matrices α) Unit :=
  forEach (counters 0 N 8) fun nn => forEach (counters 0 M 8) fun mm => block64 M N nn mm

/-! ## Other shapes -/

/-- The branch for other shapes, in clipped tiles. -/
def transposeTiles : Prog (Matrices α) Unit :=
  forEach (counters 0 M 16) fun mm => forEach (counters 0 N 16) fun nn =>
    forEach ((counters 0 16 1).takeWhile fun n => nn + n < N) fun n =>
      forEach ((counters 0 16 1).takeWhile fun m => mm + m < M) fun m =>
        assign M N (.B (mm + m) (nn + n)) (.A (nn + n) (mm + m))

/-- `transpose_submit`. -/
def transposeSubmit : Prog (Matrices α) Unit :=
  if N = 32 then transpose32 M N
  else if N = 64 then transpose64 M N
  else transposeTiles M N

/-- `correctTrans` of `cachelab.c`. -/
def correctTrans : Prog (Matrices α) Unit :=
  forEach (counters 0 N 1) fun i => forEach (counters 0 M 1) fun j =>
    assign M N (.B j i) (.A i j)

end Program

/-! ## Accesses -/

section Accesses

variable {M N : Nat} {α : Type} {s : Matrices α} {x y : Cell} {v : α}

@[simp] theorem wp_load (post : α → Matrices α → Prop) :
    wp (load M N x) post s ↔ x.Inside M N ∧ post (s x) s := by
  unfold wp load
  by_cases inside : x.Inside M N
  · simp [inside]
  · simp [inside]

@[simp] theorem wp_store (post : Unit → Matrices α → Prop) :
    wp (store M N x v) post s ↔ x.Inside M N ∧ post () (Function.update s x v) := by
  unfold wp store
  by_cases inside : x.Inside M N
  · simp [inside]
  · simp [inside]

@[simp] theorem wp_assign (post : Unit → Matrices α → Prop) :
    wp (assign M N x y) post s ↔
      y.Inside M N ∧ x.Inside M N ∧ post () (Function.update s x (s y)) := by
  rw [assign, wp_bind, wp_load, wp_store]

@[simp] theorem wp_exchange (post : Unit → Matrices α → Prop) :
    wp (exchange M N x y) post s ↔ x.Inside M N ∧ y.Inside M N ∧
      post () (Function.update (Function.update s x (s y)) y (s x)) := by
  simp only [exchange, wp_bind, wp_load, wp_assign, wp_store]
  tauto

end Accesses

end SysProg.Transpose

import SysProg.Logic.Buffers
import SysProg.Transpose.Correctness

/-!
# `tracegen`

The program runs registered functions on the two matrices and validates each result against
the reference function.  A function passes exactly when it leaves in `B` the transpose of
what it leaves in `A`.  The matrices stand in two arrays of 256 by 256 entries, and nothing
checks that they fit.
-/

namespace SysProg.Transpose

open Logic

/-- `trans_func_t`. -/
structure TransFunc where
  func_ptr : Nat → Nat → Prog (Matrices Int32) Unit
  description : List UInt8
  correct : Bool
  num_hits : UInt32
  num_misses : UInt32
  num_evictions : UInt32

def MAX_TRANS_FUNCS : Nat := 100

/-- `registerTransFunction`. -/
def registerTransFunction (func_list : List TransFunc)
    (trans : Nat → Nat → Prog (Matrices Int32) Unit) (desc : List UInt8) :
    Option (List TransFunc) :=
  if func_list.length < MAX_TRANS_FUNCS then
    some (func_list ++ [⟨trans, desc, false, 0, 0, 0⟩])
  else none

/-- `registerFunctions` of `trans.c`. -/
def registerFunctions (func_list : List TransFunc) : Option (List TransFunc) :=
  registerTransFunction func_list (fun M N => transposeSubmit M N) (ascii "Transpose submission")

/-- A difference that `validate` prints. -/
structure Difference where
  expected : Int32
  got : Int32
  row : Nat
  col : Nat

/-- The loops of `validate` over `B` and the local matrix `C`, here the `B` of `c`. -/
def firstDifference (M N : Nat) (s c : Matrices Int32) : Option Difference :=
  (counters 0 M 1).findSome? fun i => (counters 0 N 1).findSome? fun j =>
    if s (.B i j) ≠ c (.B i j) then some ⟨c (.B i j), s (.B i j), i, j⟩ else none

/-- The matrix `A`, with `C` set to zero in the place of `B`. -/
def cleared (s : Matrices Int32) : Matrices Int32
  | .A row col => s (.A row col)
  | .B _ _ => 0

/-- `initMatrix` on the arrays of `tracegen`, which it fills with any entries. -/
def initMatrix (M N : Nat) : Prog (Matrices Int32) Unit := fun s =>
  if N * M ≤ 256 * 256 then some ((), s) else none

/-- `validate`; without a difference it returns 1.  The local array has to have an entry. -/
def validate (M N : Nat) : Prog (Matrices Int32) (Option Difference) := fun s =>
  if 0 < M ∧ 0 < N then do
    let (_, c) ← correctTrans M N (cleared s)
    some (firstDifference M N s c, s)
  else none

/-- `is_transpose`. -/
def isTranspose (M N : Nat) (s : Matrices Int32) : Bool :=
  (counters 0 N 1).all fun i => (counters 0 M 1).all fun j => s (.A i j) = s (.B j i)

/-- A function is invoked between the markers and validated. -/
def invoke (M N : Nat) (f : TransFunc) : Prog (Matrices Int32) Bool := do
  f.func_ptr M N
  let difference ← validate M N
  pure difference.isNone

/-- The loop of `main` over the functions from the one at `i` on. -/
def invokeAll (M N : Nat) : Nat → List TransFunc → Prog (Matrices Int32) Nat
  | _, [] => pure 0
  | i, f :: rest => do
      if (← invoke M N f) = true then invokeAll M N (i + 1) rest else pure (i + 1)

/-- The functions that `main` invokes: all, or the one that the command line selects. -/
def invokeSelected (M N : Nat) (func_list : List TransFunc) :
    Option Nat → Prog (Matrices Int32) Nat
  | none => invokeAll M N 0 func_list
  | some selected =>
      match func_list[selected]? with
      | none => fun _ => none
      | some f => do
          if (← invoke M N f) = true then pure 0 else pure (selected + 1)

/-- `main` behind the command line, for the entries that `initMatrix` chooses. -/
def tracegen (M N : Nat) (func_list : List TransFunc) (selected : Option Nat) :
    Prog (Matrices Int32) Nat := do
  initMatrix M N
  invokeSelected M N func_list selected

/-! ## What is validated -/

/-- `B` is the transpose of `A`. -/
def Mirrored (M N : Nat) (s : Matrices Int32) : Prop :=
  ∀ i < N, ∀ j < M, s (.B j i) = s (.A i j)

/-- Each function in turn leaves the transpose of what it leaves in `A`. -/
def AllMirrored (M N : Nat) (s : Matrices Int32) : List TransFunc → Prop
  | [] => True
  | f :: rest => ∃ s', f.func_ptr M N s = some ((), s') ∧ Mirrored M N s' ∧ AllMirrored M N s' rest

section Validation

variable {M N : Nat} {s s' c : Matrices Int32} {f : TransFunc} {accepted : Bool}

theorem isTranspose_iff : isTranspose M N s = true ↔ Mirrored M N s := by
  simp only [isTranspose, List.all_eq_true, mem_counters_one, decide_eq_true_eq, Mirrored]
  constructor
  · intro same i row j col
    exact (same i ⟨Nat.zero_le _, row⟩ j ⟨Nat.zero_le _, col⟩).symm
  · intro same i row j col
    exact (same i row.2 j col.2).symm

theorem firstDifference_none : firstDifference M N s c = none ↔
    ∀ i < M, ∀ j < N, s (.B i j) = c (.B i j) := by
  simp only [firstDifference, List.findSome?_eq_none_iff, mem_counters_one]
  constructor
  · intro same i row j col
    have here := same i ⟨Nat.zero_le _, row⟩ j ⟨Nat.zero_le _, col⟩
    by_contra differ
    rw [if_pos differ] at here
    cases here
  · intro same i row j col
    exact if_neg (not_not_intro (same i row.2 j col.2))

/-- `validate` compares with the transpose and changes nothing. -/
theorem validate_run (positive : 0 < M ∧ 0 < N) (s : Matrices Int32) : ∃ difference,
    validate M N s = some (difference, s) ∧ (difference = none ↔ Mirrored M N s) := by
  obtain ⟨⟨⟨⟩, c⟩, run, written⟩ := wp_correctTrans (M := M) (N := N) (s := cleared s)
  refine ⟨firstDifference M N s c, ?_, ?_⟩
  · rw [validate, if_pos positive, run]
    rfl
  rw [firstDifference_none]
  have transposed : ∀ i < N, ∀ j < M, c (.B j i) = s (.A i j) :=
    (Transposed.of_overwrites written).entries
  constructor
  · intro same i row j col
    rw [same j col i row, transposed i row j col]
  · intro mirrored i row j col
    rw [mirrored j col i row, transposed j col i row]

/-- A function passes exactly when it leaves the transpose of what it leaves in `A`. -/
theorem invoke_run (positive : 0 < M ∧ 0 < N) (run : f.func_ptr M N s = some ((), s')) :
    ∃ accepted, invoke M N f s = some (accepted, s') ∧ (accepted = true ↔ Mirrored M N s') := by
  obtain ⟨difference, validated, none_iff⟩ := validate_run positive s'
  refine ⟨difference.isNone, ?_, ?_⟩
  · rw [invoke, bind_run_of_run run, bind_run_of_run validated]
    rfl
  · rw [← none_iff, Option.isNone_iff_eq_none]

theorem invoke_inversion (ran : invoke M N f s = some (accepted, s')) :
    f.func_ptr M N s = some ((), s') ∧ (accepted = true ↔ Mirrored M N s') := by
  obtain ⟨⟨⟨⟩, s1⟩, run, validated⟩ := Option.bind_eq_some_iff.mp ran
  have positive : 0 < M ∧ 0 < N := by
    by_contra empty
    obtain ⟨difference, checked, -⟩ := Option.bind_eq_some_iff.mp validated
    rw [validate, if_neg empty] at checked
    cases checked
  obtain ⟨verdict, again, mirrored⟩ := invoke_run positive run
  cases again.symm.trans ran
  exact ⟨run, mirrored⟩

/-- Without a selection `tracegen` ends with 0 exactly when all functions pass. -/
theorem invokeAll_iff (positive : 0 < M ∧ 0 < N) {func_list : List TransFunc} {i : Nat} :
    (∃ s', invokeAll M N i func_list s = some (0, s')) ↔ AllMirrored M N s func_list := by
  induction func_list generalizing i s with
  | nil => exact ⟨fun _ => trivial, fun _ => ⟨s, rfl⟩⟩
  | cons f rest ih =>
      constructor
      · rintro ⟨s', ran⟩
        rw [invokeAll] at ran
        obtain ⟨⟨accepted, s1⟩, invoked, -⟩ := Option.bind_eq_some_iff.mp ran
        obtain ⟨run, mirrored⟩ := invoke_inversion invoked
        rw [bind_run_of_run invoked] at ran
        cases accepted with
        | false => cases ran
        | true => exact ⟨s1, run, mirrored.mp rfl, ih.mp ⟨s', ran⟩⟩
      · rintro ⟨s1, run, mirrored, later⟩
        obtain ⟨accepted, invoked, passes⟩ := invoke_run positive run
        obtain rfl := passes.mpr mirrored
        obtain ⟨s', ran⟩ := (ih (i := i + 1)).mpr later
        refine ⟨s', ?_⟩
        rw [invokeAll, bind_run_of_run invoked]
        exact ran

/-- Matrices that fit the arrays are only filled. -/
theorem initMatrix_run (room : N * M ≤ 256 * 256) (s : Matrices Int32) :
    initMatrix M N s = some ((), s) :=
  if_pos room

/-- With a selection it ends with 0 exactly when this function passes. -/
theorem tracegen_selected {func_list : List TransFunc} {i status : Nat}
    (entry : func_list[i]? = some f)
    (ran : tracegen M N func_list (some i) s = some (status, s')) :
    f.func_ptr M N s = some ((), s') ∧ status = if isTranspose M N s' then 0 else i + 1 := by
  have room : N * M ≤ 256 * 256 := by
    by_contra large
    obtain ⟨filled, filling, -⟩ := Option.bind_eq_some_iff.mp ran
    rw [initMatrix, if_neg large] at filling
    cases filling
  rw [tracegen, bind_run_of_run (initMatrix_run room s), invokeSelected, entry] at ran
  dsimp only at ran
  obtain ⟨⟨accepted, s1⟩, invoked, -⟩ := Option.bind_eq_some_iff.mp ran
  obtain ⟨called, mirrored⟩ := invoke_inversion invoked
  rw [← isTranspose_iff] at mirrored
  rw [bind_run_of_run invoked] at ran
  cases accepted with
  | false =>
      cases ran
      exact ⟨called, (if_neg fun same => Bool.noConfusion (mirrored.mpr same)).symm⟩
  | true =>
      cases ran
      exact ⟨called, (if_pos (mirrored.mp rfl)).symm⟩

/-- The exit statuses of `tracegen`: with all functions, with a selected one, and with the
function of `trans.c`. -/
structure Validates (M N : Nat) (s : Matrices Int32) : Prop where
  all : ∀ func_list, (∃ s', tracegen M N func_list none s = some (0, s')) ↔
    AllMirrored M N s func_list
  selected : ∀ func_list i f status s', func_list[i]? = some f →
    tracegen M N func_list (some i) s = some (status, s') →
    f.func_ptr M N s = some ((), s') ∧ status = if isTranspose M N s' then 0 else i + 1
  submission : (N = 32 ∨ N = 64 → 8 ∣ M) → ∀ func_list, registerFunctions [] = some func_list →
    ∃ s', tracegen M N func_list none s = some (0, s') ∧ Transposed M N s s'

/-- Two columns of three entries each, and nothing in `B`. -/
def twoColumns : Matrices Int32
  | .A row col => .ofNat (2 * row + col)
  | .B _ _ => 0

end Validation

end SysProg.Transpose

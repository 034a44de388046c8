import Mathlib.Logic.Function.Basic
import SysProg.Logic.Parts
import SysProg.Malloc.Program

/-!
# The driver of `mdriver.c`

The driver replays a trace against an allocator.  `eval_mm_valid` checks every
answer, `eval_mm_util` measures the payloads against the heap, and
`eval_mm_speed` only makes the calls.  The allocator is a parameter.  A routine
fails where an assertion of the source does, where it leaves an array or reads an
element that was never set, and where an `int` overflows.
-/

namespace SysProg.Mdriver

open Logic Malloc

def ALIGNMENT : Nat := 8

/-- The allocator under test over `memlib.c`, on the states `σ`. -/
structure Package (σ : Type) where
  memResetBrk : Prog σ Unit
  mmInit : Prog σ Int
  mmMalloc : Nat → Prog σ Nat
  mmFree : Nat → Prog σ Unit
  mmRealloc : Nat → Nat → Prog σ Nat
  memHeapLo : σ → Nat
  memHeapHi : σ → Nat
  memHeapsize : σ → Nat
  byte : σ → Nat → UInt8
  memset : Nat → UInt8 → Nat → σ → σ

/-! ## Traces -/

/-- A request of a trace; `index` names the block. -/
inductive Traceop where
  | alloc (index : Nat) (size : Int)
  | realloc (index : Nat) (size : Int)
  | free (index : Nat)
  deriving DecidableEq

/-- A trace file in memory. -/
structure Trace where
  suggHeapsize : Option Int
  numIds : Int
  numOps : Int
  weight : Option Int
  ops : List Traceop
  deriving DecidableEq

/-- The payload of a block, from its first to its last byte. -/
structure Range where
  lo : Nat
  hi : Nat
  deriving DecidableEq

/-- The conversion of an `int` to a `size_t`. -/
def sizeT (size : Int) : Nat := (size % 2 ^ 32).toNat

/-- The number of entries of `size` bytes in an array that is allocated for `n` of
them; the product is computed in a `size_t`. -/
def roomFor (n : Int) (size : Nat) : Nat := sizeT (n * size) / size

/-- The size of a pointer and of a `size_t`. -/
def sizeofPointer : Nat := 4

/-- The number of entries of the arrays `blocks` and `block_sizes`. -/
def Trace.slots (t : Trace) : Nat := roomFor t.numIds sizeofPointer

/-- The value of a `char`, which is signed. -/
def signedChar (b : UInt8) : Int := if b.toNat < 128 then b.toNat else (b.toNat : Int) - 256

/-! ## Complaints -/

/-- What `malloc_error` is called with. -/
inductive Complaint where
  | initFailed
  | mallocFailed
  | reallocFailed
  | notAligned (lo : Nat)
  | outsideHeap (payload : Range) (heapLo heapHi : Nat)
  | overlaps (payload other : Range)
  | notPreserved
  deriving DecidableEq

/-! ## Replaying a trace -/

/-- The state of the allocator, the range list, and the arrays `blocks` and
`block_sizes` of the trace, which start unset; both have `slots` entries. -/
structure Replay (σ : Type) where
  state : σ
  ranges : List Range
  blocks : Nat → Option Nat
  blockSizes : Nat → Option Nat
  slots : Nat

section Replaying

variable {σ : Type} (pkg : Package σ)

/-- A driver routine. -/
abbrev DM (σ : Type) := Prog (Replay σ)

/-- The part that the allocator works on. -/
def statePart : Part (Replay σ) σ := ⟨Replay.state, fun s r => { r with state := s }⟩

/-- The state of the allocator. -/
def stateNow : DM σ σ := fun r => some (r.state, r)

/-- An access to the entry of an index. -/
def inSlots {α : Type} (index : Nat) (access : DM σ α) : DM σ α := fun r =>
  if index < r.slots then access r else none

/-- `trace->blocks[index]` -/
def blockAt (index : Nat) : DM σ Nat :=
  inSlots index fun r => (r.blocks index).map fun p => (p, r)

/-- `trace->block_sizes[index]` -/
def blockSizeAt (index : Nat) : DM σ Nat :=
  inSlots index fun r => (r.blockSizes index).map fun n => (n, r)

/-- `trace->blocks[index] = p;` -/
def setBlock (index p : Nat) : DM σ Unit :=
  inSlots index fun r => some ((), { r with blocks := Function.update r.blocks index (some p) })

/-- `trace->block_sizes[index] = size;` -/
def setBlockSize (index : Nat) (size : Int) : DM σ Unit :=
  inSlots index fun r =>
    some ((), { r with blockSizes := Function.update r.blockSizes index (some (sizeT size)) })

/-- The first payload in the list that the loop of `add_range` finds to overlap. -/
def overlapping (payload : Range) (ranges : List Range) : Option Range :=
  ranges.find? fun p =>
    (p.lo ≤ payload.lo ∧ payload.lo ≤ p.hi) ∨ (p.lo ≤ payload.hi ∧ payload.hi ≤ p.hi)

/-- `add_range`, which returns 1 where there is no complaint. -/
def addRange (lo : Nat) (size : Int) : DM σ (Option Complaint) := fun r =>
  let payload : Range := ⟨lo, lo + (size - 1).toNat⟩
  let heapLo := pkg.memHeapLo r.state
  let heapHi := pkg.memHeapHi r.state
  if ¬ 0 < size then none
  else if ¬ lo % ALIGNMENT = 0 then some (some (.notAligned lo), r)
  else if lo < heapLo ∨ heapHi < lo ∨ payload.hi < heapLo ∨ heapHi < payload.hi then
    some (some (.outsideHeap payload heapLo heapHi), r)
  else
    match overlapping payload r.ranges with
    | some other => some (some (.overlaps payload other), r)
    | none => some (none, { r with ranges := payload :: r.ranges })

/-- `remove_range` -/
def removeRange (lo : Nat) : DM σ Unit := fun r =>
  some ((), { r with ranges := r.ranges.eraseP fun p => p.lo = lo })

/-- `clear_ranges` -/
def clearRanges : DM σ Unit := fun r => some ((), { r with ranges := [] })

/-- `memset(p, index & 0xFF, size);` -/
def fill (p index : Nat) (size : Int) : DM σ Unit := fun r =>
  some ((), { r with state := pkg.memset p (UInt8.ofNat (index % 256)) (sizeT size) r.state })

/-- The bytes that `mm_realloc` must have kept are those of the index. -/
def Preserved (s : σ) (newp index : Nat) (oldsize : Int) : Prop :=
  ∀ j < oldsize.toNat, signedChar (pkg.byte s (newp + j)) = (index % 256 : Nat)

instance (s : σ) (newp index : Nat) (oldsize : Int) :
    Decidable (Preserved pkg s newp index oldsize) :=
  inferInstanceAs (Decidable (∀ j < oldsize.toNat, _))

/-- The case `ALLOC` of `eval_mm_valid`. -/
def checkAlloc (index : Nat) (size : Int) : DM σ (Option Complaint) := do
  let p ← statePart.run (pkg.mmMalloc (sizeT size))
  if p = NULL then pure (some .mallocFailed)
  else do
    match ← addRange pkg p size with
    | some complaint => pure (some complaint)
    | none => do
        fill pkg p index size
        setBlock index p
        setBlockSize index size
        pure none

/-- The case `REALLOC` of `eval_mm_valid`. -/
def checkRealloc (index : Nat) (size : Int) : DM σ (Option Complaint) := do
  let oldp ← blockAt index
  let newp ← statePart.run (pkg.mmRealloc oldp (sizeT size))
  if newp = NULL then pure (some .reallocFailed)
  else do
    removeRange oldp
    match ← addRange pkg newp size with
    | some complaint => pure (some complaint)
    | none => do
        let oldsize := toInt (← blockSizeAt index)
        let oldsize := if size < oldsize then size else oldsize
        if ¬ Preserved pkg (← stateNow) newp index oldsize then pure (some .notPreserved)
        else do
          fill pkg newp index size
          setBlock index newp
          setBlockSize index size
          pure none

/-- The case `FREE` of `eval_mm_valid`. -/
def checkFree (index : Nat) : DM σ (Option Complaint) := do
  let p ← blockAt index
  removeRange p
  statePart.run (pkg.mmFree p)
  pure none

/-- A round of the loop of `eval_mm_valid`. -/
def checkOp : Traceop → DM σ (Option Complaint)
  | .alloc index size => checkAlloc pkg index size
  | .realloc index size => checkRealloc pkg index size
  | .free index => checkFree pkg index

/-- The loop of `eval_mm_valid` from the request `i` on; a complaint comes with the
number of its request. -/
def checkOps : Nat → List Traceop → DM σ (Option (Nat × Complaint))
  | _, [] => pure none
  | i, op :: rest => do
      match ← checkOp pkg op with
      | some complaint => pure (some (i, complaint))
      | none => checkOps (i + 1) rest

/-- `eval_mm_valid`, which returns 1 where there is no complaint. -/
def evalMmValid (ops : List Traceop) : DM σ (Option (Nat × Complaint)) := do
  statePart.run pkg.memResetBrk
  clearRanges
  if (← statePart.run pkg.mmInit) < 0 then pure (some (0, .initFailed))
  else checkOps pkg 0 ops

/-! ## Utilization and speed -/

/-- An `int` that has not overflowed. -/
def inInt (x : Int) : DM σ Int := if -2 ^ 31 ≤ x ∧ x < 2 ^ 31 then pure x else fun _ => none

/-- The two totals of `eval_mm_util`. -/
structure Totals where
  maxTotalSize : Int
  totalSize : Int

/-- `total_size` changes, and `max_total_size` with it. -/
def grow (t : Totals) (difference : Int) : DM σ Totals := do
  let totalSize ← inInt (t.totalSize + difference)
  pure ⟨if totalSize > t.maxTotalSize then totalSize else t.maxTotalSize, totalSize⟩

/-- A round of the loop of `eval_mm_util`; nothing is returned where the driver
ends with `app_error`. -/
def utilOp (t : Totals) : Traceop → DM σ (Option Totals)
  | .alloc index size => do
      let p ← statePart.run (pkg.mmMalloc (sizeT size))
      if p = NULL then pure none
      else do
        setBlock index p
        setBlockSize index size
        let t ← grow t size
        pure (some t)
  | .realloc index newsize => do
      let oldsize := toInt (← blockSizeAt index)
      let oldp ← blockAt index
      let newp ← statePart.run (pkg.mmRealloc oldp (sizeT newsize))
      if newp = NULL then pure none
      else do
        setBlock index newp
        setBlockSize index newsize
        let difference ← inInt (newsize - oldsize)
        let t ← grow t difference
        pure (some t)
  | .free index => do
      let size := toInt (← blockSizeAt index)
      let p ← blockAt index
      statePart.run (pkg.mmFree p)
      let totalSize ← inInt (t.totalSize - size)
      pure (some { t with totalSize := totalSize })

/-- The loop of `eval_mm_util`. -/
def utilOps (t : Totals) : List Traceop → DM σ (Option Totals)
  | [] => pure (some t)
  | op :: rest => do
      match ← utilOp pkg t op with
      | none => pure none
      | some t => utilOps t rest

/-- `eval_mm_util`: the numerator and the denominator of the result. -/
def evalMmUtil (ops : List Traceop) : DM σ (Option (Int × Nat)) := do
  statePart.run pkg.memResetBrk
  if (← statePart.run pkg.mmInit) < 0 then pure none
  else do
    match ← utilOps pkg ⟨0, 0⟩ ops with
    | none => pure none
    | some t => pure (some (t.maxTotalSize, pkg.memHeapsize (← stateNow)))

/-- A round of the loop of `eval_mm_speed`, which returns false where the driver
ends with `app_error`. -/
def speedOp : Traceop → DM σ Bool
  | .alloc index size => do
      let p ← statePart.run (pkg.mmMalloc (sizeT size))
      if p = NULL then pure false
      else do
        setBlock index p
        pure true
  | .realloc index newsize => do
      let oldp ← blockAt index
      let newp ← statePart.run (pkg.mmRealloc oldp (sizeT newsize))
      if newp = NULL then pure false
      else do
        setBlock index newp
        pure true
  | .free index => do
      let block ← blockAt index
      statePart.run (pkg.mmFree block)
      pure true

/-- The loop of `eval_mm_speed`. -/
def speedOps : List Traceop → DM σ Bool
  | [] => pure true
  | op :: rest => do
      if ← speedOp pkg op then speedOps rest else pure false

/-- `eval_mm_speed` -/
def evalMmSpeed (ops : List Traceop) : DM σ Bool := do
  statePart.run pkg.memResetBrk
  if (← statePart.run pkg.mmInit) < 0 then pure false
  else speedOps pkg ops

/-! ## The loop of `main` -/

/-- What `main` records of a trace. -/
inductive Stats where
  | invalid (opnum : Nat) (complaint : Complaint)
  | measured (maxTotalSize : Int) (heapsize : Nat)

/-- The arrays that `read_trace` allocates. -/
def freshArrays (slots : Nat) : DM σ Unit := fun r =>
  some ((), { r with blocks := fun _ => none, blockSizes := fun _ => none, slots := slots })

/-- `eval_mm_speed`, called several times by `fsecs`. -/
def speedRuns (ops : List Traceop) : Nat → DM σ Bool
  | 0 => pure true
  | calls + 1 => do
      if ← evalMmSpeed pkg ops then speedRuns ops calls else pure false

/-- The body of the loop of `main`, where `fsecs` makes the given number of calls;
nothing is returned where the driver ends with `app_error`. -/
def runTrace (calls : Nat) (trace : Trace) : DM σ (Option Stats) := do
  freshArrays trace.slots
  match ← evalMmValid pkg trace.ops with
  | some (opnum, complaint) => pure (some (.invalid opnum complaint))
  | none => do
      match ← evalMmUtil pkg trace.ops with
      | none => pure none
      | some (maxTotalSize, heapsize) => do
          if ← speedRuns pkg trace.ops calls then pure (some (.measured maxTotalSize heapsize))
          else pure none

/-- The loop of `main` over the traces, each with the number of its calls. -/
def runTraces : List (Nat × Trace) → DM σ (Option (List Stats))
  | [] => pure (some [])
  | (calls, trace) :: rest => do
      match ← runTrace pkg calls trace with
      | none => pure none
      | some stats => do
          match ← runTraces rest with
          | none => pure none
          | some later => pure (some (stats :: later))

end Replaying

/-! ## The allocator of `mm.c` -/

/-- `memset` on the storage. -/
def setBytes (m : Mem) (p : Nat) (v : UInt8) (n : Nat) : Mem := fun i =>
  if p ≤ i ∧ i < p + n then v else m i

/-- `mm.c` over `memlib.c`. -/
def mm : Package Heap where
  memResetBrk := Malloc.memResetBrk
  mmInit := Malloc.mmInit
  mmMalloc := Malloc.mmMalloc
  mmFree := Malloc.mmFree
  mmRealloc := Malloc.mmRealloc
  memHeapLo := Heap.memStartBrk
  memHeapHi h := h.memBrk - 1
  memHeapsize h := h.memBrk - h.memStartBrk
  byte h := h.mem
  memset p v n h := h.withMem (setBytes h.mem p v n)

end SysProg.Mdriver

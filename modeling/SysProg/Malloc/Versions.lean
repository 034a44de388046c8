import SysProg.Malloc.Program

/-!
# The versions of the allocator

`mm_explicit_realloc_clean.c` and `mm_explicit_realloc.c` differ from `mm.c` in
two places: they coalesce the remainder after absorbing the next block, and
the second of them decides by a subtraction whether `place` splits a block.
The routines around these places are shared and take them as parameters.
-/

namespace SysProg.Malloc

/-- `mm_malloc`, over a routine that places the block. -/
def mallocWith (place : Nat → Nat → MM Unit) (size : Nat) : MM Nat := do
  if size = 0 then pure NULL
  else do
    let bsize := add32 (align size) DSIZE
    let bp ← findFit bsize
    if bp ≠ NULL then do
      place bp bsize
      pure bp
    else do
      let extendsize := max bsize CHUNKSIZE
      let bp ← extendHeap (extendsize / WSIZE)
      if bp = NULL then pure NULL
      else do
        place bp bsize
        pure bp

/-- The last branch of `mm_realloc`, over an `mm_malloc`. -/
def moveWith (malloc : Nat → MM Nat) (ptr size oldbsize newbsize : Nat) : MM Nat := do
  let newptr ← malloc size
  if newptr = NULL then pure NULL
  else do
    let copysize := sub32 (min oldbsize newbsize) DSIZE
    memmove newptr ptr copysize
    mmFree ptr
    pure newptr

/-- `mm_realloc`, over an `mm_malloc` and a branch that absorbs the next block. -/
def reallocWith (malloc : Nat → MM Nat) (absorbNext : Nat → Nat → Nat → MM Nat)
    (ptr size : Nat) : MM Nat := do
  if ptr = NULL then malloc size
  else if size = 0 then do
    mmFree ptr
    pure NULL
  else do
    let oldbsize ← getSize (hdrp ptr)
    let newbsize := add32 (align size) DSIZE
    let prevsize ← getSize (← ftrp (← prevBlkp ptr))
    let nextsize ← getSize (← ftrp (← nextBlkp ptr))
    if add32 newbsize MIN_BSIZE ≤ oldbsize then reallocShrink ptr oldbsize newbsize
    else if oldbsize = newbsize then pure ptr
    else do
      let prevAlloc ← getAlloc (← ftrp (← prevBlkp ptr))
      if ¬ prevAlloc ≠ 0 ∧ add32 newbsize MIN_BSIZE ≤ add32 oldbsize prevsize then
        reallocAbsorbPrev ptr newbsize (add32 oldbsize prevsize)
      else do
        let nextAlloc ← getAlloc (hdrp (← nextBlkp ptr))
        if ¬ nextAlloc ≠ 0 ∧ add32 newbsize MIN_BSIZE ≤ add32 oldbsize nextsize then
          absorbNext ptr newbsize (add32 oldbsize nextsize)
        else moveWith malloc ptr size oldbsize newbsize

theorem mmMalloc_eq : mmMalloc = mallocWith place := rfl

theorem reallocMove_eq : reallocMove = moveWith mmMalloc := rfl

theorem mmRealloc_eq : mmRealloc = reallocWith mmMalloc reallocAbsorbNext := rfl

/-! ## `mm_explicit_realloc_clean.c` -/

namespace Clean

/-- The branch of `mm_realloc` that absorbs the next block, with `coalesce`. -/
def reallocAbsorbNext (ptr newbsize totalbsize : Nat) : MM Nat := do
  cutOut (← nextBlkp ptr)
  putSplitTags ptr newbsize (sub32 totalbsize newbsize)
  let _ ← setRoot (← coalesce (← nextBlkp ptr))
  pure ptr

/-- `mm_malloc`, the same text as in `mm.c`. -/
def mmMalloc : Nat → MM Nat := mallocWith place

/-- `mm_realloc`. -/
def mmRealloc : Nat → Nat → MM Nat := reallocWith mmMalloc reallocAbsorbNext

end Clean

/-! ## `mm_explicit_realloc.c` -/

namespace Explicit

/-- `place`, with the difference of the sizes in its test. -/
def place (bp bsize : Nat) : MM Unit := do
  let initsize ← getSize (hdrp bp)
  cutOut bp
  if sub32 initsize bsize < MIN_BSIZE then putTags bp initsize 1
  else do
    putSplitTags bp bsize (sub32 initsize bsize)
    if (← rootBp) = bp then do
      let _ ← setRoot (← nextBlkp bp)
      pure ()
    else do
      let _ ← setRoot (← nextBlkp bp)
      pure ()

/-- `mm_malloc`. -/
def mmMalloc : Nat → MM Nat := mallocWith place

/-- The branch of `mm_realloc` that absorbs the next block, the same text as in
`mm_explicit_realloc_clean.c`. -/
def reallocAbsorbNext : Nat → Nat → Nat → MM Nat := Clean.reallocAbsorbNext

/-- `mm_realloc`. -/
def mmRealloc : Nat → Nat → MM Nat := reallocWith mmMalloc reallocAbsorbNext

end Explicit

/-! ## The interfaces -/

/-- What a version of the allocator exports. -/
structure Version where
  mmInit : MM Int
  mmMalloc : Nat → MM Nat
  mmFree : Nat → MM Unit
  mmRealloc : Nat → Nat → MM Nat

namespace Version

/-- `mm.c`. -/
def final : Version := ⟨Malloc.mmInit, Malloc.mmMalloc, Malloc.mmFree, Malloc.mmRealloc⟩

/-- `mm_explicit_realloc_clean.c`. -/
def clean : Version := ⟨Malloc.mmInit, Clean.mmMalloc, Malloc.mmFree, Clean.mmRealloc⟩

/-- `mm_explicit_realloc.c`. -/
def explicit : Version := ⟨Malloc.mmInit, Explicit.mmMalloc, Malloc.mmFree, Explicit.mmRealloc⟩

end Version

end SysProg.Malloc

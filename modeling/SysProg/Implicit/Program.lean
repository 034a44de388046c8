import SysProg.Malloc.Program

/-!
# The allocator of `mm_implicit.c`

The first version of the allocator keeps no free list: it finds its blocks by
walking over all of them.  The storage, the tags and the access macros are
those of `mm.c`.  The one global is kept where the heap record keeps the
prologue pointer, and the root pointer is not used.
-/

namespace SysProg.Implicit

open Logic Malloc

/-- The global `heap_listp`. -/
def heapListp : MM Nat := prolBp

def setHeapListp (bp : Nat) : MM Unit := setProlBp bp

/-- `memcpy(dst, src, n)`; a copy between ranges that overlap is undefined. -/
def memcpy (dst src n : Nat) : MM Unit := fun h =>
  if dst + n ≤ src ∨ src + n ≤ dst then memmove dst src n h else none

/-- The case of `coalesce` in which both neighbours are free. -/
def coalesceBoth (bp size : Nat) : MM Nat := do
  let prevSize ← getSize (hdrp (← prevBlkp bp))
  let nextSize ← getSize (← ftrp (← nextBlkp bp))
  let size := add32 size (add32 prevSize nextSize)
  putWord (hdrp (← prevBlkp bp)) (pack size 0)
  putWord (← ftrp (← nextBlkp bp)) (pack size 0)
  prevBlkp bp

/-- The case of `coalesce` in which only the next block is free. -/
def coalesceNext (bp size : Nat) : MM Nat := do
  let size := add32 size (← getSize (← ftrp (← nextBlkp bp)))
  putTags bp size 0
  pure bp

/-- The case of `coalesce` in which only the previous block is free. -/
def coalescePrev (bp size : Nat) : MM Nat := do
  let size := add32 size (← getSize (hdrp (← prevBlkp bp)))
  putWord (← ftrp bp) (pack size 0)
  putWord (hdrp (← prevBlkp bp)) (pack size 0)
  prevBlkp bp

/-- `coalesce`. -/
def coalesce (bp : Nat) : MM Nat := do
  let prevAlloc ← getAlloc (← ftrp (← prevBlkp bp))
  let nextAlloc ← getAlloc (hdrp (← nextBlkp bp))
  let size ← getSize (hdrp bp)
  if ¬ prevAlloc ≠ 0 ∧ ¬ nextAlloc ≠ 0 then coalesceBoth bp size
  else if prevAlloc ≠ 0 ∧ ¬ nextAlloc ≠ 0 then coalesceNext bp size
  else if ¬ prevAlloc ≠ 0 ∧ nextAlloc ≠ 0 then coalescePrev bp size
  else pure bp

/-- `extend_heap`. -/
def extendHeap (words : Nat) : MM Nat := do
  let size := if words % 2 ≠ 0 then add32 words 1 * WSIZE % 2 ^ 32 else words * WSIZE % 2 ^ 32
  match ← memSbrk (toInt size) with
  | none => pure NULL
  | some bp => do
      putTags bp size 0
      putWord (hdrp (← nextBlkp bp)) (pack 0 1)
      coalesce bp

/-- The loop of `find_fit`, from `bp` on and cut off after `fuel` rounds. -/
def findFitFrom (bsize : Nat) : Nat → Nat → MM Nat
  | 0, _ => fun _ => none
  | fuel + 1, bp => do
      if 0 < (← getSize (hdrp bp)) then do
        if ¬ (← getAlloc (hdrp bp)) ≠ 0 ∧ bsize ≤ (← getSize (hdrp bp)) then pure bp
        else findFitFrom bsize fuel (← nextBlkp bp)
      else pure NULL

/-- `find_fit`; the walk passes fewer blocks than the heap has bytes. -/
def findFit (bsize : Nat) : MM Nat := fun h =>
  findFitFrom bsize (h.memBrk - h.memStartBrk) h.prolBp h

/-- `place`. -/
def place (bp bsize : Nat) : MM Unit := do
  let initsize ← getSize (hdrp bp)
  if sub32 initsize bsize < 2 * DSIZE then putTags bp initsize 1
  else putSplitTags bp bsize (sub32 initsize bsize)

/-! ## The interface -/

/-- `mm_init`. -/
def mmInit : MM Int := do
  match ← memSbrk (toInt (4 * WSIZE)) with
  | none => do
      setHeapListp (2 ^ 32 - 1)
      pure (-1)
  | some base => do
      setHeapListp base
      putWord (← heapListp) 0
      putWord ((← heapListp) + 1 * WSIZE) (pack DSIZE 1)
      putWord ((← heapListp) + 2 * WSIZE) (pack DSIZE 1)
      putWord ((← heapListp) + 3 * WSIZE) (pack 0 1)
      setHeapListp ((← heapListp) + 2 * WSIZE)
      if (← extendHeap (CHUNKSIZE / WSIZE)) = NULL then pure (-1) else pure 0

/-- `mm_malloc`. -/
def mmMalloc (size : Nat) : MM Nat := do
  if size = 0 then pure NULL
  else do
    let bsize := add32 (align size) DSIZE
    let bp ← findFit bsize
    if bp ≠ NULL then do
      place bp bsize
      pure bp
    else do
      let extendsize := max bsize CHUNKSIZE
      let bp ← extendHeap (extendsize / WSIZE)
      if bp = NULL then pure NULL
      else do
        place bp bsize
        pure bp

/-- `mm_free`. -/
def mmFree (ptr : Nat) : MM Unit := do
  if ptr = NULL then pure ()
  else do
    let size ← getSize (hdrp ptr)
    putTags ptr size 0
    let _ ← coalesce ptr
    pure ()

/-- `mm_realloc`. -/
def mmRealloc (ptr size : Nat) : MM Nat := do
  let newptr ← mmMalloc size
  if newptr = NULL then pure NULL
  else do
    let copysize ← getSize (hdrp ptr)
    let copysize := if size < copysize then size else copysize
    memcpy newptr ptr copysize
    mmFree ptr
    pure newptr

end SysProg.Implicit

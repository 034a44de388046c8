import Mathlib.Algebra.Group.Int.Defs
import SysProg.Logic.ByteMemory
import SysProg.Logic.StateOption

/-!
# The allocator of `mm.c` over the storage of `memlib.c`

Pointers are plain naturals, since no address wraps around; `size_t` values
and the words stored in the heap are taken modulo `2 ^ 32`.  Memory is the
whole storage, so a read past the break finds whatever the storage holds.
With `checked` set, every access outside the current heap fails instead.
-/

namespace SysProg.Malloc

open Logic

/-- The storage, the break and limits of `memlib.c`, and the two global
pointers of `mm.c`. -/
structure Heap where
  mem : Mem
  memStartBrk : Nat
  memBrk : Nat
  memMaxAddr : Nat
  prolBp : Nat
  rootBp : Nat
  checked : Bool

/-- An allocator routine. -/
abbrev MM := Prog Heap

namespace Heap

/-- An access to `n` bytes at `p` is let through. -/
def Accessible (h : Heap) (p n : Nat) : Prop :=
  h.checked = true → 0 < n → h.memStartBrk ≤ p ∧ p + n ≤ h.memBrk

instance (h : Heap) (p n : Nat) : Decidable (h.Accessible p n) :=
  inferInstanceAs (Decidable (_ → _))

/-- The heap with another storage. -/
def withMem (h : Heap) (mem : Mem) : Heap := { h with mem := mem }

@[simp] theorem withMem_mem (h : Heap) (m : Mem) : (h.withMem m).mem = m := rfl

@[simp] theorem withMem_memStartBrk (h : Heap) (m : Mem) :
    (h.withMem m).memStartBrk = h.memStartBrk := rfl

@[simp] theorem withMem_memBrk (h : Heap) (m : Mem) : (h.withMem m).memBrk = h.memBrk := rfl

@[simp] theorem withMem_memMaxAddr (h : Heap) (m : Mem) :
    (h.withMem m).memMaxAddr = h.memMaxAddr := rfl

@[simp] theorem withMem_prolBp (h : Heap) (m : Mem) : (h.withMem m).prolBp = h.prolBp := rfl

@[simp] theorem withMem_rootBp (h : Heap) (m : Mem) : (h.withMem m).rootBp = h.rootBp := rfl

@[simp] theorem withMem_checked (h : Heap) (m : Mem) : (h.withMem m).checked = h.checked := rfl

@[simp] theorem withMem_withMem (h : Heap) (m m' : Mem) :
    (h.withMem m).withMem m' = h.withMem m' := rfl

end Heap

/-! ## `size_t` arithmetic -/

def add32 (a b : Nat) : Nat := (a + b) % 2 ^ 32

def sub32 (a b : Nat) : Nat := (a + 2 ^ 32 - b) % 2 ^ 32

/-- The conversion of a `size_t` to the `int` parameter of `mem_sbrk`. -/
def toInt (a : Nat) : Int := if a < 2 ^ 31 then a else (a : Int) - 2 ^ 32

/-- The mask `~0x7`. -/
def sizeMask : Nat := 0xFFFFFFF8

/-- `ALIGN(size)`. -/
def align (size : Nat) : Nat := add32 size 7 &&& sizeMask

def WSIZE : Nat := 4
def DSIZE : Nat := 8
def CHUNKSIZE : Nat := 4096
def MIN_BSIZE : Nat := 2 * DSIZE
def NULL : Nat := 0

/-- `PACK(size, alloc)`. -/
def pack (size alloc : Nat) : Nat := size ||| alloc

/-! ## `memlib.c` -/

/-- `mem_sbrk`; `none` is the pointer `(void *)-1`. -/
def memSbrk (incr : Int) : MM (Option Nat) := fun h =>
  if incr < 0 ∨ (h.memMaxAddr : Int) < h.memBrk + incr then some (none, h)
  else some (some h.memBrk, { h with memBrk := h.memBrk + incr.toNat })

/-- `mem_reset_brk`. -/
def memResetBrk : MM Unit := fun h => some ((), { h with memBrk := h.memStartBrk })

/-! ## The access macros -/

/-- `GET(p)`. -/
def getWord (p : Nat) : MM Nat := fun h =>
  if h.Accessible p 4 then some (word h.mem p, h) else none

/-- `PUT(p, val)`. -/
def putWord (p val : Nat) : MM Unit := fun h =>
  if h.Accessible p 4 then some ((), h.withMem (setWord h.mem p val)) else none

/-- `memmove(dst, src, n)`, and `memcpy` where the two ranges are disjoint. -/
def memmove (dst src n : Nat) : MM Unit := fun h =>
  if h.Accessible dst n ∧ h.Accessible src n then
    some ((), h.withMem (copyBytes h.mem dst src n))
  else none

/-- The global `prol_bp`. -/
def prolBp : MM Nat := fun h => some (h.prolBp, h)

/-- The global `root_bp`. -/
def rootBp : MM Nat := fun h => some (h.rootBp, h)

def setProlBp (bp : Nat) : MM Unit := fun h => some ((), { h with prolBp := bp })

def setRootBp (bp : Nat) : MM Unit := fun h => some ((), { h with rootBp := bp })

def getSize (p : Nat) : MM Nat := do pure ((← getWord p) &&& sizeMask)

def getAlloc (p : Nat) : MM Nat := do pure ((← getWord p) &&& 1)

def hdrp (bp : Nat) : Nat := bp - WSIZE

def ftrp (bp : Nat) : MM Nat := do pure (bp + (← getSize (hdrp bp)) - DSIZE)

def nextBlkp (bp : Nat) : MM Nat := do pure (bp + (← getSize (bp - WSIZE)))

def prevBlkp (bp : Nat) : MM Nat := do pure (bp - (← getSize (bp - DSIZE)))

def succp (bp : Nat) : Nat := bp

def predp (bp : Nat) : Nat := bp + WSIZE

def nextFreeblkp (bp : Nat) : MM Nat := getWord (succp bp)

def prevFreeblkp (bp : Nat) : MM Nat := getWord (predp bp)

/-- The pair of writes `PUT(HDRP(bp), PACK(size, alloc)); PUT(FTRP(bp), PACK(size, alloc))`. -/
def putTags (bp size alloc : Nat) : MM Unit := do
  putWord (hdrp bp) (pack size alloc)
  putWord (← ftrp bp) (pack size alloc)

/-- The four tag writes by which `place` and `mm_realloc` cut an allocated
block of `size` bytes from the front of a block, `rest` bytes staying free. -/
def putSplitTags (bp size rest : Nat) : MM Unit := do
  putTags bp size 1
  putWord (hdrp (← nextBlkp bp)) (pack rest 0)
  putWord (← ftrp (← nextBlkp bp)) (pack rest 0)

/-! ## The free list -/

/-- `set_root`. -/
def setRoot (bp : Nat) : MM Nat := do
  if bp = (← rootBp) then pure bp
  else do
    putWord (predp (← rootBp)) bp
    putWord (succp bp) (← rootBp)
    putWord (predp bp) 0
    setRootBp bp
    pure bp

/-- `cut_out`. -/
def cutOut (bp : Nat) : MM Unit := do
  if bp = (← rootBp) then do
    setRootBp (← nextFreeblkp bp)
    putWord (predp (← rootBp)) 0
  else do
    putWord (succp (← prevFreeblkp bp)) (← getWord (succp bp))
    putWord (predp (← nextFreeblkp bp)) (← getWord (predp bp))

/-- The case of `coalesce` in which only the next block is free. -/
def coalesceNext (bp size : Nat) : MM Nat := do
  cutOut (← nextBlkp bp)
  let size := add32 size (← getSize (← ftrp (← nextBlkp bp)))
  putTags bp size 0
  pure bp

/-- The case of `coalesce` in which only the previous block is free. -/
def coalescePrev (bp size : Nat) : MM Nat := do
  cutOut (← prevBlkp bp)
  let size := add32 size (← getSize (hdrp (← prevBlkp bp)))
  putWord (← ftrp bp) (pack size 0)
  putWord (hdrp (← prevBlkp bp)) (pack size 0)
  prevBlkp bp

/-- The case of `coalesce` in which both neighbours are free. -/
def coalesceBoth (bp size : Nat) : MM Nat := do
  cutOut (← prevBlkp bp)
  cutOut (← nextBlkp bp)
  let prevSize ← getSize (hdrp (← prevBlkp bp))
  let nextSize ← getSize (← ftrp (← nextBlkp bp))
  let size := add32 size (add32 prevSize nextSize)
  putWord (hdrp (← prevBlkp bp)) (pack size 0)
  putWord (← ftrp (← nextBlkp bp)) (pack size 0)
  prevBlkp bp

/-- `coalesce`. -/
def coalesce (bp : Nat) : MM Nat := do
  let prevAlloc ← getAlloc (← ftrp (← prevBlkp bp))
  let nextAlloc ← getAlloc (hdrp (← nextBlkp bp))
  let size ← getSize (hdrp bp)
  if prevAlloc ≠ 0 ∧ nextAlloc ≠ 0 then pure bp
  else if prevAlloc ≠ 0 ∧ ¬ nextAlloc ≠ 0 then coalesceNext bp size
  else if ¬ prevAlloc ≠ 0 ∧ nextAlloc ≠ 0 then coalescePrev bp size
  else coalesceBoth bp size

/-- `extend_heap`. -/
def extendHeap (words : Nat) : MM Nat := do
  let size := if words % 2 ≠ 0 then add32 words 1 * WSIZE % 2 ^ 32 else words * WSIZE % 2 ^ 32
  match ← memSbrk (toInt size) with
  | none => pure NULL
  | some bp => do
      putTags bp size 0
      putWord (hdrp (← nextBlkp bp)) (pack 0 1)
      setRoot (← coalesce bp)

/-- The loop of `find_fit`, from `bp` on and cut off after `fuel` rounds. -/
def findFitFrom (bsize : Nat) : Nat → Nat → MM Nat
  | 0, _ => fun _ => none
  | fuel + 1, bp => do
      if bp = (← prolBp) then pure NULL
      else if bsize ≤ (← getSize (hdrp bp)) then pure bp
      else findFitFrom bsize fuel (← nextFreeblkp bp)

/-- `find_fit`; the list has fewer nodes than the heap has bytes. -/
def findFit (bsize : Nat) : MM Nat := fun h =>
  findFitFrom bsize (h.memBrk - h.memStartBrk) h.rootBp h

/-- `place`. -/
def place (bp bsize : Nat) : MM Unit := do
  let initsize ← getSize (hdrp bp)
  cutOut bp
  if initsize < add32 bsize MIN_BSIZE then putTags bp initsize 1
  else do
    putSplitTags bp bsize (sub32 initsize bsize)
    if (← rootBp) = bp then do
      let _ ← setRoot (← nextBlkp bp)
      pure ()
    else do
      let _ ← setRoot (← nextBlkp bp)
      pure ()

/-! ## The interface -/

/-- `mm_init`. -/
def mmInit : MM Int := do
  match ← memSbrk (toInt (6 * WSIZE)) with
  | none => do
      setProlBp (2 ^ 32 - 1)
      pure (-1)
  | some base => do
      putWord base 0
      let bp := base + 2 * WSIZE
      setProlBp bp
      putTags bp MIN_BSIZE 1
      putWord (succp bp) 0
      putWord (predp bp) (← nextBlkp bp)
      putWord (hdrp (← nextBlkp bp)) (pack 0 1)
      setRootBp bp
      if (← extendHeap (CHUNKSIZE / WSIZE)) = NULL then pure (-1) else pure 0

/-- `mm_malloc`. -/
def mmMalloc (size : Nat) : MM Nat := do
  if size = 0 then pure NULL
  else do
    let bsize := add32 (align size) DSIZE
    let bp ← findFit bsize
    if bp ≠ NULL then do
      place bp bsize
      pure bp
    else do
      let extendsize := max bsize CHUNKSIZE
      let bp ← extendHeap (extendsize / WSIZE)
      if bp = NULL then pure NULL
      else do
        place bp bsize
        pure bp

/-- `mm_free`. -/
def mmFree (ptr : Nat) : MM Unit := do
  if ptr = NULL then pure ()
  else do
    let size ← getSize (hdrp ptr)
    putTags ptr size 0
    let _ ← setRoot (← coalesce ptr)
    pure ()

/-- The branch of `mm_realloc` that splits the old block. -/
def reallocShrink (ptr oldbsize newbsize : Nat) : MM Nat := do
  putSplitTags ptr newbsize (sub32 oldbsize newbsize)
  let _ ← setRoot (← coalesce (← nextBlkp ptr))
  pure ptr

/-- The branch of `mm_realloc` that absorbs the previous block. -/
def reallocAbsorbPrev (ptr newbsize totalbsize : Nat) : MM Nat := do
  let newptr ← prevBlkp ptr
  cutOut newptr
  memmove newptr ptr (sub32 newbsize DSIZE)
  putSplitTags newptr newbsize (sub32 totalbsize newbsize)
  let _ ← setRoot (← coalesce (← nextBlkp newptr))
  pure newptr

/-- The branch of `mm_realloc` that absorbs the next block. -/
def reallocAbsorbNext (ptr newbsize totalbsize : Nat) : MM Nat := do
  cutOut (← nextBlkp ptr)
  putSplitTags ptr newbsize (sub32 totalbsize newbsize)
  let _ ← setRoot (← nextBlkp ptr)
  pure ptr

/-- The last branch of `mm_realloc`: allocate, copy and free. -/
def reallocMove (ptr size oldbsize newbsize : Nat) : MM Nat := do
  let newptr ← mmMalloc size
  if newptr = NULL then pure NULL
  else do
    let copysize := sub32 (min oldbsize newbsize) DSIZE
    memmove newptr ptr copysize
    mmFree ptr
    pure newptr

/-- `mm_realloc`. -/
def mmRealloc (ptr size : Nat) : MM Nat := do
  if ptr = NULL then mmMalloc size
  else if size = 0 then do
    mmFree ptr
    pure NULL
  else do
    let oldbsize ← getSize (hdrp ptr)
    let newbsize := add32 (align size) DSIZE
    let prevsize ← getSize (← ftrp (← prevBlkp ptr))
    let nextsize ← getSize (← ftrp (← nextBlkp ptr))
    if add32 newbsize MIN_BSIZE ≤ oldbsize then reallocShrink ptr oldbsize newbsize
    else if oldbsize = newbsize then pure ptr
    else do
      let prevAlloc ← getAlloc (← ftrp (← prevBlkp ptr))
      if ¬ prevAlloc ≠ 0 ∧ add32 newbsize MIN_BSIZE ≤ add32 oldbsize prevsize then
        reallocAbsorbPrev ptr newbsize (add32 oldbsize prevsize)
      else do
        let nextAlloc ← getAlloc (hdrp (← nextBlkp ptr))
        if ¬ nextAlloc ≠ 0 ∧ add32 newbsize MIN_BSIZE ≤ add32 oldbsize nextsize then
          reallocAbsorbNext ptr newbsize (add32 oldbsize nextsize)
        else reallocMove ptr size oldbsize newbsize

end SysProg.Malloc

import SysProg.Logic.Within
import SysProg.Malloc.Versions

/-!
# The heap never shrinks

No routine of an allocator moves the break down or touches the limits of the
storage, wherever it is called and with whatever arguments.
-/

namespace SysProg.Malloc

open Logic

/-- The heap may have grown in the same storage. -/
structure Grown (h h' : Heap) : Prop where
  start : h'.memStartBrk = h.memStartBrk
  limit : h'.memMaxAddr = h.memMaxAddr
  checked : h'.checked = h.checked
  brk : h.memBrk ≤ h'.memBrk

instance : IsPreorder Heap Grown where
  refl _ := ⟨rfl, rfl, rfl, Nat.le_refl _⟩
  trans _ _ _ first second :=
    ⟨second.start.trans first.start, second.limit.trans first.limit,
      second.checked.trans first.checked, Nat.le_trans first.brk second.brk⟩

/-- A routine that never shrinks the heap. -/
abbrev Grows {α : Type} (x : MM α) : Prop := Within Grown x

/-! ## The macros -/

section Macros

theorem grows_memSbrk (incr : Int) : Grows (memSbrk incr) := by
  intro h r h' run
  unfold memSbrk at run
  split at run
  · cases run
    exact Std.Refl.refl h
  · cases run
    exact ⟨rfl, rfl, rfl, Nat.le_add_right _ _⟩

theorem grows_getWord (p : Nat) : Grows (getWord p) := by
  refine .reading fun h r h' run => ?_
  unfold getWord at run
  split at run
  · cases run
    rfl
  · cases run

theorem grows_putWord (p val : Nat) : Grows (putWord p val) := by
  intro h r h' run
  unfold putWord at run
  split at run
  · cases run
    exact ⟨rfl, rfl, rfl, Nat.le_refl _⟩
  · cases run

theorem grows_memmove (dst src n : Nat) : Grows (memmove dst src n) := by
  intro h r h' run
  unfold memmove at run
  split at run
  · cases run
    exact ⟨rfl, rfl, rfl, Nat.le_refl _⟩
  · cases run

theorem grows_prolBp : Grows prolBp := fun _ _ _ run => by
  cases run
  exact ⟨rfl, rfl, rfl, Nat.le_refl _⟩

theorem grows_rootBp : Grows rootBp := fun _ _ _ run => by
  cases run
  exact ⟨rfl, rfl, rfl, Nat.le_refl _⟩

theorem grows_setProlBp (bp : Nat) : Grows (setProlBp bp) := fun _ _ _ run => by
  cases run
  exact ⟨rfl, rfl, rfl, Nat.le_refl _⟩

theorem grows_setRootBp (bp : Nat) : Grows (setRootBp bp) := fun _ _ _ run => by
  cases run
  exact ⟨rfl, rfl, rfl, Nat.le_refl _⟩

theorem grows_getSize (p : Nat) : Grows (getSize p) := (grows_getWord p).bind fun _ => .pure _

theorem grows_getAlloc (p : Nat) : Grows (getAlloc p) := (grows_getWord p).bind fun _ => .pure _

theorem grows_ftrp (bp : Nat) : Grows (ftrp bp) := (grows_getSize _).bind fun _ => .pure _

theorem grows_nextBlkp (bp : Nat) : Grows (nextBlkp bp) := (grows_getSize _).bind fun _ => .pure _

theorem grows_prevBlkp (bp : Nat) : Grows (prevBlkp bp) := (grows_getSize _).bind fun _ => .pure _

theorem grows_putTags (bp size alloc : Nat) : Grows (putTags bp size alloc) :=
  (grows_putWord _ _).bind fun _ => (grows_ftrp bp).bind fun _ => grows_putWord _ _

theorem grows_putSplitTags (bp size rest : Nat) : Grows (putSplitTags bp size rest) := by
  refine (grows_putTags bp size 1).bind fun _ => (grows_nextBlkp bp).bind fun _ => ?_
  refine (grows_putWord _ _).bind fun _ => (grows_nextBlkp bp).bind fun _ => ?_
  exact (grows_ftrp _).bind fun _ => grows_putWord _ _

end Macros

/-! ## `mm.c` -/

section Final

theorem grows_setRoot (bp : Nat) : Grows (setRoot bp) := by
  refine grows_rootBp.bind fun _ => .ite (.pure _) ?_
  refine grows_rootBp.bind fun _ => (grows_putWord _ _).bind fun _ => ?_
  refine grows_rootBp.bind fun _ => (grows_putWord _ _).bind fun _ => ?_
  exact (grows_putWord _ _).bind fun _ => (grows_setRootBp _).bind fun _ => .pure _

theorem grows_cutOut (bp : Nat) : Grows (cutOut bp) := by
  refine grows_rootBp.bind fun _ => .ite ?_ ?_
  · refine (grows_getWord _).bind fun _ => (grows_setRootBp _).bind fun _ => ?_
    exact grows_rootBp.bind fun _ => grows_putWord _ _
  · refine (grows_getWord _).bind fun _ => (grows_getWord _).bind fun _ => ?_
    refine (grows_putWord _ _).bind fun _ => (grows_getWord _).bind fun _ => ?_
    exact (grows_getWord _).bind fun _ => grows_putWord _ _

theorem grows_coalesceNext (bp size : Nat) : Grows (coalesceNext bp size) := by
  refine (grows_nextBlkp bp).bind fun _ => (grows_cutOut _).bind fun _ => ?_
  refine (grows_nextBlkp bp).bind fun _ => (grows_ftrp _).bind fun _ => ?_
  exact (grows_getSize _).bind fun _ => (grows_putTags _ _ _).bind fun _ => .pure _

theorem grows_coalescePrev (bp size : Nat) : Grows (coalescePrev bp size) := by
  refine (grows_prevBlkp bp).bind fun _ => (grows_cutOut _).bind fun _ => ?_
  refine (grows_prevBlkp bp).bind fun _ => (grows_getSize _).bind fun _ => ?_
  refine (grows_ftrp bp).bind fun _ => (grows_putWord _ _).bind fun _ => ?_
  exact (grows_prevBlkp bp).bind fun _ => (grows_putWord _ _).bind fun _ => grows_prevBlkp bp

theorem grows_coalesceBoth (bp size : Nat) : Grows (coalesceBoth bp size) := by
  refine (grows_prevBlkp bp).bind fun _ => (grows_cutOut _).bind fun _ => ?_
  refine (grows_nextBlkp bp).bind fun _ => (grows_cutOut _).bind fun _ => ?_
  refine (grows_prevBlkp bp).bind fun _ => (grows_getSize _).bind fun _ => ?_
  refine (grows_nextBlkp bp).bind fun _ => (grows_ftrp _).bind fun _ => ?_
  refine (grows_getSize _).bind fun _ => (grows_prevBlkp bp).bind fun _ => ?_
  refine (grows_putWord _ _).bind fun _ => (grows_nextBlkp bp).bind fun _ => ?_
  exact (grows_ftrp _).bind fun _ => (grows_putWord _ _).bind fun _ => grows_prevBlkp bp

theorem grows_coalesce (bp : Nat) : Grows (coalesce bp) := by
  refine (grows_prevBlkp bp).bind fun _ => (grows_ftrp _).bind fun _ => ?_
  refine (grows_getAlloc _).bind fun _ => (grows_nextBlkp bp).bind fun _ => ?_
  refine (grows_getAlloc _).bind fun _ => (grows_getSize _).bind fun _ => ?_
  refine .ite (.pure _) (.ite (grows_coalesceNext _ _) ?_)
  exact .ite (grows_coalescePrev _ _) (grows_coalesceBoth _ _)

theorem grows_extendHeap (words : Nat) : Grows (extendHeap words) := by
  refine (grows_memSbrk _).bind fun found => ?_
  cases found with
  | none => exact .pure _
  | some bp =>
      refine (grows_putTags _ _ _).bind fun _ => (grows_nextBlkp _).bind fun _ => ?_
      exact (grows_putWord _ _).bind fun _ => (grows_coalesce _).bind fun _ => grows_setRoot _

theorem grows_findFitFrom (bsize fuel bp : Nat) : Grows (findFitFrom bsize fuel bp) := by
  induction fuel generalizing bp with
  | zero => exact .fails
  | succ fuel ih =>
      refine grows_prolBp.bind fun _ => .ite (.pure _) ?_
      refine (grows_getSize _).bind fun _ => .ite (.pure _) ?_
      exact (grows_getWord _).bind fun _ => ih _

theorem grows_findFit (bsize : Nat) : Grows (findFit bsize) :=
  fun h r h' run => grows_findFitFrom bsize _ _ h r h' run

theorem grows_place (bp bsize : Nat) : Grows (place bp bsize) := by
  refine (grows_getSize _).bind fun _ => (grows_cutOut bp).bind fun _ => ?_
  refine .ite (grows_putTags _ _ _) ((grows_putSplitTags _ _ _).bind fun _ => ?_)
  refine grows_rootBp.bind fun _ => .ite ?_ ?_
  all_goals
    exact (grows_nextBlkp bp).bind fun _ => (grows_setRoot _).bind fun _ => .pure _

theorem grows_mmInit : Grows mmInit := by
  refine (grows_memSbrk _).bind fun found => ?_
  cases found with
  | none => exact (grows_setProlBp _).bind fun _ => .pure _
  | some base =>
      refine (grows_putWord _ _).bind fun _ => (grows_setProlBp _).bind fun _ => ?_
      refine (grows_putTags _ _ _).bind fun _ => (grows_putWord _ _).bind fun _ => ?_
      refine (grows_nextBlkp _).bind fun _ => (grows_putWord _ _).bind fun _ => ?_
      refine (grows_nextBlkp _).bind fun _ => (grows_putWord _ _).bind fun _ => ?_
      refine (grows_setRootBp _).bind fun _ => (grows_extendHeap _).bind fun _ => ?_
      exact .ite (.pure _) (.pure _)

theorem grows_mallocWith {place : Nat → Nat → MM Unit}
    (places : ∀ bp bsize, Grows (place bp bsize)) (size : Nat) : Grows (mallocWith place size) := by
  refine .ite (.pure _) ((grows_findFit _).bind fun _ => .ite ?_ ?_)
  · exact (places _ _).bind fun _ => .pure _
  · refine (grows_extendHeap _).bind fun _ => .ite (.pure _) ?_
    exact (places _ _).bind fun _ => .pure _

theorem grows_mmMalloc (size : Nat) : Grows (mmMalloc size) :=
  grows_mallocWith grows_place size

theorem grows_mmFree (ptr : Nat) : Grows (mmFree ptr) := by
  refine .ite (.pure _) ((grows_getSize _).bind fun _ => (grows_putTags _ _ _).bind fun _ => ?_)
  exact (grows_coalesce _).bind fun _ => (grows_setRoot _).bind fun _ => .pure _

theorem grows_reallocShrink (ptr oldbsize newbsize : Nat) :
    Grows (reallocShrink ptr oldbsize newbsize) := by
  refine (grows_putSplitTags _ _ _).bind fun _ => (grows_nextBlkp _).bind fun _ => ?_
  exact (grows_coalesce _).bind fun _ => (grows_setRoot _).bind fun _ => .pure _

theorem grows_reallocAbsorbPrev (ptr newbsize totalbsize : Nat) :
    Grows (reallocAbsorbPrev ptr newbsize totalbsize) := by
  refine (grows_prevBlkp _).bind fun _ => (grows_cutOut _).bind fun _ => ?_
  refine (grows_memmove _ _ _).bind fun _ => (grows_putSplitTags _ _ _).bind fun _ => ?_
  refine (grows_nextBlkp _).bind fun _ => (grows_coalesce _).bind fun _ => ?_
  exact (grows_setRoot _).bind fun _ => .pure _

theorem grows_reallocAbsorbNext (ptr newbsize totalbsize : Nat) :
    Grows (reallocAbsorbNext ptr newbsize totalbsize) := by
  refine (grows_nextBlkp _).bind fun _ => (grows_cutOut _).bind fun _ => ?_
  refine (grows_putSplitTags _ _ _).bind fun _ => (grows_nextBlkp _).bind fun _ => ?_
  exact (grows_setRoot _).bind fun _ => .pure _

theorem grows_moveWith {malloc : Nat → MM Nat} (mallocs : ∀ size, Grows (malloc size))
    (ptr size oldbsize newbsize : Nat) : Grows (moveWith malloc ptr size oldbsize newbsize) := by
  refine (mallocs _).bind fun _ => .ite (.pure _) ?_
  exact (grows_memmove _ _ _).bind fun _ => (grows_mmFree _).bind fun _ => .pure _

theorem grows_reallocWith {malloc : Nat → MM Nat} {absorbNext : Nat → Nat → Nat → MM Nat}
    (mallocs : ∀ size, Grows (malloc size))
    (absorbs : ∀ ptr newbsize totalbsize, Grows (absorbNext ptr newbsize totalbsize))
    (ptr size : Nat) : Grows (reallocWith malloc absorbNext ptr size) := by
  refine .ite (mallocs _) (.ite ((grows_mmFree _).bind fun _ => .pure _) ?_)
  refine (grows_getSize _).bind fun _ => (grows_prevBlkp _).bind fun _ => ?_
  refine (grows_ftrp _).bind fun _ => (grows_getSize _).bind fun _ => ?_
  refine (grows_nextBlkp _).bind fun _ => (grows_ftrp _).bind fun _ => ?_
  refine (grows_getSize _).bind fun _ => .ite (grows_reallocShrink _ _ _) (.ite (.pure _) ?_)
  refine (grows_prevBlkp _).bind fun _ => (grows_ftrp _).bind fun _ => ?_
  refine (grows_getAlloc _).bind fun _ => .ite (grows_reallocAbsorbPrev _ _ _) ?_
  refine (grows_nextBlkp _).bind fun _ => (grows_getAlloc _).bind fun _ => ?_
  exact .ite (absorbs _ _ _) (grows_moveWith mallocs _ _ _ _)

theorem grows_mmRealloc (ptr size : Nat) : Grows (mmRealloc ptr size) :=
  grows_reallocWith grows_mmMalloc grows_reallocAbsorbNext ptr size

end Final

end SysProg.Malloc

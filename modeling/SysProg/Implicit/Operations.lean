import SysProg.Implicit.Tiling
import SysProg.Malloc.Realloc

/-!
# The routines of `mm_implicit.c`

`find_fit` returns the first fit in address order, and so the lowest one.
Each routine of the interface is described by what it does to the list of
blocks; `mm_realloc` always moves its block.
-/

namespace SysProg.Implicit

open Logic Malloc

variable {listp : Nat} {h : Heap} {bs : List Block}

/-! ## `find_fit` -/

/-- The result of the search for `bsize` bytes: the first free block that has
them, or null. -/
inductive LowestFit (listp : Nat) (bs : List Block) (bsize : Nat) : Nat → Prop where
  | found (front back : List Block) {b : Block} (split : bs = front ++ b :: back)
      (isFree : b.alloc = false) (fits : bsize ≤ b.size)
      (skipped : ∀ d ∈ front, d.alloc = true ∨ d.size < bsize) :
      LowestFit listp bs bsize (listp + 8 + span front)
  | none (skipped : ∀ d ∈ bs, d.alloc = true ∨ d.size < bsize) : LowestFit listp bs bsize NULL

/-- At the break the walk reads the epilogue. -/
theorem Tiling.wp_getSize_brk (tiling : Tiling listp h bs) (post : Nat → Heap → Prop) :
    wp (getSize (hdrp h.memBrk)) post h ↔ post 0 h := by
  have start := tiling.start_eq
  have brk := tiling.brk_eq
  have masked : 1 &&& sizeMask = 0 := by decide
  simp only [getSize, hdrp, WSIZE, wp_bind, wp_pure]
  rw [wp_getWord _ (by omega), tiling.epilogue, masked]

/-- The test at which the search stops. -/
theorem stops_iff {b : Block} {bsize : Nat} :
    (¬ b.alloc.toNat ≠ 0 ∧ bsize ≤ b.size) ↔ b.alloc = false ∧ bsize ≤ b.size := by
  cases b.alloc <;> simp

/-- The search needs one round for each block and one for the epilogue. -/
theorem wp_findFitFrom {bsize fuel : Nat} {front back : List Block}
    (tiling : Tiling listp h (front ++ back))
    (skipped : ∀ d ∈ front, d.alloc = true ∨ d.size < bsize) (enough : back.length < fuel) :
    wp (findFitFrom bsize fuel (listp + 8 + span front))
      (fun r h' => h' = h ∧ LowestFit listp (front ++ back) bsize r) h := by
  induction back generalizing front fuel with
  | nil =>
      cases fuel with
      | zero => cases enough
      | succ fuel =>
          have brk := tiling.brk_eq
          rw [List.append_nil] at brk
          rw [← brk]
          simp only [findFitFrom, wp_bind]
          rw [tiling.wp_getSize_brk, wp_ite, if_neg (Nat.lt_irrefl 0), wp_pure]
          exact ⟨rfl, .none (by simpa using skipped)⟩
  | cons b back ih =>
      cases fuel with
      | zero => cases enough
      | succ fuel =>
          have bAt : (listp + 8 + span front, b) ∈ located (listp + 8) (front ++ b :: back) := by
            simp
          have at_ := tiling.blockAt bAt
          have large := b.size_ge
          have positive : 0 < b.size := by omega
          simp only [findFitFrom, wp_bind]
          rw [at_.wp_getSize_hdrp, wp_ite, if_pos positive]
          simp only [wp_bind]
          rw [at_.wp_getAlloc_hdrp, at_.wp_getSize_hdrp, wp_ite]
          by_cases stops : b.alloc = false ∧ bsize ≤ b.size
          · rw [if_pos (stops_iff.mpr stops), wp_pure]
            exact ⟨rfl, .found front back rfl stops.1 stops.2 skipped⟩
          · have shape : front ++ b :: back = front ++ [b] ++ back := by simp
            have place : listp + 8 + span front + b.size = listp + 8 + span (front ++ [b]) := by
              simp [Nat.add_assoc]
            rw [if_neg (mt stops_iff.mp stops), wp_bind, at_.wp_nextBlkp, place]
            rw [shape] at tiling ⊢
            refine ih tiling ?_ (Nat.lt_of_succ_lt_succ enough)
            intro d member
            rcases List.mem_append.mp member with before | last
            · exact skipped d before
            · rw [List.mem_singleton.mp last]
              cases taken : b.alloc with
              | true => exact .inl rfl
              | false => exact .inr (Nat.lt_of_not_le fun fits => stops ⟨taken, fits⟩)

/-- `find_fit` ends, changes nothing, and returns the lowest fit. -/
theorem wp_findFit (tiling : Tiling listp h bs) (bsize : Nat) :
    wp (findFit bsize) (fun r h' => h' = h ∧ LowestFit listp bs bsize r) h := by
  have start := tiling.start_eq
  have brk := tiling.brk_eq
  have blocks := length_le_span bs
  obtain ⟨fuel, rounds⟩ : ∃ fuel, h.memBrk - h.memStartBrk = fuel + 1 :=
    ⟨h.memBrk - h.memStartBrk - 1, by omega⟩
  have search : wp (findFitFrom bsize (fuel + 1) listp)
      (fun r h' => h' = h ∧ LowestFit listp bs bsize r) h := by
    have allocated : ¬ (¬ 1 ≠ 0 ∧ bsize ≤ 8) := fun stops => stops.1 Nat.one_ne_zero
    have walk : wp (findFitFrom bsize fuel (listp + 8 + span []))
        (fun r h' => h' = h ∧ LowestFit listp ([] ++ bs) bsize r) h :=
      wp_findFitFrom (by simpa using tiling) (by simp) (by omega)
    simp only [findFitFrom, wp_bind]
    rw [tiling.wp_getSize_listp, wp_ite, if_pos (by decide : 0 < 8)]
    simp only [wp_bind]
    rw [tiling.wp_getAlloc_listp, tiling.wp_getSize_listp, wp_ite, if_neg allocated, wp_bind,
      tiling.wp_nextBlkp_listp]
    exact walk
  rw [← rounds, ← tiling.listp_eq] at search
  exact tiling.listp_eq ▸ search

/-! ## `place` and `extend_heap` -/

/-- `place` allocates the front of a free block. -/
theorem wp_place {front back : List Block} {b want : Block}
    (tiling : Tiling listp h (front ++ b :: back)) (isFree : b.alloc = false)
    (taken : want.alloc = true) (fits : want.size ≤ b.size) :
    wp (place (listp + 8 + span front) want.size)
      (fun _ h' => Updated listp h (front ++ b :: back) h' (front ++ placed b want ++ back)) h := by
  have bAt : (listp + 8 + span front, b) ∈ located (listp + 8) (front ++ b :: back) := by simp
  have at_ := tiling.blockAt bAt
  have above := at_.above
  have below := at_.below
  have limit := at_.limit
  have large := b.size_ge
  have shape : front ++ b :: back = front ++ [b] ++ back := by simp
  have unkept : ∀ d ∈ [b], d.alloc = false := by simpa using isFree
  have doubled : 2 * DSIZE = 16 := rfl
  simp only [place, wp_bind]
  rw [at_.wp_getSize_hdrp, sub32_eq fits (by omega), wp_ite, doubled]
  by_cases splits : want.size + 16 ≤ b.size
  · have placedEq : placed b want = [want, b.rest want splits] := by simp [placed, splits]
    have whole : want.size + (b.rest want splits).size = b.size := by
      simp only [Block.rest]
      omega
    have restSize : b.size - want.size = (b.rest want splits).size := rfl
    rw [placedEq, if_neg (by omega), restSize, wp_putSplitTags (x := listp + 8 + span front) want
      (b.rest want splits) _ rfl rfl taken rfl (by omega) limit]
    rw [shape] at tiling ⊢
    refine tiling.retag ?_ rfl unkept ?_ (splitTags_tagged (by omega) (by omega))
    · simpa using whole
    · intro i outside
      simp only [span_cons, span_nil] at outside
      rw [setTags_outside (by omega) (by omega), setTags_outside (by omega) (by omega)]
  · have placedEq : placed b want = [b.mark true] := by simp [placed, splits]
    rw [placedEq, if_pos (by omega), wp_putTags (b.mark true) 1 _ (b.mark_size true).symm rfl
      (by rw [Block.mark_size]; omega) limit]
    rw [List.append_assoc, List.singleton_append]
    exact tiling.remark true rfl isFree

/-- The old epilogue becomes the header of the new last block. -/
theorem Tiling.extend (tiling : Tiling listp h bs) (new : Block) (room : Room h new.size) :
    Updated listp h bs ((h.grow new.size).withMem (extendedMem h new)) (bs ++ [new]) where
  arena := ⟨rfl, rfl, rfl⟩
  tiling := by
    have start := tiling.start_eq
    have brk := tiling.brk_eq
    have limit := tiling.limit
    have fits := room.2
    refine ⟨start, limit, fits, ?_, tiling.listp_eq, ?_, ?_, ?_, extendedMem_epilogue⟩
    · simp only [Heap.withMem_memBrk, Heap.grow_memBrk, span_append, span_cons, span_nil]
      omega
    · refine (word_congr ?_).trans tiling.header
      intro i lower upper
      exact extendedMem_outside (by omega) (by omega)
    · refine (word_congr ?_).trans tiling.footer
      intro i lower upper
      exact extendedMem_outside (by omega) (by omega)
    · exact extendedMem_tagged (by omega) brk (by omega) tiling.tags
  keeps := by
    rintro i ⟨x, d, at_, -, lower, upper⟩
    have bounds := tiling.bounds at_
    have large := d.size_ge
    exact extendedMem_outside (by omega) (by omega)

/-- `extend_heap` appends a free block and merges it with a free last block. -/
theorem wp_extendHeap {words : Nat} (new : Block) (tiling : Tiling listp h bs)
    (isFree : new.alloc = false) (even : words % 2 = 0) (sized : words * 4 = new.size)
    (room : Room h new.size) :
    wp (extendHeap words)
      (fun r h' => r = listp + 8 + span (cutFreeLast bs).1 ∧
        Updated listp h bs h' (coalesced bs new [])) h := by
  have start := tiling.start_eq
  have brk := tiling.brk_eq
  have limit := tiling.limit
  have fits := room.2
  have size := even_words_size even sized (by omega)
  have extended := tiling.extend new room
  have merged : wp (coalesce h.memBrk)
      (fun r h' => r = listp + 8 + span (cutFreeLast bs).1 ∧
        Updated listp h bs h' (coalesced bs new []))
      ((h.grow new.size).withMem (extendedMem h new)) := by
    rw [brk]
    refine wp_mono (wp_coalesce extended.tiling isFree) ?_
    rintro r h' ⟨place, updated⟩
    refine ⟨place, extended.trans updated ?_⟩
    intro x d _ at_
    rw [located_append]
    exact List.mem_append_left _ at_
  have written := (wp_newTags (h := h) isFree (by omega) (by omega)
    (fun _ h1 => wp (coalesce h.memBrk) _ h1)).mpr merged
  simp only [extendHeap, size, wp_bind]
  rw [wp_memSbrk_room room]
  simpa only [wp_bind] using written

/-- Without room `extend_heap` changes nothing. -/
theorem wp_extendHeap_full {words size : Nat} (even : words % 2 = 0) (sized : words * 4 = size)
    (limit : size < 2 ^ 32) (full : ¬ Room h size) :
    wp (extendHeap words) (fun r h' => r = NULL ∧ h' = h) h := by
  simp only [extendHeap, even_words_size even sized limit, wp_bind]
  rw [wp_memSbrk_full full limit]
  simp

end SysProg.Implicit

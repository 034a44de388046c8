import SysProg.Implicit.Program
import SysProg.Malloc.Operations

/-!
# The blocks of the implicit list

`Tiling` ties the words of the heap to a list of blocks behind the prologue of
eight bytes.  Every routine rewrites the tags of one part of the heap, so one
lemma carries the tiling, and the bytes of the allocated blocks, over all of
them.
-/

namespace SysProg.Implicit

open Logic Malloc

/-- The heap is a prologue with the block pointer `listp`, the given list of
blocks and the epilogue. -/
structure Tiling (listp : Nat) (h : Heap) (bs : List Block) : Prop where
  start_eq : h.memStartBrk + 8 = listp
  limit : h.memMaxAddr < 2 ^ 32
  brk_le : h.memBrk ≤ h.memMaxAddr
  brk_eq : h.memBrk = listp + 8 + span bs
  listp_eq : h.prolBp = listp
  -- The tags of the prologue: eight bytes, allocated.
  header : word h.mem (listp - 4) = 9
  footer : word h.mem listp = 9
  tags : ∀ x b, (x, b) ∈ located (listp + 8) bs → Tagged h.mem x b
  epilogue : word h.mem (h.memBrk - 4) = 1

/-- The bytes of an allocated block that its owner may use. -/
def PayloadByte (listp : Nat) (bs : List Block) (i : Nat) : Prop :=
  ∃ x b, (x, b) ∈ located (listp + 8) bs ∧ b.alloc = true ∧ x ≤ i ∧ i < x + b.size - 8

/-- A heap tiled by the blocks `bs`, reached without touching the payload of
the allocated blocks of `kept`. -/
structure Updated (listp : Nat) (h : Heap) (kept : List Block) (h' : Heap) (bs : List Block) :
    Prop where
  arena : SameArena h h'
  tiling : Tiling listp h' bs
  keeps : ∀ i, PayloadByte listp kept i → h'.mem i = h.mem i

section

variable {listp : Nat} {h h' h'' : Heap} {kept bs bs' : List Block}

theorem PayloadByte.mono {i : Nat} (byte : PayloadByte listp bs i)
    (sub : ∀ x b, b.alloc = true → (x, b) ∈ located (listp + 8) bs →
      (x, b) ∈ located (listp + 8) bs') : PayloadByte listp bs' i := by
  obtain ⟨x, b, at_, taken, inside⟩ := byte
  exact ⟨x, b, sub x b taken at_, taken, inside⟩

theorem Updated.refl (tiling : Tiling listp h bs) : Updated listp h bs h bs :=
  ⟨.refl h, tiling, fun _ _ => rfl⟩

theorem Updated.trans {kept' : List Block} (first : Updated listp h kept h' bs)
    (second : Updated listp h' kept' h'' bs')
    (sub : ∀ x b, b.alloc = true → (x, b) ∈ located (listp + 8) kept →
      (x, b) ∈ located (listp + 8) kept') : Updated listp h kept h'' bs' where
  arena := first.arena.trans second.arena
  tiling := second.tiling
  keeps i byte := (second.keeps i (byte.mono sub)).trans (first.keeps i byte)

end

namespace Tiling

variable {listp : Nat} {h : Heap} {bs : List Block} {x : Nat} {b : Block}

theorem brk_lt (tiling : Tiling listp h bs) : h.memBrk < 2 ^ 32 := by
  have le := tiling.brk_le
  have lt := tiling.limit
  omega

/-- A block lies between the prologue and the epilogue. -/
theorem bounds (tiling : Tiling listp h bs) (at_ : (x, b) ∈ located (listp + 8) bs) :
    listp + 8 ≤ x ∧ x + b.size ≤ h.memBrk := by
  rw [tiling.brk_eq]
  exact located_bounds at_

theorem blockAt (tiling : Tiling listp h bs) (at_ : (x, b) ∈ located (listp + 8) bs) :
    BlockAt h x b := by
  have start := tiling.start_eq
  have inside := tiling.bounds at_
  exact ⟨by omega, inside.2, tiling.brk_lt, tiling.tags x b at_⟩

/-! ## Reading the prologue -/

theorem wp_getSize_listp (tiling : Tiling listp h bs) (post : Nat → Heap → Prop) :
    wp (getSize (hdrp listp)) post h ↔ post 8 h := by
  have start := tiling.start_eq
  have brk := tiling.brk_eq
  have masked : 9 &&& sizeMask = 8 := by decide
  simp only [getSize, hdrp, WSIZE, wp_bind, wp_pure]
  rw [wp_getWord _ (by omega), tiling.header, masked]

theorem wp_getAlloc_listp (tiling : Tiling listp h bs) (post : Nat → Heap → Prop) :
    wp (getAlloc (hdrp listp)) post h ↔ post 1 h := by
  have start := tiling.start_eq
  have brk := tiling.brk_eq
  have bit : 9 &&& 1 = 1 := by decide
  simp only [getAlloc, hdrp, WSIZE, wp_bind, wp_pure]
  rw [wp_getWord _ (by omega), tiling.header, bit]

theorem wp_ftrp_listp (tiling : Tiling listp h bs) (post : Nat → Heap → Prop) :
    wp (ftrp listp) post h ↔ post listp h := by
  simp only [ftrp, DSIZE, wp_bind, wp_pure]
  rw [tiling.wp_getSize_listp, Nat.add_sub_cancel]

theorem wp_nextBlkp_listp (tiling : Tiling listp h bs) (post : Nat → Heap → Prop) :
    wp (nextBlkp listp) post h ↔ post (listp + 8) h := by
  have read := tiling.wp_getSize_listp
  unfold hdrp at read
  simp only [nextBlkp, wp_bind, wp_pure]
  rw [read]

/-! ## Reading the neighbours of a block -/

/-- The allocation bit that the footer before a block shows: the prologue
counts as allocated. -/
def prevAlloc (front : List Block) : Bool :=
  match front.getLast? with
  | none => true
  | some p => p.alloc

@[simp] theorem prevAlloc_concat (init : List Block) (p : Block) :
    prevAlloc (init ++ [p]) = p.alloc := by
  simp [prevAlloc]

theorem wp_getAlloc_prev {front back : List Block} (tiling : Tiling listp h (front ++ back))
    (post : Nat → Heap → Prop) :
    wp (do getAlloc (← ftrp (← prevBlkp (listp + 8 + span front)))) post h ↔
      post (prevAlloc front).toNat h := by
  simp only [wp_bind]
  rcases List.eq_nil_or_concat front with rfl | ⟨init, p, rfl⟩
  · have start := tiling.start_eq
    have brk := tiling.brk_eq
    have masked : 9 &&& sizeMask = 8 := by decide
    have bit : 9 &&& 1 = 1 := by decide
    rw [span_nil, Nat.add_zero]
    simp only [prevBlkp, getSize, DSIZE, Nat.add_sub_cancel, wp_bind, wp_pure]
    rw [wp_getWord _ (by omega), tiling.footer, masked, Nat.add_sub_cancel, tiling.wp_ftrp_listp]
    simp only [getAlloc, wp_bind, wp_pure]
    rw [wp_getWord _ (by omega), tiling.footer, bit]
    rfl
  · rw [List.concat_eq_append] at tiling ⊢
    have pAt : (listp + 8 + span init, p) ∈ located (listp + 8) (init ++ [p] ++ back) := by simp
    have place : listp + 8 + span (init ++ [p]) = listp + 8 + span init + p.size := by
      simp [Nat.add_assoc]
    have at_ := tiling.blockAt pAt
    rw [place, at_.wp_prevBlkp, at_.wp_ftrp, at_.wp_getAlloc_footer, prevAlloc_concat]

theorem wp_getAlloc_next {front back : List Block} (tiling : Tiling listp h (front ++ b :: back))
    (post : Nat → Heap → Prop) :
    wp (do getAlloc (hdrp (← nextBlkp (listp + 8 + span front)))) post h ↔
      post (Layout.nextAlloc back).toNat h := by
  have bAt : (listp + 8 + span front, b) ∈ located (listp + 8) (front ++ b :: back) := by simp
  rw [wp_bind, (tiling.blockAt bAt).wp_nextBlkp]
  cases back with
  | nil =>
      have brk := tiling.brk_eq
      have address : listp + 8 + span front + b.size - 4 = h.memBrk - 4 := by
        simp only [span_append, span_cons, span_nil] at brk
        omega
      have start := tiling.start_eq
      simp only [getAlloc, hdrp, WSIZE, wp_bind, wp_pure]
      rw [address, wp_getWord _ (by omega), tiling.epilogue]
      rfl
  | cons n back => exact (tiling.blockAt (by simp)).wp_getAlloc_hdrp post

/-! ## Rewriting the tags of a part of the heap -/

/-- The tags of the middle part are written anew, and of that part nothing has
to be kept. -/
theorem retag {front mid mid' midKept back : List Block} {m : Mem}
    (tiling : Tiling listp h (front ++ mid ++ back)) (sameSpan : span mid' = span mid)
    (keptSpan : span midKept = span mid) (unkept : ∀ d ∈ midKept, d.alloc = false)
    (outside : ∀ i, i < listp + 8 + span front - 4 ∨
      listp + 8 + span front + span mid - 4 ≤ i → m i = h.mem i)
    (tagged : ∀ x d, (x, d) ∈ located (listp + 8 + span front) mid' → Tagged m x d) :
    Updated listp h (front ++ midKept ++ back) (h.withMem m) (front ++ mid' ++ back) where
  arena := ⟨rfl, rfl, rfl⟩
  tiling := by
    have start := tiling.start_eq
    have brk := tiling.brk_eq
    simp only [span_append] at brk
    refine ⟨start, tiling.limit, tiling.brk_le, ?_, tiling.listp_eq, ?_, ?_, ?_, ?_⟩
    · simp only [Heap.withMem_memBrk, span_append]
      omega
    · refine (word_congr ?_).trans tiling.header
      intro i lower upper
      exact outside i (by omega)
    · refine (word_congr ?_).trans tiling.footer
      intro i lower upper
      exact outside i (by omega)
    · exact tagged_replace (by omega) tiling.tags sameSpan outside tagged
    · rw [Heap.withMem_memBrk]
      refine (word_congr ?_).trans tiling.epilogue
      intro i lower upper
      exact outside i (by omega)
  keeps := by
    rintro i ⟨x, d, at_, taken, lower, upper⟩
    have large := d.size_ge
    simp only [located_append, List.mem_append, span_append, keptSpan] at at_
    rcases at_ with (inFront | inMid) | inBack
    · have bounds := located_bounds inFront
      exact outside i (by omega)
    · rw [unkept d (mem_of_located inMid)] at taken
      cases taken
    · have bounds := located_bounds inBack
      exact outside i (by omega)

/-- The tags of one block are written anew, and of that block nothing has to be
kept. -/
theorem remark {front back : List Block} {kept : Block} (alloc : Bool)
    (tiling : Tiling listp h (front ++ b :: back)) (size : kept.size = b.size)
    (unkept : kept.alloc = false) :
    Updated listp h (front ++ kept :: back)
      (h.withMem (setTags h.mem (listp + 8 + span front) (b.mark alloc)))
      (front ++ b.mark alloc :: back) := by
  have shape : ∀ d : Block, front ++ d :: back = front ++ [d] ++ back := by simp
  have at_ := tiling.blockAt (x := listp + 8 + span front) (b := b) (by simp)
  have above := at_.above
  have below := at_.below
  have limit := at_.limit
  rw [shape] at tiling
  rw [shape, shape]
  refine tiling.retag (by simp) (by simpa using size) (by simpa using unkept) ?_ ?_
  · intro i outside
    simp only [span_cons, span_nil] at outside
    exact setTags_outside (by omega) (by rw [Block.mark_size]; omega)
  · intro x d here
    simp only [located_cons, located_nil, List.mem_singleton, Prod.mk.injEq] at here
    obtain ⟨rfl, rfl⟩ := here
    exact setTags_tagged (by rw [Block.mark_size]; omega) (by omega)

/-- The payload lies apart from all tags. -/
theorem overwrite (tiling : Tiling listp h bs) {m : Mem}
    (only : ∀ i, ¬ PayloadByte listp bs i → m i = h.mem i) : Tiling listp (h.withMem m) bs := by
  have start := tiling.start_eq
  have brk := tiling.brk_eq
  have beyond : ∀ i, i < listp + 8 ∨ h.memBrk - 4 ≤ i → m i = h.mem i := by
    intro i outside
    refine only i ?_
    rintro ⟨x, d, at_, -, lower, upper⟩
    have bounds := tiling.bounds at_
    omega
  refine ⟨start, tiling.limit, tiling.brk_le, brk, tiling.listp_eq, ?_, ?_, ?_, ?_⟩
  · refine (word_congr ?_).trans tiling.header
    intro i lower upper
    exact beyond i (by omega)
  · refine (word_congr ?_).trans tiling.footer
    intro i lower upper
    exact beyond i (by omega)
  · intro y d at_
    have wide := d.size_ge
    have bounds := tiling.bounds at_
    -- A payload byte in a tag of `d` would belong to `d` or to a block apart from it.
    have tagBytes : ∀ i, y - 4 ≤ i ∧ i < y ∨ y + d.size - 8 ≤ i ∧ i < y + d.size - 4 →
        m i = h.mem i := by
      intro i inTag
      refine only i ?_
      rintro ⟨x, e, here, -, lower, upper⟩
      have large := e.size_ge
      rcases located_disjoint here at_ with ⟨rfl, rfl⟩ | before | behind <;> omega
    refine (tiling.tags y d at_).congr ?_ ?_
    · intro i lower upper
      exact tagBytes i (by omega)
    · intro i lower upper
      exact tagBytes i (by omega)
  · rw [Heap.withMem_memBrk]
    refine (word_congr ?_).trans tiling.epilogue
    intro i lower upper
    exact beyond i (by omega)

end Tiling

/-! ## `coalesce` -/

section Coalesce

variable {listp : Nat} {h : Heap} {front back : List Block} {p n b : Block}

/-- The merged block replaces the free run it covers. -/
theorem Updated.merge {h' : Heap} {left right : List Block}
    (tiling : Tiling listp h (front ++ (left ++ b :: right) ++ back))
    (allFree : ∀ d ∈ left ++ b :: right, d.alloc = false)
    (retagged : Retagged h (listp + 8 + span front) (b.merge left right) h') :
    Updated listp h (front ++ (left ++ b :: right) ++ back) h'
      (front ++ [b.merge left right] ++ back) := by
  have sameSpan : span [b.merge left right] = span (left ++ b :: right) := by
    simp [Block.merge, Nat.add_assoc]
  have size : (b.merge left right).size = span (left ++ b :: right) := by
    simpa using sameSpan
  rw [retagged.same]
  refine tiling.retag sameSpan rfl allFree (size ▸ retagged.outside) ?_
  intro x d at_
  simp only [located_cons, located_nil, List.mem_singleton, Prod.mk.injEq] at at_
  obtain ⟨rfl, rfl⟩ := at_
  exact retagged.tagged

/-- The reads by which `coalesce` selects its case. -/
theorem wp_coalesce_select (tiling : Tiling listp h (front ++ b :: back))
    (post : Nat → Heap → Prop) :
    wp (coalesce (listp + 8 + span front)) post h ↔
      if Tiling.prevAlloc front = true ∧ Layout.nextAlloc back = true then
        post (listp + 8 + span front) h
      else if Tiling.prevAlloc front = true then
        wp (coalesceNext (listp + 8 + span front) b.size) post h
      else if Layout.nextAlloc back = true then
        wp (coalescePrev (listp + 8 + span front) b.size) post h
      else wp (coalesceBoth (listp + 8 + span front) b.size) post h := by
  have bAt : (listp + 8 + span front, b) ∈ located (listp + 8) (front ++ b :: back) := by simp
  have previous := tiling.wp_getAlloc_prev
  have next := tiling.wp_getAlloc_next
  simp only [wp_bind] at previous next
  simp only [coalesce, wp_bind]
  rw [previous, next, (tiling.blockAt bAt).wp_getSize_hdrp]
  cases Tiling.prevAlloc front <;> cases Layout.nextAlloc back <;> simp

/-- A front part ends in an allocated block or the prologue, or its last block
is cut off. -/
theorem cutFreeLast_cases (front : List Block) :
    Tiling.prevAlloc front = true ∧ cutFreeLast front = (front, []) ∨
      ∃ init p, front = init ++ [p] ∧ p.alloc = false ∧ cutFreeLast front = (init, [p]) := by
  rcases List.eq_nil_or_concat front with rfl | ⟨init, p, rfl⟩
  · exact .inl ⟨rfl, rfl⟩
  · rw [List.concat_eq_append, cutFreeLast_concat, Tiling.prevAlloc_concat]
    cases bit : p.alloc with
    | true => exact .inl ⟨rfl, rfl⟩
    | false => exact .inr ⟨init, p, rfl, bit, rfl⟩

/-- A back part starts with an allocated block or the epilogue, or its first
block is cut off. -/
theorem cutFreeHead_cases (back : List Block) :
    Layout.nextAlloc back = true ∧ cutFreeHead back = ([], back) ∨
      ∃ n rest, back = n :: rest ∧ n.alloc = false ∧ cutFreeHead back = ([n], rest) := by
  cases back with
  | nil => exact .inl ⟨rfl, rfl⟩
  | cons n rest =>
      cases bit : n.alloc with
      | true => exact .inl ⟨bit, by simp [cutFreeHead, bit]⟩
      | false => exact .inr ⟨n, rest, rfl, bit, by simp [cutFreeHead, bit]⟩

/-- `coalesce` with only the next block free. -/
theorem wp_coalesceNext (tiling : Tiling listp h (front ++ b :: n :: back))
    (isFree : b.alloc = false) (nextFree : n.alloc = false) :
    wp (coalesceNext (listp + 8 + span front) b.size)
      (fun r h' => r = listp + 8 + span front ∧
        Updated listp h (front ++ b :: n :: back) h' (front ++ [b.merge [] [n]] ++ back)) h := by
  have shape : front ++ b :: n :: back = front ++ ([] ++ b :: [n]) ++ back := by simp
  rw [shape] at tiling ⊢
  have bAt : (listp + 8 + span front, b) ∈
      located (listp + 8) (front ++ ([] ++ b :: [n]) ++ back) := by simp
  have nAt : (listp + 8 + span front + b.size, n) ∈
      located (listp + 8) (front ++ ([] ++ b :: [n]) ++ back) := by simp
  refine wp_mono (wp_tagNext (tiling.blockAt bAt) (tiling.blockAt nAt)) ?_
  rintro r h' ⟨rfl, retagged⟩
  exact ⟨rfl, .merge tiling (by simp [isFree, nextFree]) retagged⟩

/-- `coalesce` with only the previous block free. -/
theorem wp_coalescePrev (tiling : Tiling listp h (front ++ [p] ++ b :: back))
    (prevFree : p.alloc = false) (isFree : b.alloc = false) :
    wp (coalescePrev (listp + 8 + span front + p.size) b.size)
      (fun r h' => r = listp + 8 + span front ∧
        Updated listp h (front ++ [p] ++ b :: back) h' (front ++ [b.merge [p] []] ++ back)) h := by
  have shape : front ++ [p] ++ b :: back = front ++ ([p] ++ b :: []) ++ back := by simp
  rw [shape] at tiling ⊢
  have pAt : (listp + 8 + span front, p) ∈
      located (listp + 8) (front ++ ([p] ++ b :: []) ++ back) := by simp
  have bAt : (listp + 8 + span front + p.size, b) ∈
      located (listp + 8) (front ++ ([p] ++ b :: []) ++ back) := by simp
  refine wp_mono (wp_tagPrev (tiling.blockAt pAt) (tiling.blockAt bAt)) ?_
  rintro r h' ⟨rfl, retagged⟩
  exact ⟨rfl, .merge tiling (by simp [isFree, prevFree]) retagged⟩

/-- `coalesce` with both neighbours free. -/
theorem wp_coalesceBoth (tiling : Tiling listp h (front ++ [p] ++ b :: n :: back))
    (prevFree : p.alloc = false) (isFree : b.alloc = false) (nextFree : n.alloc = false) :
    wp (coalesceBoth (listp + 8 + span front + p.size) b.size)
      (fun r h' => r = listp + 8 + span front ∧
        Updated listp h (front ++ [p] ++ b :: n :: back) h'
          (front ++ [b.merge [p] [n]] ++ back)) h := by
  have shape : front ++ [p] ++ b :: n :: back = front ++ ([p] ++ b :: [n]) ++ back := by simp
  rw [shape] at tiling ⊢
  have pAt : (listp + 8 + span front, p) ∈
      located (listp + 8) (front ++ ([p] ++ b :: [n]) ++ back) := by simp
  have bAt : (listp + 8 + span front + p.size, b) ∈
      located (listp + 8) (front ++ ([p] ++ b :: [n]) ++ back) := by simp
  have nAt : (listp + 8 + span front + p.size + b.size, n) ∈
      located (listp + 8) (front ++ ([p] ++ b :: [n]) ++ back) := by simp
  refine wp_mono (wp_tagBoth (tiling.blockAt pAt) (tiling.blockAt bAt) (tiling.blockAt nAt)) ?_
  rintro r h' ⟨rfl, retagged⟩
  exact ⟨rfl, .merge tiling (by simp [isFree, prevFree, nextFree]) retagged⟩

/-- `coalesce` returns the one free block that its argument and the free
neighbours of it form. -/
theorem wp_coalesce (tiling : Tiling listp h (front ++ b :: back)) (isFree : b.alloc = false) :
    wp (coalesce (listp + 8 + span front))
      (fun r h' => r = listp + 8 + span (cutFreeLast front).1 ∧
        Updated listp h (front ++ b :: back) h' (coalesced front b back)) h := by
  rw [wp_coalesce_select tiling]
  have place : ∀ (init : List Block) (p : Block),
      listp + 8 + span (init ++ [p]) = listp + 8 + span init + p.size := by
    simp [Nat.add_assoc]
  rcases cutFreeLast_cases front with ⟨prevBit, left⟩ | ⟨init, p, rfl, prevFree, left⟩
  · rw [prevBit]
    rcases cutFreeHead_cases back with ⟨nextBit, right⟩ | ⟨n, rest, rfl, nextFree, right⟩
    · have untouched : b.merge [] [] = b := merge_nil isFree
      rw [nextBit, if_pos ⟨rfl, rfl⟩, coalesced, left, right, untouched]
      exact ⟨rfl, .refl tiling⟩
    · have nextBit : ¬ Layout.nextAlloc (n :: rest) = true := by simp [Layout.nextAlloc, nextFree]
      rw [if_neg (fun both => nextBit both.2), if_pos rfl, coalesced, left, right]
      simpa using wp_coalesceNext tiling isFree nextFree
  · have prevBit : ¬ Tiling.prevAlloc (init ++ [p]) = true := by simp [prevFree]
    rw [if_neg (fun both => prevBit both.1), if_neg prevBit, place]
    rcases cutFreeHead_cases back with ⟨nextBit, right⟩ | ⟨n, rest, rfl, nextFree, right⟩
    · rw [if_pos nextBit, coalesced, left, right]
      simpa using wp_coalescePrev tiling prevFree isFree
    · have nextBit : ¬ Layout.nextAlloc (n :: rest) = true := by simp [Layout.nextAlloc, nextFree]
      rw [if_neg nextBit, coalesced, left, right]
      simpa using wp_coalesceBoth tiling prevFree isFree nextFree

end Coalesce

end SysProg.Implicit

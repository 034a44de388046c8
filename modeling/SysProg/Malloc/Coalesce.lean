import SysProg.Malloc.FreeList

/-!
# Coalescing

The four cases of `coalesce` have one description: the free block swallows
the free block before it and the free block after it, if there are any.  The
absorbed neighbours leave the free list, and the merged block is in no list
until `set_root` puts it at the front.
-/

namespace SysProg.Malloc

open Logic

/-- Cut the free block off the end of a front part, if it ends in one. -/
def cutFreeLast (front : List Block) : List Block × List Block :=
  match front.getLast? with
  | none => (front, [])
  | some p => if p.alloc then (front, []) else (front.dropLast, [p])

/-- Cut the free block off the start of a back part, if it starts with one. -/
def cutFreeHead : List Block → List Block × List Block
  | [] => ([], [])
  | n :: back => if n.alloc then ([], n :: back) else ([n], back)

/-- The free block that covers a block and the absorbed runs around it. -/
def Block.merge (b : Block) (left right : List Block) : Block where
  size := span left + b.size + span right
  alloc := false
  size_ge := by
    have large := b.size_ge
    omega
  aligned := by
    have before := span_aligned left
    have after := span_aligned right
    have own := b.aligned
    omega

/-- The blocks after coalescing the block `b` between `front` and `back`. -/
def coalesced (front : List Block) (b : Block) (back : List Block) : List Block :=
  (cutFreeLast front).1 ++ b.merge (cutFreeLast front).2 (cutFreeHead back).1 ::
    (cutFreeHead back).2

/-- The block pointers of a run that starts at `a`. -/
def pointers (a : Nat) (bs : List Block) : List Nat := (located a bs).map Prod.fst

/-- The block pointers of the neighbours that the block `b` absorbs. -/
def absorbed (start : Nat) (front : List Block) (b : Block) (back : List Block) : List Nat :=
  pointers (start + 8 + span (cutFreeLast front).1) (cutFreeLast front).2 ++
    pointers (start + 8 + span front + b.size) (cutFreeHead back).1

@[simp] theorem cutFreeLast_concat (init : List Block) (p : Block) :
    cutFreeLast (init ++ [p]) = if p.alloc then (init ++ [p], []) else (init, [p]) := by
  simp [cutFreeLast]

theorem cutFreeLast_append (front : List Block) :
    (cutFreeLast front).1 ++ (cutFreeLast front).2 = front := by
  rcases List.eq_nil_or_concat front with rfl | ⟨init, p, rfl⟩
  · rfl
  · rw [List.concat_eq_append, cutFreeLast_concat]
    split <;> simp

theorem span_cutFreeLast (front : List Block) :
    span front = span (cutFreeLast front).1 + span (cutFreeLast front).2 := by
  rw [← span_append, cutFreeLast_append]

/-- The merged block ends where the last of its parts ends. -/
theorem add_size_merge (a : Nat) (front : List Block) (b : Block) (back : List Block) :
    a + span (cutFreeLast front).1 + (b.merge (cutFreeLast front).2 (cutFreeHead back).1).size =
      a + span front + b.size + span (cutFreeHead back).1 := by
  have whole := span_cutFreeLast front
  simp only [Block.merge]
  omega

theorem cutFreeHead_append (back : List Block) :
    (cutFreeHead back).1 ++ (cutFreeHead back).2 = back := by
  cases back with
  | nil => rfl
  | cons n back =>
      simp only [cutFreeHead]
      split <;> rfl

theorem merge_nil {b : Block} (free : b.alloc = false) : b.merge [] [] = b := by
  cases b
  simp only [Block.merge, span_nil, Block.mk.injEq]
  exact ⟨by omega, free.symm⟩

theorem add32_eq {a b : Nat} (small : a + b < 2 ^ 32) : add32 a b = a + b :=
  Nat.mod_eq_of_lt small

theorem sub32_eq {a b : Nat} (le : b ≤ a) (small : a < 2 ^ 32) : sub32 a b = a - b := by
  unfold sub32
  omega

/-- A footer that holds the tag of `p` leads `PREV_BLKP` back to its block. -/
theorem wp_prevBlkp_of_footer {h : Heap} {x : Nat} {p : Block} (post : Nat → Heap → Prop)
    (inside : h.memStartBrk + 4 ≤ x ∧ x + p.size ≤ h.memBrk) (small : p.size < 2 ^ 32)
    (footer : word h.mem (x + p.size - 8) = p.tag) :
    wp (prevBlkp (x + p.size)) post h ↔ post x h := by
  have large := p.size_ge
  simp only [prevBlkp, getSize, DSIZE, wp_bind, wp_pure]
  rw [wp_getWord _ (by omega), footer, Block.tag_and_sizeMask small, Nat.add_sub_cancel]

/-- What a routine may assume of the free block it is about to coalesce: it is
the only free block that the list misses. -/
structure Loose (lo : Nat) (h : Heap) (front : List Block) (b : Block) (back : List Block)
    (fl : List Nat) : Prop where
  consistent : Consistent lo h (front ++ b :: back) fl
  behind : front ≠ []
  isFree : b.alloc = false
  absent : lo + 8 + span front ∉ fl
  others : ∀ x, FreeAt lo (front ++ b :: back) x →
    x = lo + 8 + span front ∨ x ∈ fl

/-- The word written into the tags of a free block is its size. -/
theorem tagged_free {m : Mem} {x : Nat} {b : Block} (size : Nat) (isFree : b.alloc = false)
    (sized : b.size = size) (header : word m (x - 4) = size)
    (footer : word m (x + size - 8) = size) : Tagged m x b := by
  have tag : b.tag = size := by
    unfold Block.tag
    rw [isFree, sized]
    rfl
  exact ⟨header.trans tag.symm, by rw [sized, footer, tag]⟩

/-- Where no node of a run is in the list, the whole list lies outside the run. -/
theorem Threaded.nodes_apart {lo : Nat} {h : Heap} {front mid back : List Block} {fl : List Nat}
    (c : Threaded lo h (front ++ mid ++ back) fl)
    (gone : ∀ x ∈ pointers (lo + 8 + span front) mid, x ∉ fl) :
    ∀ x ∈ fl, x < lo + 8 + span front ∨ lo + 8 + span front + span mid ≤ x := by
  intro x member
  obtain ⟨d, at_, -⟩ := c.free x member
  have large := d.size_ge
  rw [located_append, located_append, List.mem_append, List.mem_append, span_append,
    ← Nat.add_assoc] at at_
  rcases at_ with (inFront | inMid) | inBack
  · have bounds := located_bounds inFront
    omega
  · exact absurd member (gone x (List.mem_map.mpr ⟨(x, d), inMid, rfl⟩))
  · exact .inr (located_bounds inBack).1

/-- Of a run of two blocks one of which has left the free list, none is in it. -/
theorem pair_gone {start y : Nat} {p n : Block} {fl : List Nat} (nodup : fl.Nodup)
    (first : start = y ∨ start ∉ fl) (second : start + p.size = y ∨ start + p.size ∉ fl) :
    ∀ x ∈ pointers start [p, n], x ∉ fl.erase y := by
  intro x inRun inList
  simp only [pointers, located_cons, located_nil, List.map_cons, List.map_nil, List.mem_cons,
    List.not_mem_nil, or_false] at inRun
  have apart : x = y ∨ x ∉ fl := by
    rcases inRun with rfl | rfl
    · exact first
    · exact second
  rcases apart with rfl | absent
  · exact nodup.not_mem_erase inList
  · exact absent (List.mem_of_mem_erase inList)

/-- The tags of one block outside the free list are written anew, as it is
handed out or given back. -/
theorem Consistent.mark {lo : Nat} {h : Heap} {front back : List Block} {b kept : Block}
    {fl : List Nat} (c : Consistent lo h (front ++ b :: back) fl) (behind : front ≠ [])
    (bit : Bool) (keptSize : kept.size = b.size) (unkept : kept.alloc = false)
    (absent : lo + 8 + span front ∉ fl) :
    Updated lo h (front ++ kept :: back)
      (h.withMem (setTags h.mem (lo + 8 + span front) (b.mark bit)))
      (front ++ b.mark bit :: back) fl := by
  have bAt : (lo + 8 + span front, b) ∈ located (lo + 8) (front ++ b :: back) := by simp
  have small := c.layout.size_lt bAt
  have shape : ∀ d : Block, front ++ d :: back = front ++ [d] ++ back := by simp
  rw [shape] at c
  have apart := c.nodes_apart (by
    intro x inRun
    simp only [pointers, located_cons, located_nil, List.map_cons, List.map_nil,
      List.mem_singleton] at inRun
    rw [inRun]
    exact absent)
  rw [shape, shape]
  refine c.retag [b.mark bit] [kept] behind (by simp) (by simp [keptSize]) ?_ ?_ ?_ apart
  · intro d member
    rw [List.mem_singleton.mp member]
    exact unkept
  · intro i outside
    refine setTags_outside (by omega) ?_
    simp only [span_cons, span_nil] at outside
    rw [Block.mark_size]
    omega
  · intro x d at_
    simp only [located_cons, located_nil, List.mem_singleton, Prod.mk.injEq] at at_
    obtain ⟨rfl, rfl⟩ := at_
    exact setTags_tagged (by rw [Block.mark_size]; exact small) (by omega)

/-! ## The tag writes of the merging cases -/

/-- The tags of the block `b` at `x` are written, and nothing outside it. -/
structure Retagged (h : Heap) (x : Nat) (b : Block) (h' : Heap) : Prop where
  same : h' = h.withMem h'.mem
  outside : ∀ i, i < x - 4 ∨ x + b.size - 4 ≤ i → h'.mem i = h.mem i
  tagged : Tagged h'.mem x b

section Tags

variable {h : Heap} {x : Nat} {p b n : Block}

/-- The block `b` takes in the block `n` behind it. -/
theorem wp_tagNext (bAt : BlockAt h x b) (nAt : BlockAt h (x + b.size) n) :
    wp (do
        let size := add32 b.size (← getSize (← ftrp (← nextBlkp x)))
        putTags x size 0
        pure x : MM Nat)
      (fun r h' => r = x ∧ Retagged h x (b.merge [] [n]) h') h := by
  have above := bAt.above
  have below := nAt.below
  have limit := bAt.limit
  have large := b.size_ge
  have sized : b.size + n.size = (b.merge [] [n]).size := by simp [Block.merge]
  simp only [wp_bind]
  rw [bAt.wp_nextBlkp, nAt.wp_ftrp, nAt.wp_getSize_footer, add32_eq (by omega),
    wp_putTags (b.merge [] [n]) 0 _ sized rfl (by omega) limit, wp_pure]
  exact ⟨rfl, rfl, fun i outside => setTags_outside (by omega) outside,
    setTags_tagged (by omega) (by omega)⟩

/-- The block `p` takes in the block `b` behind it. -/
theorem wp_tagPrev (pAt : BlockAt h x p) (bAt : BlockAt h (x + p.size) b) :
    wp (do
        let size := add32 b.size (← getSize (hdrp (← prevBlkp (x + p.size))))
        putWord (← ftrp (x + p.size)) (pack size 0)
        putWord (hdrp (← prevBlkp (x + p.size))) (pack size 0)
        prevBlkp (x + p.size) : MM Nat)
      (fun r h' => r = x ∧ Retagged h x (b.merge [p] []) h') h := by
  have above := pAt.above
  have below := bAt.below
  have limit := bAt.limit
  have large := b.size_ge
  have large' := p.size_ge
  simp only [wp_bind]
  rw [pAt.wp_prevBlkp, pAt.wp_getSize_hdrp, bAt.wp_ftrp, add32_eq (by omega), pack_zero,
    wp_putWord _ (by omega)]
  generalize total : b.size + p.size = size
  have footer1 : word (setWord h.mem (x + p.size + b.size - 8) size) (x + p.size - 8) = p.tag := by
    rw [word_setWord_ne (by omega)]
    exact pAt.tagged.2
  have footer2 : word (setWord (setWord h.mem (x + p.size + b.size - 8) size) (x - 4) size)
      (x + p.size - 8) = p.tag := by
    rw [word_setWord_ne (by omega)]
    exact footer1
  rw [wp_prevBlkp_of_footer (h := h.withMem _) _ (by simp; omega) (by omega) footer1]
  simp only [hdrp, WSIZE]
  rw [wp_putWord _ (by simp; omega), Heap.withMem_withMem, Heap.withMem_mem,
    wp_prevBlkp_of_footer (h := h.withMem _) _ (by simp; omega) (by omega) footer2]
  have sized : (b.merge [p] []).size = size := by
    simp only [Block.merge, span_cons, span_nil]
    omega
  refine ⟨rfl, rfl, ?_, tagged_free size rfl sized ?_ ?_⟩
  · intro i outside
    rw [sized] at outside
    rw [Heap.withMem_mem, setWord_outside (by omega), setWord_outside (by omega)]
  · rw [Heap.withMem_mem, word_setWord_same, Nat.mod_eq_of_lt (by omega)]
  · rw [Heap.withMem_mem, word_setWord_ne (by omega), show x + size - 8 =
      x + p.size + b.size - 8 by omega, word_setWord_same, Nat.mod_eq_of_lt (by omega)]

/-- The block `p` takes in the two blocks behind it. -/
theorem wp_tagBoth (pAt : BlockAt h x p) (bAt : BlockAt h (x + p.size) b)
    (nAt : BlockAt h (x + p.size + b.size) n) :
    wp (do
        let prevSize ← getSize (hdrp (← prevBlkp (x + p.size)))
        let nextSize ← getSize (← ftrp (← nextBlkp (x + p.size)))
        let size := add32 b.size (add32 prevSize nextSize)
        putWord (hdrp (← prevBlkp (x + p.size))) (pack size 0)
        putWord (← ftrp (← nextBlkp (x + p.size))) (pack size 0)
        prevBlkp (x + p.size) : MM Nat)
      (fun r h' => r = x ∧ Retagged h x (b.merge [p] [n]) h') h := by
  have above := pAt.above
  have below := nAt.below
  have limit := bAt.limit
  have large := b.size_ge
  have large' := p.size_ge
  have large'' := n.size_ge
  simp only [wp_bind]
  rw [pAt.wp_prevBlkp, pAt.wp_getSize_hdrp, bAt.wp_nextBlkp, nAt.wp_ftrp, nAt.wp_getSize_footer,
    pAt.wp_prevBlkp, add32_eq (a := p.size) (by omega), add32_eq (by omega), pack_zero]
  generalize total : b.size + (p.size + n.size) = size
  have header1 : word (setWord h.mem (x - 4) size) (x + p.size - 4) = b.tag := by
    rw [word_setWord_ne (by omega)]
    exact bAt.tagged.1
  have nextHeader1 : word (setWord h.mem (x - 4) size) (x + p.size + b.size - 4) = n.tag := by
    rw [word_setWord_ne (by omega)]
    exact nAt.tagged.1
  have footer2 : word (setWord (setWord h.mem (x - 4) size) (x + p.size + b.size + n.size - 8) size)
      (x + p.size - 8) = p.tag := by
    rw [word_setWord_ne (by omega), word_setWord_ne (by omega)]
    exact pAt.tagged.2
  simp only [hdrp, WSIZE]
  rw [wp_putWord _ (by omega),
    wp_nextBlkp_of_header (h := h.withMem _) _ (by simp; omega) (by omega) header1,
    wp_ftrp_of_header (h := h.withMem _) _ (by simp; omega) (by omega) nextHeader1,
    wp_putWord _ (by simp; omega), Heap.withMem_withMem, Heap.withMem_mem,
    wp_prevBlkp_of_footer (h := h.withMem _) _ (by simp; omega) (by omega) footer2]
  have sized : (b.merge [p] [n]).size = size := by
    simp only [Block.merge, span_cons, span_nil]
    omega
  refine ⟨rfl, rfl, ?_, tagged_free size rfl sized ?_ ?_⟩
  · intro i outside
    rw [sized] at outside
    rw [Heap.withMem_mem, setWord_outside (by omega), setWord_outside (by omega)]
  · rw [Heap.withMem_mem, word_setWord_ne (by omega), word_setWord_same,
      Nat.mod_eq_of_lt (by omega)]
  · rw [Heap.withMem_mem, show x + size - 8 = x + p.size + b.size + n.size - 8 by omega,
      word_setWord_same, Nat.mod_eq_of_lt (by omega)]

end Tags

/-- The end of the three merging cases: the tags of the merged block are
written over the run it covers, whose nodes have left the list. -/
theorem Updated.merge {lo : Nat} {h h' h'' : Heap} {front left right back : List Block} {b : Block}
    {fl : List Nat}
    (before : Updated lo h (front ++ (left ++ b :: right) ++ back) h'
      (front ++ (left ++ b :: right) ++ back) fl)
    (behind : front ≠ []) (allFree : ∀ d ∈ left ++ b :: right, d.alloc = false)
    (gone : ∀ x ∈ pointers (lo + 8 + span front) (left ++ b :: right), x ∉ fl)
    (retagged : Retagged h' (lo + 8 + span front) (b.merge left right) h'') :
    Updated lo h (front ++ (left ++ b :: right) ++ back) h''
      (front ++ [b.merge left right] ++ back) fl := by
  have sameSpan : span [b.merge left right] = span (left ++ b :: right) := by
    simp [Block.merge, Nat.add_assoc]
  have size : (b.merge left right).size = span (left ++ b :: right) := by
    simpa using sameSpan
  have apart := before.consistent.nodes_apart gone
  have tags := before.consistent.retag [b.merge left right] (left ++ b :: right) behind
    sameSpan rfl allFree (size ▸ retagged.outside)
    (by
      intro x d at_
      simp only [located_cons, located_nil, List.mem_singleton, Prod.mk.injEq] at at_
      obtain ⟨rfl, rfl⟩ := at_
      exact retagged.tagged)
    apart
  rw [retagged.same]
  exact before.trans tags (fun _ _ _ member => member)

section Cases

variable {lo : Nat} {h : Heap} {front back : List Block} {p n b : Block} {fl : List Nat}

/-- The reads by which `coalesce` selects its case. -/
theorem wp_coalesce_select (layout : Layout lo h (front ++ [p] ++ b :: back))
    (post : Nat → Heap → Prop) :
    wp (coalesce (lo + 8 + span front + p.size)) post h ↔
      if p.alloc = true ∧ Layout.nextAlloc back = true then
        post (lo + 8 + span front + p.size) h
      else if p.alloc = true then
        wp (coalesceNext (lo + 8 + span front + p.size) b.size) post h
      else if Layout.nextAlloc back = true then
        wp (coalescePrev (lo + 8 + span front + p.size) b.size) post h
      else wp (coalesceBoth (lo + 8 + span front + p.size) b.size) post h := by
  have pAt : (lo + 8 + span front, p) ∈ located (lo + 8) (front ++ [p] ++ b :: back) := by simp
  have bAt : (lo + 8 + span front + p.size, b) ∈
      located (lo + 8) (front ++ [p] ++ b :: back) := by simp [Nat.add_assoc]
  have place : lo + 8 + span (front ++ [p]) = lo + 8 + span front + p.size := by
    simp [Nat.add_assoc]
  have next := layout.wp_getAlloc_next
  rw [place] at next
  simp only [coalesce, wp_bind]
  rw [layout.wp_prevBlkp pAt, layout.wp_ftrp pAt, layout.wp_getAlloc_footer pAt,
    layout.wp_nextBlkp bAt, next, layout.wp_getSize_hdrp bAt]
  cases p.alloc <;> cases Layout.nextAlloc back <;> simp

/-- `coalesce` with only the next block free. -/
theorem wp_coalesceNext (loose : Loose lo h front b (n :: back) fl) (nextFree : n.alloc = false) :
    wp (coalesceNext (lo + 8 + span front) b.size)
      (fun r h' => r = lo + 8 + span front ∧
        Updated lo h (front ++ ([] ++ b :: [n]) ++ back) h' (front ++ [b.merge [] [n]] ++ back)
          (fl.erase (lo + 8 + span front + b.size))) h := by
  obtain ⟨c, behind, isFree, absent, others⟩ := loose
  have shape : front ++ b :: n :: back = front ++ ([] ++ b :: [n]) ++ back := by simp
  rw [shape] at c others
  have bAt : (lo + 8 + span front, b) ∈
      located (lo + 8) (front ++ ([] ++ b :: [n]) ++ back) := by simp
  have nAt : (lo + 8 + span front + b.size, n) ∈
      located (lo + 8) (front ++ ([] ++ b :: [n]) ++ back) := by simp
  have large := b.size_ge
  have nMem : lo + 8 + span front + b.size ∈ fl := by
    rcases others _ ⟨n, nAt, nextFree⟩ with same | member
    · omega
    · exact member
  unfold coalesceNext
  rw [wp_bind, c.layout.wp_nextBlkp bAt, wp_bind]
  refine wp_mono (wp_cutOut c nMem) ?_
  intro _ h1 cut
  have layout := cut.consistent.layout
  refine wp_mono (wp_tagNext (layout.blockAt bAt) (layout.blockAt nAt)) ?_
  rintro r h2 ⟨rfl, retagged⟩
  refine ⟨rfl, cut.merge behind ?_ ?_ retagged⟩
  · simp [isFree, nextFree]
  · exact pair_gone c.list.nodup (.inr absent) (.inl rfl)

/-- `coalesce` with only the previous block free. -/
theorem wp_coalescePrev (loose : Loose lo h (front ++ [p]) b back fl) (behind : front ≠ [])
    (prevFree : p.alloc = false) :
    wp (coalescePrev (lo + 8 + span front + p.size) b.size)
      (fun r h' => r = lo + 8 + span front ∧
        Updated lo h (front ++ ([p] ++ b :: []) ++ back) h' (front ++ [b.merge [p] []] ++ back)
          (fl.erase (lo + 8 + span front))) h := by
  obtain ⟨c, -, isFree, absent, others⟩ := loose
  have shape : front ++ [p] ++ b :: back = front ++ ([p] ++ b :: []) ++ back := by simp
  have place : lo + 8 + span (front ++ [p]) = lo + 8 + span front + p.size := by
    simp [Nat.add_assoc]
  rw [shape] at c others
  rw [place] at absent others
  have pAt : (lo + 8 + span front, p) ∈
      located (lo + 8) (front ++ ([p] ++ b :: []) ++ back) := by simp
  have bAt : (lo + 8 + span front + p.size, b) ∈
      located (lo + 8) (front ++ ([p] ++ b :: []) ++ back) := by simp
  have large := b.size_ge
  have large' := p.size_ge
  have pMem : lo + 8 + span front ∈ fl := by
    rcases others _ ⟨p, pAt, prevFree⟩ with same | member
    · omega
    · exact member
  unfold coalescePrev
  rw [wp_bind, c.layout.wp_prevBlkp pAt, wp_bind]
  refine wp_mono (wp_cutOut c pMem) ?_
  intro _ h1 cut
  have layout := cut.consistent.layout
  refine wp_mono (wp_tagPrev (layout.blockAt pAt) (layout.blockAt bAt)) ?_
  rintro r h2 ⟨rfl, retagged⟩
  refine ⟨rfl, cut.merge behind ?_ ?_ retagged⟩
  · simp [isFree, prevFree]
  · exact pair_gone c.list.nodup (.inl rfl) (.inr absent)

/-- `coalesce` with both neighbours free. -/
theorem wp_coalesceBoth (loose : Loose lo h (front ++ [p]) b (n :: back) fl) (behind : front ≠ [])
    (prevFree : p.alloc = false) (nextFree : n.alloc = false) :
    wp (coalesceBoth (lo + 8 + span front + p.size) b.size)
      (fun r h' => r = lo + 8 + span front ∧
        Updated lo h (front ++ ([p] ++ b :: [n]) ++ back) h' (front ++ [b.merge [p] [n]] ++ back)
          ((fl.erase (lo + 8 + span front)).erase (lo + 8 + span front + p.size + b.size))) h := by
  obtain ⟨c, -, isFree, absent, others⟩ := loose
  have shape : front ++ [p] ++ b :: n :: back = front ++ ([p] ++ b :: [n]) ++ back := by simp
  have place : lo + 8 + span (front ++ [p]) = lo + 8 + span front + p.size := by
    simp [Nat.add_assoc]
  rw [shape] at c others
  rw [place] at absent others
  have pAt : (lo + 8 + span front, p) ∈
      located (lo + 8) (front ++ ([p] ++ b :: [n]) ++ back) := by simp
  have bAt : (lo + 8 + span front + p.size, b) ∈
      located (lo + 8) (front ++ ([p] ++ b :: [n]) ++ back) := by simp
  have nAt : (lo + 8 + span front + p.size + b.size, n) ∈
      located (lo + 8) (front ++ ([p] ++ b :: [n]) ++ back) := by simp
  have large := b.size_ge
  have large' := p.size_ge
  have large'' := n.size_ge
  have pMem : lo + 8 + span front ∈ fl := by
    rcases others _ ⟨p, pAt, prevFree⟩ with same | member
    · omega
    · exact member
  have nMem : lo + 8 + span front + p.size + b.size ∈ fl.erase (lo + 8 + span front) := by
    rcases others _ ⟨n, nAt, nextFree⟩ with same | member
    · omega
    · exact (List.mem_erase_of_ne (by omega)).mpr member
  unfold coalesceBoth
  rw [wp_bind, c.layout.wp_prevBlkp pAt, wp_bind]
  refine wp_mono (wp_cutOut c pMem) ?_
  intro _ h0 cutPrev
  rw [wp_bind, cutPrev.consistent.layout.wp_nextBlkp bAt, wp_bind]
  refine wp_mono (wp_cutOut cutPrev.consistent nMem) ?_
  intro _ h1 cutNext
  have cut := cutPrev.trans cutNext (fun _ _ _ member => member)
  have layout := cut.consistent.layout
  refine wp_mono (wp_tagBoth (layout.blockAt pAt) (layout.blockAt bAt) (layout.blockAt nAt)) ?_
  rintro r h2 ⟨rfl, retagged⟩
  refine ⟨rfl, cut.merge behind ?_ ?_ retagged⟩
  · simp [isFree, prevFree, nextFree]
  · intro x member
    simp only [pointers, List.singleton_append, located_cons, located_nil, List.map_cons,
      List.map_nil, List.mem_cons, List.not_mem_nil, or_false] at member
    have inner := c.list.nodup.erase (lo + 8 + span front)
    rcases member with rfl | rfl | rfl
    · exact fun inList => c.list.nodup.not_mem_erase (List.mem_of_mem_erase inList)
    · exact fun inList => absent (List.mem_of_mem_erase (List.mem_of_mem_erase inList))
    · exact inner.not_mem_erase

/-- `coalesce` returns the one free block that its argument and the free
neighbours of it form. -/
theorem wp_coalesce (loose : Loose lo h front b back fl) :
    wp (coalesce (lo + 8 + span front))
      (fun r h' => r = lo + 8 + span (cutFreeLast front).1 ∧
        Updated lo h (front ++ b :: back) h' (coalesced front b back)
          (fl.diff (absorbed lo front b back))) h := by
  obtain ⟨init, p, rfl, place⟩ := exists_before loose.behind (lo + 8)
  have layout := loose.consistent.layout
  rw [place, wp_coalesce_select layout]
  have behind : p.alloc = false → init ≠ [] := by
    rintro prevFree rfl
    have head := layout.head
    cases head
    cases prevFree
  have untouched : b.merge [] [] = b := merge_nil loose.isFree
  have stay := Updated.refl loose.consistent
  cases prevBit : p.alloc with
  | true =>
      cases back with
      | nil => simpa [Layout.nextAlloc, coalesced, absorbed, pointers, cutFreeHead, prevBit,
          untouched, Nat.add_assoc] using stay
      | cons n back =>
          cases nextBit : n.alloc with
          | true => simpa [Layout.nextAlloc, coalesced, absorbed, pointers, cutFreeHead, prevBit,
              nextBit, untouched, Nat.add_assoc] using stay
          | false =>
              have run := wp_coalesceNext loose nextBit
              rw [place] at run
              simpa [Layout.nextAlloc, coalesced, absorbed, pointers, cutFreeHead, prevBit,
                nextBit, Nat.add_assoc] using run
  | false =>
      cases back with
      | nil =>
          simpa [Layout.nextAlloc, coalesced, absorbed, pointers, cutFreeHead, prevBit,
            Nat.add_assoc] using wp_coalescePrev loose (behind prevBit) prevBit
      | cons n back =>
          cases nextBit : n.alloc with
          | true =>
              simpa [Layout.nextAlloc, coalesced, absorbed, pointers, cutFreeHead, prevBit,
                nextBit, Nat.add_assoc] using wp_coalescePrev loose (behind prevBit) prevBit
          | false =>
              simpa [Layout.nextAlloc, coalesced, absorbed, pointers, cutFreeHead, prevBit,
                nextBit, Nat.add_assoc] using
                wp_coalesceBoth loose (behind prevBit) prevBit nextBit

end Cases

end SysProg.Malloc

import SysProg.Malloc.Blocks
import SysProg.Malloc.Program

/-!
# Block lists in memory

`Layout` ties the words of the heap to an abstract block list: the blocks
tile the bytes between the padding word and the epilogue, and both boundary
tags of each block hold its tag.  The read macros are evaluated against it.
-/

namespace SysProg.Malloc

open Logic

/-! ## Words that hold a size and an allocation bit -/

/-- Masking a word with `~0x7` rounds it down to a double word. -/
theorem and_sizeMask {n : Nat} (small : n < 2 ^ 32) : n &&& sizeMask = n / 8 * 8 := by
  have mask : sizeMask = (2 ^ 29 - 1) <<< 3 := by decide
  have rounded : n / 8 * 8 = (n >>> 3) <<< 3 := by
    rw [Nat.shiftLeft_eq, Nat.shiftRight_eq_div_pow]
  rw [mask, rounded]
  apply Nat.eq_of_testBit_eq
  intro i
  simp only [Nat.testBit_and, Nat.testBit_shiftLeft, Nat.testBit_two_pow_sub_one,
    Nat.testBit_shiftRight]
  by_cases low : 3 ≤ i
  · have index : 3 + (i - 3) = i := by omega
    by_cases high : i < 32
    · simp [low, show i - 3 < 29 by omega, index]
    · have zero : n.testBit i = false := Nat.testBit_lt_two_pow
        (Nat.lt_of_lt_of_le small (Nat.pow_le_pow_right (by decide) (by omega)))
      simp [zero, index]
  · simp [low]

@[simp] theorem pack_zero (size : Nat) : pack size 0 = size := by
  simp [pack]

theorem pack_one {size : Nat} (aligned : size % 8 = 0) : pack size 1 = size + 1 := by
  have disjoint := Nat.two_pow_add_eq_or_of_lt (i := 3) (b := 1) (by decide) (size / 8)
  have whole : 2 ^ 3 * (size / 8) = size := by omega
  rw [whole] at disjoint
  exact disjoint.symm

namespace Block

theorem pack_eq_tag (b : Block) : pack b.size b.alloc.toNat = b.tag := by
  unfold tag
  cases b.alloc with
  | false => simp
  | true => exact pack_one b.aligned

theorem tag_and_one (b : Block) : b.tag &&& 1 = b.alloc.toNat := by
  have aligned := b.aligned
  have bit := Bool.toNat_le b.alloc
  rw [Nat.and_one_is_mod]
  unfold tag
  omega

theorem tag_and_sizeMask {b : Block} (small : b.size < 2 ^ 32) : b.tag &&& sizeMask = b.size := by
  have aligned := b.aligned
  have bit := Bool.toNat_le b.alloc
  unfold tag
  rw [and_sizeMask (by omega)]
  omega

theorem tag_lt {b : Block} (small : b.size < 2 ^ 32) : b.tag < 2 ^ 32 := by
  have aligned := b.aligned
  have bit := Bool.toNat_le b.alloc
  unfold tag
  omega

end Block

/-! ## Boundary tags in memory -/

/-- Both boundary tags of the block `b` at `x` hold its tag. -/
def Tagged (m : Mem) (x : Nat) (b : Block) : Prop :=
  word m (x - 4) = b.tag ∧ word m (x + b.size - 8) = b.tag

/-- Write both boundary tags of the block `b` at `x`. -/
def setTags (m : Mem) (x : Nat) (b : Block) : Mem :=
  setWord (setWord m (x - 4) b.tag) (x + b.size - 8) b.tag

theorem Tagged.congr {m m' : Mem} {x : Nat} {b : Block} (tagged : Tagged m x b)
    (header : AgreeOn m m' (x - 4) (x - 4 + 4))
    (footer : AgreeOn m m' (x + b.size - 8) (x + b.size - 8 + 4)) : Tagged m' x b :=
  ⟨(word_congr header).trans tagged.1, (word_congr footer).trans tagged.2⟩

theorem setTags_tagged {m : Mem} {x : Nat} {b : Block} (small : b.size < 2 ^ 32)
    (low : 4 ≤ x) : Tagged (setTags m x b) x b := by
  have large := b.size_ge
  have fits := Block.tag_lt small
  constructor
  · unfold setTags
    rw [word_setWord_ne (by omega), word_setWord_same, Nat.mod_eq_of_lt fits]
  · unfold setTags
    rw [word_setWord_same, Nat.mod_eq_of_lt fits]

/-- Tag writes stay between the header and the next block's header. -/
theorem setTags_outside {m : Mem} {x i : Nat} {b : Block} (low : 4 ≤ x)
    (outside : i < x - 4 ∨ x + b.size - 4 ≤ i) : setTags m x b i = m i := by
  have large := b.size_ge
  unfold setTags
  rw [setWord_outside (by omega), setWord_outside (by omega)]

/-- Tag writes leave the payload of the block alone. -/
theorem setTags_payload {m : Mem} {x i : Nat} {b : Block} (low : 4 ≤ x)
    (lower : x ≤ i) (upper : i < x + b.size - 8) : setTags m x b i = m i := by
  unfold setTags
  rw [setWord_outside (by omega), setWord_outside (by omega)]

/-- A memory that keeps everything outside the middle part of a run and carries
the tags of another cut of it carries the tags of the whole run. -/
theorem tagged_replace {m m' : Mem} {a : Nat} {front mid mid' back : List Block} (low : 4 ≤ a)
    (tags : ∀ x b, (x, b) ∈ located a (front ++ mid ++ back) → Tagged m x b)
    (sameSpan : span mid' = span mid)
    (outside : ∀ i, i < a + span front - 4 ∨ a + span front + span mid - 4 ≤ i → m' i = m i)
    (tagged : ∀ x b, (x, b) ∈ located (a + span front) mid' → Tagged m' x b) :
    ∀ x b, (x, b) ∈ located a (front ++ mid' ++ back) → Tagged m' x b := by
  intro x b at_
  have old := tags x b
  have large := b.size_ge
  simp only [located_append, List.mem_append, span_append, sameSpan] at at_ old
  rcases at_ with (inFront | inMid) | inBack
  · have bounds := located_bounds inFront
    refine (old (.inl (.inl inFront))).congr ?_ ?_
    · intro i lower upper
      exact outside i (by omega)
    · intro i lower upper
      exact outside i (by omega)
  · exact tagged x b inMid
  · have bounds := located_bounds inBack
    refine (old (.inr (by simpa only [Nat.add_assoc] using inBack))).congr ?_ ?_
    · intro i lower upper
      exact outside i (by omega)
    · intro i lower upper
      exact outside i (by omega)

/-- Cutting two blocks out of one run of tags. -/
theorem splitTags_tagged {m : Mem} {a : Nat} {b c : Block} (low : 4 ≤ a)
    (small : b.size + c.size < 2 ^ 32) :
    ∀ x d, (x, d) ∈ located a [b, c] → Tagged (setTags (setTags m a b) (a + b.size) c) x d := by
  intro x d at_
  have large := b.size_ge
  have first : Tagged (setTags m a b) a b := setTags_tagged (by omega) low
  simp only [located_cons, located_nil, List.mem_cons, List.not_mem_nil, or_false,
    Prod.mk.injEq] at at_
  rcases at_ with ⟨rfl, rfl⟩ | ⟨rfl, rfl⟩
  · refine first.congr ?_ ?_
    · intro i lower upper
      exact setTags_outside (by omega) (by omega)
    · intro i lower upper
      exact setTags_outside (by omega) (by omega)
  · exact setTags_tagged (by omega) (by omega)

/-! ## The layout invariant -/

/-- The heap between its start `lo` and its break is the given list of blocks. -/
structure Layout (lo : Nat) (h : Heap) (bs : List Block) : Prop where
  start_eq : h.memStartBrk = lo
  start_aligned : lo % 8 = 0
  limit : h.memMaxAddr < 2 ^ 32
  brk_le : h.memBrk ≤ h.memMaxAddr
  brk_eq : h.memBrk = lo + 8 + span bs
  prol_eq : h.prolBp = lo + 8
  head : bs.head? = some prologue
  tags : ∀ x b, (x, b) ∈ located (lo + 8) bs → Tagged h.mem x b
  epilogue : word h.mem (h.memBrk - 4) = 1

theorem wp_getWord {h : Heap} {p : Nat} (post : Nat → Heap → Prop)
    (inside : h.memStartBrk ≤ p ∧ p + 4 ≤ h.memBrk) :
    wp (getWord p) post h ↔ post (word h.mem p) h := by
  have accessible : h.Accessible p 4 := fun _ _ => inside
  unfold wp getWord
  simp [accessible]

theorem wp_putWord {h : Heap} {p v : Nat} (post : Unit → Heap → Prop)
    (inside : h.memStartBrk ≤ p ∧ p + 4 ≤ h.memBrk) :
    wp (putWord p v) post h ↔ post () (h.withMem (setWord h.mem p v)) := by
  have accessible : h.Accessible p 4 := fun _ _ => inside
  unfold wp putWord
  simp [accessible]

@[simp] theorem wp_rootBp {h : Heap} (post : Nat → Heap → Prop) :
    wp rootBp post h ↔ post h.rootBp h := by
  simp [wp, rootBp]

@[simp] theorem wp_prolBp {h : Heap} (post : Nat → Heap → Prop) :
    wp prolBp post h ↔ post h.prolBp h := by
  simp [wp, prolBp]

@[simp] theorem wp_setRootBp {h : Heap} {bp : Nat} (post : Unit → Heap → Prop) :
    wp (setRootBp bp) post h ↔ post () { h with rootBp := bp } := by
  simp [wp, setRootBp]

@[simp] theorem wp_setProlBp {h : Heap} {bp : Nat} (post : Unit → Heap → Prop) :
    wp (setProlBp bp) post h ↔ post () { h with prolBp := bp } := by
  simp [wp, setProlBp]

/-- A header that holds the tag of `b` lets `FTRP` find the footer. -/
theorem wp_ftrp_of_header {h : Heap} {x : Nat} {b : Block} (post : Nat → Heap → Prop)
    (inside : h.memStartBrk + 4 ≤ x ∧ x ≤ h.memBrk) (small : b.size < 2 ^ 32)
    (header : word h.mem (x - 4) = b.tag) :
    wp (ftrp x) post h ↔ post (x + b.size - 8) h := by
  simp only [ftrp, getSize, hdrp, WSIZE, DSIZE, wp_bind, wp_pure]
  rw [wp_getWord _ (by omega), header, Block.tag_and_sizeMask small]

/-- A header that holds the tag of `b` lets `NEXT_BLKP` find the next block. -/
theorem wp_nextBlkp_of_header {h : Heap} {x : Nat} {b : Block} (post : Nat → Heap → Prop)
    (inside : h.memStartBrk + 4 ≤ x ∧ x ≤ h.memBrk) (small : b.size < 2 ^ 32)
    (header : word h.mem (x - 4) = b.tag) :
    wp (nextBlkp x) post h ↔ post (x + b.size) h := by
  simp only [nextBlkp, getSize, WSIZE, wp_bind, wp_pure]
  rw [wp_getWord _ (by omega), header, Block.tag_and_sizeMask small]

/-- The two tag writes of a block that ends at or before the break. -/
theorem wp_putTags {h : Heap} {x size : Nat} (b : Block) (bit : Nat) (post : Unit → Heap → Prop)
    (sized : size = b.size) (bits : bit = b.alloc.toNat)
    (inside : h.memStartBrk + 4 ≤ x ∧ x + b.size - 4 ≤ h.memBrk) (limit : h.memBrk < 2 ^ 32) :
    wp (putTags x size bit) post h ↔ post () (h.withMem (setTags h.mem x b)) := by
  have large := b.size_ge
  have small : b.size < 2 ^ 32 := by omega
  have header : word (h.withMem (setWord h.mem (x - 4) b.tag)).mem (x - 4) = b.tag := by
    simp only [Heap.withMem, word_setWord_same]
    exact Nat.mod_eq_of_lt (Block.tag_lt small)
  subst sized bits
  simp only [putTags, hdrp, WSIZE, Block.pack_eq_tag, wp_bind]
  rw [wp_putWord _ (by omega), wp_ftrp_of_header _ (by simp; omega) small header,
    wp_putWord _ (by simp; omega)]
  rfl

/-- The four tag writes that cut the run of `b` and `c` out of one block. -/
theorem wp_putSplitTags {h : Heap} {x size rest : Nat} (b c : Block) (post : Unit → Heap → Prop)
    (sized : size = b.size) (restSized : rest = c.size)
    (taken : b.alloc = true) (restFree : c.alloc = false)
    (inside : h.memStartBrk + 4 ≤ x ∧ x + b.size + c.size - 4 ≤ h.memBrk)
    (limit : h.memBrk < 2 ^ 32) :
    wp (putSplitTags x size rest) post h ↔
      post () (h.withMem (setTags (setTags h.mem x b) (x + b.size) c)) := by
  have large := b.size_ge
  have large' := c.size_ge
  have first : word (setTags h.mem x b) (x - 4) = b.tag :=
    (setTags_tagged (by omega) (by omega)).1
  have kept : word (setWord (setTags h.mem x b) (x + b.size - 4) c.tag) (x - 4) = b.tag := by
    rw [word_setWord_ne (by omega)]
    exact first
  have second : word (setWord (setTags h.mem x b) (x + b.size - 4) c.tag) (x + b.size - 4) =
      c.tag := by
    rw [word_setWord_same]
    exact Nat.mod_eq_of_lt (Block.tag_lt (by omega))
  have packed : pack c.size 0 = c.tag := by
    rw [← c.pack_eq_tag, restFree]
    rfl
  subst sized restSized
  simp only [putSplitTags, wp_bind, hdrp, WSIZE, packed]
  rw [wp_putTags b 1 _ rfl (by rw [taken]; rfl) (by omega) limit]
  generalize setTags h.mem x b = m at first kept second ⊢
  rw [wp_nextBlkp_of_header (h := h.withMem m) (b := b) _ (by simp; omega) (by omega) first,
    wp_putWord _ (by simp; omega), Heap.withMem_withMem, Heap.withMem_mem,
    wp_nextBlkp_of_header (h := h.withMem _) (b := b) _ (by simp; omega) (by omega) kept,
    wp_ftrp_of_header (h := h.withMem _) (x := x + b.size) (b := c) _ (by simp; omega)
      (by omega) second,
    wp_putWord _ (by simp; omega), Heap.withMem_withMem, Heap.withMem_mem]
  rfl

/-! ## Reading a block through the macros -/

/-- The block `b` lies at `x` in the heap, with its boundary tags. -/
structure BlockAt (h : Heap) (x : Nat) (b : Block) : Prop where
  above : h.memStartBrk + 4 ≤ x
  below : x + b.size ≤ h.memBrk
  limit : h.memBrk < 2 ^ 32
  tagged : Tagged h.mem x b

namespace BlockAt

variable {h : Heap} {x : Nat} {b : Block}

theorem size_lt (at_ : BlockAt h x b) : b.size < 2 ^ 32 := by
  have below := at_.below
  have limit := at_.limit
  omega

theorem wp_getSize_hdrp (at_ : BlockAt h x b) (post : Nat → Heap → Prop) :
    wp (getSize (hdrp x)) post h ↔ post b.size h := by
  have above := at_.above
  have below := at_.below
  simp only [getSize, hdrp, WSIZE, wp_bind, wp_pure]
  rw [wp_getWord _ (by omega), at_.tagged.1, Block.tag_and_sizeMask at_.size_lt]

theorem wp_getSize_footer (at_ : BlockAt h x b) (post : Nat → Heap → Prop) :
    wp (getSize (x + b.size - 8)) post h ↔ post b.size h := by
  have above := at_.above
  have below := at_.below
  have large := b.size_ge
  simp only [getSize, wp_bind, wp_pure]
  rw [wp_getWord _ (by omega), at_.tagged.2, Block.tag_and_sizeMask at_.size_lt]

theorem wp_getAlloc_hdrp (at_ : BlockAt h x b) (post : Nat → Heap → Prop) :
    wp (getAlloc (hdrp x)) post h ↔ post b.alloc.toNat h := by
  have above := at_.above
  have below := at_.below
  simp only [getAlloc, hdrp, WSIZE, wp_bind, wp_pure]
  rw [wp_getWord _ (by omega), at_.tagged.1, Block.tag_and_one]

theorem wp_getAlloc_footer (at_ : BlockAt h x b) (post : Nat → Heap → Prop) :
    wp (getAlloc (x + b.size - 8)) post h ↔ post b.alloc.toNat h := by
  have above := at_.above
  have below := at_.below
  have large := b.size_ge
  simp only [getAlloc, wp_bind, wp_pure]
  rw [wp_getWord _ (by omega), at_.tagged.2, Block.tag_and_one]

theorem wp_ftrp (at_ : BlockAt h x b) (post : Nat → Heap → Prop) :
    wp (ftrp x) post h ↔ post (x + b.size - 8) h := by
  have below := at_.below
  exact wp_ftrp_of_header _ ⟨at_.above, by omega⟩ at_.size_lt at_.tagged.1

theorem wp_nextBlkp (at_ : BlockAt h x b) (post : Nat → Heap → Prop) :
    wp (nextBlkp x) post h ↔ post (x + b.size) h := by
  have below := at_.below
  exact wp_nextBlkp_of_header _ ⟨at_.above, by omega⟩ at_.size_lt at_.tagged.1

/-- The footer before a block pointer leads back to the block before it. -/
theorem wp_prevBlkp (at_ : BlockAt h x b) (post : Nat → Heap → Prop) :
    wp (prevBlkp (x + b.size)) post h ↔ post x h := by
  simp only [prevBlkp, DSIZE, wp_bind, wp_pure]
  rw [at_.wp_getSize_footer, Nat.add_sub_cancel]

end BlockAt

namespace Layout

variable {lo : Nat} {h : Heap} {bs : List Block} {x : Nat} {b : Block}

theorem brk_lt (layout : Layout lo h bs) : h.memBrk < 2 ^ 32 := by
  have le := layout.brk_le
  have lt := layout.limit
  omega

/-- A block lies between the first header and the epilogue. -/
theorem bounds (layout : Layout lo h bs) (at_ : (x, b) ∈ located (lo + 8) bs) :
    lo + 8 ≤ x ∧ x + b.size ≤ h.memBrk := by
  rw [layout.brk_eq]
  exact located_bounds at_

theorem blockAt (layout : Layout lo h bs) (at_ : (x, b) ∈ located (lo + 8) bs) :
    BlockAt h x b := by
  have start := layout.start_eq
  have inside := layout.bounds at_
  exact ⟨by omega, inside.2, layout.brk_lt, layout.tags x b at_⟩

theorem size_lt (layout : Layout lo h bs) (at_ : (x, b) ∈ located (lo + 8) bs) :
    b.size < 2 ^ 32 :=
  (layout.blockAt at_).size_lt

theorem aligned (layout : Layout lo h bs) (at_ : (x, b) ∈ located (lo + 8) bs) :
    x % 8 = 0 :=
  located_aligned (by have := layout.start_aligned; omega) at_

/-- The prologue is the first block. -/
theorem exists_tail (layout : Layout lo h bs) : ∃ tail, bs = prologue :: tail := by
  have head := layout.head
  cases bs with
  | nil => cases head
  | cons first tail =>
      cases head
      exact ⟨tail, rfl⟩

theorem prologue_at (layout : Layout lo h bs) : (h.prolBp, prologue) ∈ located (lo + 8) bs := by
  obtain ⟨tail, rfl⟩ := layout.exists_tail
  rw [layout.prol_eq]
  simp

theorem wp_getSize_hdrp (layout : Layout lo h bs) (at_ : (x, b) ∈ located (lo + 8) bs)
    (post : Nat → Heap → Prop) : wp (getSize (hdrp x)) post h ↔ post b.size h :=
  (layout.blockAt at_).wp_getSize_hdrp post

theorem getSize_hdrp (layout : Layout lo h bs) (at_ : (x, b) ∈ located (lo + 8) bs) :
    getSize (hdrp x) h = some (b.size, h) :=
  run_of_wp ((layout.wp_getSize_hdrp at_ _).mpr ⟨rfl, rfl⟩)

theorem wp_getSize_footer (layout : Layout lo h bs)
    (at_ : (x, b) ∈ located (lo + 8) bs) (post : Nat → Heap → Prop) :
    wp (getSize (x + b.size - 8)) post h ↔ post b.size h :=
  (layout.blockAt at_).wp_getSize_footer post

theorem wp_getAlloc_hdrp (layout : Layout lo h bs) (at_ : (x, b) ∈ located (lo + 8) bs)
    (post : Nat → Heap → Prop) : wp (getAlloc (hdrp x)) post h ↔ post b.alloc.toNat h :=
  (layout.blockAt at_).wp_getAlloc_hdrp post

theorem getAlloc_hdrp (layout : Layout lo h bs) (at_ : (x, b) ∈ located (lo + 8) bs) :
    getAlloc (hdrp x) h = some (b.alloc.toNat, h) :=
  run_of_wp ((layout.wp_getAlloc_hdrp at_ _).mpr ⟨rfl, rfl⟩)

/-- The header of a free block shows the bit 0. -/
theorem getAlloc_zero_iff (layout : Layout lo h bs) (at_ : (x, b) ∈ located (lo + 8) bs) :
    getAlloc (hdrp x) h = some (0, h) ↔ b.alloc = false := by
  rw [layout.getAlloc_hdrp at_]
  cases b.alloc <;> simp

theorem wp_getAlloc_footer (layout : Layout lo h bs)
    (at_ : (x, b) ∈ located (lo + 8) bs) (post : Nat → Heap → Prop) :
    wp (getAlloc (x + b.size - 8)) post h ↔ post b.alloc.toNat h :=
  (layout.blockAt at_).wp_getAlloc_footer post

theorem wp_ftrp (layout : Layout lo h bs) (at_ : (x, b) ∈ located (lo + 8) bs)
    (post : Nat → Heap → Prop) : wp (ftrp x) post h ↔ post (x + b.size - 8) h :=
  (layout.blockAt at_).wp_ftrp post

theorem wp_nextBlkp (layout : Layout lo h bs) (at_ : (x, b) ∈ located (lo + 8) bs)
    (post : Nat → Heap → Prop) : wp (nextBlkp x) post h ↔ post (x + b.size) h :=
  (layout.blockAt at_).wp_nextBlkp post

theorem wp_prevBlkp (layout : Layout lo h bs) (at_ : (x, b) ∈ located (lo + 8) bs)
    (post : Nat → Heap → Prop) : wp (prevBlkp (x + b.size)) post h ↔ post x h :=
  (layout.blockAt at_).wp_prevBlkp post

/-- The allocation bit that the header after a run shows: the epilogue counts
as allocated. -/
def nextAlloc : List Block → Bool
  | [] => true
  | b :: _ => b.alloc

/-- The header after a block shows the next block or the epilogue. -/
theorem wp_getAlloc_next {front back : List Block} (layout : Layout lo h (front ++ b :: back))
    (post : Nat → Heap → Prop) :
    wp (getAlloc (hdrp (lo + 8 + span front + b.size))) post h ↔
      post (nextAlloc back).toNat h := by
  cases back with
  | nil =>
      have brk := layout.brk_eq
      have address : lo + 8 + span front + b.size - 4 = h.memBrk - 4 := by
        simp only [span_append, span_cons, span_nil] at brk
        omega
      have large := b.size_ge
      have start := layout.start_eq
      have inside := (layout.bounds (x := lo + 8 + span front) (b := b) (by simp)).2
      simp only [getAlloc, hdrp, WSIZE, wp_bind, wp_pure]
      rw [address, wp_getWord _ (by omega), layout.epilogue]
      rfl
  | cons c back => exact layout.wp_getAlloc_hdrp (by simp) post

/-! ## Rewriting the tags of a part of the heap -/

/-- A memory that keeps everything outside the middle part and carries the
tags of another cut of it has that cut as its layout. -/
theorem replace {front mid mid' back : List Block} {m : Mem}
    (layout : Layout lo h (front ++ mid ++ back)) (behind : front ≠ [])
    (sameSpan : span mid' = span mid)
    (outside : ∀ i, i < lo + 8 + span front - 4 ∨
      lo + 8 + span front + span mid - 4 ≤ i → m i = h.mem i)
    (tagged : ∀ x b, (x, b) ∈ located (lo + 8 + span front) mid' → Tagged m x b) :
    Layout lo (h.withMem m) (front ++ mid' ++ back) := by
  have brk := layout.brk_eq
  simp only [span_append] at brk
  refine ⟨layout.start_eq, layout.start_aligned, layout.limit, layout.brk_le, ?_, layout.prol_eq,
    ?_, ?_, ?_⟩
  · simp only [Heap.withMem, span_append]
    omega
  · have head := layout.head
    cases front with
    | nil => exact absurd rfl behind
    | cons first rest => exact head
  · exact tagged_replace (by omega) layout.tags sameSpan outside tagged
  · have same : word m (h.memBrk - 4) = word h.mem (h.memBrk - 4) := by
      apply word_congr
      intro i lower upper
      exact outside i (by omega)
    exact same.trans layout.epilogue

/-- A memory that agrees on all boundary tags has the same layout. -/
theorem congr {m : Mem} (layout : Layout lo h bs)
    (tags : ∀ x b, (x, b) ∈ located (lo + 8) bs → Tagged m x b)
    (epilogue : word m (h.memBrk - 4) = 1) : Layout lo (h.withMem m) bs :=
  ⟨layout.start_eq, layout.start_aligned, layout.limit, layout.brk_le, layout.brk_eq,
    layout.prol_eq, layout.head, tags, epilogue⟩

end Layout

end SysProg.Malloc

import SysProg.Implicit.Operations

/-!
# `mm_malloc`, `mm_free`, `mm_realloc` and `mm_init`

Between two calls the blocks tile the heap and no two adjacent ones are free.
A call hands out one more block, takes one back, or changes nothing.
-/

namespace SysProg.Implicit

open Logic Malloc

variable {listp : Nat} {h : Heap} {bs : List Block}

/-- The state of the heap between two calls. -/
structure Represents (listp : Nat) (h : Heap) (bs : List Block) : Prop where
  tiling : Tiling listp h bs
  sparse : Sparse bs

/-- Beside the allocated blocks of `kept` there is one more, which starts at
`r` and is at least as large as `want`. -/
structure Handed (listp : Nat) (h : Heap) (kept : List Block) (want : Block) (r : Nat) (h' : Heap)
    (bs : List Block) : Prop where
  updated : Updated listp h kept h' bs
  sparse : Sparse bs
  fresh : ∀ e, (r, e) ∈ located (listp + 8) kept → e.alloc = false
  block : ∃ d, d.alloc = true ∧ want.size ≤ d.size ∧ ∀ x e, e.alloc = true →
    ((x, e) ∈ located (listp + 8) bs ↔ (x = r ∧ e = d) ∨ (x, e) ∈ located (listp + 8) kept)

namespace Handed

variable {h' : Heap} {kept : List Block} {want : Block} {r : Nat}

theorem represents (handed : Handed listp h kept want r h' bs) : Represents listp h' bs :=
  ⟨handed.updated.tiling, handed.sparse⟩

/-- The new block is where `r` points. -/
theorem exists_at (handed : Handed listp h kept want r h' bs) :
    ∃ d, (r, d) ∈ located (listp + 8) bs ∧ d.alloc = true ∧ want.size ≤ d.size := by
  obtain ⟨d, taken, fits, members⟩ := handed.block
  exact ⟨d, (members r d taken).mpr (.inl ⟨rfl, rfl⟩), taken, fits⟩

theorem ne_null (handed : Handed listp h kept want r h' bs) : r ≠ NULL := by
  obtain ⟨d, at_, -, -⟩ := handed.exists_at
  have bounds := located_bounds at_
  unfold NULL
  omega

/-- What `place` makes of a free block is handed out. -/
theorem of_place {front back : List Block} {b : Block} (sparse : Sparse (front ++ b :: back))
    (isFree : b.alloc = false) (taken : want.alloc = true) (fits : want.size ≤ b.size)
    (same : ∀ x e, e.alloc = true → ((x, e) ∈ located (listp + 8) (front ++ b :: back) ↔
      (x, e) ∈ located (listp + 8) kept))
    (updated : Updated listp h kept h' (front ++ placed b want ++ back)) :
    Handed listp h kept want (listp + 8 + span front) h' (front ++ placed b want ++ back) where
  updated := updated
  sparse := by
    refine sparse.replace_free isFree ?_
    unfold placed
    split
    · exact List.isChain_pair.mpr (.inl taken)
    · exact List.isChain_singleton _
  fresh e at_ := by
    cases bit : e.alloc with
    | false => rfl
    | true =>
        have old := (same _ e bit).mpr at_
        have bAt : (listp + 8 + span front, b) ∈ located (listp + 8) (front ++ b :: back) := by simp
        rw [located_unique old bAt, isFree] at bit
        cases bit
  block := by
    refine ⟨SysProg.Malloc.handed b want, handed_alloc taken, handed_size_ge fits, ?_⟩
    intro x e bit
    have spans : span (placed b want) = span [b] := span_placed
    rw [alloc_mem_recut spans (by simpa using isFree) bit, mem_located_placed bit, ← same x e bit]
    simp

/-- The owner of the new block writes into it. -/
theorem overwrite {m : Mem} (handed : Handed listp h kept want r h' bs)
    (only : ∀ i d, (r, d) ∈ located (listp + 8) bs → i < r ∨ r + d.size - 8 ≤ i →
      m i = h'.mem i) :
    Handed listp h kept want r (h'.withMem m) bs where
  updated := by
    obtain ⟨d, taken, -, members⟩ := handed.block
    have dAt : (r, d) ∈ located (listp + 8) bs := (members r d taken).mpr (.inl ⟨rfl, rfl⟩)
    have arena := handed.updated.arena
    refine ⟨⟨arena.start, arena.limit, arena.checked⟩, handed.updated.tiling.overwrite ?_, ?_⟩
    · intro i outside
      refine only i d dAt ?_
      by_contra inside
      exact outside ⟨r, d, dAt, taken, by omega, by omega⟩
    · rintro i ⟨x, e, at_, bit, lower, upper⟩
      have kept := handed.updated.keeps i ⟨x, e, at_, bit, lower, upper⟩
      refine (only i d dAt ?_).trans kept
      rcases located_disjoint ((members x e bit).mpr (.inr at_)) dAt with ⟨rfl, -⟩ | before | behind
      · rw [handed.fresh e at_] at bit
        cases bit
      · omega
      · omega
  sparse := handed.sparse
  fresh := handed.fresh
  block := handed.block

section GiveBack

variable {h'' : Heap} {front back front1 back1 : List Block} {b : Block}

/-- The new block is not the one that was allocated before. -/
theorem ne_old (handed : Handed listp h (front ++ b :: back) want r h' bs)
    (taken : b.alloc = true) : listp + 8 + span front ≠ r := by
  intro same
  have bAt : (r, b) ∈ located (listp + 8) (front ++ b :: back) := by simp [same]
  rw [handed.fresh b bAt] at taken
  cases taken

/-- A block of before is given back after the new one was handed out. -/
theorem giveBack
    (handed : Handed listp h (front ++ b :: back) want r h' (front1 ++ b :: back1))
    (place : listp + 8 + span front = listp + 8 + span front1) (taken : b.alloc = true)
    (updated : Updated listp h' (front1 ++ b.mark false :: back1) h''
      (coalesced front1 (b.mark false) back1))
    (sparse : Sparse (coalesced front1 (b.mark false) back1)) :
    Handed listp h (front ++ b.mark false :: back) want r h''
      (coalesced front1 (b.mark false) back1) where
  updated := by
    obtain ⟨d, -, -, members⟩ := handed.block
    refine ⟨handed.updated.arena.trans updated.arena, updated.tiling, ?_⟩
    rintro i ⟨x, e, at_, bit, lower, upper⟩
    obtain ⟨old, elsewhere⟩ := (alloc_mem_marked bit).mp at_
    have now := (members x e bit).mpr (.inr old)
    have stays := (alloc_mem_marked bit).mpr ⟨now, place ▸ elsewhere⟩
    exact (updated.keeps i ⟨x, e, stays, bit, lower, upper⟩).trans
      (handed.updated.keeps i ⟨x, e, old, bit, lower, upper⟩)
  sparse := sparse
  fresh e at_ := by
    cases bit : e.alloc with
    | false => rfl
    | true =>
        rw [handed.fresh e ((alloc_mem_marked bit).mp at_).1] at bit
        cases bit
  block := by
    obtain ⟨d, dTaken, fits, members⟩ := handed.block
    refine ⟨d, dTaken, fits, ?_⟩
    intro x e bit
    rw [alloc_mem_coalesced rfl bit]
    exact alloc_mem_moved members place (handed.ne_old taken) x e bit

end GiveBack

end Handed

/-! ## `mm_malloc` -/

/-- What `mm_malloc` may do for the wanted block `want`. -/
inductive MallocOutcome (listp : Nat) (h : Heap) (bs : List Block) (want : Block) :
    Nat → Heap → Prop where
  | fit {r : Nat} {h' : Heap} {bs' : List Block} (search : LowestFit listp bs want.size r)
      (notNull : r ≠ NULL) (handed : Handed listp h bs want r h' bs') :
      MallocOutcome listp h bs want r h'
  | grown {r : Nat} {h' : Heap} {bs' : List Block} (search : LowestFit listp bs want.size NULL)
      (handed : Handed listp h bs want r h' bs') : MallocOutcome listp h bs want r h'
  | full (search : LowestFit listp bs want.size NULL)
      (exhausted : ¬ Room h (max want.size CHUNKSIZE)) : MallocOutcome listp h bs want NULL h

/-- Either `mm_malloc` hands out a block or it changes nothing. -/
theorem MallocOutcome.handed {r : Nat} {h' : Heap} {want : Block}
    (outcome : MallocOutcome listp h bs want r h') :
    r = NULL ∧ h' = h ∨ ∃ bs', Handed listp h bs want r h' bs' := by
  cases outcome with
  | fit search notNull handed => exact .inr ⟨_, handed⟩
  | grown search handed => exact .inr ⟨_, handed⟩
  | full search exhausted => exact .inl ⟨rfl, rfl⟩

/-- The blocks of the extended heap are allocated where they were before. -/
theorem alloc_mem_extended {new e : Block} {x : Nat} (isFree : new.alloc = false)
    (taken : e.alloc = true) :
    (x, e) ∈ located (listp + 8) (coalesced bs new []) ↔ (x, e) ∈ located (listp + 8) bs := by
  rw [alloc_mem_coalesced isFree taken, located_append, List.mem_append]
  refine ⟨fun at_ => at_.resolve_right ?_, .inl⟩
  intro inNew
  rw [List.mem_singleton.mp (mem_of_located inNew), isFree] at taken
  cases taken

/-- `mm_malloc` where no free block fits. -/
theorem wp_mmMalloc_none {want : Block} (rep : Represents listp h bs) (taken : want.alloc = true)
    (limit : want.size < 2 ^ 32) (search : LowestFit listp bs want.size NULL) :
    wp (do
        let bp ← extendHeap (max want.size CHUNKSIZE / WSIZE)
        if bp = NULL then pure NULL
        else do
          place bp want.size
          pure bp : MM Nat)
      (MallocOutcome listp h bs want) h := by
  obtain ⟨even, sized⟩ := extension_words want
  rw [wp_bind]
  by_cases room : Room h (extension want).size
  · refine wp_mono (wp_extendHeap (extension want) rep.tiling rfl even sized room) ?_
    rintro r h1 ⟨rfl, extended⟩
    have notNull : listp + 8 + span (cutFreeLast bs).1 ≠ NULL := by
      unfold NULL
      omega
    have fits := extension_fits want (cutFreeLast bs).2
    have sparse : Sparse (coalesced bs (extension want) []) := sparse_coalesced rep.sparse List.isChain_nil
    rw [wp_ite, if_neg notNull, wp_bind]
    refine wp_mono (wp_place extended.tiling rfl taken fits) ?_
    intro _ h' updated
    rw [wp_pure]
    refine .grown search (.of_place sparse rfl taken fits ?_ (extended.trans updated ?_))
    · intro x e bit
      exact alloc_mem_extended rfl bit
    · intro x e bit at_
      exact (alloc_mem_extended rfl bit).mpr at_
  · refine wp_mono (wp_extendHeap_full even sized (extension_lt limit) room) ?_
    rintro r h1 ⟨rfl, rfl⟩
    rw [wp_ite, if_pos rfl, wp_pure]
    exact .full search room

/-- `mm_malloc` of a nonzero size whose block size does not wrap around. -/
theorem wp_mmMalloc {size : Nat} (rep : Represents listp h bs) (positive : 0 < size)
    (small : size ≤ 2 ^ 32 - 16) :
    wp (mmMalloc size) (MallocOutcome listp h bs (wanted size positive)) h := by
  have bsize := bsize_eq positive small
  have nonzero : ¬ size = 0 := by omega
  have taken : (wanted size positive).alloc = true := rfl
  have limit : (wanted size positive).size < 2 ^ 32 := by
    simp only [wanted]
    omega
  unfold mmMalloc
  rw [wp_ite, if_neg nonzero]
  simp only [bsize]
  generalize wanted size positive = want at *
  rw [wp_bind]
  refine wp_mono (wp_findFit rep.tiling want.size) ?_
  rintro r h1 ⟨rfl, search⟩
  cases search with
  | @found front back b split isFree fits skipped =>
      subst split
      have search : LowestFit listp (front ++ b :: back) want.size (listp + 8 + span front) :=
        .found front back rfl isFree fits skipped
      have notNull : listp + 8 + span front ≠ NULL := by
        unfold NULL
        omega
      rw [wp_ite, if_pos notNull, wp_bind]
      refine wp_mono (wp_place rep.tiling isFree taken fits) ?_
      intro _ h' updated
      rw [wp_pure]
      exact .fit search notNull (.of_place rep.sparse isFree taken fits (fun _ _ _ => .rfl) updated)
  | none skipped =>
      rw [wp_ite, if_neg (fun differ => differ rfl)]
      exact wp_mmMalloc_none rep taken limit (.none skipped)

/-! ## `mm_free` -/

/-- `mm_free` of an allocated block. -/
theorem wp_mmFree {front back : List Block} {b : Block}
    (rep : Represents listp h (front ++ b :: back)) :
    wp (mmFree (listp + 8 + span front))
      (fun _ h' => Updated listp h (front ++ b.mark false :: back) h'
          (coalesced front (b.mark false) back) ∧
        Sparse (coalesced front (b.mark false) back)) h := by
  obtain ⟨tiling, sparse⟩ := rep
  have bAt : (listp + 8 + span front, b) ∈ located (listp + 8) (front ++ b :: back) := by simp
  have at_ := tiling.blockAt bAt
  have above := at_.above
  have below := at_.below
  have limit := at_.limit
  have notNull : ¬ listp + 8 + span front = NULL := by
    unfold NULL
    omega
  have marked : Updated listp h (front ++ b.mark false :: back)
      (h.withMem (setTags h.mem (listp + 8 + span front) (b.mark false)))
      (front ++ b.mark false :: back) := tiling.remark false rfl rfl
  unfold mmFree
  rw [wp_ite, if_neg notNull]
  simp only [wp_bind]
  rw [at_.wp_getSize_hdrp, wp_putTags (b.mark false) 0 _ (b.mark_size false).symm rfl
    (by rw [Block.mark_size]; omega) limit]
  refine wp_mono (wp_coalesce marked.tiling rfl) ?_
  rintro r h' ⟨-, updated⟩
  obtain ⟨before, after, -⟩ := sparse_append.mp sparse
  rw [wp_pure]
  exact ⟨marked.trans updated (fun _ _ _ member => member),
    sparse_coalesced before (List.IsChain.tail after)⟩

/-! ## `mm_realloc` -/

theorem wp_memcpy {dst src n : Nat} (apart : dst + n ≤ src ∨ src + n ≤ dst)
    (written : h.memStartBrk ≤ dst ∧ dst + n ≤ h.memBrk)
    (readable : h.memStartBrk ≤ src ∧ src + n ≤ h.memBrk) (post : Unit → Heap → Prop) :
    wp (memcpy dst src n) post h ↔ post () (h.withMem (copyBytes h.mem dst src n)) := by
  unfold wp memcpy
  rw [if_pos apart]
  exact wp_memmove (fun _ _ => written) (fun _ _ => readable) post

/-- `mm_realloc` of an allocated block: nothing changes, or a new block holds
the first bytes of the old one, which is free. -/
theorem wp_mmRealloc {front back : List Block} {b : Block} {size : Nat}
    (rep : Represents listp h (front ++ b :: back)) (taken : b.alloc = true) (positive : 0 < size)
    (small : size ≤ 2 ^ 32 - 16) :
    wp (mmRealloc (listp + 8 + span front) size)
      (fun r h' => r = NULL ∧ h' = h ∨
        (∃ bs', Handed listp h (front ++ b.mark false :: back) (wanted size positive) r h' bs') ∧
        ∀ i, i < size → i < b.size - 8 → h'.mem (r + i) = h.mem (listp + 8 + span front + i)) h := by
  have bAt : (listp + 8 + span front, b) ∈ located (listp + 8) (front ++ b :: back) := by simp
  unfold mmRealloc
  rw [wp_bind]
  refine wp_mono (wp_mmMalloc rep positive small) ?_
  intro r h1 outcome
  rcases outcome.handed with ⟨rfl, rfl⟩ | ⟨bs1, handed⟩
  · rw [wp_ite, if_pos rfl, wp_pure]
    exact .inl ⟨rfl, rfl⟩
  rw [wp_ite, if_neg handed.ne_null]
  obtain ⟨d, bit, fits, members⟩ := handed.block
  have dAt : (r, d) ∈ located (listp + 8) bs1 := (members r d bit).mpr (.inl ⟨rfl, rfl⟩)
  have bAt1 : (listp + 8 + span front, b) ∈ located (listp + 8) bs1 :=
    (members _ b taken).mpr (.inr bAt)
  have differ := handed.ne_old taken
  -- The copied bytes stay inside the payload of the new block.
  have wide : (wanted size positive).size = (size + 7) / 8 * 8 + 8 := rfl
  have length : (if size < b.size then size else b.size) = min size b.size := by
    split <;> omega
  have start := handed.updated.tiling.start_eq
  have dBounds := handed.updated.tiling.bounds dAt
  have bBounds := handed.updated.tiling.bounds bAt1
  have apart : r + min size b.size ≤ listp + 8 + span front ∨
      listp + 8 + span front + min size b.size ≤ r := by
    rcases located_disjoint dAt bAt1 with ⟨same, -⟩ | before | behind
    · exact absurd same.symm differ
    · omega
    · omega
  rw [wp_bind, (handed.updated.tiling.blockAt bAt1).wp_getSize_hdrp, length, wp_bind,
    wp_memcpy apart (by omega) (by omega)]
  have copied : ∀ i, i < size → i < b.size - 8 →
      copyBytes h1.mem r (listp + 8 + span front) (min size b.size) (r + i) =
        h1.mem (listp + 8 + span front + i) := fun i _ _ => copyBytes_inside (by omega)
  have written : Handed listp h (front ++ b :: back) (wanted size positive) r
      (h1.withMem (copyBytes h1.mem r (listp + 8 + span front) (min size b.size))) bs1 := by
    refine handed.overwrite fun i e eAt outside => copyBytes_outside ?_
    rw [located_unique eAt dAt] at outside
    omega
  generalize copyBytes h1.mem r (listp + 8 + span front) (min size b.size) = m at *
  obtain ⟨front1, back1, rfl, place⟩ := mem_located_iff.mp bAt1
  have freed := wp_mmFree written.represents
  rw [← place] at freed
  rw [wp_bind]
  refine wp_mono freed ?_
  rintro _ h' ⟨updated, sparse⟩
  rw [wp_pure]
  refine .inr ⟨⟨_, written.giveBack place taken updated sparse⟩, ?_⟩
  intro i asked held
  have newStays : (r, d) ∈ located (listp + 8) (front1 ++ b.mark false :: back1) :=
    (alloc_mem_marked bit).mpr ⟨dAt, place ▸ differ.symm⟩
  have oldByte : PayloadByte listp (front ++ b :: back) (listp + 8 + span front + i) :=
    ⟨_, b, bAt, taken, by omega, by omega⟩
  calc h'.mem (r + i) = m (r + i) := updated.keeps _ ⟨r, d, newStays, bit, by omega, by omega⟩
    _ = h1.mem (listp + 8 + span front + i) := copied i asked held
    _ = h.mem (listp + 8 + span front + i) := handed.updated.keeps _ oldByte

/-! ## `mm_init` -/

/-- The storage after `mm_init` has set up the empty list. -/
def initMem (lo : Nat) (m : Mem) : Mem :=
  setWord (setWord (setWord (setWord m lo 0) (lo + 4) 9) (lo + 8) 9) (lo + 12) 1

/-- The heap with the empty list. -/
def initHeap (lo : Nat) (h : Heap) : Heap :=
  { h with mem := initMem lo h.mem, memBrk := lo + 16, prolBp := lo + 8 }

theorem initHeap_tiling {lo : Nat} (fresh : Fresh lo h) (fits : lo + 16 ≤ h.memMaxAddr) :
    Tiling (lo + 8) (initHeap lo h) [] where
  start_eq := congrArg (· + 8) fresh.start_eq
  limit := fresh.limit
  brk_le := fits
  brk_eq := rfl
  listp_eq := rfl
  header := by
    have address : lo + 8 - 4 = lo + 4 := by omega
    simp only [initHeap, initMem, address]
    rw [word_setWord_ne (by omega), word_setWord_ne (by omega), word_setWord_same,
      Nat.mod_eq_of_lt (by decide : 9 < 2 ^ 32)]
  footer := by
    simp only [initHeap, initMem]
    rw [word_setWord_ne (by omega), word_setWord_same, Nat.mod_eq_of_lt (by decide : 9 < 2 ^ 32)]
  tags := by simp
  epilogue := by
    have address : lo + 16 - 4 = lo + 12 := by omega
    simp only [initHeap, initMem, address]
    rw [word_setWord_same, Nat.mod_eq_of_lt (by decide : 1 < 2 ^ 32)]

/-- `mm_init` up to the call of `extend_heap`. -/
theorem wp_mmInit_writes {lo : Nat} (fresh : Fresh lo h) (room : Room h 16)
    (post : Int → Heap → Prop) :
    wp mmInit post h ↔
      wp (do if (← extendHeap (CHUNKSIZE / WSIZE)) = NULL then pure (-1) else pure 0) post
        (initHeap lo h) := by
  have start := fresh.start_eq
  have empty := fresh.empty
  have bytes : 4 * WSIZE = 16 := rfl
  have prologue : pack DSIZE 1 = 9 := rfl
  have epilogue : pack 0 1 = 1 := rfl
  let h0 : Heap := { h.grow 16 with prolBp := lo }
  unfold mmInit
  rw [wp_bind, bytes, wp_memSbrk_room room, empty]
  simp only [wp_bind, heapListp, setHeapListp, wp_setProlBp, wp_prolBp, prologue, epilogue, WSIZE]
  change wp (putWord lo 0) _ h0 ↔ _
  have base : h0.prolBp = lo := rfl
  rw [wp_putWord _ (by simp [h0]; omega)]
  simp only [Heap.withMem_prolBp, base, Nat.reduceMul]
  rw [wp_putWord _ (by simp [h0]; omega), Heap.withMem_withMem, Heap.withMem_mem,
    Heap.withMem_prolBp, base, wp_putWord _ (by simp [h0]; omega), Heap.withMem_withMem,
    Heap.withMem_mem, Heap.withMem_prolBp, base, wp_putWord _ (by simp [h0]; omega),
    Heap.withMem_withMem, Heap.withMem_mem, Heap.withMem_prolBp, base]
  have after : { h0.withMem (initMem lo h.mem) with prolBp := lo + 8 } = initHeap lo h := by
    simp [initHeap, h0, Heap.grow, Heap.withMem, empty]
  exact iff_of_eq (congrArg (wp (extendHeap (CHUNKSIZE / 4)) _) after)

/-- `mm_init` succeeds if there is room, and then leaves one free chunk. -/
theorem wp_mmInit {lo : Nat} (fresh : Fresh lo h) :
    wp mmInit (fun v h' => v = -1 ∧ h.memMaxAddr < lo + 16 + CHUNKSIZE ∨
      v = 0 ∧ SameArena h h' ∧ Represents (lo + 8) h' [chunk]) h := by
  have empty := fresh.empty
  by_cases room : Room h 16
  · rw [wp_mmInit_writes fresh room, wp_bind]
    have tiling := initHeap_tiling fresh (by rw [← empty]; exact room.2)
    have even : CHUNKSIZE / WSIZE % 2 = 0 := by decide
    by_cases more : Room (initHeap lo h) chunk.size
    · refine wp_mono (wp_extendHeap chunk tiling rfl even rfl more) ?_
      rintro r h' ⟨rfl, updated⟩
      have notNull : ¬ lo + 8 + 8 + span (cutFreeLast []).1 = NULL := by
        unfold NULL
        omega
      have arena := updated.arena
      have only : coalesced [] chunk [] = [chunk] := rfl
      rw [wp_ite, if_neg notNull, wp_pure]
      refine .inr ⟨rfl, ⟨arena.start, arena.limit, arena.checked⟩, only ▸ updated.tiling, ?_⟩
      exact List.isChain_singleton _
    · refine wp_mono (wp_extendHeap_full even rfl (by decide) more) ?_
      rintro r h' ⟨rfl, rfl⟩
      rw [wp_ite, if_pos rfl, wp_pure]
      have narrow : ¬ lo + 16 + CHUNKSIZE ≤ h.memMaxAddr := fun fits => more ⟨by decide, fits⟩
      exact .inl ⟨rfl, Nat.lt_of_not_le narrow⟩
  · unfold mmInit
    have bytes : 4 * WSIZE = 16 := rfl
    rw [wp_bind, bytes, wp_memSbrk_full room (by decide)]
    simp only [wp_bind, setHeapListp, wp_setProlBp, wp_pure]
    have narrow : ¬ h.memBrk + 16 ≤ h.memMaxAddr := fun fits => room ⟨by decide, fits⟩
    exact .inl ⟨trivial, by omega⟩

end SysProg.Implicit

import SysProg.Malloc.Allocate
import SysProg.Malloc.Versions

/-!
# `mm_malloc` and `mm_init`

The outcome of `mm_malloc` is a first fit, a block at the end of the extended
heap, or failure without any change.  `mm_init` builds the heap of the
prologue and one chunk.
-/

namespace SysProg.Malloc

open Logic

/-- The block that serves a request of `size` bytes. -/
def wanted (size : Nat) (positive : 0 < size) : Block where
  size := (size + 7) / 8 * 8 + 8
  alloc := true
  size_ge := by omega
  aligned := by omega

/-- `ALIGN` rounds up to a double word, as long as it does not wrap around. -/
theorem align_eq {size : Nat} (small : size < 2 ^ 32 - 7) : align size = (size + 7) / 8 * 8 := by
  unfold align
  rw [add32_eq (a := size) (by omega), and_sizeMask (by omega)]

/-- `ALIGN(size) + DSIZE`, as long as it does not wrap around. -/
theorem bsize_eq {size : Nat} (positive : 0 < size) (small : size ≤ 2 ^ 32 - 16) :
    add32 (align size) DSIZE = (wanted size positive).size := by
  rw [align_eq (by omega)]
  unfold DSIZE
  exact add32_eq (by omega)

/-- What `mm_malloc` may do for the wanted block `want`. -/
inductive MallocOutcome (lo : Nat) (h : Heap) (bs : List Block) (fl : List Nat) (want : Block) :
    Nat → Heap → Prop where
  | fit {front back : List Block} {b : Block} {h' : Heap} (split : bs = front ++ b :: back)
      (behind : front ≠ []) (isFree : b.alloc = false) (fits : want.size ≤ b.size)
      (search : FirstFit lo bs want.size fl (lo + 8 + span front))
      (updated : Updated lo h bs h' (front ++ placed b want ++ back)
        (placedNodes (lo + 8 + span front) b want ++ fl.erase (lo + 8 + span front)))
      (settled : Settled lo (front ++ placed b want ++ back)
        (placedNodes (lo + 8 + span front) b want ++ fl.erase (lo + 8 + span front))) :
      MallocOutcome lo h bs fl want (lo + 8 + span front) h'
  | grown {new : Block} {h' : Heap} (search : FirstFit lo bs want.size fl NULL)
      (isFree : new.alloc = false) (sized : new.size = max want.size CHUNKSIZE)
      (room : Room h new.size)
      (updated : Updated lo h bs h'
        ((cutFreeLast bs).1 ++ placed (new.merge (cutFreeLast bs).2 []) want ++ [])
        (placedNodes (lo + 8 + span (cutFreeLast bs).1) (new.merge (cutFreeLast bs).2 []) want ++
          fl.diff (absorbed lo bs new [])))
      (settled : Settled lo
        ((cutFreeLast bs).1 ++ placed (new.merge (cutFreeLast bs).2 []) want ++ [])
        (placedNodes (lo + 8 + span (cutFreeLast bs).1) (new.merge (cutFreeLast bs).2 []) want ++
          fl.diff (absorbed lo bs new []))) :
      MallocOutcome lo h bs fl want (lo + 8 + span (cutFreeLast bs).1) h'
  | full (search : FirstFit lo bs want.size fl NULL)
      (exhausted : ¬ Room h (max want.size CHUNKSIZE)) :
      MallocOutcome lo h bs fl want NULL h

/-- Beside the allocated blocks of `kept` there is one more, which starts at
`r` and is at least as large as `want`. -/
structure Handed (lo : Nat) (h : Heap) (kept : List Block) (want : Block) (r : Nat) (h' : Heap)
    (bs : List Block) (fl : List Nat) : Prop where
  updated : Updated lo h kept h' bs fl
  settled : Settled lo bs fl
  notFirst : r ≠ lo + 8
  fresh : ∀ e, (r, e) ∈ located (lo + 8) kept → e.alloc = false
  block : ∃ d, d.alloc = true ∧ want.size ≤ d.size ∧ ∀ x e, e.alloc = true →
    ((x, e) ∈ located (lo + 8) bs ↔ (x = r ∧ e = d) ∨ (x, e) ∈ located (lo + 8) kept)

/-- The prologue is allocated, so a free block is never the first one. -/
theorem Layout.front_ne_nil {lo : Nat} {h : Heap} {front back : List Block} {b : Block}
    (layout : Layout lo h (front ++ b :: back)) (isFree : b.alloc = false) : front ≠ [] := by
  rintro rfl
  have head := layout.head
  cases head
  cases isFree

theorem Layout.cutFreeLast_ne_nil {lo : Nat} {h : Heap} {bs : List Block}
    (layout : Layout lo h bs) : (cutFreeLast bs).1 ≠ [] := by
  obtain ⟨tail, rfl⟩ := layout.exists_tail
  rcases List.eq_nil_or_concat tail with rfl | ⟨init, p, rfl⟩
  · exact List.cons_ne_nil _ _
  · rw [List.concat_eq_append, ← List.cons_append, cutFreeLast_concat]
    split <;> simp

/-- Either `mm_malloc` hands out a block or it changes nothing. -/
theorem MallocOutcome.handed {lo r : Nat} {h h' : Heap} {bs : List Block} {fl : List Nat}
    {want : Block} (rep : Represents lo h bs fl) (taken : want.alloc = true)
    (outcome : MallocOutcome lo h bs fl want r h') :
    r = NULL ∧ h' = h ∨ ∃ bs' fl', Handed lo h bs want r h' bs' fl' := by
  cases outcome with
  | @fit front back b _ split behind isFree fits search updated settled =>
      subst split
      have wide := span_ge behind
      refine .inr ⟨_, _, updated, settled, by omega, ?_, SysProg.Malloc.handed b want,
        handed_alloc taken, handed_size_ge fits, ?_⟩
      · intro e at_
        have bAt : (lo + 8 + span front, b) ∈ located (lo + 8) (front ++ b :: back) := by simp
        rw [located_unique at_ bAt, isFree]
      · intro x e bit
        have spans : span (placed b want) = span [b] := span_placed
        rw [alloc_mem_recut spans (by simpa using isFree) bit, mem_located_placed bit]
        simp
  | @grown new _ search isFree sized room updated settled =>
      have behind := rep.consistent.layout.cutFreeLast_ne_nil
      have wide := span_ge behind
      have merged : want.size ≤ (new.merge (cutFreeLast bs).2 []).size := by
        simp only [Block.merge]
        omega
      have members : ∀ x e, (x, e) ∈ located (lo + 8) bs →
          (x, e) ∈ located (lo + 8) (cutFreeLast bs).1 ∨ e.alloc = false := by
        intro x e at_
        have split := cutFreeLast_append bs
        rw [← split, located_append] at at_
        rcases List.mem_append.mp at_ with inFront | inCut
        · exact .inl inFront
        · exact .inr (cutFreeLast_free (mem_of_located inCut))
      refine .inr ⟨_, _, updated, settled, by omega, ?_, SysProg.Malloc.handed _ want,
        handed_alloc taken, handed_size_ge merged, ?_⟩
      · intro e at_
        rcases members _ e at_ with inFront | free
        · have bounds := located_bounds inFront
          have large := e.size_ge
          omega
        · exact free
      · intro x e bit
        have kept : (x, e) ∈ located (lo + 8) bs ↔
            (x, e) ∈ located (lo + 8) (cutFreeLast bs).1 := by
          refine ⟨fun at_ => (members x e at_).resolve_right (by simp [bit]), ?_⟩
          intro inFront
          have split := cutFreeLast_append bs
          rw [← split, located_append]
          exact List.mem_append_left _ inFront
        rw [kept, List.append_nil, located_append, List.mem_append, mem_located_placed bit]
        exact or_comm
  | full search exhausted => exact .inl ⟨rfl, rfl⟩

/-! ## The block that `mm_malloc` chooses -/

/-- The pointer that `mm_malloc` gives to `place`, and the heap at that moment:
the first fit of the list, or the free block at the end of an extended heap. -/
inductive Chosen (lo : Nat) (h : Heap) (bs : List Block) (fl : List Nat) (want : Block) :
    Nat → Heap → Prop where
  | fit {front back : List Block} {b : Block} (split : bs = front ++ b :: back)
      (behind : front ≠ []) (isFree : b.alloc = false) (fits : want.size ≤ b.size)
      (search : FirstFit lo bs want.size fl (lo + 8 + span front)) :
      Chosen lo h bs fl want (lo + 8 + span front) h
  | grown {new : Block} {h1 : Heap} (search : FirstFit lo bs want.size fl NULL)
      (isFree : new.alloc = false) (sized : new.size = max want.size CHUNKSIZE)
      (fits : want.size ≤ (new.merge (cutFreeLast bs).2 []).size) (room : Room h new.size)
      (extended : Updated lo h bs h1 (coalesced bs new [])
        ((lo + 8 + span (cutFreeLast bs).1) :: fl.diff (absorbed lo bs new [])))
      (settled : Settled lo (coalesced bs new [])
        ((lo + 8 + span (cutFreeLast bs).1) :: fl.diff (absorbed lo bs new []))) :
      Chosen lo h bs fl want (lo + 8 + span (cutFreeLast bs).1) h1

section Choice

variable {lo size r : Nat} {h h1 : Heap} {bs : List Block} {fl : List Nat} {want : Block}

/-- The chosen block is large enough. -/
theorem Chosen.block (rep : Represents lo h bs fl) (chosen : Chosen lo h bs fl want r h1) :
    ∃ bs1 b, Layout lo h1 bs1 ∧ (r, b) ∈ located (lo + 8) bs1 ∧ want.size ≤ b.size := by
  cases chosen with
  | @fit front back b split behind isFree fits search =>
      subst split
      exact ⟨_, b, rep.consistent.layout, by simp, fits⟩
  | @grown new _ search isFree sized fits room extended settled =>
      have at_ : (lo + 8 + span (cutFreeLast bs).1, new.merge (cutFreeLast bs).2 []) ∈
          located (lo + 8) (coalesced bs new []) :=
        mem_located_coalesced.mpr (.inr (.inl ⟨rfl, rfl⟩))
      exact ⟨_, _, extended.consistent.layout, at_, fits⟩

/-- The free block by which the heap is extended where `want` fits nowhere. -/
def extension (want : Block) : Block where
  size := max want.size CHUNKSIZE
  alloc := false
  size_ge := by
    unfold CHUNKSIZE
    omega
  aligned := by
    have aligned := want.aligned
    unfold CHUNKSIZE
    omega

/-- The extension is an even number of words. -/
theorem extension_words (want : Block) :
    (extension want).size / WSIZE % 2 = 0 ∧
      (extension want).size / WSIZE * 4 = (extension want).size := by
  have aligned := (extension want).aligned
  unfold WSIZE
  omega

/-- Merged with the blocks in front of it, the extension holds `want`. -/
theorem extension_fits (want : Block) (left : List Block) :
    want.size ≤ ((extension want).merge left []).size := by
  simp only [extension, Block.merge]
  omega

theorem extension_lt {want : Block} (widest : want.size < 2 ^ 32) :
    (extension want).size < 2 ^ 32 := by
  simp only [extension, CHUNKSIZE]
  omega

/-- The heap is extended by the larger of the wanted size and `CHUNKSIZE`, or
not at all. -/
theorem extendHeap_chosen (rep : Represents lo h bs fl) (widest : want.size < 2 ^ 32)
    (search : FirstFit lo bs want.size fl NULL) :
    wp (extendHeap (max want.size CHUNKSIZE / WSIZE))
      (fun r h1 => r ≠ NULL ∧ Chosen lo h bs fl want r h1 ∨
        r = NULL ∧ h1 = h ∧ ¬ Room h (max want.size CHUNKSIZE)) h := by
  obtain ⟨even, sized⟩ := extension_words want
  by_cases room : Room h (extension want).size
  · refine wp_mono (wp_extendHeap (extension want) rep rfl even sized room) ?_
    rintro r h1 ⟨rfl, extended, settled⟩
    have notNull : lo + 8 + span (cutFreeLast bs).1 ≠ NULL := by
      unfold NULL
      omega
    exact .inl ⟨notNull, .grown search rfl rfl (extension_fits want _) room extended settled⟩
  · refine wp_mono (wp_extendHeap_full _ even sized (extension_lt widest) room) ?_
    rintro r h1 ⟨rfl, rfl⟩
    exact .inr ⟨rfl, rfl, room⟩

/-- Whatever routine places the block, `mm_malloc` calls it once, on the chosen
block, or it fails without any change. -/
theorem mallocWith_run (rep : Represents lo h bs fl) (positive : 0 < size)
    (small : size ≤ 2 ^ 32 - 16) :
    (∃ r h1, Chosen lo h bs fl (wanted size positive) r h1 ∧
      ∀ place : Nat → Nat → MM Unit, mallocWith place size h =
        (do
          place r (wanted size positive).size
          pure r : MM Nat) h1) ∨
      FirstFit lo bs (wanted size positive).size fl NULL ∧
        ¬ Room h (max (wanted size positive).size CHUNKSIZE) ∧
        ∀ place, mallocWith place size h = some (NULL, h) := by
  have bsize := bsize_eq positive small
  have nonzero : ¬ size = 0 := by omega
  have widest : (wanted size positive).size < 2 ^ 32 := by
    simp only [wanted]
    omega
  generalize wanted size positive = want at *
  have layout := rep.consistent.layout
  have fit : wp (findFit want.size) _ h := wp_findFit rep.consistent.toThreaded
  obtain ⟨⟨r, h0⟩, looked, same, fit⟩ := fit
  obtain rfl : h = h0 := same.symm
  have search : FirstFit lo bs want.size fl r := fit
  have opened : ∀ place, mallocWith place size h = (do
      if r ≠ NULL then do
        place r want.size
        pure r
      else do
        let bp ← extendHeap (max want.size CHUNKSIZE / WSIZE)
        if bp = NULL then pure NULL
        else do
          place bp want.size
          pure bp : MM Nat) h := by
    intro place
    simp only [mallocWith, if_neg nonzero, bsize]
    exact bind_run_of_run looked _
  cases found : search with
  | @found front' back' _ b split at_ fits skipped =>
      obtain ⟨front, back, rfl, rfl⟩ := mem_located_iff.mp at_
      have isFree : b.alloc = false := by
        obtain ⟨d, at', free⟩ := rep.consistent.free (lo + 8 + span front) (by simp [split])
        rw [located_unique at_ at']
        exact free
      have notNull : lo + 8 + span front ≠ NULL := by
        unfold NULL
        omega
      refine .inl ⟨_, _, .fit rfl (layout.front_ne_nil isFree) isFree fits search, fun place => ?_⟩
      rw [opened, if_pos notNull]
  | none none =>
      have isNull : ¬ NULL ≠ NULL := by simp
      obtain ⟨⟨r1, h1⟩, run, result⟩ := extendHeap_chosen rep widest search
      rcases result with ⟨notNull, chosen⟩ | ⟨rfl, rfl, full⟩
      · refine .inl ⟨r1, h1, chosen, fun place => ?_⟩
        rw [opened, if_neg isNull, bind_run_of_run run, if_neg notNull]
      · refine .inr ⟨search, full, fun place => ?_⟩
        rw [opened, if_neg isNull, bind_run_of_run run, if_pos rfl]
        rfl

end Choice

/-- `mm_malloc` of a nonzero size whose block size does not wrap around. -/
theorem wp_mmMalloc {lo size : Nat} {h : Heap} {bs : List Block} {fl : List Nat}
    (rep : Represents lo h bs fl) (positive : 0 < size) (small : size ≤ 2 ^ 32 - 16) :
    wp (mmMalloc size) (MallocOutcome lo h bs fl (wanted size positive)) h := by
  have taken : (wanted size positive).alloc = true := rfl
  have layout := rep.consistent.layout
  rw [mmMalloc_eq]
  rcases mallocWith_run rep positive small with ⟨r, h1, chosen, calls⟩ | ⟨search, full, fails⟩
  · generalize wanted size positive = want at *
    rw [wp_congr_run (calls place), wp_bind]
    cases chosen with
    | fit split behind isFree fits search =>
        subst split
        refine wp_mono (wp_place rep behind isFree taken fits) ?_
        rintro _ h' ⟨updated, settled⟩
        rw [wp_pure]
        exact .fit rfl behind isFree fits search updated settled
    | grown search isFree sized fits room extended settled =>
        refine wp_mono (wp_place ⟨extended.consistent, settled⟩ layout.cutFreeLast_ne_nil rfl
          taken fits) ?_
        rintro _ h' ⟨updated, settled'⟩
        rw [List.erase_cons_head] at updated settled'
        rw [wp_pure]
        refine .grown search isFree sized room (extended.trans updated ?_) settled'
        intro x d bit old
        refine (alloc_mem_coalesced isFree bit).mpr ?_
        rw [located_append]
        exact List.mem_append_left _ old
  · exact ⟨_, fails place, .full search full⟩

/-! ## `mm_init` -/

/-- A heap as `mem_init` leaves it: empty, aligned, and clear of the end of
the address space. -/
structure Fresh (lo : Nat) (h : Heap) : Prop where
  start_eq : h.memStartBrk = lo
  start_aligned : lo % 8 = 0
  empty : h.memBrk = lo
  limit : h.memMaxAddr < 2 ^ 32

/-- The free block that `mm_init` creates. -/
def chunk : Block := ⟨CHUNKSIZE, false, by decide, by decide⟩

/-- The storage after `mm_init` has set up the empty list. -/
def initMem (lo : Nat) (m : Mem) : Mem :=
  setWord (setWord (setWord (setTags (setWord m lo 0) (lo + 8) prologue) (lo + 8) 0)
    (lo + 12) (lo + 24)) (lo + 20) 1

/-- The heap with the empty list. -/
def initHeap (lo : Nat) (h : Heap) : Heap :=
  { h with
    mem := initMem lo h.mem, memBrk := lo + 24, prolBp := lo + 8, rootBp := lo + 8 }

theorem initHeap_threaded {lo : Nat} {h : Heap} (fresh : Fresh lo h)
    (fits : lo + 24 ≤ h.memMaxAddr) : Threaded lo (initHeap lo h) [prologue] [] where
  layout := by
    refine ⟨fresh.start_eq, fresh.start_aligned, fresh.limit, fits, rfl, rfl, rfl, ?_, ?_⟩
    · intro x b at_
      simp only [located_cons, located_nil, List.mem_singleton, Prod.mk.injEq] at at_
      obtain ⟨rfl, rfl⟩ := at_
      have tagged : Tagged (setTags (setWord h.mem lo 0) (lo + 8) prologue) (lo + 8) prologue :=
        setTags_tagged (by decide) (by omega)
      have outside : ∀ i, i < lo + 8 ∨ lo + 16 ≤ i ∧ i < lo + 20 ∨ lo + 24 ≤ i →
          initMem lo h.mem i = setTags (setWord h.mem lo 0) (lo + 8) prologue i := by
        intro i place
        unfold initMem
        rw [setWord_outside (by omega), setWord_outside (by omega), setWord_outside (by omega)]
      have size : prologue.size = 16 := rfl
      refine tagged.congr ?_ ?_
      · intro i lower upper
        exact outside i (by omega)
      · intro i lower upper
        exact outside i (by omega)
    · have address : lo + 24 - 4 = lo + 20 := by omega
      simp only [initHeap, initMem, address]
      rw [word_setWord_same, Nat.mod_eq_of_lt (by decide : 1 < 2 ^ 32)]
  list := ⟨rfl, trivial, List.nodup_nil⟩
  free := by simp

/-- `mm_init` up to the call of `extend_heap`. -/
theorem wp_mmInit_writes {lo : Nat} {h : Heap} (fresh : Fresh lo h) (room : Room h 24)
    (post : Int → Heap → Prop) :
    wp mmInit post h ↔
      wp (do if (← extendHeap (CHUNKSIZE / WSIZE)) = NULL then pure (-1) else pure 0) post
        (initHeap lo h) := by
  have start := fresh.start_eq
  have empty := fresh.empty
  have limit := fresh.limit
  have fits := room.2
  have bytes : 6 * WSIZE = 24 := rfl
  have size : prologue.size = 16 := rfl
  have tagged : word (setTags (setWord h.mem lo 0) (lo + 8) prologue) (lo + 8 - 4) =
      prologue.tag := (setTags_tagged (by decide) (by omega)).1
  have doubled : lo + 2 * 4 = lo + 8 := rfl
  have smallest : MIN_BSIZE = prologue.size := rfl
  have epilogue : pack 0 1 = 1 := rfl
  let h0 : Heap := { h.grow 24 with prolBp := lo + 8 }
  unfold mmInit
  rw [wp_bind, bytes, wp_memSbrk_room room, empty]
  simp only [wp_bind, wp_setProlBp, wp_setRootBp, WSIZE, succp, predp, hdrp, doubled, epilogue]
  rw [wp_putWord _ (by simp; omega)]
  change wp (putTags (lo + 8) MIN_BSIZE 1) _ (h0.withMem (setWord h.mem lo 0)) ↔ _
  rw [wp_putTags prologue 1 _ smallest rfl (by simp [h0]; omega) (by simp [h0]; omega),
    Heap.withMem_withMem, Heap.withMem_mem]
  generalize memory : setTags (setWord h.mem lo 0) (lo + 8) prologue = m at tagged
  have tagged1 : word (setWord m (lo + 8) 0) (lo + 8 - 4) = prologue.tag := by
    rw [word_setWord_ne (by omega)]
    exact tagged
  have tagged2 : word (setWord (setWord m (lo + 8) 0) (lo + 8 + 4) (lo + 8 + prologue.size))
      (lo + 8 - 4) = prologue.tag := by
    rw [word_setWord_ne (by omega)]
    exact tagged1
  rw [wp_putWord _ (by simp [h0]; omega), Heap.withMem_withMem, Heap.withMem_mem,
    wp_nextBlkp_of_header (h := h0.withMem _) (b := prologue) _ (by simp [h0]; omega) (by omega)
      tagged1,
    wp_putWord _ (by simp [h0]; omega), Heap.withMem_withMem, Heap.withMem_mem,
    wp_nextBlkp_of_header (h := h0.withMem _) (b := prologue) _ (by simp [h0]; omega) (by omega)
      tagged2,
    wp_putWord _ (by simp [h0]; omega)]
  have after : { h0.withMem (setWord (setWord (setWord m (lo + 8) 0) (lo + 8 + 4)
      (lo + 8 + prologue.size)) (lo + 8 + prologue.size - 4) 1) with rootBp := lo + 8 } =
      initHeap lo h := by
    subst memory
    simp [initHeap, initMem, h0, Heap.grow, Heap.withMem, empty, size]
  exact iff_of_eq (congrArg (wp (extendHeap (CHUNKSIZE / 4)) _) after)

/-- `mm_init` succeeds if there is room, and then leaves the prologue and one
free chunk. -/
theorem wp_mmInit {lo : Nat} {h : Heap} (fresh : Fresh lo h) :
    wp mmInit (fun v h' => v = -1 ∧ h.memMaxAddr < lo + 24 + CHUNKSIZE ∨
      v = 0 ∧ lo + 24 + CHUNKSIZE ≤ h.memMaxAddr ∧ SameArena h h' ∧
        Represents lo h' [prologue, chunk] [lo + 24]) h := by
  have empty := fresh.empty
  by_cases room : Room h 24
  · rw [wp_mmInit_writes fresh room, wp_bind]
    have threaded := initHeap_threaded fresh (by rw [← fresh.empty]; exact room.2)
    have start := fresh.start_eq
    have even : CHUNKSIZE / WSIZE % 2 = 0 := by decide
    by_cases more : Room (initHeap lo h) chunk.size
    · rw [wp_extendHeap_writes chunk threaded.layout rfl even rfl more, wp_bind]
      have extended := threaded.extend chunk more
      have layout : Layout lo _ ([] ++ [prologue] ++ chunk :: []) := extended.layout
      have brk : (initHeap lo h).memBrk = lo + 8 + span [] + prologue.size := rfl
      rw [brk, wp_coalesce_select layout, if_pos ⟨rfl, rfl⟩]
      have free : FreeAt lo ([prologue] ++ [chunk]) (lo + 8 + span [] + prologue.size) :=
        ⟨chunk, by simp, rfl⟩
      refine wp_mono (wp_setRoot extended free (by simp)) ?_
      rintro r h' ⟨rfl, updated⟩
      have notNull : ¬ lo + 8 + span [] + prologue.size = NULL := by
        unfold NULL
        omega
      rw [wp_ite, if_neg notNull, wp_pure]
      have arena := updated.arena
      have wide : lo + 24 + CHUNKSIZE ≤ h.memMaxAddr := more.2
      refine .inr ⟨rfl, wide, ⟨arena.start, arena.limit, arena.checked⟩, updated.consistent, ?_, ?_⟩
      · rintro x ⟨b, at_, isFree⟩
        simp only [located_cons, located_nil, List.mem_cons, List.not_mem_nil, or_false,
          Prod.mk.injEq] at at_
        rcases at_ with ⟨rfl, rfl⟩ | ⟨rfl, rfl⟩
        · cases isFree
        · exact List.mem_singleton_self _
      · exact List.isChain_pair.mpr (.inl rfl)
    · refine wp_mono (wp_extendHeap_full chunk.size even rfl (by decide) more) ?_
      rintro r h' ⟨rfl, rfl⟩
      rw [wp_ite, if_pos rfl, wp_pure]
      have narrow : ¬ lo + 24 + CHUNKSIZE ≤ h.memMaxAddr := fun fits => more ⟨by decide, fits⟩
      exact .inl ⟨rfl, Nat.lt_of_not_le narrow⟩
  · unfold mmInit
    have bytes : 6 * WSIZE = 24 := rfl
    rw [wp_bind, bytes, wp_memSbrk_full room (by decide)]
    simp only [wp_bind, wp_setProlBp, wp_pure]
    have narrow : ¬ h.memBrk + 24 ≤ h.memMaxAddr := fun fits => room ⟨by decide, fits⟩
    exact .inl ⟨trivial, by omega⟩

end SysProg.Malloc

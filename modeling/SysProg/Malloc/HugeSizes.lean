import SysProg.Malloc.Resizing

/-!
# Requests near the top of the size range

For the last fifteen sizes below `2 ^ 32` the block size that `mm_malloc`
computes wraps around to 0 or 8.  Every free block is then a fit, so the
routine hands out whatever block it finds first.
-/

namespace SysProg.Malloc

open Logic

/-- `mm_malloc(size)` either fails without a change or returns a block of a well
formed heap that has room for `size` bytes. -/
inductive SafelyAnswered (h : Heap) (size : Nat) : Prop where
  | failed (run : mmMalloc size h = some (NULL, h))
  | served {r bsize : Nat} {h' : Heap} {blocks : List Nat} (run : mmMalloc size h = some (r, h'))
      (formed : WellFormed h') (walk : BlockWalk h' h'.prolBp blocks) (block : r ∈ blocks)
      (sized : getSize (hdrp r) h' = some (bsize, h')) (fits : size + DSIZE ≤ bsize)

section Wrapping

variable {lo size : Nat} {h : Heap} {bs : List Block} {fl : List Nat}

/-- The block size of a huge request wraps around. -/
theorem bsize_wraps (huge : 2 ^ 32 - 16 < size) (representable : size < 2 ^ 32) :
    add32 (align size) DSIZE ≤ 8 := by
  have rounded : align size = (size + 7) % 2 ^ 32 / 8 * 8 := by
    unfold align add32
    rw [and_sizeMask (Nat.mod_lt _ (by decide))]
  rw [rounded]
  unfold add32 DSIZE
  omega

/-- No header shows a size above `2 ^ 32 - 8`. -/
theorem getSize_le {a size : Nat} {h' : Heap} (read : getSize a h = some (size, h')) :
    size ≤ 2 ^ 32 - 8 := by
  change (getWord a h).bind _ = _ at read
  obtain ⟨⟨v, h1⟩, -, masked⟩ := Option.bind_eq_some_iff.mp read
  cases masked
  exact Nat.and_le_right

/-- A huge request cannot be served. -/
theorem SafelyAnswered.fails (safe : SafelyAnswered h size) (huge : 2 ^ 32 - 16 < size) :
    mmMalloc size h = some (NULL, h) := by
  cases safe with
  | failed run => exact run
  | served run formed walk block sized fits =>
      have bound := getSize_le sized
      unfold DSIZE at fits
      omega

/-- The list is empty when the root is the prologue. -/
theorem Threaded.nil_iff (c : Threaded lo h bs fl) : h.rootBp = h.prolBp ↔ fl = [] := by
  rw [c.list.root]
  cases fl with
  | nil => simp
  | cons x rest =>
      have notProl : x ≠ h.prolBp := by
        rintro rfl
        obtain ⟨d, at_, free⟩ := c.free h.prolBp (by simp)
        rw [located_unique at_ c.layout.prologue_at] at free
        cases free
      simpa using notProl

/-- A search for at most 8 bytes finds the root, if there is a free block. -/
theorem FirstFit.of_tiny {bsize r : Nat} (c : Threaded lo h bs fl) (tiny : bsize ≤ 8)
    (search : FirstFit lo bs bsize fl r) : r = NULL ↔ fl = [] := by
  cases search with
  | found front back split at_ fits skipped =>
      have bounds := located_bounds at_
      unfold NULL
      refine iff_of_false (by omega) ?_
      rw [split]
      simp
  | none small =>
      refine iff_of_true rfl ?_
      cases fl with
      | nil => rfl
      | cons x rest =>
          obtain ⟨d, at_, -⟩ := c.free x (by simp)
          have below := small x (by simp) d at_
          have large := d.size_ge
          omega

/-- What follows a successful search or extension returns its pointer. -/
theorem placed_result {g : Heap} {bp bsize r : Nat} {h' : Heap}
    (run : (do
      place bp bsize
      pure bp : MM Nat) g = some (r, h')) : r = bp := by
  obtain ⟨⟨_, g1⟩, -, returned⟩ := Option.bind_eq_some_iff.mp run
  cases returned
  rfl

/-- A huge request fails exactly when the free list is empty and the heap cannot
be extended by a chunk. -/
theorem mmMalloc_huge_iff (rep : Represents lo h bs fl) (huge : 2 ^ 32 - 16 < size)
    (representable : size < 2 ^ 32) :
    mmMalloc size h = some (NULL, h) ↔
      h.rootBp = h.prolBp ∧ h.memMaxAddr < h.memBrk + CHUNKSIZE := by
  have tiny := bsize_wraps huge representable
  have nonzero : ¬ size = 0 := by omega
  generalize computed : add32 (align size) DSIZE = bsize at tiny
  have fit : wp (findFit bsize) _ h := wp_findFit rep.consistent.toThreaded
  obtain ⟨⟨r, h0⟩, looked, same, search⟩ := fit
  simp only at same search
  subst same
  have found := search.of_tiny rep.consistent.toThreaded tiny
  have chunkSize : max bsize CHUNKSIZE = CHUNKSIZE := by
    unfold CHUNKSIZE
    omega
  have opened : mmMalloc size h0 = (do
      if r ≠ NULL then do
        place r bsize
        pure r
      else do
        let bp ← extendHeap (CHUNKSIZE / WSIZE)
        if bp = NULL then pure NULL
        else do
          place bp bsize
          pure bp : MM Nat) h0 := by
    simp only [mmMalloc, if_neg nonzero, computed, chunkSize]
    exact bind_run_of_run looked _
  rw [opened, rep.consistent.toThreaded.nil_iff, ← found]
  by_cases null : r = NULL
  · have room : Room h0 chunk.size ↔ ¬ h0.memMaxAddr < h0.memBrk + CHUNKSIZE := by
      simp [Room, chunk, CHUNKSIZE]
    rw [if_neg (by simp [null])]
    simp only [null, true_and]
    by_cases more : Room h0 chunk.size
    · refine iff_of_false ?_ (room.mp more)
      obtain ⟨⟨bp, h1⟩, extended, place, -⟩ :=
        wp_extendHeap chunk rep rfl (by decide : CHUNKSIZE / WSIZE % 2 = 0) rfl more
      have notNull : bp ≠ NULL := by
        unfold NULL
        simp only at place
        omega
      rw [bind_run_of_run extended, if_neg notNull]
      exact fun run => notNull (placed_result run).symm
    · refine iff_of_true ?_ (by simpa using room.not.mp more)
      have even : CHUNKSIZE / WSIZE % 2 = 0 := by decide
      have full := wp_extendHeap_full chunk.size even rfl (by decide) more
      rw [bind_run_of_run (run_of_wp full), if_pos rfl]
      rfl
  · rw [if_pos null]
    refine iff_of_false ?_ (fun both => null both.1)
    exact fun run => null (placed_result run).symm

/-- A request whose block size does not wrap around is answered safely. -/
theorem SafelyAnswered.of_small (rep : Represents lo h bs fl) (small : size ≤ 2 ^ 32 - 16) :
    SafelyAnswered h size := by
  by_cases zero : size = 0
  · subst zero
    exact .failed rfl
  have positive : 0 < size := Nat.pos_of_ne_zero zero
  obtain ⟨⟨r, h'⟩, run, outcome⟩ := wp_mmMalloc rep positive small
  rcases outcome.handed rep rfl with ⟨failed, same⟩ | ⟨bs', fl', handed⟩
  · simp only at failed same
    subst failed same
    exact .failed run
  · obtain ⟨d, taken, fits, others⟩ := handed.block
    have layout := handed.updated.consistent.layout
    have at_ : (r, d) ∈ located (lo + 8) bs' := (others r d taken).mpr (.inl ⟨rfl, rfl⟩)
    have wide : (wanted size positive).size = (size + 7) / 8 * 8 + 8 := rfl
    refine .served run layout.wellFormed layout.blockWalk
      (List.mem_map.mpr ⟨(r, d), at_, rfl⟩) (layout.getSize_hdrp at_) ?_
    unfold DSIZE
    omega

/-- In every run, `mm_malloc` answers a size safely when the block size does not
wrap around; a larger size only when it finds neither a free block nor room for
a chunk. -/
theorem mmMalloc_safe_iff {c : Client} (reached : (Client.runs lo).Reachable c)
    (representable : size < 2 ^ 32) :
    SafelyAnswered c.heap size ↔ size ≤ 2 ^ 32 - 16 ∨
      c.heap.rootBp = c.heap.prolBp ∧ c.heap.memMaxAddr < c.heap.memBrk + CHUNKSIZE := by
  obtain ⟨-, bs, fl, rep, -⟩ := Serving.of_reachable reached
  by_cases small : size ≤ 2 ^ 32 - 16
  · exact iff_of_true (.of_small rep small) (.inl small)
  · have huge := mmMalloc_huge_iff rep (by omega) representable
    constructor
    · intro safe
      exact .inr (huge.mp (safe.fails (by omega)))
    · rintro (fits | full)
      · exact absurd fits small
      · exact .failed (huge.mpr full)

theorem mmMalloc_safe_blank : SafelyAnswered blankClient.heap 5000 ↔ 5000 ≤ 2 ^ 32 - 16 ∨
    blankClient.heap.rootBp = blankClient.heap.prolBp ∧
      blankClient.heap.memMaxAddr < blankClient.heap.memBrk + CHUNKSIZE :=
  mmMalloc_safe_iff blankClient_reachable (by decide)

/-- A request for all but one byte of the address space is given the first free
block. -/
theorem mmMalloc_huge_served : ¬ ∀ c : Client, (Client.runs 4096).Reachable c →
    ∀ size, size < 2 ^ 32 → SafelyAnswered c.heap size := by
  intro claimed
  have fails := (claimed blankClient blankClient_reachable (2 ^ 32 - 1) (by decide)).fails
    (by decide)
  have served : (mmMalloc (2 ^ 32 - 1) blankClient.heap).map Prod.fst = some 4120 := by
    decide +kernel
  rw [fails] at served
  cases served

end Wrapping

end SysProg.Malloc

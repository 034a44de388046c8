import SysProg.Malloc.Contract

/-!
# What `mm_realloc` promises its callers

The contents survive every branch, as far as the old and the new request both
reach.  A block that is already large enough is kept, or a free neighbour is
absorbed, except where the block is one double word too large and lies between
allocated blocks.
-/

namespace SysProg.Malloc

open Logic

/-! ## The contents -/

/-- The pointer `q` that `mm_realloc` returned for `p`, which was asked for with
`old` bytes, is live in an allocated block with room for `new` bytes, and
starts with the bytes that both requests cover. -/
structure Preserved (c : Client) (p old new q : Nat) (h' : Heap) : Prop where
  live : ∃ c', c.serve (.realloc p new) = some c' ∧ c'.heap = h' ∧ (q, new) ∈ c'.live
  block : ∃ size, getSize (hdrp q) h' = some (size, h') ∧ getAlloc (hdrp q) h' = some (1, h') ∧
    new ≤ size - DSIZE
  contents : ∀ i, i < min old new → h'.mem (q + i) = c.heap.mem (p + i)

section Contents

variable {lo : Nat} {c : Client}

/-- `mm_realloc` of a live pointer to a nonzero size ends, and what it returns
holds the old contents. -/
theorem realloc_preserves (reached : (Client.runs lo).Reachable c) {p old new : Nat}
    (member : (p, old) ∈ c.live) (positive : 0 < new) (small : new < 2 ^ 31) :
    ∃ q h', mmRealloc p new c.heap = some (q, h') ∧ (q ≠ NULL → Preserved c p old new q h') := by
  obtain ⟨unchecked, bs, fl, rep, owns⟩ := Serving.of_reachable reached
  obtain ⟨d, at_, dTaken, fits⟩ := owns.backed p old member
  obtain ⟨front, b, back, rfl, place, taken, behind⟩ :=
    owns.split_at (List.mem_map.mpr ⟨(p, old), member, rfl⟩)
  have bAt : (p, b) ∈ located (lo + 8) (front ++ b :: back) :=
    mem_located_iff.mpr ⟨front, back, rfl, place⟩
  have same : d = b := located_unique at_ bAt
  subst place same
  have realloc := wp_mmRealloc rep unchecked behind taken positive small
  obtain ⟨⟨q, h'⟩, run, outcome⟩ := realloc
  refine ⟨q, h', run, fun notNull => ?_⟩
  obtain ⟨bs', fl', handed, copied⟩ := (outcome.handed rep behind taken).resolve_left
    fun failed => notNull failed.1
  obtain ⟨e, eTaken, eFits, others⟩ := handed.block
  have eAt := (others q e eTaken).mpr (.inl ⟨rfl, rfl⟩)
  have layout := handed.updated.consistent.layout
  have wide : (wanted new positive).size = (new + 7) / 8 * 8 + 8 := rfl
  refine ⟨?_, ?_, ?_⟩
  · have kept : ¬ (q = NULL ∧ new ≠ 0) := fun failed => notNull failed.1
    refine ⟨⟨h', take q new (giveBack (lo + 8 + span front) c.live)⟩, ?_, rfl, ?_⟩
    · simp only [Client.serve, run, Option.bind_eq_bind, Option.bind_some, if_neg kept]
      rfl
    · change (q, new) ∈ take q new _
      rw [take, if_neg notNull]
      exact List.mem_cons_self
  · have bit := layout.getAlloc_hdrp eAt
    rw [eTaken] at bit
    refine ⟨e.size, layout.getSize_hdrp eAt, bit, ?_⟩
    unfold DSIZE
    omega
  · intro i inside
    exact copied i (by omega) (by omega)

theorem realloc_preserves_asking : ∃ q h', mmRealloc 4120 5000 askingClient.heap = some (q, h') ∧
    (q ≠ NULL → Preserved askingClient 4120 20 5000 q h') := by
  exact realloc_preserves askingClient_reachable (by simp [askingClient_live]) (by decide) (by decide)

end Contents

/-! ## Staying inside the heap -/

/-- `mm_malloc` in a heap whose `mem_sbrk` never answers. -/
def mallocNoSbrk (size : Nat) : MM Nat := do
  if size = 0 then pure NULL
  else do
    let bsize := add32 (align size) DSIZE
    let bp ← findFit bsize
    if bp ≠ NULL then do
      place bp bsize
      pure bp
    else fun _ => none

/-- `mm_realloc` returns a block, and does the same where `mem_sbrk` never
answers: it is not called. -/
def StaysInHeap (h : Heap) (p s : Nat) : Prop :=
  ∃ q h', q ≠ NULL ∧ mmRealloc p s h = some (q, h') ∧
    reallocWith mallocNoSbrk reallocAbsorbNext p s h = some (q, h')

section Stays

variable {lo size : Nat} {h : Heap} {bs : List Block} {fl : List Nat}

/-- No free block has `bsize` bytes. -/
def NoFit (lo bsize : Nat) (bs : List Block) : Prop :=
  ∀ x d, (x, d) ∈ located (lo + 8) bs → d.alloc = false → d.size < bsize

/-- A failing `mm_malloc` has found no fit. -/
theorem MallocOutcome.search_of_null {r : Nat} {h' : Heap} {want : Block}
    (outcome : MallocOutcome lo h bs fl want r h') (null : r = NULL) :
    FirstFit lo bs want.size fl NULL := by
  unfold NULL at null
  cases outcome with
  | fit split behind isFree fits search updated settled => omega
  | grown search isFree sized room updated settled => omega
  | full search exhausted => exact search

/-- A search that finds nothing has seen every free block. -/
theorem FirstFit.noFit {bsize : Nat} (settled : Settled lo bs fl)
    (search : FirstFit lo bs bsize fl NULL) : NoFit lo bsize bs := by
  generalize null : NULL = r at search
  cases search with
  | found front back split at_ fits skipped =>
      have bounds := located_bounds at_
      unfold NULL at null
      omega
  | none small => exact fun x d at_ free => small x (settled.complete x ⟨d, at_, free⟩) d at_

/-- Without a fit `mm_malloc` needs `mem_sbrk`; with one it does not. -/
theorem mallocNoSbrk_run (rep : Represents lo h bs fl) (positive : 0 < size)
    (small : size ≤ 2 ^ 32 - 16) :
    NoFit lo (wanted size positive).size bs ∧ mallocNoSbrk size h = none ∨
      ¬ NoFit lo (wanted size positive).size bs ∧ mallocNoSbrk size h = mmMalloc size h ∧
        ∀ h', ¬ MallocOutcome lo h bs fl (wanted size positive) NULL h' := by
  have bsize := bsize_eq positive small
  have nonzero : ¬ size = 0 := by omega
  generalize wanted size positive = want at *
  have fit : wp (findFit want.size) _ h := wp_findFit rep.consistent.toThreaded
  obtain ⟨⟨r, h0⟩, looked, same, search⟩ := fit
  simp only at same search
  subst same
  cases search with
  | @found front back _ b split at_ fits skipped =>
      have notNull : r ≠ NULL := by
        have bounds := located_bounds at_
        unfold NULL
        omega
      obtain ⟨d, at', isFree⟩ := rep.consistent.free r (by simp [split])
      have unfit : ¬ NoFit lo want.size bs := by
        intro none
        have small := none r b at_ (located_unique at' at_ ▸ isFree)
        omega
      refine .inr ⟨unfit, ?_, ?_⟩
      · simp only [mallocNoSbrk, mmMalloc, if_neg nonzero, bsize]
        rw [bind_run_of_run looked, bind_run_of_run looked, if_pos notNull, if_pos notNull]
      · exact fun h' outcome => unfit ((outcome.search_of_null rfl).noFit rep.settled)
  | none none =>
      refine .inl ⟨FirstFit.noFit rep.settled (.none none), ?_⟩
      simp only [mallocNoSbrk, if_neg nonzero, bsize]
      rw [bind_run_of_run looked, if_neg (by simp)]

end Stays

section Block

variable {lo size : Nat} {h : Heap} {init back : List Block} {p b : Block} {fl : List Nat}

/-- A branch that does not allocate. -/
theorem StaysInHeap.of_branch {ptr s : Nat} {x : MM Nat}
    (select : ∀ malloc, reallocWith malloc reallocAbsorbNext ptr s h = x h)
    (done : wp x (fun r _ => r ≠ NULL) h) : StaysInHeap h ptr s := by
  obtain ⟨⟨r, h'⟩, run, notNull⟩ := done
  refine ⟨r, h', notNull, ?_, ?_⟩
  · rw [mmRealloc_eq, select, run]
  · rw [select, run]

/-- A free neighbour of a block that is one double word too large would be
absorbed. -/
theorem neighbours_taken {want : Block} (slack : b.size = want.size + 8)
    (noPrev : ¬ AbsorbsPrev (init ++ [p]) b want)
    (noNext : ∀ n tail, back = n :: tail → n.alloc = false →
      (b.merge [] [n]).size < want.size + 16) :
    p.alloc = true ∧ Layout.nextAlloc back = true := by
  constructor
  · cases bit : p.alloc with
    | true => rfl
    | false =>
        have pLarge := p.size_ge
        refine absurd ⟨init, p, rfl, by omega, by omega, bit, ?_⟩ noPrev
        simp only [Block.merge, span_cons, span_nil]
        omega
  · cases back with
    | nil => rfl
    | cons n tail =>
        cases bit : n.alloc with
        | true => exact bit
        | false =>
            have nLarge := n.size_ge
            have tooSmall := noNext n tail rfl bit
            simp only [Block.merge, span_cons, span_nil] at tooSmall
            omega

/-- `mm_realloc` of a block to a size that fits into it leaves the heap's range
only when the block is one double word too large, lies between allocated
blocks, and no free block fits. -/
theorem staysInHeap_iff (rep : Represents lo h (init ++ [p] ++ b :: back) fl)
    (unchecked : h.checked = false) (taken : b.alloc = true) (positive : 0 < size)
    (fits : (wanted size positive).size ≤ b.size) :
    StaysInHeap h (lo + 8 + span init + p.size) size ↔
      ¬ (b.size = (wanted size positive).size + 8 ∧ p.alloc = true ∧
        Layout.nextAlloc back = true ∧
        NoFit lo (wanted size positive).size (init ++ [p] ++ b :: back)) := by
  have place : lo + 8 + span (init ++ [p]) = lo + 8 + span init + p.size := by
    simp [Nat.add_assoc]
  have behind : init ++ [p] ≠ [] := by simp
  have bAt : (lo + 8 + span (init ++ [p]), b) ∈
      located (lo + 8) (init ++ [p] ++ b :: back) := by simp [Nat.add_assoc]
  have layout := rep.consistent.layout
  have bounds := layout.bounds bAt
  have limit := layout.brk_lt
  have pLarge := p.size_ge
  have wantTaken : (wanted size positive).alloc = true := rfl
  have small : size ≤ 2 ^ 32 - 16 := by
    simp only [wanted] at fits
    omega
  have alloc := mallocNoSbrk_run rep positive small
  have move := wp_reallocMove rep behind taken positive small
  obtain ⟨run, branch, select⟩ := exists_reallocBranch lo b behind positive (by omega)
  have ended := fun malloc => select layout malloc reallocAbsorbNext
  rw [← place]
  generalize wanted size positive = want at *
  have whole := b.aligned
  have doubled := want.aligned
  cases branch with
  | shrink splits =>
      refine iff_of_true (.of_branch ended ?_) (by omega)
      refine wp_mono (wp_reallocShrink rep behind taken wantTaken splits) ?_
      rintro r h' ⟨rfl, done, -⟩
      exact done.ne_null
  | same sized =>
      refine iff_of_true (.of_branch ended ?_) (by omega)
      rw [wp_pure]
      unfold NULL
      omega
  | @prev init' p' split tight differs isFree fits' =>
      obtain ⟨rfl, same⟩ := List.append_inj' split rfl
      cases same
      refine iff_of_true (.of_branch ended ?_) (by simp [isFree])
      have readable := Heap.accessible_unchecked unchecked
      have absorb := wp_reallocAbsorbPrev rep (readable _ _) isFree taken wantTaken fits'
      rw [← place] at absorb
      refine wp_mono absorb ?_
      rintro r h' ⟨rfl, done, -⟩
      exact done.ne_null
  | @next n tail split tight differs noPrev isFree fits' =>
      subst split
      refine iff_of_true (.of_branch ended ?_) (by simp [Layout.nextAlloc, isFree])
      refine wp_mono (wp_reallocAbsorbNext rep behind isFree taken wantTaken fits') ?_
      rintro r h' ⟨rfl, done, -⟩
      exact done.ne_null
  | move tight differs noPrev noNext =>
      have slack : b.size = want.size + 8 := by omega
      obtain ⟨prevTaken, nextTaken⟩ := neighbours_taken slack noPrev noNext
      simp only [slack, prevTaken, nextTaken, true_and]
      rcases alloc with ⟨noFit, stuck⟩ | ⟨fit, same, noFail⟩
      · refine iff_of_false ?_ (fun claimed => claimed noFit)
        rintro ⟨q, h', -, -, answer⟩
        rw [ended] at answer
        change (mallocNoSbrk size h).bind _ = some (q, h') at answer
        rw [stuck] at answer
        cases answer
      · refine iff_of_true ?_ fit
        obtain ⟨⟨r, h'⟩, answer, outcome⟩ := move
        have notNull : r ≠ NULL := by
          rcases outcome with ⟨-, -, failed⟩ | ⟨-, -, -, -, notNull, -⟩
          · exact absurd failed (noFail h)
          · exact notNull
        refine ⟨r, h', notNull, ?_, ?_⟩
        · rw [mmRealloc_eq, ended]
          exact answer
        · rw [ended, ← answer]
          exact run_bind_congr same _

end Block

/-- The block at `p` is one double word larger than `s` bytes need, lies between
allocated blocks, and no free block of the heap can hold `s` bytes. -/
structure Cornered (h : Heap) (p s : Nat) : Prop where
  slack : getSize (hdrp p) h = some (align s + 2 * DSIZE, h)
  prevTaken : (do getAlloc (← ftrp (← prevBlkp p)) : MM Nat) h = some (1, h)
  nextTaken : (do getAlloc (hdrp (← nextBlkp p)) : MM Nat) h = some (1, h)
  noFit : ∃ blocks, BlockWalk h h.prolBp blocks ∧ ∀ bp ∈ blocks, ∀ size,
    getAlloc (hdrp bp) h = some (0, h) → getSize (hdrp bp) h = some (size, h) →
      size < align s + DSIZE

section Cornered

variable {lo size : Nat} {h : Heap} {init back : List Block} {p b : Block}

/-- A bit read from the heap is the bit of the block list. -/
theorem bit_read_iff {x : MM Nat} {bit : Bool} (read : x h = some (bit.toNat, h)) :
    x h = some (1, h) ↔ bit = true := by
  rw [read]
  cases bit <;> simp

/-- The walk visits the located blocks. -/
theorem Layout.noFit_iff {bs : List Block} (layout : Layout lo h bs) (bsize : Nat) :
    (∃ blocks, BlockWalk h h.prolBp blocks ∧ ∀ bp ∈ blocks, ∀ size,
      getAlloc (hdrp bp) h = some (0, h) → getSize (hdrp bp) h = some (size, h) → size < bsize) ↔
      NoFit lo bsize bs := by
  constructor
  · rintro ⟨blocks, walk, none⟩ x d at_ free
    rw [walk.unique layout.blockWalk] at none
    exact none x (List.mem_map.mpr ⟨(x, d), at_, rfl⟩) d.size
      ((layout.getAlloc_zero_iff at_).mpr free) (layout.getSize_hdrp at_)
  · intro none
    refine ⟨_, layout.blockWalk, ?_⟩
    intro bp member size bit sized
    obtain ⟨⟨x, d⟩, at_, rfl⟩ := List.mem_map.mp member
    rw [layout.getSize_hdrp at_] at sized
    cases sized
    exact none x d at_ ((layout.getAlloc_zero_iff at_).mp bit)

/-- The bit that the footer before a block shows. -/
theorem Layout.getAlloc_prev (layout : Layout lo h (init ++ [p] ++ b :: back)) :
    (do getAlloc (← ftrp (← prevBlkp (lo + 8 + span init + p.size))) : MM Nat) h =
      some (p.alloc.toNat, h) := by
  have pAt : (lo + 8 + span init, p) ∈ located (lo + 8) (init ++ [p] ++ b :: back) := by simp
  refine run_of_wp ?_
  rw [wp_bind, layout.wp_prevBlkp pAt, wp_bind, layout.wp_ftrp pAt, layout.wp_getAlloc_footer pAt]
  exact ⟨rfl, rfl⟩

/-- A cornered block in terms of the block list. -/
theorem Layout.cornered_iff (layout : Layout lo h (init ++ [p] ++ b :: back)) (positive : 0 < size)
    (small : size ≤ 2 ^ 32 - 16) :
    Cornered h (lo + 8 + span init + p.size) size ↔
      b.size = (wanted size positive).size + 8 ∧ p.alloc = true ∧ Layout.nextAlloc back = true ∧
        NoFit lo (wanted size positive).size (init ++ [p] ++ b :: back) := by
  have place : lo + 8 + span (init ++ [p]) = lo + 8 + span init + p.size := by
    simp [Nat.add_assoc]
  have bAt : (lo + 8 + span init + p.size, b) ∈
      located (lo + 8) (init ++ [p] ++ b :: back) := by simp [Nat.add_assoc]
  have aligned : align size + DSIZE = (wanted size positive).size := by
    rw [align_eq (by omega)]
    rfl
  have sized := layout.getSize_hdrp bAt
  have prevRead := layout.getAlloc_prev
  have nextRead : (do getAlloc (hdrp (← nextBlkp (lo + 8 + span init + p.size))) : MM Nat) h =
      some ((Layout.nextAlloc back).toNat, h) := by
    have read := layout.wp_getAlloc_next fun v s => v = (Layout.nextAlloc back).toNat ∧ s = h
    rw [place] at read
    refine run_of_wp ?_
    rw [wp_bind, layout.wp_nextBlkp bAt, read]
    exact ⟨rfl, rfl⟩
  have doubled : align size + 2 * DSIZE = (wanted size positive).size + 8 := by
    rw [← aligned]
    rfl
  constructor
  · intro cornered
    have slack := cornered.slack
    rw [sized, doubled] at slack
    have none := (layout.noFit_iff _).mp cornered.noFit
    rw [aligned] at none
    exact ⟨by simpa using slack, (bit_read_iff prevRead).mp cornered.prevTaken,
      (bit_read_iff nextRead).mp cornered.nextTaken, none⟩
  · rintro ⟨slack, prevTaken, nextTaken, none⟩
    rw [← aligned] at none
    refine ⟨?_, (bit_read_iff prevRead).mpr prevTaken, (bit_read_iff nextRead).mpr nextTaken,
      (layout.noFit_iff _).mpr none⟩
    rw [sized, doubled, slack]

end Cornered

section Clients

variable {lo : Nat} {c : Client}

/-- In every run, `mm_realloc` of a live pointer to a size that fits into its
block succeeds without a call of `mem_sbrk`, unless the block is cornered. -/
theorem realloc_staysInHeap_iff (reached : (Client.runs lo).Reachable c) {p old s bsize : Nat}
    (member : (p, old) ∈ c.live) (sized : getSize (hdrp p) c.heap = some (bsize, c.heap))
    (positive : 0 < s) (fits : (s + 7) / 8 * 8 + DSIZE ≤ bsize) :
    StaysInHeap c.heap p s ↔ ¬ Cornered c.heap p s := by
  obtain ⟨unchecked, bs, fl, rep, owns⟩ := Serving.of_reachable reached
  obtain ⟨front, b, back, rfl, place, taken, behind⟩ :=
    owns.split_at (List.mem_map.mpr ⟨(p, old), member, rfl⟩)
  have layout := rep.consistent.layout
  have bAt : (p, b) ∈ located (lo + 8) (front ++ b :: back) :=
    mem_located_iff.mpr ⟨front, back, rfl, place⟩
  rw [layout.getSize_hdrp bAt] at sized
  cases sized
  have limit := layout.size_lt bAt
  obtain ⟨init, q, rfl, before⟩ := exists_before behind (lo + 8)
  rw [before] at place
  subst place
  unfold DSIZE at fits
  rw [staysInHeap_iff rep unchecked taken positive fits,
    layout.cornered_iff positive (by omega)]

/-- A read leaves the heap as it is. -/
theorem getSize_eq_of_value {h : Heap} {a size : Nat} (read : (getSize a h).map Prod.fst = some size) :
    getSize a h = some (size, h) := by
  by_cases accessible : h.Accessible a 4
  · have run : getSize a h = some (word h.mem a &&& sizeMask, h) := by
      change (getWord a h).bind _ = _
      rw [getWord, if_pos accessible]
      rfl
    rw [run] at read ⊢
    cases read
    rfl
  · change ((getWord a h).bind _).map _ = _ at read
    rw [getWord, if_neg accessible] at read
    cases read

/-- Asking for 20 bytes again, in a block of 32. -/
theorem realloc_staysInHeap_asking :
    StaysInHeap askingClient.heap 4120 20 ↔ ¬ Cornered askingClient.heap 4120 20 := by
  have sized : getSize (hdrp 4120) askingClient.heap = some (32, askingClient.heap) :=
    getSize_eq_of_value (by decide +kernel)
  have member : (4120, 20) ∈ askingClient.live := by simp [askingClient_live]
  exact realloc_staysInHeap_iff askingClient_reachable member sized (by decide) (by decide)

/-- The blank heap with room for the first chunk only. -/
def tightHeap : Heap := { blankHeap with memMaxAddr := 4096 + 24 + CHUNKSIZE }

/-- The client that has initialised the tight heap and then asked for 4080 of
the 4088 bytes that the chunk can hold. -/
def tightClient : Client :=
  let started : Client := ⟨((mmInit tightHeap).getD (-1, tightHeap)).2, []⟩
  (started.serve (.malloc 4080)).getD started

theorem tightClient_reachable : (Client.runs 4096).Reachable tightClient := by
  have fresh : Fresh 4096 tightHeap := ⟨rfl, rfl, rfl, by decide⟩
  exact served_reachable (initialised_reachable fresh rfl (by decide +kernel))
    (.malloc (by decide : 4080 < 2 ^ 31))

/-- Asking for the same size again can fail. -/
theorem realloc_sameSize_fails : ¬ ∀ c : Client, (Client.runs 4096).Reachable c →
    ∀ p old s bsize, (p, old) ∈ c.live → getSize (hdrp p) c.heap = some (bsize, c.heap) →
      0 < s → (s + 7) / 8 * 8 + DSIZE ≤ bsize → StaysInHeap c.heap p s := by
  intro claimed
  have live : tightClient.live = [(4120, 4080)] := by decide +kernel
  have sized : getSize (hdrp 4120) tightClient.heap = some (4096, tightClient.heap) :=
    getSize_eq_of_value (by decide +kernel)
  obtain ⟨q, h', notNull, run, -⟩ :=
    claimed tightClient tightClient_reachable 4120 4080 4080 4096 (by simp [live]) sized
      (by decide) (by decide)
  have failed : (mmRealloc 4120 4080 tightClient.heap).map Prod.fst = some NULL := by
    decide +kernel
  rw [run] at failed
  exact notNull (Option.some.inj failed)

end Clients

end SysProg.Malloc

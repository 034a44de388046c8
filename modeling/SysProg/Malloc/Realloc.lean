import SysProg.Malloc.Isolation
import SysProg.Malloc.Operations
import SysProg.Malloc.Versions

/-!
# `mm_realloc`

The routine keeps the block, cuts it, absorbs one free neighbour, or moves the
payload to a new block.  `ReallocOutcome` lists these cases; in each of them
the other allocated blocks stay and the common prefix of the payload survives.
-/

namespace SysProg.Malloc

open Logic

/-- The payload of the old block `b` at `ptr`, as far as the wanted block
reaches, is found at `r`. -/
def Copied (h : Heap) (ptr : Nat) (b want : Block) (r : Nat) (h' : Heap) : Prop :=
  ∀ i, i + 8 < b.size → i + 8 < want.size → h'.mem (r + i) = h.mem (ptr + i)

theorem Heap.accessible_unchecked {h : Heap} (unchecked : h.checked = false) (p n : Nat) :
    h.Accessible p n := by
  intro on
  rw [unchecked] at on
  cases on

/-- What lies between the start and the break is accessible. -/
theorem Heap.accessible_inside {h : Heap} {p n : Nat} (lower : h.memStartBrk ≤ p)
    (upper : p + n ≤ h.memBrk) : h.Accessible p n := fun _ _ => ⟨lower, upper⟩

theorem wp_memmove {h : Heap} {dst src n : Nat} (written : h.Accessible dst n)
    (readable : h.Accessible src n) (post : Unit → Heap → Prop) :
    wp (memmove dst src n) post h ↔ post () (h.withMem (copyBytes h.mem dst src n)) := by
  simp [wp, memmove, written, readable]

/-- A step that hands out nothing may come first. -/
theorem Handed.after {lo r : Nat} {h h1 h' : Heap} {kept bs bs0 : List Block} {fl fl0 : List Nat}
    {want : Block} (handed : Handed lo h1 kept want r h' bs fl)
    (earlier : Updated lo h kept h1 bs0 fl0) : Handed lo h kept want r h' bs fl where
  updated := earlier.trans handed.updated (fun _ _ _ at_ => at_)
  settled := handed.settled
  notFirst := handed.notFirst
  fresh := handed.fresh
  block := handed.block

/-! ## Cutting a run and releasing its rest -/

section Split

variable {lo : Nat} {h : Heap} {front mid back : List Block} {fl : List Nat} {m : Mem}

/-- The block at the start of a run is one of the run. -/
theorem mem_run_of_located {e : Block} (positive : 0 < span mid)
    (at_ : (lo + 8 + span front, e) ∈ located (lo + 8) (front ++ mid ++ back)) : e ∈ mid := by
  have large := e.size_ge
  simp only [located_append, List.mem_append, span_append] at at_
  rcases at_ with (inFront | inMid) | inBack
  · have bounds := located_bounds inFront
    omega
  · exact mem_of_located inMid
  · have bounds := located_bounds inBack
    omega

/-- The cut adds `want` to the allocated blocks that are kept. -/
theorem mem_located_split {x : Nat} {want rest e : Block} {midKept : List Block}
    (sameSpan : want.size + rest.size = span midKept) (unkept : ∀ b ∈ midKept, b.alloc = false)
    (restFree : rest.alloc = false) (bit : e.alloc = true) :
    (x, e) ∈ located (lo + 8) (front ++ [want, rest] ++ back) ↔
      (x = lo + 8 + span front ∧ e = want) ∨
        (x, e) ∈ located (lo + 8) (front ++ midKept ++ back) := by
  have spans : span [want, rest] = span midKept := by simpa using sameSpan
  rw [alloc_mem_recut spans unkept bit]
  refine or_congr_left ?_
  simp only [located_cons, located_nil, List.mem_cons, List.not_mem_nil, or_false, Prod.mk.injEq]
  refine or_iff_left ?_
  rintro ⟨-, rfl⟩
  rw [restFree] at bit
  cases bit

/-- After the cut the rest is the one free block outside the list. -/
theorem Updated.loose {kept : List Block} {h' : Heap} {want rest : Block}
    (recut : Updated lo h kept h' (front ++ [want, rest] ++ back) fl)
    (taken : want.alloc = true) (restFree : rest.alloc = false)
    (sameSpan : want.size + rest.size = span mid)
    (apart : ∀ x ∈ fl, x < lo + 8 + span front ∨ lo + 8 + span front + span mid ≤ x)
    (listed : ∀ x d, (x, d) ∈ located (lo + 8) (front ++ mid ++ back) → d.alloc = false →
      (x + d.size ≤ lo + 8 + span front ∨ lo + 8 + span front + span mid ≤ x) → x ∈ fl) :
    Loose lo h' (front ++ [want]) rest back fl := by
  have place : lo + 8 + span (front ++ [want]) = lo + 8 + span front + want.size := by
    simp [Nat.add_assoc]
  have shape : (front ++ [want]) ++ rest :: back = front ++ [want, rest] ++ back := by simp
  have wantLarge := want.size_ge
  have restLarge := rest.size_ge
  refine ⟨by rw [shape]; exact recut.consistent, by simp, restFree, ?_, ?_⟩
  · intro member
    rw [place] at member
    have sides := apart _ member
    omega
  · rintro x ⟨d, at_, free⟩
    rw [shape] at at_
    have spans : span [want, rest] = span mid := by simpa using sameSpan
    rcases mem_located_recut spans at_ with inCut | ⟨old, sides⟩
    · simp only [located_cons, located_nil, List.mem_cons, List.not_mem_nil, or_false,
        Prod.mk.injEq] at inCut
      rcases inCut with ⟨-, rfl⟩ | ⟨rfl, -⟩
      · rw [taken] at free
        cases free
      · exact .inl place.symm
    · exact .inr (listed x d old free sides)

/-- Cutting `want` from the front of a run and releasing the rest. -/
theorem wp_split_release (c : Consistent lo h (front ++ mid ++ back) fl) (want rest : Block)
    (midKept : List Block) {size restSize : Nat} (behind : front ≠ []) (sized : size = want.size)
    (restSized : restSize = rest.size) (taken : want.alloc = true) (restFree : rest.alloc = false)
    (sameSpan : want.size + rest.size = span mid) (keptSpan : span midKept = span mid)
    (unkept : ∀ b ∈ midKept, b.alloc = false)
    (gone : ∀ x ∈ pointers (lo + 8 + span front) mid, x ∉ fl)
    (untouched : ∀ i, i < lo + 8 + span front - 4 ∨
      lo + 8 + span front + span mid - 4 ≤ i → m i = h.mem i)
    (listed : ∀ x d, (x, d) ∈ located (lo + 8) (front ++ mid ++ back) → d.alloc = false →
      (x + d.size ≤ lo + 8 + span front ∨ lo + 8 + span front + span mid ≤ x) → x ∈ fl)
    (before : Sparse front) (after : Sparse back) :
    wp (do
        putSplitTags (lo + 8 + span front) size restSize
        let _ ← setRoot (← coalesce (← nextBlkp (lo + 8 + span front)))
        pure (lo + 8 + span front))
      (fun r h' => r = lo + 8 + span front ∧
        Handed lo h (front ++ midKept ++ back) want r h' (coalesced (front ++ [want]) rest back)
          ((r + want.size) :: fl.diff (absorbed lo (front ++ [want]) rest back)) ∧
        AgreeOn m h'.mem r (r + want.size - 8))
      (h.withMem m) := by
  have apart := c.toThreaded.nodes_apart gone
  have wide := want.size_ge
  have shape : (front ++ [want]) ++ rest :: back = front ++ [want, rest] ++ back := by simp
  have place : lo + 8 + span (front ++ [want]) = lo + 8 + span front + want.size := by
    simp [Nat.add_assoc]
  have whole : cutFreeLast (front ++ [want]) = (front ++ [want], []) := by
    rw [cutFreeLast_concat, if_pos taken]
  have beforeRest : Sparse (front ++ [want]) := by
    rw [sparse_append]
    refine ⟨before, List.isChain_singleton _, ?_⟩
    intro d _ e first
    cases first
    exact .inr taken
  have room := span_ge behind
  rw [wp_bind]
  refine wp_mono (wp_putSplit c want rest midKept behind sized restSized taken restFree sameSpan
    keptSpan unkept gone untouched) ?_
  rintro _ h1 ⟨recut, agree⟩
  have wantAt : (lo + 8 + span front, want) ∈
      located (lo + 8) (front ++ [want, rest] ++ back) := by simp
  have loose := recut.loose taken restFree sameSpan apart listed
  have released := wp_release loose beforeRest after
  rw [wp_bind, place, whole] at released
  rw [wp_bind, recut.consistent.layout.wp_nextBlkp wantAt, wp_bind]
  refine wp_mono released ?_
  intro merged h2 coalescedRun
  rw [wp_bind]
  refine wp_mono coalescedRun ?_
  rintro r h3 ⟨rfl, updated, settled⟩
  rw [wp_pure]
  rw [shape] at updated
  simp only [place] at updated settled
  have keptSum : want.size + rest.size = span midKept := sameSpan.trans keptSpan.symm
  refine ⟨rfl, ⟨recut.trans updated ?_, settled, by omega, ?_, want, taken, le_refl _, ?_⟩, ?_⟩
  · intro x d bit old
    exact (mem_located_split keptSum unkept restFree bit).mpr (.inr old)
  · intro e at_
    exact unkept e (mem_run_of_located (by omega) at_)
  · intro x e bit
    rw [alloc_mem_coalesced restFree bit, shape, mem_located_split keptSum unkept restFree bit]
  · refine agree.trans ?_
    intro i lower upper
    exact updated.keeps i ⟨_, want, wantAt, taken, by omega, lower, by omega⟩

end Split

/-! ## The branches -/

section Branches

variable {lo : Nat} {h : Heap} {front back : List Block} {b want : Block} {fl : List Nat}

/-- An allocated block is not in the free list. -/
theorem Threaded.not_mem_of_taken {bs : List Block} {x : Nat} (c : Threaded lo h bs fl)
    (at_ : (x, b) ∈ located (lo + 8) bs) (taken : b.alloc = true) : x ∉ fl := by
  intro member
  obtain ⟨d, other, free⟩ := c.free x member
  rw [located_unique other at_, taken] at free
  cases free

/-- When a block of a run has left the free list, the free blocks outside the run
are still in it. -/
theorem Settled.listed_outside {bs : List Block} {start width y : Nat} (settled : Settled lo bs fl)
    (inside : start ≤ y ∧ y < start + width) :
    ∀ x d, (x, d) ∈ located (lo + 8) bs → d.alloc = false →
      (x + d.size ≤ start ∨ start + width ≤ x) → x ∈ fl.erase y := by
  intro x d at_ free sides
  have large := d.size_ge
  exact (List.mem_erase_of_ne (by omega)).mpr (settled.complete x ⟨d, at_, free⟩)

/-- The branch that splits the old block. -/
theorem wp_reallocShrink (rep : Represents lo h (front ++ b :: back) fl) (behind : front ≠ [])
    (taken : b.alloc = true) (wantTaken : want.alloc = true)
    (fits : want.size + 16 ≤ b.size) :
    wp (reallocShrink (lo + 8 + span front) b.size want.size)
      (fun r h' => r = lo + 8 + span front ∧
        Handed lo h (front ++ [b.mark false] ++ back) want r h'
          (coalesced (front ++ [want]) (b.rest want fits) back)
          ((r + want.size) :: fl.diff (absorbed lo (front ++ [want]) (b.rest want fits) back)) ∧
        Copied h (lo + 8 + span front) b want r h') h := by
  obtain ⟨c, settled⟩ := rep
  have shape : front ++ b :: back = front ++ [b] ++ back := by simp
  have bAt : (lo + 8 + span front, b) ∈ located (lo + 8) (front ++ b :: back) := by simp
  have absent := c.not_mem_of_taken bAt taken
  have limit := c.layout.size_lt bAt
  have sparse := sparse_append.mp settled.sparse
  have complete := settled.complete
  rw [shape] at c complete
  have sameSpan : want.size + (b.rest want fits).size = span [b] := by
    simp only [Block.rest, span_cons, span_nil]
    omega
  have cut := wp_split_release (m := h.mem) c want (b.rest want fits) [b.mark false] behind
    (rfl : want.size = want.size) (sub32_eq (by omega) limit : sub32 b.size want.size = _)
    wantTaken rfl sameSpan (by simp) (by simp) (by simpa [pointers] using absent) (fun _ _ => rfl)
    (fun x d at_ free _ => complete x ⟨d, at_, free⟩) sparse.1 (List.IsChain.tail sparse.2.1)
  refine wp_mono cut ?_
  rintro r h' ⟨rfl, done, agree⟩
  refine ⟨rfl, done, ?_⟩
  intro i _ inWant
  exact agree _ (by omega) (by omega)

/-- The branch that absorbs the previous block. -/
theorem wp_reallocAbsorbPrev {init : List Block} {p : Block}
    (rep : Represents lo h (init ++ [p] ++ b :: back) fl)
    (readable : h.Accessible (lo + 8 + span init + p.size) (want.size - 8))
    (isFree : p.alloc = false) (taken : b.alloc = true) (wantTaken : want.alloc = true)
    (fits : want.size + 16 ≤ (b.merge [p] []).size) :
    wp (reallocAbsorbPrev (lo + 8 + span init + p.size) want.size (b.merge [p] []).size)
      (fun r h' => r = lo + 8 + span init ∧
        Handed lo h (init ++ [p, b.mark false] ++ back) want r h'
          (coalesced (init ++ [want]) ((b.merge [p] []).rest want fits) back)
          ((r + want.size) :: (fl.erase r).diff
            (absorbed lo (init ++ [want]) ((b.merge [p] []).rest want fits) back)) ∧
        Copied h (lo + 8 + span init + p.size) b want r h') h := by
  obtain ⟨c, settled⟩ := rep
  have shape : init ++ [p] ++ b :: back = init ++ [p, b] ++ back := by simp
  rw [shape] at c settled
  have pAt : (lo + 8 + span init, p) ∈ located (lo + 8) (init ++ [p, b] ++ back) := by simp
  have bAt : (lo + 8 + span init + p.size, b) ∈ located (lo + 8) (init ++ [p, b] ++ back) := by
    simp
  have behind : init ≠ [] := by
    have layout := c.layout
    rw [← shape, List.append_assoc] at layout
    exact layout.front_ne_nil isFree
  have merged : (b.merge [p] []).size = p.size + b.size := by
    simp only [Block.merge, span_cons, span_nil]
    omega
  have member : lo + 8 + span init ∈ fl := settled.complete _ ⟨p, pAt, isFree⟩
  have absent := c.not_mem_of_taken bAt taken
  have start := c.layout.start_eq
  have pBounds := c.layout.bounds pAt
  have bBounds := c.layout.bounds bAt
  have limit := c.layout.brk_lt
  have wide := want.size_ge
  have sparse := settled.sparse
  rw [List.append_assoc] at sparse
  have before := (sparse_append.mp sparse).1
  have after : Sparse back := (sparse_append.mp sparse).2.1.tail.tail
  have length : sub32 want.size DSIZE = want.size - 8 :=
    sub32_eq (by unfold DSIZE; omega) (by omega)
  unfold reallocAbsorbPrev
  rw [wp_bind, c.layout.wp_prevBlkp pAt, wp_bind]
  refine wp_mono (wp_cutOut c member) ?_
  rintro _ h1 cut
  have agree : AgreeOn h.mem h1.mem (lo + 8 + span init + p.size)
      (lo + 8 + span init + p.size + b.size - 8) := by
    intro i lower upper
    have large := p.size_ge
    exact cut.keeps i ⟨_, b, bAt, taken, by omega, lower, by omega⟩
  have sameBrk : h1.memBrk = h.memBrk :=
    cut.consistent.layout.brk_eq.trans c.layout.brk_eq.symm
  have start1 := cut.consistent.layout.start_eq
  have written : h1.Accessible (lo + 8 + span init) (want.size - 8) :=
    Heap.accessible_inside (by omega) (by omega)
  have readable1 : h1.Accessible (lo + 8 + span init + p.size) (want.size - 8) := by
    unfold Heap.Accessible at readable ⊢
    rw [cut.arena.checked, cut.arena.start, sameBrk]
    exact readable
  rw [length, wp_bind, wp_memmove written readable1]
  have sameSpan : want.size + ((b.merge [p] []).rest want fits).size = span [p, b] := by
    simp only [Block.rest, span_cons, span_nil]
    omega
  have gone : ∀ x ∈ pointers (lo + 8 + span init) [p, b], x ∉ fl.erase (lo + 8 + span init) :=
    pair_gone c.list.nodup (.inl rfl) (.inr absent)
  have pInside : lo + 8 + span init < lo + 8 + span init + span [p, b] := by
    have large := p.size_ge
    simp only [span_cons, span_nil]
    omega
  have split := wp_split_release cut.consistent want ((b.merge [p] []).rest want fits)
    [p, b.mark false] behind (rfl : want.size = want.size)
    (sub32_eq (by omega) (by omega) : sub32 (b.merge [p] []).size want.size = _) wantTaken rfl
    sameSpan (by simp) (by simp [isFree]) gone
    (m := copyBytes h1.mem (lo + 8 + span init) (lo + 8 + span init + p.size) (want.size - 8))
    (by
      intro i outside
      simp only [span_cons, span_nil] at outside
      exact copyBytes_outside (by omega))
    (settled.listed_outside ⟨le_refl _, pInside⟩) before after
  refine wp_mono split ?_
  rintro r h' ⟨rfl, done, kept⟩
  have keptSpan : span [p, b.mark false] = span [p, b] := by simp
  have unkept : ∀ d ∈ [p, b.mark false], d.alloc = false := by simp [isFree]
  refine ⟨rfl, ?_, ?_⟩
  · refine done.after (cut.weaken ?_)
    intro x d bit old
    exact (alloc_mem_recut keptSpan.symm unkept bit).mpr (.inr old)
  · intro i inOld inWant
    have copied : h'.mem (lo + 8 + span init + i) =
        copyBytes h1.mem (lo + 8 + span init) (lo + 8 + span init + p.size) (want.size - 8)
          (lo + 8 + span init + i) := kept _ (by omega) (by omega)
    rw [copied, copyBytes_inside (by omega)]
    exact agree _ (by omega) (by omega)

/-- The cut with which the branch that absorbs the next block starts. -/
def absorbNextCut (ptr newbsize totalbsize : Nat) : MM Unit := do
  cutOut (← nextBlkp ptr)
  putSplitTags ptr newbsize (sub32 totalbsize newbsize)

theorem reallocAbsorbNext_eq (ptr newbsize totalbsize : Nat) :
    reallocAbsorbNext ptr newbsize totalbsize = (do
      absorbNextCut ptr newbsize totalbsize
      let _ ← setRoot (← nextBlkp ptr)
      pure ptr) := by
  simp [reallocAbsorbNext, absorbNextCut]

/-- The cut takes the next block off the free list and tags the new block and
its rest. -/
theorem wp_absorbNextCut {n : Block}
    (rep : Represents lo h (front ++ [b, n] ++ back) fl) (behind : front ≠ [])
    (isFree : n.alloc = false) (taken : b.alloc = true) (wantTaken : want.alloc = true)
    (fits : want.size + 16 ≤ (b.merge [] [n]).size) :
    wp (absorbNextCut (lo + 8 + span front) want.size (b.merge [] [n]).size)
      (fun _ h2 => ∃ h1,
        Updated lo h (front ++ [b, n] ++ back) h1 (front ++ [b, n] ++ back)
          (fl.erase (lo + 8 + span front + b.size)) ∧
        Updated lo h1 (front ++ [b.mark false, n] ++ back) h2
          (front ++ [want, (b.merge [] [n]).rest want fits] ++ back)
          (fl.erase (lo + 8 + span front + b.size)) ∧
        Loose lo h2 (front ++ [want]) ((b.merge [] [n]).rest want fits) back
          (fl.erase (lo + 8 + span front + b.size)) ∧
        AgreeOn h1.mem h2.mem (lo + 8 + span front) (lo + 8 + span front + want.size - 8)) h := by
  obtain ⟨c, settled⟩ := rep
  have bAt : (lo + 8 + span front, b) ∈ located (lo + 8) (front ++ [b, n] ++ back) := by simp
  have nAt : (lo + 8 + span front + b.size, n) ∈
      located (lo + 8) (front ++ [b, n] ++ back) := by simp
  have merged : (b.merge [] [n]).size = b.size + n.size := by
    simp only [Block.merge, span_cons, span_nil]
    omega
  have member : lo + 8 + span front + b.size ∈ fl := settled.complete _ ⟨n, nAt, isFree⟩
  have absent := c.not_mem_of_taken bAt taken
  have nBounds := c.layout.bounds nAt
  have limit := c.layout.brk_lt
  unfold absorbNextCut
  rw [wp_bind, c.layout.wp_nextBlkp bAt, wp_bind]
  refine wp_mono (wp_cutOut c member) ?_
  rintro _ h1 cut
  have sameSpan : want.size + ((b.merge [] [n]).rest want fits).size = span [b, n] := by
    simp only [Block.rest, span_cons, span_nil]
    omega
  have keptSpan : span [b.mark false, n] = span [b, n] := by simp
  have unkept : ∀ d ∈ [b.mark false, n], d.alloc = false := by simp [isFree]
  have gone : ∀ x ∈ pointers (lo + 8 + span front) [b, n],
      x ∉ fl.erase (lo + 8 + span front + b.size) :=
    pair_gone c.list.nodup (.inr absent) (.inl rfl)
  have apart := cut.consistent.toThreaded.nodes_apart gone
  have nInside : lo + 8 + span front ≤ lo + 8 + span front + b.size ∧
      lo + 8 + span front + b.size < lo + 8 + span front + span [b, n] := by
    have large := n.size_ge
    simp only [span_cons, span_nil]
    omega
  refine wp_mono (wp_putSplit (m := h1.mem) cut.consistent want ((b.merge [] [n]).rest want fits)
    [b.mark false, n] behind rfl (sub32_eq (by omega) (by omega)) wantTaken rfl sameSpan keptSpan
    unkept gone (fun _ _ => rfl)) ?_
  rintro _ h2 ⟨recut, agree⟩
  exact ⟨h1, cut, recut, recut.loose wantTaken rfl sameSpan apart
    (settled.listed_outside nInside), agree⟩

/-- The branch that absorbs the next block.  What follows that block is
allocated, so nothing is coalesced. -/
theorem wp_reallocAbsorbNext {n : Block}
    (rep : Represents lo h (front ++ b :: n :: back) fl) (behind : front ≠ [])
    (isFree : n.alloc = false) (taken : b.alloc = true) (wantTaken : want.alloc = true)
    (fits : want.size + 16 ≤ (b.merge [] [n]).size) :
    wp (reallocAbsorbNext (lo + 8 + span front) want.size (b.merge [] [n]).size)
      (fun r h' => r = lo + 8 + span front ∧
        Handed lo h (front ++ [b.mark false, n] ++ back) want r h'
          (front ++ [want, (b.merge [] [n]).rest want fits] ++ back)
          ((r + want.size) :: fl.erase (r + b.size)) ∧
        Copied h (lo + 8 + span front) b want r h') h := by
  have shape : front ++ b :: n :: back = front ++ [b, n] ++ back := by simp
  rw [shape] at rep
  have bAt : (lo + 8 + span front, b) ∈ located (lo + 8) (front ++ [b, n] ++ back) := by simp
  have merged : (b.merge [] [n]).size = b.size + n.size := by
    simp only [Block.merge, span_cons, span_nil]
    omega
  have wide := want.size_ge
  have room := span_ge behind
  rw [reallocAbsorbNext_eq, wp_bind]
  refine wp_mono (wp_absorbNextCut rep behind isFree taken wantTaken fits) ?_
  rintro _ h2 ⟨h1, cut, recut, loose, agree⟩
  have sameSpan : want.size + ((b.merge [] [n]).rest want fits).size = span [b, n] := by
    simp only [Block.rest, span_cons, span_nil]
    omega
  have keptSpan : span [b.mark false, n] = span [b, n] := by simp
  have unkept : ∀ d ∈ [b.mark false, n], d.alloc = false := by simp [isFree]
  have place : lo + 8 + span (front ++ [want]) = lo + 8 + span front + want.size := by
    simp [Nat.add_assoc]
  have wantAt : (lo + 8 + span front, want) ∈
      located (lo + 8) (front ++ [want, (b.merge [] [n]).rest want fits] ++ back) := by simp
  have restAt : (lo + 8 + span front + want.size, (b.merge [] [n]).rest want fits) ∈
      located (lo + 8) (front ++ [want, (b.merge [] [n]).rest want fits] ++ back) := by simp
  have restAbsent := loose.absent
  have others := loose.others
  rw [place] at restAbsent others
  rw [wp_bind, recut.consistent.layout.wp_nextBlkp wantAt, wp_bind]
  refine wp_mono (wp_setRoot recut.consistent.toThreaded ⟨_, restAt, rfl⟩ restAbsent) ?_
  rintro _ h3 ⟨-, rooted⟩
  rw [wp_pure]
  have keptSum := sameSpan.trans keptSpan.symm
  have bits : (front ++ [want, (b.merge [] [n]).rest want fits] ++ back).map Block.alloc =
      (front ++ [b, n] ++ back).map Block.alloc := by
    simp [wantTaken, taken, isFree, Block.rest]
  have updated := recut.trans rooted (fun x d bit old =>
    (mem_located_split keptSum unkept rfl bit).mpr (.inr old))
  have first := cut.weaken (fun x d bit old =>
    (alloc_mem_recut keptSpan.symm unkept bit).mpr (.inr old))
  refine ⟨rfl, Handed.after ⟨updated, ⟨?_, rep.settled.sparse.of_bits bits⟩, by omega, ?_, want,
    wantTaken, le_refl _, fun x e bit => mem_located_split keptSum unkept rfl bit⟩ first, ?_⟩
  · intro x free
    refine List.mem_cons.mpr (others x ?_)
    simpa using free
  · intro e at_
    exact unkept e (mem_run_of_located (by omega) at_)
  · intro i inOld inWant
    have large := b.size_ge
    have later : h3.mem (lo + 8 + span front + i) = h2.mem (lo + 8 + span front + i) :=
      rooted.keeps _ ⟨_, want, wantAt, wantTaken, by omega, by omega, by omega⟩
    have earlier : h1.mem (lo + 8 + span front + i) = h.mem (lo + 8 + span front + i) :=
      cut.keeps _ ⟨_, b, bAt, taken, by omega, by omega, by omega⟩
    have cutting : h2.mem (lo + 8 + span front + i) = h1.mem (lo + 8 + span front + i) :=
      agree _ (by omega) (by omega)
    rw [later, cutting, earlier]

/-- A block that is handed out has an address above the heap's start. -/
theorem Handed.ne_null {kept bs : List Block} {r : Nat} {h' : Heap}
    (handed : Handed lo h kept want r h' bs fl) : r ≠ NULL := by
  obtain ⟨d, taken, -, others⟩ := handed.block
  have bounds := located_bounds ((others r d taken).mpr (.inl ⟨rfl, rfl⟩))
  unfold NULL
  omega

section Moving

variable {bs1 : List Block} {fl1 : List Nat} {h1 : Heap} {r : Nat}

/-- Handing out a block keeps the allocated ones. -/
theorem Handed.kept {kept bs : List Block} {x : Nat} {e : Block}
    (handed : Handed lo h kept want r h1 bs fl1) (bit : e.alloc = true)
    (at_ : (x, e) ∈ located (lo + 8) kept) : (x, e) ∈ located (lo + 8) bs := by
  obtain ⟨d, -, -, others⟩ := handed.block
  exact (others x e bit).mpr (.inr at_)

/-- The block that was handed out is not the one it replaces. -/
theorem Handed.ne_old (handed : Handed lo h (front ++ b :: back) want r h1 bs1 fl1)
    (taken : b.alloc = true) : lo + 8 + span front ≠ r := by
  intro same
  have bAt : (lo + 8 + span front, b) ∈ located (lo + 8) (front ++ b :: back) := by simp
  have free := handed.fresh b (same ▸ bAt)
  rw [taken] at free
  cases free

/-- Where the block that was handed out starts there was no allocated block, even
without the old one. -/
theorem Handed.fresh_marked (handed : Handed lo h (front ++ b :: back) want r h1 bs1 fl1) :
    ∀ e, (r, e) ∈ located (lo + 8) (front ++ b.mark false :: back) → e.alloc = false := by
  intro e at_
  cases bit : e.alloc with
  | false => rfl
  | true => rw [← bit, handed.fresh e ((alloc_mem_marked bit).mp at_).1]

/-- The owner of the block that was handed out writes into it. -/
theorem Handed.overwrite {kept bs : List Block} {m : Mem}
    (handed : Handed lo h kept want r h1 bs fl1)
    (only : ∀ i d, (r, d) ∈ located (lo + 8) bs → i < r ∨ r + d.size - 8 ≤ i → m i = h1.mem i) :
    Handed lo h kept want r (h1.withMem m) bs fl1 := by
  obtain ⟨d, dTaken, fits, members⟩ := handed.block
  have dAt : (r, d) ∈ located (lo + 8) bs := (members r d dTaken).mpr (.inl ⟨rfl, rfl⟩)
  have arena := handed.updated.arena
  have written : Represents lo (h1.withMem m) bs fl1 := by
    refine Represents.overwrite ⟨handed.updated.consistent, handed.settled⟩ ?_
    intro i outside
    refine only i d dAt ?_
    by_contra inside
    exact outside ⟨r, d, dAt, dTaken, handed.notFirst, by omega, by omega⟩
  refine ⟨⟨⟨arena.start, arena.limit, arena.checked⟩, written.consistent, ?_⟩, written.settled,
    handed.notFirst, handed.fresh, d, dTaken, fits, members⟩
  rintro i ⟨x, e, at_, bit, notFirst, lower, upper⟩
  have before := handed.updated.keeps i ⟨x, e, at_, bit, notFirst, lower, upper⟩
  refine (only i d dAt ?_).trans before
  rcases located_disjoint (handed.kept bit at_) dAt with ⟨rfl, -⟩ | below | above
  · rw [handed.fresh e at_] at bit
    cases bit
  · omega
  · omega

/-- The old block is given back after the new one was handed out. -/
theorem Handed.giveBack {front1 back1 : List Block} {h2 : Heap} {fl2 : List Nat}
    (handed : Handed lo h (front ++ b :: back) want r h1 (front1 ++ b :: back1) fl1)
    (place : lo + 8 + span front = lo + 8 + span front1) (taken : b.alloc = true)
    (freed : Updated lo h1 (front1 ++ b.mark false :: back1) h2
      (coalesced front1 (b.mark false) back1) fl2)
    (settled : Settled lo (coalesced front1 (b.mark false) back1) fl2) :
    Handed lo h (front ++ b.mark false :: back) want r h2
      (coalesced front1 (b.mark false) back1) fl2 := by
  obtain ⟨d, dTaken, fits, members⟩ := handed.block
  have keptIff := alloc_mem_moved members place (handed.ne_old taken)
  refine ⟨⟨handed.updated.arena.trans freed.arena, freed.consistent, ?_⟩, settled,
    handed.notFirst, handed.fresh_marked, d, dTaken, fits, ?_⟩
  · intro i byte
    have after := freed.keeps i (byte.mono fun x e bit old => (keptIff x e bit).mpr (.inr old))
    exact after.trans (handed.updated.keeps i
      (byte.mono fun x e bit old => ((alloc_mem_marked bit).mp old).1))
  · intro x e bit
    rw [alloc_mem_coalesced rfl bit]
    exact keptIff x e bit

/-- Copying the payload to a block that was just handed out and freeing the
old one. -/
theorem wp_move (handed : Handed lo h (front ++ b :: back) want r h1 bs1 fl1)
    (behind : front ≠ []) (taken : b.alloc = true) :
    wp (do
        memmove r (lo + 8 + span front) (min b.size want.size - 8)
        mmFree (lo + 8 + span front)
        pure r)
      (fun r' h' => r' = r ∧ ∃ front1 back1, bs1 = front1 ++ b :: back1 ∧
        span front1 = span front ∧
        Handed lo h (front ++ b.mark false :: back) want r h'
          (coalesced front1 (b.mark false) back1)
          ((lo + 8 + span (cutFreeLast front1).1) ::
            fl1.diff (absorbed lo front1 (b.mark false) back1)) ∧
        Copied h (lo + 8 + span front) b want r h') h1 := by
  have bAt : (lo + 8 + span front, b) ∈ located (lo + 8) (front ++ b :: back) := by simp
  have room := span_ge behind
  have bAt1 := handed.kept taken bAt
  have differ := handed.ne_old taken
  obtain ⟨d, dTaken, dFits, members⟩ := handed.block
  have dAt : (r, d) ∈ located (lo + 8) bs1 := (members r d dTaken).mpr (.inl ⟨rfl, rfl⟩)
  have layout1 := handed.updated.consistent.layout
  have start1 := layout1.start_eq
  have dBounds := layout1.bounds dAt
  have bBounds := layout1.bounds bAt1
  have large := b.size_ge
  have wide := want.size_ge
  rw [wp_bind, wp_memmove (Heap.accessible_inside (by omega) (by omega))
    (Heap.accessible_inside (by omega) (by omega))]
  have copiedAt : ∀ i, i < min b.size want.size - 8 →
      copyBytes h1.mem r (lo + 8 + span front) (min b.size want.size - 8) (r + i) =
        h1.mem (lo + 8 + span front + i) := fun i inside => copyBytes_inside inside
  have written : Handed lo h (front ++ b :: back) want r
      (h1.withMem (copyBytes h1.mem r (lo + 8 + span front) (min b.size want.size - 8)))
      bs1 fl1 := by
    refine handed.overwrite fun i e eAt outside => copyBytes_outside ?_
    rw [located_unique eAt dAt] at outside
    omega
  generalize copyBytes h1.mem r (lo + 8 + span front) (min b.size want.size - 8) = m at *
  obtain ⟨front1, back1, rfl, place⟩ := mem_located_iff.mp bAt1
  have behind1 : front1 ≠ [] := by
    rintro rfl
    simp only [span_nil] at place
    omega
  have free := wp_mmFree ⟨written.updated.consistent, written.settled⟩ behind1 taken
  rw [← place] at free
  rw [wp_bind]
  refine wp_mono free ?_
  rintro _ h2 ⟨freed, settled⟩
  rw [wp_pure]
  refine ⟨rfl, front1, back1, rfl, by omega, written.giveBack place taken freed settled, ?_⟩
  intro i inOld inWant
  have newStays : (r, d) ∈ located (lo + 8) (front1 ++ b.mark false :: back1) :=
    (alloc_mem_marked dTaken).mpr ⟨dAt, place ▸ differ.symm⟩
  have kept : h2.mem (r + i) = m (r + i) :=
    freed.keeps _ ⟨r, d, newStays, dTaken, handed.notFirst, by omega, by omega⟩
  have before : h1.mem (lo + 8 + span front + i) = h.mem (lo + 8 + span front + i) :=
    handed.updated.keeps _ ⟨_, b, bAt, taken, by omega, by omega, by omega⟩
  rw [kept, copiedAt i (by omega), before]

end Moving

/-- The branch that moves the payload: the new block is the one that `mm_malloc`
handed out, and freeing the old block leaves it as it is. -/
theorem wp_reallocMove {size : Nat} (rep : Represents lo h (front ++ b :: back) fl)
    (behind : front ≠ []) (taken : b.alloc = true)
    (positive : 0 < size) (small : size ≤ 2 ^ 32 - 16) :
    wp (reallocMove (lo + 8 + span front) size b.size (wanted size positive).size)
      (fun r h' => (r = NULL ∧ h' = h ∧
          MallocOutcome lo h (front ++ b :: back) fl (wanted size positive) NULL h) ∨
        ∃ h1 bs1 bs' fl', r ≠ NULL ∧
          MallocOutcome lo h (front ++ b :: back) fl (wanted size positive) r h1 ∧
          Layout lo h1 bs1 ∧
          (∃ d, (r, d) ∈ located (lo + 8) bs1 ∧ (r, d) ∈ located (lo + 8) bs') ∧
          Handed lo h (front ++ b.mark false :: back) (wanted size positive) r h' bs' fl' ∧
          Copied h (lo + 8 + span front) b (wanted size positive) r h') h := by
  have malloc := wp_mmMalloc rep positive small
  have wantTaken : (wanted size positive).alloc = true := rfl
  have wantSmall : (wanted size positive).size < 2 ^ 32 := by
    simp only [wanted]
    omega
  generalize wanted size positive = want at *
  have bAt : (lo + 8 + span front, b) ∈ located (lo + 8) (front ++ b :: back) := by simp
  have limit := rep.consistent.layout.size_lt bAt
  have large := b.size_ge
  have wide := want.size_ge
  unfold reallocMove
  rw [wp_bind]
  refine wp_mono malloc ?_
  intro r h1 outcome
  rw [wp_ite]
  rcases outcome.handed rep wantTaken with ⟨rfl, rfl⟩ | ⟨bs1, fl1, handed⟩
  · rw [if_pos rfl, wp_pure]
    exact .inl ⟨rfl, rfl, outcome⟩
  · have length : sub32 (min b.size want.size) DSIZE = min b.size want.size - 8 :=
      sub32_eq (by unfold DSIZE; omega) (by omega)
    rw [if_neg handed.ne_null, length]
    refine wp_mono (wp_move handed behind taken) ?_
    rintro r' h' ⟨rfl, front1, back1, rfl, spans, done, copied⟩
    obtain ⟨d, dTaken, -, others⟩ := handed.block
    have dAt := (others _ d dTaken).mpr (.inl ⟨rfl, rfl⟩)
    have apart := handed.ne_old taken
    have dAt' := (alloc_mem_coalesced (b := b.mark false) rfl dTaken).mpr
      ((alloc_mem_marked dTaken).mpr ⟨dAt, by omega⟩)
    exact .inr ⟨h1, _, _, _, handed.ne_null, outcome, handed.updated.consistent.layout,
      ⟨d, dAt, dAt'⟩, done, copied⟩

end Branches

/-! ## The selection of a branch -/

/-- What `mm_realloc` may do with the allocated block `b` between `front` and
`back` for the wanted block `want`. -/
inductive ReallocOutcome (lo : Nat) (h : Heap) (front : List Block) (b : Block) (back : List Block)
    (fl : List Nat) (want : Block) : Nat → Heap → Prop where
  | shrunk {h' : Heap} (fits : want.size + 16 ≤ b.size)
      (handed : Handed lo h (front ++ b.mark false :: back) want (lo + 8 + span front) h'
        (coalesced (front ++ [want]) (b.rest want fits) back)
        ((lo + 8 + span front + want.size) ::
          fl.diff (absorbed lo (front ++ [want]) (b.rest want fits) back)))
      (copied : Copied h (lo + 8 + span front) b want (lo + 8 + span front) h') :
      ReallocOutcome lo h front b back fl want (lo + 8 + span front) h'
  | same (sized : b.size = want.size) :
      ReallocOutcome lo h front b back fl want (lo + 8 + span front) h
  | absorbedPrev {init : List Block} {p : Block} {h' : Heap} (split : front = init ++ [p])
      (tight : b.size < want.size + 16) (differs : b.size ≠ want.size) (isFree : p.alloc = false)
      (fits : want.size + 16 ≤ (b.merge [p] []).size)
      (handed : Handed lo h (front ++ b.mark false :: back) want (lo + 8 + span init) h'
        (coalesced (init ++ [want]) ((b.merge [p] []).rest want fits) back)
        ((lo + 8 + span init + want.size) :: (fl.erase (lo + 8 + span init)).diff
          (absorbed lo (init ++ [want]) ((b.merge [p] []).rest want fits) back)))
      (copied : Copied h (lo + 8 + span front) b want (lo + 8 + span init) h') :
      ReallocOutcome lo h front b back fl want (lo + 8 + span init) h'
  | absorbedNext {n : Block} {tail : List Block} {h' : Heap} (split : back = n :: tail)
      (tight : b.size < want.size + 16) (differs : b.size ≠ want.size) (isFree : n.alloc = false)
      (fits : want.size + 16 ≤ (b.merge [] [n]).size)
      (handed : Handed lo h (front ++ b.mark false :: back) want (lo + 8 + span front) h'
        (front ++ [want, (b.merge [] [n]).rest want fits] ++ tail)
        ((lo + 8 + span front + want.size) :: fl.erase (lo + 8 + span front + b.size)))
      (copied : Copied h (lo + 8 + span front) b want (lo + 8 + span front) h') :
      ReallocOutcome lo h front b back fl want (lo + 8 + span front) h'
  | moved {r : Nat} {h1 h' : Heap} {bs' : List Block} {fl' : List Nat}
      (tight : b.size < want.size + 16) (differs : b.size ≠ want.size)
      (malloc : MallocOutcome lo h (front ++ b :: back) fl want r h1)
      (handed : Handed lo h (front ++ b.mark false :: back) want r h' bs' fl')
      (copied : Copied h (lo + 8 + span front) b want r h') :
      ReallocOutcome lo h front b back fl want r h'
  | full (tight : b.size < want.size + 16) (differs : b.size ≠ want.size)
      (malloc : MallocOutcome lo h (front ++ b :: back) fl want NULL h) :
      ReallocOutcome lo h front b back fl want NULL h

/-- The block `b` behind `front` is resized by absorbing the block before it. -/
def AbsorbsPrev (front : List Block) (b want : Block) : Prop :=
  ∃ init p, front = init ++ [p] ∧ b.size < want.size + 16 ∧ b.size ≠ want.size ∧
    p.alloc = false ∧ want.size + 16 ≤ (b.merge [p] []).size

section Select

variable {lo : Nat} {h : Heap} {front back : List Block} {b want : Block} {fl : List Nat}

/-- Either `mm_realloc` hands out a block with the old contents or it changes
nothing. -/
theorem ReallocOutcome.handed {r : Nat} {h' : Heap} (rep : Represents lo h (front ++ b :: back) fl)
    (behind : front ≠ []) (taken : b.alloc = true)
    (outcome : ReallocOutcome lo h front b back fl want r h') :
    r = NULL ∧ h' = h ∨ ∃ bs' fl', Handed lo h (front ++ b.mark false :: back) want r h' bs' fl' ∧
      Copied h (lo + 8 + span front) b want r h' := by
  cases outcome with
  | shrunk fits handed copied => exact .inr ⟨_, _, handed, copied⟩
  | same sized =>
      have bAt : (lo + 8 + span front, b) ∈ located (lo + 8) (front ++ b :: back) := by simp
      have room := span_ge behind
      have kept := (Updated.refl rep.consistent).weaken
        (fun x e bit old => ((alloc_mem_marked bit).mp old).1)
      refine .inr ⟨_, _, ⟨kept, rep.settled, by omega, ?_, b, taken, le_of_eq sized.symm, ?_⟩,
        fun _ _ _ => rfl⟩
      · intro e at_
        cases bit : e.alloc with
        | false => rfl
        | true => exact absurd rfl ((alloc_mem_marked bit).mp at_).2
      · intro x e bit
        rw [alloc_mem_marked bit]
        constructor
        · intro at_
          by_cases here : x = lo + 8 + span front
          · subst here
            exact .inl ⟨rfl, located_unique at_ bAt⟩
          · exact .inr ⟨at_, here⟩
        · rintro (⟨rfl, rfl⟩ | ⟨at_, -⟩)
          · exact bAt
          · exact at_
  | absorbedPrev split tight differs isFree fits handed copied => exact .inr ⟨_, _, handed, copied⟩
  | absorbedNext split tight differs isFree fits handed copied => exact .inr ⟨_, _, handed, copied⟩
  | moved tight differs malloc handed copied => exact .inr ⟨_, _, handed, copied⟩
  | full tight differs malloc => exact .inl ⟨rfl, rfl⟩

/-- The size that `mm_realloc` reads as `nextsize`: behind the last block the
epilogue of size 0 leads back to the footer of that block. -/
def nextSize (b : Block) : List Block → Nat
  | [] => b.size
  | n :: _ => n.size

theorem wp_nextSize (layout : Layout lo h (front ++ b :: back)) (post : Nat → Heap → Prop) :
    wp (ftrp (lo + 8 + span front + b.size)) (fun a s => wp (getSize a) post s) h ↔
      post (nextSize b back) h := by
  have bAt : (lo + 8 + span front, b) ∈ located (lo + 8) (front ++ b :: back) := by simp
  cases back with
  | nil =>
      have brk := layout.brk_eq
      have large := b.size_ge
      have start := layout.start_eq
      have address : lo + 8 + span front + b.size - 4 = h.memBrk - 4 := by
        simp only [span_append, span_cons, span_nil] at brk
        omega
      have masked : 1 &&& sizeMask = 0 := by decide
      have inside := (layout.bounds bAt).2
      simp only [ftrp, getSize, hdrp, WSIZE, DSIZE, wp_bind, wp_pure]
      rw [address, wp_getWord _ (by omega), layout.epilogue, masked, Nat.add_zero]
      have footer := layout.wp_getSize_footer bAt post
      simp only [getSize, wp_bind, wp_pure] at footer
      exact footer
  | cons n tail =>
      have nAt : (lo + 8 + span front + b.size, n) ∈
          located (lo + 8) (front ++ b :: n :: tail) := by simp
      rw [layout.wp_ftrp nAt, layout.wp_getSize_footer nAt]
      rfl

/-- The branch that `mm_realloc` selects for an allocated block, in all
versions, when the wanted size leaves room for one more block. -/
theorem wp_reallocWith_narrow {init : List Block} {p : Block} {size : Nat} (malloc : Nat → MM Nat)
    (absorbNext : Nat → Nat → Nat → MM Nat) (layout : Layout lo h (init ++ [p] ++ b :: back))
    (positive : 0 < size) (narrow : (wanted size positive).size + 16 < 2 ^ 32) (post : Nat → Heap → Prop) :
    wp (reallocWith malloc absorbNext (lo + 8 + span init + p.size) size) post h ↔
      if (wanted size positive).size + 16 ≤ b.size then
        wp (reallocShrink (lo + 8 + span init + p.size) b.size (wanted size positive).size) post h
      else if b.size = (wanted size positive).size then post (lo + 8 + span init + p.size) h
      else if p.alloc = false ∧ (wanted size positive).size + 16 ≤ (b.merge [p] []).size then
        wp (reallocAbsorbPrev (lo + 8 + span init + p.size) (wanted size positive).size
          (b.merge [p] []).size) post h
      else if Layout.nextAlloc back = false ∧
          (wanted size positive).size + 16 ≤ b.size + nextSize b back then
        wp (absorbNext (lo + 8 + span init + p.size) (wanted size positive).size
          (b.size + nextSize b back)) post h
      else
        wp (moveWith malloc (lo + 8 + span init + p.size) size b.size
          (wanted size positive).size) post h := by
  have bsize := bsize_eq positive (by simp only [wanted] at narrow; omega)
  generalize wanted size positive = want at *
  have nonzero : ¬ size = 0 := by omega
  have place : lo + 8 + span (init ++ [p]) = lo + 8 + span init + p.size := by
    simp [Nat.add_assoc]
  have pAt : (lo + 8 + span init, p) ∈ located (lo + 8) (init ++ [p] ++ b :: back) := by simp
  have bAt : (lo + 8 + span init + p.size, b) ∈
      located (lo + 8) (init ++ [p] ++ b :: back) := by simp [Nat.add_assoc]
  have notNull : ¬ lo + 8 + span init + p.size = NULL := by
    unfold NULL
    omega
  have brk := layout.brk_lt
  have bBounds := layout.bounds bAt
  have pLarge := p.size_ge
  have wider : add32 want.size MIN_BSIZE = want.size + 16 :=
    add32_eq (by unfold MIN_BSIZE DSIZE; omega)
  have prevSum : add32 b.size p.size = (b.merge [p] []).size := by
    rw [add32_eq (by omega)]
    simp [Block.merge, Nat.add_comm]
  have nextRead := wp_nextSize layout
  have nextBit := layout.wp_getAlloc_next
  rw [place] at nextRead nextBit
  have nextSum : Layout.nextAlloc back = false →
      add32 b.size (nextSize b back) = b.size + nextSize b back := by
    intro free
    cases back with
    | nil => cases free
    | cons n tail =>
        have nAt : (lo + 8 + span init + p.size + b.size, n) ∈
            located (lo + 8) (init ++ [p] ++ b :: n :: tail) := by simp [Nat.add_assoc]
        have nBounds := layout.bounds nAt
        exact add32_eq (by simp only [nextSize]; omega)
  unfold reallocWith
  rw [wp_ite, if_neg notNull, wp_ite, if_neg nonzero]
  simp only [wp_bind, bsize]
  rw [layout.wp_getSize_hdrp bAt, layout.wp_prevBlkp pAt, layout.wp_ftrp pAt,
    layout.wp_getSize_footer pAt, layout.wp_nextBlkp bAt, nextRead, wp_ite, wider, wp_ite, wp_pure]
  simp only [wp_bind]
  rw [layout.wp_prevBlkp pAt, layout.wp_ftrp pAt, layout.wp_getAlloc_footer pAt, wp_ite, prevSum]
  simp only [wp_bind]
  rw [layout.wp_nextBlkp bAt, nextBit, wp_ite]
  have prevTest : ¬ p.alloc.toNat ≠ 0 ↔ p.alloc = false := by simp
  simp only [prevTest]
  cases free : Layout.nextAlloc back with
  | true => simp
  | false => simp [nextSum free]

/-- The run of `mm_realloc` is that of the branch it selects. -/
theorem reallocWith_run {init : List Block} {p : Block} {size : Nat}
    (layout : Layout lo h (init ++ [p] ++ b :: back)) (positive : 0 < size)
    (narrow : (wanted size positive).size + 16 < 2 ^ 32) (malloc : Nat → MM Nat)
    (absorbNext : Nat → Nat → Nat → MM Nat) :
    reallocWith malloc absorbNext (lo + 8 + span init + p.size) size h =
      (if (wanted size positive).size + 16 ≤ b.size then
        reallocShrink (lo + 8 + span init + p.size) b.size (wanted size positive).size
      else if b.size = (wanted size positive).size then pure (lo + 8 + span init + p.size)
      else if p.alloc = false ∧ (wanted size positive).size + 16 ≤ (b.merge [p] []).size then
        reallocAbsorbPrev (lo + 8 + span init + p.size) (wanted size positive).size
          (b.merge [p] []).size
      else if Layout.nextAlloc back = false ∧
          (wanted size positive).size + 16 ≤ b.size + nextSize b back then
        absorbNext (lo + 8 + span init + p.size) (wanted size positive).size
          (b.size + nextSize b back)
      else
        moveWith malloc (lo + 8 + span init + p.size) size b.size
          (wanted size positive).size) h := by
  refine run_eq_of_wp fun post => ?_
  rw [wp_reallocWith_narrow malloc absorbNext layout positive narrow]
  simp only [wp_ite, wp_pure]

/-- The branches of `mm_realloc` for the allocated block `b` between `front` and
`back`, each with what selects it, as programs over an `mm_malloc` and a branch
that absorbs the next block. -/
inductive ReallocBranch (lo : Nat) (front : List Block) (b : Block) (back : List Block)
    (size : Nat) (want : Block) :
    ((Nat → MM Nat) → (Nat → Nat → Nat → MM Nat) → MM Nat) → Prop where
  | shrink (fits : want.size + 16 ≤ b.size) :
      ReallocBranch lo front b back size want fun _ _ =>
        reallocShrink (lo + 8 + span front) b.size want.size
  | same (sized : b.size = want.size) :
      ReallocBranch lo front b back size want fun _ _ => pure (lo + 8 + span front)
  | prev {init : List Block} {p : Block} (split : front = init ++ [p])
      (tight : b.size < want.size + 16) (differs : b.size ≠ want.size) (isFree : p.alloc = false)
      (fits : want.size + 16 ≤ (b.merge [p] []).size) :
      ReallocBranch lo front b back size want fun _ _ =>
        reallocAbsorbPrev (lo + 8 + span front) want.size (b.merge [p] []).size
  | next {n : Block} {tail : List Block} (split : back = n :: tail)
      (tight : b.size < want.size + 16) (differs : b.size ≠ want.size)
      (noPrev : ¬ AbsorbsPrev front b want) (isFree : n.alloc = false)
      (fits : want.size + 16 ≤ (b.merge [] [n]).size) :
      ReallocBranch lo front b back size want fun _ absorbNext =>
        absorbNext (lo + 8 + span front) want.size (b.merge [] [n]).size
  | move (tight : b.size < want.size + 16) (differs : b.size ≠ want.size)
      (noPrev : ¬ AbsorbsPrev front b want)
      (noNext : ∀ n tail, back = n :: tail → n.alloc = false →
        (b.merge [] [n]).size < want.size + 16) :
      ReallocBranch lo front b back size want fun malloc _ =>
        moveWith malloc (lo + 8 + span front) size b.size want.size

/-- The blocks alone select the branch. -/
theorem exists_reallocBranch (lo : Nat) (b : Block) {size : Nat} (behind : front ≠ [])
    (positive : 0 < size) (narrow : (wanted size positive).size + 16 < 2 ^ 32) :
    ∃ run, ReallocBranch lo front b back size (wanted size positive) run ∧
      ∀ {h}, Layout lo h (front ++ b :: back) → ∀ malloc absorbNext,
        reallocWith malloc absorbNext (lo + 8 + span front) size h = run malloc absorbNext h := by
  obtain ⟨init, p, rfl, place⟩ := exists_before behind (lo + 8)
  have select : ∀ {h}, Layout lo h (init ++ [p] ++ b :: back) → ∀ malloc absorbNext,
      reallocWith malloc absorbNext (lo + 8 + span init + p.size) size h = _ :=
    fun layout => reallocWith_run layout positive narrow
  have absorbs : AbsorbsPrev (init ++ [p]) b (wanted size positive) →
      p.alloc = false ∧ (wanted size positive).size + 16 ≤ (b.merge [p] []).size := by
    rintro ⟨init', p', split, -, -, isFree, fits⟩
    obtain ⟨rfl, same⟩ := List.append_inj' split rfl
    cases same
    exact ⟨isFree, fits⟩
  generalize wanted size positive = want at *
  by_cases fits : want.size + 16 ≤ b.size
  · refine ⟨_, .shrink fits, fun layout malloc absorbNext => ?_⟩
    rw [place, select layout, if_pos fits]
  by_cases sized : b.size = want.size
  · refine ⟨_, .same sized, fun layout malloc absorbNext => ?_⟩
    rw [place, select layout, if_neg fits, if_pos sized]
  by_cases prev : p.alloc = false ∧ want.size + 16 ≤ (b.merge [p] []).size
  · refine ⟨_, .prev rfl (by omega) sized prev.1 prev.2, fun layout malloc absorbNext => ?_⟩
    rw [place, select layout, if_neg fits, if_neg sized, if_pos prev]
  have noPrev : ¬ AbsorbsPrev (init ++ [p]) b want := fun holds => prev (absorbs holds)
  have nextSum : ∀ n tail, b.size + nextSize b (n :: tail) = (b.merge [] [n]).size := by
    intro n tail
    simp [Block.merge, nextSize]
  by_cases next : Layout.nextAlloc back = false ∧ want.size + 16 ≤ b.size + nextSize b back
  · cases back with
    | nil => cases next.1
    | cons n tail =>
        rw [nextSum] at next
        refine ⟨_, .next rfl (by omega) sized noPrev next.1 next.2,
          fun layout malloc absorbNext => ?_⟩
        rw [place, select layout, if_neg fits, if_neg sized, if_neg prev, nextSum, if_pos next]
  · refine ⟨_, .move (by omega) sized noPrev ?_, fun layout malloc absorbNext => ?_⟩
    · rintro n tail rfl isFree
      rw [nextSum] at next
      exact Nat.lt_of_not_le fun fits' => next ⟨isFree, fits'⟩
    · rw [place, select layout, if_neg fits, if_neg sized, if_neg prev, if_neg next]

/-- `mm_realloc` of an allocated block to a nonzero size, if the branch that
absorbs the previous block may read what it copies. -/
theorem wp_mmRealloc_readable {size : Nat} (rep : Represents lo h (front ++ b :: back) fl)
    (behind : front ≠ []) (taken : b.alloc = true) (positive : 0 < size) (small : size < 2 ^ 31)
    (readable : AbsorbsPrev front b (wanted size positive) →
      h.Accessible (lo + 8 + span front) ((wanted size positive).size - 8)) :
    wp (mmRealloc (lo + 8 + span front) size)
      (ReallocOutcome lo h front b back fl (wanted size positive)) h := by
  have move := wp_reallocMove rep behind taken positive (by omega)
  have wantTaken : (wanted size positive).alloc = true := rfl
  obtain ⟨run, branch, select⟩ := exists_reallocBranch lo b behind positive
    (by simp only [wanted]; omega)
  rw [mmRealloc_eq, wp_congr_run (select rep.consistent.layout mmMalloc reallocAbsorbNext)]
  generalize wanted size positive = want at *
  cases branch with
  | shrink fits =>
      refine wp_mono (wp_reallocShrink rep behind taken wantTaken fits) ?_
      rintro r h' ⟨rfl, done, copied⟩
      rw [List.append_assoc _ [_]] at done
      exact .shrunk fits done copied
  | same sized =>
      rw [wp_pure]
      exact .same sized
  | @prev init p split tight differs isFree fits =>
      subst split
      have place : lo + 8 + span (init ++ [p]) = lo + 8 + span init + p.size := by
        simp [Nat.add_assoc]
      have readable' := readable ⟨init, p, rfl, tight, differs, isFree, fits⟩
      rw [place] at readable' ⊢
      refine wp_mono (wp_reallocAbsorbPrev rep readable' isFree taken wantTaken fits) ?_
      rintro r h' ⟨rfl, done, copied⟩
      rw [← place] at copied
      have shape : init ++ [p, b.mark false] ++ back = init ++ [p] ++ b.mark false :: back := by
        simp
      rw [shape] at done
      exact .absorbedPrev rfl tight differs isFree fits done copied
  | @next n tail split tight differs noPrev isFree fits =>
      subst split
      refine wp_mono (wp_reallocAbsorbNext rep behind isFree taken wantTaken fits) ?_
      rintro r h' ⟨rfl, done, copied⟩
      have shape : front ++ [b.mark false, n] ++ tail = front ++ b.mark false :: n :: tail := by
        simp
      rw [shape] at done
      exact .absorbedNext rfl tight differs isFree fits done copied
  | move tight differs noPrev noNext =>
      rw [reallocMove_eq] at move
      refine wp_mono move ?_
      rintro r h' (⟨rfl, rfl, malloc⟩ | ⟨h1, -, bs', fl', -, malloc, -, -, done, copied⟩)
      · exact .full tight differs malloc
      · exact .moved tight differs malloc done copied

/-- `mm_realloc` of an allocated block to a nonzero size. -/
theorem wp_mmRealloc {size : Nat} (rep : Represents lo h (front ++ b :: back) fl)
    (unchecked : h.checked = false) (behind : front ≠ []) (taken : b.alloc = true)
    (positive : 0 < size) (small : size < 2 ^ 31) :
    wp (mmRealloc (lo + 8 + span front) size)
      (ReallocOutcome lo h front b back fl (wanted size positive)) h :=
  wp_mmRealloc_readable rep behind taken positive small
    fun _ => Heap.accessible_unchecked unchecked _ _

end Select

end SysProg.Malloc

import Mathlib.Data.List.Perm.Subperm
import SysProg.Malloc.Release

/-!
# Allocating a block

`find_fit` is the first fit along the free list, `place` cuts the wanted
block from the front of a free one, and `extend_heap` appends a free block
and coalesces it backwards.  `MallocOutcome` lists what `mm_malloc` can do.
-/

namespace SysProg.Malloc

open Logic

/-! ## `find_fit` -/

/-- The result of a search through the nodes `nodes` of the free list. -/
inductive FirstFit (lo : Nat) (bs : List Block) (bsize : Nat) (nodes : List Nat) : Nat → Prop where
  | found (front back : List Nat) {x : Nat} {b : Block} (split : nodes = front ++ x :: back)
      (at_ : (x, b) ∈ located (lo + 8) bs) (fits : bsize ≤ b.size)
      (skipped : ∀ y ∈ front, ∀ d, (y, d) ∈ located (lo + 8) bs → d.size < bsize) :
      FirstFit lo bs bsize nodes x
  | none (small : ∀ y ∈ nodes, ∀ d, (y, d) ∈ located (lo + 8) bs → d.size < bsize) :
      FirstFit lo bs bsize nodes NULL

/-- A node that is too small is skipped. -/
theorem FirstFit.cons {lo bsize x r : Nat} {bs : List Block} {nodes : List Nat} {b : Block}
    (at_ : (x, b) ∈ located (lo + 8) bs) (small : b.size < bsize)
    (rest : FirstFit lo bs bsize nodes r) : FirstFit lo bs bsize (x :: nodes) r := by
  have here : ∀ d, (x, d) ∈ located (lo + 8) bs → d.size < bsize := by
    intro d other
    rw [located_unique other at_]
    exact small
  cases rest with
  | found front back split found fits skipped =>
      refine .found (x :: front) back (by rw [split]; rfl) found fits ?_
      intro y member
      rcases List.mem_cons.mp member with rfl | inFront
      · exact here
      · exact skipped y inFront
  | none small =>
      refine .none ?_
      intro y member
      rcases List.mem_cons.mp member with rfl | inNodes
      · exact here
      · exact small y inNodes

/-- The search along the rest of the list needs one round for each node and
one for the prologue. -/
theorem wp_findFitFrom {lo bsize : Nat} {h : Heap} {bs : List Block} {nodes : List Nat}
    {fuel : Nat} (layout : Layout lo h bs)
    (linked : Linked (fun x => word h.mem x) (fun x => word h.mem (x + 4)) (nodes ++ [h.prolBp]))
    (free : ∀ x ∈ nodes, FreeAt lo bs x) (enough : nodes.length < fuel) :
    wp (findFitFrom bsize fuel (nodes.headD h.prolBp))
      (fun r h' => h' = h ∧ FirstFit lo bs bsize nodes r) h := by
  induction nodes generalizing fuel with
  | nil =>
      cases fuel with
      | zero => cases enough
      | succ fuel =>
          change wp (findFitFrom bsize (fuel + 1) h.prolBp) _ h
          simp only [findFitFrom, wp_bind, wp_prolBp, wp_ite, if_true, wp_pure, true_and]
          exact .none (by simp)
  | cons x nodes ih =>
      cases fuel with
      | zero => cases enough
      | succ fuel =>
          obtain ⟨b, at_, isFree⟩ := free x List.mem_cons_self
          have start := layout.start_eq
          have bounds := layout.bounds at_
          have large := b.size_ge
          have notProl : x ≠ h.prolBp := by
            rintro rfl
            rw [located_unique at_ layout.prologue_at] at isFree
            cases isFree
          have next := linked.next_eq
          change wp (findFitFrom bsize (fuel + 1) x) _ h
          simp only [findFitFrom, wp_bind, wp_prolBp, wp_ite, if_neg notProl, wp_pure,
            nextFreeblkp, succp]
          rw [layout.wp_getSize_hdrp at_]
          by_cases fits : bsize ≤ b.size
          · rw [if_pos fits]
            exact ⟨rfl, .found [] nodes rfl at_ fits (by simp)⟩
          · rw [if_neg fits, wp_getWord _ (by omega), next]
            refine wp_mono (ih linked.tail (fun y member => free y (List.mem_cons_of_mem _ member))
              (by simpa using enough)) ?_
            rintro r h' ⟨rfl, rest⟩
            exact ⟨rfl, rest.cons at_ (by omega)⟩

/-- The list has fewer nodes than the heap has bytes. -/
theorem Threaded.length_lt {lo : Nat} {h : Heap} {bs : List Block} {fl : List Nat}
    (c : Threaded lo h bs fl) : fl.length < h.memBrk - h.memStartBrk := by
  have sub : fl ⊆ pointers (lo + 8) bs := by
    intro x member
    obtain ⟨d, at_, -⟩ := c.free x member
    exact List.mem_map.mpr ⟨(x, d), at_, rfl⟩
  have le := (List.subperm_of_subset c.list.nodup sub).length_le
  have blocks := length_le_span bs
  have brk := c.layout.brk_eq
  have start := c.layout.start_eq
  simp only [pointers, List.length_map, located_length] at le
  omega

/-- `find_fit` ends, changes nothing, and returns the first fit. -/
theorem wp_findFit {lo bsize : Nat} {h : Heap} {bs : List Block} {fl : List Nat}
    (c : Threaded lo h bs fl) :
    wp (findFit bsize) (fun r h' => h' = h ∧ FirstFit lo bs bsize fl r) h := by
  have search : wp (findFitFrom bsize (h.memBrk - h.memStartBrk) (fl.headD h.prolBp)) _ h :=
    wp_findFitFrom c.layout c.list.linked c.free c.length_lt
  rw [← c.list.root] at search
  exact search

/-! ## `place` -/

/-- What is left of a block after cutting a wanted block from its front. -/
def Block.rest (b want : Block) (fits : want.size + 16 ≤ b.size) : Block where
  size := b.size - want.size
  alloc := false
  size_ge := by omega
  aligned := by
    have whole := b.aligned
    have cut := want.aligned
    omega

/-- The blocks that `place` makes of a free block. -/
def placed (b want : Block) : List Block :=
  if fits : want.size + 16 ≤ b.size then [want, b.rest want fits] else [b.mark true]

theorem span_placed {b want : Block} : span (placed b want) = span [b] := by
  unfold placed
  split
  · simp only [Block.rest, span_cons, span_nil]
    omega
  · simp

/-- The block that `place` hands out. -/
def handed (b want : Block) : Block := if want.size + 16 ≤ b.size then want else b.mark true

/-- It is the only allocated block that `place` makes. -/
theorem mem_located_placed {a x : Nat} {b want e : Block} (taken : e.alloc = true) :
    (x, e) ∈ located a (placed b want) ↔ x = a ∧ e = handed b want := by
  unfold placed handed
  split
  · simp only [located_cons, located_nil, List.mem_cons, List.not_mem_nil, or_false,
      Prod.mk.injEq]
    constructor
    · rintro (same | ⟨-, rfl⟩)
      · exact same
      · cases taken
    · exact .inl
  · simp

theorem handed_size_ge {b want : Block} (fits : want.size ≤ b.size) :
    want.size ≤ (handed b want).size := by
  unfold handed
  split
  · exact le_refl _
  · exact fits

theorem handed_alloc {b want : Block} (takenWant : want.alloc = true) :
    (handed b want).alloc = true := by
  unfold handed
  split
  · exact takenWant
  · rfl

/-- The nodes that `place` adds to the free list. -/
def placedNodes (bp : Nat) (b want : Block) : List Nat :=
  if want.size + 16 ≤ b.size then [bp + want.size] else []

/-- Cutting two blocks out of a run whose nodes have left the free list.  The
run itself may already have been overwritten. -/
theorem wp_putSplit {lo : Nat} {h : Heap} {front mid back : List Block} {fl : List Nat} {m : Mem}
    {size restSize : Nat} (c : Consistent lo h (front ++ mid ++ back) fl)
    (want rest : Block) (midKept : List Block) (behind : front ≠ [])
    (sized : size = want.size) (restSized : restSize = rest.size)
    (taken : want.alloc = true) (restFree : rest.alloc = false)
    (sameSpan : want.size + rest.size = span mid) (keptSpan : span midKept = span mid)
    (unkept : ∀ b ∈ midKept, b.alloc = false)
    (gone : ∀ x ∈ pointers (lo + 8 + span front) mid, x ∉ fl)
    (untouched : ∀ i, i < lo + 8 + span front - 4 ∨
      lo + 8 + span front + span mid - 4 ≤ i → m i = h.mem i) :
    wp (putSplitTags (lo + 8 + span front) size restSize)
      (fun _ h' => Updated lo h (front ++ midKept ++ back) h' (front ++ [want, rest] ++ back) fl ∧
        AgreeOn m h'.mem (lo + 8 + span front) (lo + 8 + span front + want.size - 8))
      (h.withMem m) := by
  have start := c.layout.start_eq
  have large := want.size_ge
  have large' := rest.size_ge
  have brk := c.layout.brk_eq
  have small := c.layout.brk_lt
  simp only [span_append] at brk
  rw [wp_putSplitTags want rest _ sized restSized taken restFree (by simp; omega)
    (by simpa using small), Heap.withMem_withMem, Heap.withMem_mem]
  have apart := c.toThreaded.nodes_apart gone
  refine ⟨c.retag [want, rest] midKept behind ?_ keptSpan unkept ?_ ?_ apart, ?_⟩
  · simp only [span_cons, span_nil]
    omega
  · intro i outside
    rw [setTags_outside (by omega) (by omega), setTags_outside (by omega) (by omega)]
    exact untouched i outside
  · exact splitTags_tagged (by omega) (by omega)
  · intro i lower upper
    rw [Heap.withMem_mem, setTags_outside (by omega) (by omega),
      setTags_payload (by omega) (by omega) (by omega)]

/-- The heap that `place` leaves is settled. -/
theorem settled_placed {lo : Nat} {front back : List Block} {b want : Block} {fl : List Nat}
    (settled : Settled lo (front ++ b :: back) fl) (isFree : b.alloc = false)
    (taken : want.alloc = true) :
    Settled lo (front ++ placed b want ++ back)
      (placedNodes (lo + 8 + span front) b want ++ fl.erase (lo + 8 + span front)) := by
  have spans : span (placed b want) = span [b] := span_placed
  have inner : Sparse (placed b want) := by
    unfold placed
    split
    · exact List.isChain_pair.mpr (.inl taken)
    · exact List.isChain_singleton _
  refine ⟨?_, settled.sparse.replace_free isFree inner⟩
  rintro x ⟨d, at_, free⟩
  rcases mem_located_recut spans at_ with inPlaced | ⟨old, apart⟩
  · refine List.mem_append_left _ ?_
    unfold placed at inPlaced
    unfold placedNodes
    split at inPlaced
    · rename_i fits
      rw [if_pos fits]
      simp only [located_cons, located_nil, List.mem_cons, List.not_mem_nil, or_false,
        Prod.mk.injEq] at inPlaced
      rcases inPlaced with ⟨-, rfl⟩ | ⟨rfl, -⟩
      · rw [taken] at free
        cases free
      · exact List.mem_singleton_self _
    · simp only [located_cons, located_nil, List.mem_singleton, Prod.mk.injEq] at inPlaced
      rw [inPlaced.2] at free
      cases free
  · refine List.mem_append_right _ ((List.mem_erase_of_ne ?_).mpr (settled.complete x ⟨d, ?_, free⟩))
    · have wide := d.size_ge
      have large := b.size_ge
      simp only [span_cons, span_nil] at apart
      omega
    · simpa using old

/-- `place` allocates the front of a listed free block. -/
theorem wp_place {lo : Nat} {h : Heap} {front back : List Block} {b want : Block} {fl : List Nat}
    (rep : Represents lo h (front ++ b :: back) fl) (behind : front ≠ [])
    (isFree : b.alloc = false) (taken : want.alloc = true) (fits : want.size ≤ b.size) :
    wp (place (lo + 8 + span front) want.size)
      (fun _ h' => Updated lo h (front ++ b :: back) h' (front ++ placed b want ++ back)
          (placedNodes (lo + 8 + span front) b want ++ fl.erase (lo + 8 + span front)) ∧
        Settled lo (front ++ placed b want ++ back)
          (placedNodes (lo + 8 + span front) b want ++ fl.erase (lo + 8 + span front))) h := by
  obtain ⟨c, settled⟩ := rep
  have bAt : (lo + 8 + span front, b) ∈ located (lo + 8) (front ++ b :: back) := by simp
  have member : lo + 8 + span front ∈ fl := settled.complete _ ⟨b, bAt, isFree⟩
  have shape : front ++ b :: back = front ++ [b] ++ back := by simp
  have bounds := c.layout.bounds bAt
  have limit := c.layout.brk_lt
  have room := span_ge behind
  have done := settled_placed settled isFree taken
  simp only [place, wp_bind]
  rw [c.layout.wp_getSize_hdrp bAt]
  refine wp_mono (wp_cutOut c member) ?_
  intro _ h1 cut
  have absent : lo + 8 + span front ∉ fl.erase (lo + 8 + span front) :=
    c.list.nodup.not_mem_erase
  have gone : ∀ x ∈ pointers (lo + 8 + span front) [b], x ∉ fl.erase (lo + 8 + span front) := by
    intro x inRun
    simp only [pointers, located_cons, located_nil, List.map_cons, List.map_nil,
      List.mem_singleton] at inRun
    rw [inRun]
    exact absent
  have layout := cut.consistent.layout
  have start := layout.start_eq
  have bounds1 := layout.bounds bAt
  rw [shape] at cut
  have wanted : add32 want.size MIN_BSIZE = want.size + 16 := add32_eq (by
    unfold MIN_BSIZE DSIZE
    omega)
  have unkept : ∀ d ∈ [b], d.alloc = false := by simpa using isFree
  rw [wp_ite, wanted]
  by_cases splits : want.size + 16 ≤ b.size
  · rw [if_neg (by omega), sub32_eq (by omega) (by omega)]
    have placedEq : placed b want = [want, b.rest want splits] := by simp [placed, splits]
    have nodesEq : placedNodes (lo + 8 + span front) b want = [lo + 8 + span front + want.size] := by
      simp [placedNodes, splits]
    have sameSpan : want.size + (b.rest want splits).size = span [b] := by
      simp only [Block.rest, span_cons, span_nil]
      omega
    rw [placedEq, nodesEq] at done ⊢
    simp only [wp_bind, wp_rootBp, wp_pure, ite_self]
    refine wp_mono (wp_putSplit cut.consistent want (b.rest want splits) [b] behind rfl rfl taken
      rfl sameSpan rfl unkept gone (fun _ _ => rfl)) ?_
    rintro _ h2 ⟨recut, -⟩
    have wantAt : (lo + 8 + span front, want) ∈
        located (lo + 8) (front ++ [want, b.rest want splits] ++ back) := by simp
    have restAt : (lo + 8 + span front + want.size, b.rest want splits) ∈
        located (lo + 8) (front ++ [want, b.rest want splits] ++ back) := by simp
    have restAbsent : lo + 8 + span front + want.size ∉ fl.erase (lo + 8 + span front) := by
      intro inList
      obtain ⟨d, at_, -⟩ := c.free _ (List.mem_of_mem_erase inList)
      have large := want.size_ge
      have wide := d.size_ge
      rcases located_disjoint at_ bAt with ⟨same, -⟩ | below | above <;> omega
    rw [recut.consistent.layout.wp_nextBlkp wantAt]
    refine wp_mono (wp_setRoot recut.consistent.toThreaded ⟨_, restAt, rfl⟩ restAbsent) ?_
    rintro _ h3 ⟨-, rooted⟩
    rw [shape]
    refine ⟨(cut.trans recut (fun _ _ _ at_ => at_)).trans rooted ?_, done⟩
    intro x d bit old
    exact (alloc_mem_recut (by simpa using sameSpan) unkept bit).mpr (.inr old)
  · rw [if_pos (by omega)]
    have placedEq : placed b want = [b.mark true] := by simp [placed, splits]
    have nodesEq : placedNodes (lo + 8 + span front) b want = [] := by
      simp [placedNodes, splits]
    rw [placedEq, nodesEq] at done ⊢
    have large := b.size_ge
    rw [wp_putTags (b.mark true) 1 _ (b.mark_size true).symm rfl
      (by rw [Block.mark_size]; omega) layout.brk_lt]
    rw [← shape] at cut
    have marked := cut.consistent.mark behind true rfl isFree absent
    refine ⟨?_, done⟩
    rw [List.append_assoc, List.singleton_append]
    exact cut.trans marked (fun _ _ _ at_ => at_)

/-! ## `extend_heap` -/

/-- `mem_sbrk` has room for `n` more bytes. -/
def Room (h : Heap) (n : Nat) : Prop := n < 2 ^ 31 ∧ h.memBrk + n ≤ h.memMaxAddr

instance (h : Heap) (n : Nat) : Decidable (Room h n) := inferInstanceAs (Decidable (_ ∧ _))

/-- The heap with its break moved up. -/
def Heap.grow (h : Heap) (n : Nat) : Heap := { h with memBrk := h.memBrk + n }

@[simp] theorem Heap.grow_mem (h : Heap) (n : Nat) : (h.grow n).mem = h.mem := rfl

@[simp] theorem Heap.grow_memBrk (h : Heap) (n : Nat) : (h.grow n).memBrk = h.memBrk + n := rfl

@[simp] theorem Heap.grow_memStartBrk (h : Heap) (n : Nat) :
    (h.grow n).memStartBrk = h.memStartBrk := rfl

theorem wp_memSbrk_room {h : Heap} {n : Nat} (room : Room h n)
    (post : Option Nat → Heap → Prop) :
    wp (memSbrk (toInt n)) post h ↔ post (some h.memBrk) (h.grow n) := by
  obtain ⟨small, fits⟩ := room
  have size : toInt n = (n : Int) := if_pos small
  have pass : ¬ ((n : Int) < 0 ∨ (h.memMaxAddr : Int) < h.memBrk + n) := by omega
  simp [wp, memSbrk, size, pass, Heap.grow]

theorem wp_memSbrk_full {h : Heap} {n : Nat} (full : ¬ Room h n) (limit : n < 2 ^ 32)
    (post : Option Nat → Heap → Prop) :
    wp (memSbrk (toInt n)) post h ↔ post none h := by
  have stop : toInt n < 0 ∨ (h.memMaxAddr : Int) < h.memBrk + toInt n := by
    unfold toInt
    unfold Room at full
    split <;> omega
  unfold wp memSbrk
  rw [if_pos stop]
  simp

/-- The storage after `extend_heap` has written the tags of the new block and
the new epilogue. -/
def extendedMem (h : Heap) (new : Block) : Mem :=
  setWord (setTags h.mem h.memBrk new) (h.memBrk + new.size - 4) 1

theorem extendedMem_outside {h : Heap} {new : Block} {i : Nat} (low : 4 ≤ h.memBrk)
    (below : i < h.memBrk - 4) : extendedMem h new i = h.mem i := by
  have large := new.size_ge
  unfold extendedMem
  rw [setWord_outside (by omega), setTags_outside low (by omega)]

/-- The run of blocks below the break goes on with the new block. -/
theorem extendedMem_tagged {h : Heap} {a : Nat} {bs : List Block} {new : Block} (low : 4 ≤ a)
    (brk : h.memBrk = a + span bs) (small : new.size < 2 ^ 32)
    (tags : ∀ x b, (x, b) ∈ located a bs → Tagged h.mem x b) :
    ∀ x b, (x, b) ∈ located a (bs ++ [new]) → Tagged (extendedMem h new) x b := by
  intro x d at_
  have large := new.size_ge
  simp only [located_append, located_cons, located_nil, List.mem_append, List.mem_singleton,
    Prod.mk.injEq] at at_
  rcases at_ with old | ⟨rfl, rfl⟩
  · have bounds := located_bounds old
    have wide := d.size_ge
    refine (tags x d old).congr ?_ ?_
    · intro i lower upper
      exact extendedMem_outside (by omega) (by omega)
    · intro i lower upper
      exact extendedMem_outside (by omega) (by omega)
  · rw [← brk]
    have tagged : Tagged (setTags h.mem h.memBrk d) h.memBrk d :=
      setTags_tagged small (by omega)
    exact tagged.congr (setWord_agreeOn (by omega)) (setWord_agreeOn (by omega))

theorem extendedMem_epilogue {h : Heap} {new : Block} :
    word (extendedMem h new) (h.memBrk + new.size - 4) = 1 := by
  unfold extendedMem
  rw [word_setWord_same, Nat.mod_eq_of_lt (by decide : 1 < 2 ^ 32)]

/-- The writes of `extend_heap`: the tags of the new block over the old
epilogue, and the new epilogue behind it. -/
theorem wp_newTags {h : Heap} {new : Block} (isFree : new.alloc = false)
    (low : h.memStartBrk + 4 ≤ h.memBrk) (limit : h.memBrk + new.size < 2 ^ 32)
    (post : Unit → Heap → Prop) :
    wp (do
        putTags h.memBrk new.size 0
        putWord (hdrp (← nextBlkp h.memBrk)) (pack 0 1)) post (h.grow new.size) ↔
      post () ((h.grow new.size).withMem (extendedMem h new)) := by
  have large := new.size_ge
  have header : word (setTags h.mem h.memBrk new) (h.memBrk - 4) = new.tag :=
    (setTags_tagged (by omega) (by omega)).1
  simp only [wp_bind, hdrp, WSIZE]
  rw [wp_putTags new 0 _ rfl (by rw [isFree]; rfl) (by simp; omega) (by simp; omega),
    Heap.grow_mem, wp_nextBlkp_of_header
      (h := (h.grow new.size).withMem (setTags h.mem h.memBrk new)) (b := new) _
      (by simp; omega) (by omega) header,
    wp_putWord _ (by simp; omega)]
  rfl

/-- The old epilogue becomes the header of the new last block. -/
theorem Layout.extend {lo : Nat} {h : Heap} {bs : List Block} (layout : Layout lo h bs)
    (new : Block) (room : Room h new.size) :
    Layout lo ((h.grow new.size).withMem (extendedMem h new)) (bs ++ [new]) := by
  have large := new.size_ge
  have brk := layout.brk_eq
  have limit := layout.limit
  obtain ⟨-, fits⟩ := room
  refine ⟨layout.start_eq, layout.start_aligned, limit, fits, ?_, layout.prol_eq, ?_, ?_, ?_⟩
  · simp only [Heap.withMem_memBrk, Heap.grow_memBrk, span_append, span_cons, span_nil]
    omega
  · obtain ⟨tail, rfl⟩ := layout.exists_tail
    rfl
  · exact extendedMem_tagged (by omega) brk (by omega) layout.tags
  · exact extendedMem_epilogue

/-- Extending the heap leaves the free list and the client bytes alone. -/
theorem Threaded.extend {lo : Nat} {h : Heap} {bs : List Block} {fl : List Nat}
    (c : Threaded lo h bs fl) (new : Block) (room : Room h new.size) :
    Threaded lo ((h.grow new.size).withMem (extendedMem h new)) (bs ++ [new]) fl := by
  have links : ∀ x ∈ fl ++ [h.prolBp], AgreeOn h.mem (extendedMem h new) x (x + 8) := by
    intro x node i lower upper
    have inside := c.node_inside node
    exact extendedMem_outside (by omega) (by omega)
  have list := c.list.congr links
  refine ⟨c.layout.extend new room, ⟨list.root, list.linked, list.nodup⟩, ?_⟩
  intro x member
  obtain ⟨d, at_, free⟩ := c.free x member
  exact ⟨d, by rw [located_append]; exact List.mem_append_left _ at_, free⟩

theorem Consistent.extend {lo : Nat} {h : Heap} {bs : List Block} {fl : List Nat}
    (c : Consistent lo h bs fl) (new : Block) (room : Room h new.size) :
    Updated lo h bs ((h.grow new.size).withMem (extendedMem h new)) (bs ++ [new]) fl where
  arena := ⟨rfl, rfl, rfl⟩
  consistent := by
    have inside := c.node_inside c.root_mem
    have same : word (extendedMem h new) (h.rootBp + 4) = word h.mem (h.rootBp + 4) :=
      word_congr fun i lower upper => extendedMem_outside (by omega) (by omega)
    exact ⟨c.toThreaded.extend new room, same.trans c.first⟩
  keeps := by
    rintro i ⟨x, d, at_, -, -, lower, upper⟩
    have bounds := c.layout.bounds at_
    have wide := d.size_ge
    exact extendedMem_outside (by omega) (by omega)

/-- An even number of words is not rounded. -/
theorem even_words_size {words size : Nat} (even : words % 2 = 0) (sized : words * 4 = size)
    (limit : size < 2 ^ 32) :
    (if words % 2 ≠ 0 then add32 words 1 * WSIZE % 2 ^ 32 else words * WSIZE % 2 ^ 32) = size := by
  unfold WSIZE
  rw [if_neg (by omega), sized, Nat.mod_eq_of_lt limit]

/-- The writes of `extend_heap` before it coalesces. -/
theorem wp_extendHeap_writes {lo words : Nat} {h : Heap} {bs : List Block} (new : Block)
    (layout : Layout lo h bs) (isFree : new.alloc = false) (even : words % 2 = 0)
    (sized : words * 4 = new.size) (room : Room h new.size) (post : Nat → Heap → Prop) :
    wp (extendHeap words) post h ↔
      wp (do setRoot (← coalesce h.memBrk)) post
        ((h.grow new.size).withMem (extendedMem h new)) := by
  have large := new.size_ge
  have brk := layout.brk_eq
  have start := layout.start_eq
  have limit := layout.limit
  have fits := room.2
  have size := even_words_size even sized (by omega)
  have written := wp_newTags (h := h) isFree (by omega) (by omega)
    (fun _ h1 => wp (do setRoot (← coalesce h.memBrk)) post h1)
  rw [← written]
  simp only [extendHeap, size, wp_bind]
  rw [wp_memSbrk_room room]
  simp only [wp_bind]

theorem wp_extendHeap_full {words : Nat} {h : Heap} (size : Nat) (even : words % 2 = 0)
    (sized : words * 4 = size) (limit : size < 2 ^ 32) (full : ¬ Room h size) :
    wp (extendHeap words) (fun r h' => r = NULL ∧ h' = h) h := by
  simp only [extendHeap, even_words_size even sized limit, wp_bind]
  rw [wp_memSbrk_full full limit]
  simp

/-- `extend_heap` appends a free block, merges it with a free last block and
makes the result the root. -/
theorem wp_extendHeap {lo words : Nat} {h : Heap} {bs : List Block} {fl : List Nat} (new : Block)
    (rep : Represents lo h bs fl) (isFree : new.alloc = false) (even : words % 2 = 0)
    (sized : words * 4 = new.size) (room : Room h new.size) :
    wp (extendHeap words)
      (fun r h' => r = lo + 8 + span (cutFreeLast bs).1 ∧
        Updated lo h bs h' (coalesced bs new []) (r :: fl.diff (absorbed lo bs new [])) ∧
        Settled lo (coalesced bs new []) (r :: fl.diff (absorbed lo bs new []))) h := by
  obtain ⟨c, settled⟩ := rep
  have grown := c.extend new room
  have behind : bs ≠ [] := by
    obtain ⟨tail, rfl⟩ := c.layout.exists_tail
    exact List.cons_ne_nil _ _
  have absent : lo + 8 + span bs ∉ fl := by
    intro member
    obtain ⟨d, at_, -⟩ := c.free _ member
    have bounds := located_bounds at_
    have wide := d.size_ge
    omega
  have loose : Loose lo ((h.grow new.size).withMem (extendedMem h new)) bs new [] fl := by
    refine ⟨grown.consistent, behind, isFree, absent, ?_⟩
    rintro x ⟨d, at_, free⟩
    simp only [located_append, located_cons, located_nil, List.mem_append, List.mem_singleton,
      Prod.mk.injEq] at at_
    rcases at_ with old | ⟨here, -⟩
    · exact .inr (settled.complete x ⟨d, old, free⟩)
    · exact .inl here
  rw [wp_extendHeap_writes new c.layout isFree even sized room, c.layout.brk_eq]
  refine wp_mono (wp_release loose settled.sparse List.isChain_nil) ?_
  rintro r h' ⟨place, updated, done⟩
  refine ⟨place, grown.trans updated ?_, done⟩
  intro x d _ at_
  rw [located_append]
  exact List.mem_append_left _ at_

end SysProg.Malloc

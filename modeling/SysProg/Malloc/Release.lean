import Mathlib.Data.List.Chain
import SysProg.Malloc.Coalesce

/-!
# Releasing a block

A settled heap lists every free block and has no two free neighbours.
Coalescing a loose block and making the result the root settles the heap
again; `mm_free` is that step after clearing the allocation bits.
-/

namespace SysProg.Malloc

open Logic

/-- No two adjacent blocks are free. -/
def Sparse (bs : List Block) : Prop :=
  bs.IsChain (fun b c => b.alloc = true ∨ c.alloc = true)

/-- The free list misses no free block, and free blocks are maximal. -/
structure Settled (lo : Nat) (bs : List Block) (fl : List Nat) : Prop where
  complete : ∀ x, FreeAt lo bs x → x ∈ fl
  sparse : Sparse bs

/-- The heap represents the blocks `bs` with the free list `fl`. -/
structure Represents (lo : Nat) (h : Heap) (bs : List Block) (fl : List Nat) : Prop where
  consistent : Consistent lo h bs fl
  settled : Settled lo bs fl

/-! ## The cut around a coalesced block -/

theorem cutFreeLast_free {front : List Block} {d : Block} (member : d ∈ (cutFreeLast front).2) :
    d.alloc = false := by
  rcases List.eq_nil_or_concat front with rfl | ⟨init, p, rfl⟩
  · cases member
  · rw [List.concat_eq_append, cutFreeLast_concat] at member
    cases bit : p.alloc with
    | true => simp [bit] at member
    | false =>
        simp only [bit, Bool.false_eq_true, if_false, List.mem_singleton] at member
        rw [member, bit]

theorem cutFreeHead_free {back : List Block} {d : Block} (member : d ∈ (cutFreeHead back).1) :
    d.alloc = false := by
  cases back with
  | nil => cases member
  | cons n back =>
      cases bit : n.alloc with
      | true => simp [cutFreeHead, bit] at member
      | false =>
          simp only [cutFreeHead, bit, Bool.false_eq_true, if_false, List.mem_singleton] at member
          rw [member, bit]

/-- The blocks of a coalesced heap: those before the merged run, the merged
block, and those after it. -/
theorem mem_located_coalesced {lo x : Nat} {d b : Block} {front back : List Block} :
    (x, d) ∈ located (lo + 8) (coalesced front b back) ↔
      (x, d) ∈ located (lo + 8) (cutFreeLast front).1 ∨
      (x = lo + 8 + span (cutFreeLast front).1 ∧
        d = b.merge (cutFreeLast front).2 (cutFreeHead back).1) ∨
      (x, d) ∈ located (lo + 8 + span front + b.size + span (cutFreeHead back).1)
        (cutFreeHead back).2 := by
  simp only [coalesced, located_append, located_cons, List.mem_append, List.mem_cons,
    Prod.mk.injEq, add_size_merge]

/-- The blocks of the heap before coalescing, cut at the same places. -/
theorem mem_located_loose {lo x : Nat} {d b : Block} {front back : List Block} :
    (x, d) ∈ located (lo + 8) (front ++ b :: back) ↔
      (x, d) ∈ located (lo + 8) (cutFreeLast front).1 ∨
      (x, d) ∈ located (lo + 8 + span (cutFreeLast front).1) (cutFreeLast front).2 ∨
      (x = lo + 8 + span front ∧ d = b) ∨
      (x, d) ∈ located (lo + 8 + span front + b.size) (cutFreeHead back).1 ∨
      (x, d) ∈ located (lo + 8 + span front + b.size + span (cutFreeHead back).1)
        (cutFreeHead back).2 := by
  have before : located (lo + 8) front = located (lo + 8) (cutFreeLast front).1 ++
      located (lo + 8 + span (cutFreeLast front).1) (cutFreeLast front).2 := by
    rw [← located_append, cutFreeLast_append]
  have after : located (lo + 8 + span front + b.size) back =
      located (lo + 8 + span front + b.size) (cutFreeHead back).1 ++
        located (lo + 8 + span front + b.size + span (cutFreeHead back).1)
          (cutFreeHead back).2 := by
    rw [← located_append, cutFreeHead_append]
  rw [located_append, located_cons, before, after]
  simp only [List.mem_append, List.mem_cons, Prod.mk.injEq, or_assoc]

theorem mem_of_located {a x : Nat} {d : Block} {bs : List Block} (at_ : (x, d) ∈ located a bs) :
    d ∈ bs := by
  obtain ⟨front, back, rfl, -⟩ := mem_located_iff.mp at_
  simp

/-- Coalescing keeps every allocated block and adds none. -/
theorem alloc_mem_coalesced {lo x : Nat} {d b : Block} {front back : List Block}
    (isFree : b.alloc = false) (taken : d.alloc = true) :
    (x, d) ∈ located (lo + 8) (coalesced front b back) ↔
      (x, d) ∈ located (lo + 8) (front ++ b :: back) := by
  rw [mem_located_coalesced, mem_located_loose]
  constructor
  · rintro (inFront | ⟨-, rfl⟩ | inBack)
    · exact .inl inFront
    · cases taken
    · exact .inr (.inr (.inr (.inr inBack)))
  · rintro (inFront | inLeft | ⟨-, rfl⟩ | inRight | inBack)
    · exact .inl inFront
    · rw [cutFreeLast_free (mem_of_located inLeft)] at taken
      cases taken
    · rw [isFree] at taken
      cases taken
    · rw [cutFreeHead_free (mem_of_located inRight)] at taken
      cases taken
    · exact .inr (.inr inBack)

theorem mem_pointers {a x : Nat} {bs : List Block} (member : x ∈ pointers a bs) :
    a ≤ x ∧ x + 16 ≤ a + span bs := by
  obtain ⟨⟨y, d⟩, at_, rfl⟩ := List.mem_map.mp member
  have bounds := located_bounds at_
  have large := d.size_ge
  simp only
  omega

/-- After coalescing, the merged block in front of the remaining list gives
every free block. -/
theorem Loose.complete {lo x : Nat} {h : Heap} {front back : List Block} {b : Block}
    {fl : List Nat} (loose : Loose lo h front b back fl)
    (free : FreeAt lo (coalesced front b back) x) :
    x ∈ (lo + 8 + span (cutFreeLast front).1) :: fl.diff (absorbed lo front b back) := by
  obtain ⟨d, at_, isFree⟩ := free
  have whole := span_cutFreeLast front
  have large := b.size_ge
  have wide := d.size_ge
  have listed : ∀ {y}, (y, d) ∈ located (lo + 8) (front ++ b :: back) →
      y ≠ lo + 8 + span front → y ∈ fl := by
    intro y old differ
    rcases loose.others y ⟨d, old, isFree⟩ with same | member
    · exact absurd same differ
    · exact member
  have outside : (x + 16 ≤ lo + 8 + span (cutFreeLast front).1 ∨
      lo + 8 + span front + b.size + span (cutFreeHead back).1 ≤ x) →
      x ∉ absorbed lo front b back := by
    intro apart member
    rcases List.mem_append.mp member with inLeft | inRight
    · have bounds := mem_pointers inLeft
      omega
    · have bounds := mem_pointers inRight
      omega
  rcases mem_located_coalesced.mp at_ with inFront | ⟨rfl, -⟩ | inBack
  · have bounds := located_bounds inFront
    have old := listed (mem_located_loose.mpr (.inl inFront)) (by omega)
    exact List.mem_cons_of_mem _ (List.mem_diff_of_mem old (outside (by omega)))
  · exact List.mem_cons_self
  · have bounds := located_bounds inBack
    have old := listed (mem_located_loose.mpr (.inr (.inr (.inr (.inr inBack))))) (by omega)
    exact List.mem_cons_of_mem _ (List.mem_diff_of_mem old (outside (by omega)))

/-! ## Sparseness -/

theorem sparse_append {xs ys : List Block} :
    Sparse (xs ++ ys) ↔ Sparse xs ∧ Sparse ys ∧
      ∀ b ∈ xs.getLast?, ∀ c ∈ ys.head?, b.alloc = true ∨ c.alloc = true :=
  List.isChain_append

/-- Sparseness depends only on the allocation bits. -/
theorem Sparse.of_bits {bs bs' : List Block} (sparse : Sparse bs)
    (bits : bs'.map Block.alloc = bs.map Block.alloc) : Sparse bs' := by
  have mapped : ∀ cs : List Block, Sparse cs ↔
      (cs.map Block.alloc).IsChain (fun x y => x = true ∨ y = true) := by
    intro cs
    rw [List.isChain_map]
    rfl
  rw [mapped] at sparse ⊢
  rw [bits]
  exact sparse

/-- What remains in front of a cut ends in an allocated block. -/
theorem cutFreeLast_last {front : List Block} (sparse : Sparse front) {d : Block}
    (last : d ∈ (cutFreeLast front).1.getLast?) : d.alloc = true := by
  rcases List.eq_nil_or_concat front with rfl | ⟨init, p, rfl⟩
  · cases last
  · rw [List.concat_eq_append] at sparse last
    rw [cutFreeLast_concat] at last
    cases bit : p.alloc with
    | true =>
        simp only [bit, if_true, List.getLast?_append, List.getLast?_singleton] at last
        cases last
        exact bit
    | false =>
        simp only [bit, Bool.false_eq_true, if_false] at last
        rcases (sparse_append.mp sparse).2.2 d last p (by simp) with taken | taken
        · exact taken
        · rw [bit] at taken
          cases taken

/-- What remains behind a cut starts with an allocated block. -/
theorem cutFreeHead_head {back : List Block} (sparse : Sparse back) {d : Block}
    (first : d ∈ (cutFreeHead back).2.head?) : d.alloc = true := by
  cases back with
  | nil => cases first
  | cons n back =>
      cases bit : n.alloc with
      | true =>
          simp only [cutFreeHead, bit, if_true, List.head?_cons] at first
          cases first
          exact bit
      | false =>
          simp only [cutFreeHead, bit, Bool.false_eq_true, if_false] at first
          cases back with
          | nil => cases first
          | cons m back =>
              cases first
              rcases (List.isChain_cons_cons.mp sparse).1 with taken | taken
              · rw [bit] at taken
                cases taken
              · exact taken

/-- Coalescing between two sparse parts gives a sparse heap. -/
theorem sparse_coalesced {front back : List Block} {b : Block} (before : Sparse front)
    (after : Sparse back) : Sparse (coalesced front b back) := by
  have front' : Sparse (cutFreeLast front).1 := by
    rw [← cutFreeLast_append front, sparse_append] at before
    exact before.1
  have back' : Sparse (cutFreeHead back).2 := by
    rw [← cutFreeHead_append back, sparse_append] at after
    exact after.2.1
  unfold coalesced
  rw [sparse_append]
  refine ⟨front', ?_, ?_⟩
  · cases rest : (cutFreeHead back).2 with
    | nil => exact List.isChain_singleton _
    | cons n tail =>
        rw [rest] at back'
        refine List.isChain_cons_cons.mpr ⟨.inr ?_, back'⟩
        exact cutFreeHead_head after (by rw [rest]; rfl)
  · intro d last _ _
    exact .inl (cutFreeLast_last before last)

/-- The neighbours of a free block are allocated, so any sparse cut may take
its place. -/
theorem Sparse.replace_free {front back mid : List Block} {b : Block}
    (sparse : Sparse (front ++ b :: back)) (isFree : b.alloc = false) (inner : Sparse mid) :
    Sparse (front ++ mid ++ back) := by
  obtain ⟨before, after, seam⟩ := sparse_append.mp sparse
  have lastTaken : ∀ d ∈ front.getLast?, d.alloc = true := by
    intro d last
    rcases seam d last b rfl with taken | taken
    · exact taken
    · rw [isFree] at taken
      cases taken
  have headTaken : ∀ d ∈ back.head?, d.alloc = true := by
    intro d first
    cases back with
    | nil => cases first
    | cons n back =>
        cases first
        rcases (List.isChain_cons_cons.mp after).1 with taken | taken
        · rw [isFree] at taken
          cases taken
        · exact taken
  rw [sparse_append, sparse_append]
  refine ⟨⟨before, inner, ?_⟩, after.tail, ?_⟩
  · intro d last _ _
    exact .inl (lastTaken d last)
  · intro _ _ d first
    exact .inr (headTaken d first)

/-- A block that is not in the middle part was there before the middle part
was cut anew. -/
theorem mem_located_recut {lo x : Nat} {d : Block} {front mid mid' back : List Block}
    (sameSpan : span mid' = span mid)
    (at_ : (x, d) ∈ located (lo + 8) (front ++ mid' ++ back)) :
    (x, d) ∈ located (lo + 8 + span front) mid' ∨
      (x, d) ∈ located (lo + 8) (front ++ mid ++ back) ∧
        (x + d.size ≤ lo + 8 + span front ∨ lo + 8 + span front + span mid ≤ x) := by
  simp only [located_append, List.mem_append, span_append, sameSpan, ← Nat.add_assoc] at at_ ⊢
  rcases at_ with (inFront | inMid) | inBack
  · exact .inr ⟨.inl (.inl inFront), .inl (located_bounds inFront).2⟩
  · exact .inl inMid
  · exact .inr ⟨.inr inBack, .inr (located_bounds inBack).1⟩

/-- Cutting a free run anew keeps every allocated block and adds only those of
the new cut. -/
theorem alloc_mem_recut {lo x : Nat} {d : Block} {front mid mid' back : List Block}
    (sameSpan : span mid' = span mid) (unkept : ∀ b ∈ mid, b.alloc = false)
    (taken : d.alloc = true) :
    (x, d) ∈ located (lo + 8) (front ++ mid' ++ back) ↔
      (x, d) ∈ located (lo + 8 + span front) mid' ∨
        (x, d) ∈ located (lo + 8) (front ++ mid ++ back) := by
  simp only [located_append, List.mem_append, span_append, sameSpan, ← Nat.add_assoc]
  constructor
  · rintro ((inFront | inMid) | inBack)
    · exact .inr (.inl (.inl inFront))
    · exact .inl inMid
    · exact .inr (.inr inBack)
  · rintro (inMid | (inFront | inMid) | inBack)
    · exact .inl (.inr inMid)
    · exact .inl (.inl inFront)
    · rw [unkept d (mem_of_located inMid)] at taken
      cases taken
    · exact .inr inBack

/-- Marking a block free removes it, and no other, from the allocated blocks. -/
theorem alloc_mem_marked {lo x : Nat} {d b : Block} {front back : List Block}
    (taken : d.alloc = true) :
    (x, d) ∈ located (lo + 8) (front ++ b.mark false :: back) ↔
      (x, d) ∈ located (lo + 8) (front ++ b :: back) ∧ x ≠ lo + 8 + span front := by
  simp only [located_append, located_cons, List.mem_append, List.mem_cons, Prod.mk.injEq,
    Block.mark_size]
  constructor
  · rintro (inFront | ⟨-, rfl⟩ | inBack)
    · have bounds := located_bounds inFront
      have large := d.size_ge
      exact ⟨.inl inFront, by omega⟩
    · cases taken
    · have bounds := located_bounds inBack
      have large := b.size_ge
      exact ⟨.inr (.inr inBack), by omega⟩
  · rintro ⟨inFront | ⟨rfl, -⟩ | inBack, differ⟩
    · exact .inl inFront
    · exact absurd rfl differ
    · exact .inr (.inr inBack)

/-- One allocated block more than before stays one more than before when another
block is marked free. -/
theorem alloc_mem_moved {lo r : Nat} {b d : Block} {front back front1 back1 : List Block}
    (members : ∀ x e, e.alloc = true → ((x, e) ∈ located (lo + 8) (front1 ++ b :: back1) ↔
      (x = r ∧ e = d) ∨ (x, e) ∈ located (lo + 8) (front ++ b :: back)))
    (place : lo + 8 + span front = lo + 8 + span front1) (differ : lo + 8 + span front ≠ r)
    (x : Nat) (e : Block) (taken : e.alloc = true) :
    (x, e) ∈ located (lo + 8) (front1 ++ b.mark false :: back1) ↔
      (x = r ∧ e = d) ∨ (x, e) ∈ located (lo + 8) (front ++ b.mark false :: back) := by
  rw [alloc_mem_marked taken, alloc_mem_marked taken, members x e taken, ← place]
  constructor
  · rintro ⟨new | old, elsewhere⟩
    · exact .inl new
    · exact .inr ⟨old, elsewhere⟩
  · rintro (⟨rfl, rfl⟩ | ⟨old, elsewhere⟩)
    · exact ⟨.inl ⟨rfl, rfl⟩, differ.symm⟩
    · exact ⟨.inr old, elsewhere⟩

/-! ## `set_root(coalesce(bp))` and `mm_free` -/

/-- Coalescing a loose block and making it the root settles the heap. -/
theorem wp_release {lo : Nat} {h : Heap} {front back : List Block} {b : Block} {fl : List Nat}
    (loose : Loose lo h front b back fl) (before : Sparse front) (after : Sparse back) :
    wp (do setRoot (← coalesce (lo + 8 + span front)))
      (fun r h' => r = lo + 8 + span (cutFreeLast front).1 ∧
        Updated lo h (front ++ b :: back) h' (coalesced front b back)
          (r :: fl.diff (absorbed lo front b back)) ∧
        Settled lo (coalesced front b back) (r :: fl.diff (absorbed lo front b back))) h := by
  rw [wp_bind]
  refine wp_mono (wp_coalesce loose) ?_
  rintro bp h1 ⟨rfl, merged⟩
  have whole := span_cutFreeLast front
  have free : FreeAt lo (coalesced front b back) (lo + 8 + span (cutFreeLast front).1) :=
    ⟨_, mem_located_coalesced.mpr (.inr (.inl ⟨rfl, rfl⟩)), rfl⟩
  have absent : lo + 8 + span (cutFreeLast front).1 ∉ fl.diff (absorbed lo front b back) := by
    intro member
    cases left : (cutFreeLast front).2 with
    | nil =>
        have same : lo + 8 + span (cutFreeLast front).1 = lo + 8 + span front := by
          rw [whole, left]
          rfl
        rw [same] at member
        exact loose.absent ((List.diff_sublist _ _).subset member)
    | cons p rest =>
        have listed : lo + 8 + span (cutFreeLast front).1 ∈ absorbed lo front b back := by
          simp [absorbed, pointers, left]
        exact (loose.consistent.list.nodup.mem_sdiff_iff.mp member).2 listed
  refine wp_mono (wp_setRoot merged.consistent.toThreaded free absent) ?_
  rintro r h2 ⟨rfl, rooted⟩
  refine ⟨rfl, merged.trans rooted ?_, ?_, sparse_coalesced before after⟩
  · intro x d taken member
    exact (alloc_mem_coalesced loose.isFree taken).mpr member
  · intro x isFree
    exact loose.complete isFree

/-- `mm_free` of an allocated block. -/
theorem wp_mmFree {lo : Nat} {h : Heap} {front back : List Block} {b : Block} {fl : List Nat}
    (rep : Represents lo h (front ++ b :: back) fl) (behind : front ≠ []) (taken : b.alloc = true) :
    wp (mmFree (lo + 8 + span front))
      (fun _ h' => Updated lo h (front ++ b.mark false :: back) h'
          (coalesced front (b.mark false) back)
          ((lo + 8 + span (cutFreeLast front).1) ::
            fl.diff (absorbed lo front (b.mark false) back)) ∧
        Settled lo (coalesced front (b.mark false) back)
          ((lo + 8 + span (cutFreeLast front).1) ::
            fl.diff (absorbed lo front (b.mark false) back))) h := by
  obtain ⟨c, settled⟩ := rep
  have layout := c.layout
  have start := layout.start_eq
  have bAt : (lo + 8 + span front, b) ∈ located (lo + 8) (front ++ b :: back) := by simp
  have bounds := layout.bounds bAt
  have large := b.size_ge
  have absent : lo + 8 + span front ∉ fl := by
    intro member
    obtain ⟨d, at_, free⟩ := c.free _ member
    rw [located_unique at_ bAt, taken] at free
    cases free
  have notNull : lo + 8 + span front ≠ NULL := by
    unfold NULL
    omega
  unfold mmFree
  rw [wp_ite, if_neg notNull]
  simp only [wp_bind]
  rw [layout.wp_getSize_hdrp bAt,
    wp_putTags (b.mark false) 0 _ (b.mark_size false).symm rfl
      (by rw [Block.mark_size]; omega) layout.brk_lt]
  have marked := c.mark behind false (b.mark_size false) (rfl : (b.mark false).alloc = false) absent
  have loose : Loose lo (h.withMem (setTags h.mem (lo + 8 + span front) (b.mark false))) front
      (b.mark false) back fl := by
    refine ⟨marked.consistent, behind, rfl, absent, ?_⟩
    rintro x ⟨d, at_, free⟩
    rw [located_append, located_cons, List.mem_append, List.mem_cons, Block.mark_size] at at_
    rcases at_ with inFront | here | inBack
    · exact .inr (settled.complete x ⟨d, by simp [inFront], free⟩)
    · cases here
      exact .inl rfl
    · exact .inr (settled.complete x ⟨d, by simp [inBack], free⟩)
  have sparse := sparse_append.mp settled.sparse
  have released := wp_release loose sparse.1 (List.IsChain.tail sparse.2.1)
  rw [wp_bind] at released
  refine wp_mono released ?_
  intro merged h1 coalescedRun
  refine wp_mono coalescedRun ?_
  rintro r h2 ⟨rfl, updated, done⟩
  rw [wp_pure]
  exact ⟨marked.trans updated (fun _ _ _ member => member), done⟩

end SysProg.Malloc

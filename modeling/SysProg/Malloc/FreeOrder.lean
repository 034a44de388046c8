import Mathlib.Algebra.GroupWithZero.Nat
import SysProg.Malloc.Contract

/-!
# What `mm_free` does to the blocks and to their list

The freed block and its free neighbours become one free block, which goes to
the front of the free list; the neighbours leave the list wherever they stood,
and everything else keeps its place.
-/

namespace SysProg.Malloc

open Logic

/-! ## The property -/

/-- The block at `bp` has `size` bytes and the allocation bit `bit`. -/
def Extent (h : Heap) (bp size bit : Nat) : Prop :=
  getSize (hdrp bp) h = some (size, h) ∧ getAlloc (hdrp bp) h = some (bit, h)

/-- The bytes of the block at `bp`. -/
def blockSize (h : Heap) (bp : Nat) : Nat := ((getSize (hdrp bp) h).map Prod.fst).getD 0

/-- Among the blocks `before ++ left ++ p :: right ++ after` of the heap, `left`
and `right` are the free neighbours of `p`. -/
structure FreeNeighbours (h : Heap) (p : Nat) (before left right after : List Nat) : Prop where
  tiled : BlockWalk h h.prolBp (before ++ left ++ p :: right ++ after)
  previous : (left = [] ∧ ∃ q size, before.getLast? = some q ∧ Extent h q size 1) ∨
    ∃ q size, left = [q] ∧ Extent h q size 0
  next : (right = [] ∧ ∀ n ∈ after.head?, ∃ size, Extent h n size 1) ∨
    ∃ n size, right = [n] ∧ Extent h n size 0

/-- `p` and its free neighbours are merged into the block at `m`, which is put in
front of the free list. -/
structure Merges (h : Heap) (p : Nat) (before left right after : List Nat) (m : Nat)
    (h' : Heap) : Prop where
  tiled : BlockWalk h' h'.prolBp (before ++ m :: after)
  merged : Extent h' m ((left ++ p :: right).map (blockSize h)).sum 0
  lowest : (left ++ p :: right).head? = some m ∧ ∀ x ∈ left ++ p :: right, m ≤ x
  others : ∀ x ∈ before ++ after, ∀ size bit, Extent h x size bit → Extent h' x size bit
  order : ∀ free, SuccWalk h h.rootBp free →
    SuccWalk h' h'.rootBp (m :: free.filter (· ∉ left ++ right))

/-! ## Runs of blocks -/

section Runs

variable {lo a : Nat} {h h' : Heap} {bs bs' run front back : List Block} {b d : Block}

theorem Layout.extent (layout : Layout lo h bs) {x : Nat} (at_ : (x, d) ∈ located (lo + 8) bs) :
    Extent h x d.size d.alloc.toNat :=
  ⟨layout.getSize_hdrp at_, layout.getAlloc_hdrp at_⟩

theorem Extent.unique {x size bit size' bit' : Nat} (extent : Extent h x size bit)
    (other : Extent h x size' bit') : size = size' ∧ bit = bit' := by
  obtain ⟨sized, flag⟩ := extent
  obtain ⟨sized', flag'⟩ := other
  rw [sized] at sized'
  rw [flag] at flag'
  cases sized'
  cases flag'
  exact ⟨rfl, rfl⟩

/-- The sizes of a run of blocks add up to its span. -/
theorem Layout.sum_blockSize (layout : Layout lo h bs)
    (inside : ∀ x d, (x, d) ∈ located a run → (x, d) ∈ located (lo + 8) bs) :
    ((pointers a run).map (blockSize h)).sum = span run := by
  induction run generalizing a with
  | nil => rfl
  | cons b run ih =>
      have first := (layout.extent (inside a b List.mem_cons_self)).1
      have rest := ih fun x d later => inside x d (List.mem_cons_of_mem _ later)
      have pointed : pointers a (b :: run) = a :: pointers (a + b.size) run := rfl
      rw [pointed, List.map_cons, List.sum_cons, rest, blockSize, first]
      rfl

/-- Blocks that two layouts share keep their extents. -/
theorem Layout.same_extent (layout : Layout lo h bs) (layout' : Layout lo h' bs')
    (shared : ∀ x d, (x, d) ∈ located a run →
      (x, d) ∈ located (lo + 8) bs ∧ (x, d) ∈ located (lo + 8) bs') :
    ∀ x ∈ pointers a run, ∀ size bit, Extent h x size bit → Extent h' x size bit := by
  intro x member size bit extent
  obtain ⟨⟨x, d⟩, at_, rfl⟩ := List.mem_map.mp member
  obtain ⟨old, new⟩ := shared x d at_
  obtain ⟨rfl, rfl⟩ := extent.unique (layout.extent old)
  exact layout'.extent new

theorem pointers_append (a : Nat) (xs ys : List Block) :
    pointers a (xs ++ ys) = pointers a xs ++ pointers (a + span xs) ys := by
  simp [pointers]

theorem pointers_cons (a : Nat) (b : Block) (bs : List Block) :
    pointers a (b :: bs) = a :: pointers (a + b.size) bs := rfl

/-- The blocks around a block, cut where coalescing cuts them. -/
theorem pointers_split (lo : Nat) (front : List Block) (b : Block) (back : List Block) :
    pointers (lo + 8) (front ++ b :: back) =
      pointers (lo + 8) (cutFreeLast front).1 ++
        pointers (lo + 8 + span (cutFreeLast front).1) (cutFreeLast front).2 ++
        (lo + 8 + span front) :: pointers (lo + 8 + span front + b.size) (cutFreeHead back).1 ++
        pointers (lo + 8 + span front + b.size + span (cutFreeHead back).1)
          (cutFreeHead back).2 := by
  rw [pointers_append, pointers_cons, List.append_assoc (pointers (lo + 8) (cutFreeLast front).1),
    List.append_assoc, List.append_assoc, List.cons_append, ← pointers_append, cutFreeHead_append,
    ← List.append_assoc, ← pointers_append, cutFreeLast_append]

/-- The blocks after coalescing, cut at the same places. -/
theorem pointers_coalesced (lo : Nat) (front : List Block) (b : Block) (back : List Block) :
    pointers (lo + 8) (coalesced front b back) =
      pointers (lo + 8) (cutFreeLast front).1 ++
        (lo + 8 + span (cutFreeLast front).1) ::
        pointers (lo + 8 + span front + b.size + span (cutFreeHead back).1)
          (cutFreeHead back).2 := by
  rw [coalesced, pointers_append, pointers_cons, add_size_merge]

end Runs

/-! ## Freeing a block -/

section Free

variable {lo : Nat} {h h' : Heap} {front back : List Block} {b : Block} {fl : List Nat}

theorem Layout.freeNeighbours (layout : Layout lo h (front ++ b :: back)) (behind : front ≠ []) :
    FreeNeighbours h (lo + 8 + span front) (pointers (lo + 8) (cutFreeLast front).1)
      (pointers (lo + 8 + span (cutFreeLast front).1) (cutFreeLast front).2)
      (pointers (lo + 8 + span front + b.size) (cutFreeHead back).1)
      (pointers (lo + 8 + span front + b.size + span (cutFreeHead back).1)
        (cutFreeHead back).2) where
  tiled := by
    rw [← pointers_split]
    exact layout.blockWalk
  previous := by
    obtain ⟨init, q, rfl, -⟩ := exists_before behind 0
    have extent := layout.extent (x := lo + 8 + span init) (d := q) (by simp)
    rw [cutFreeLast_concat]
    cases bit : q.alloc with
    | true =>
        rw [bit] at extent
        exact .inl ⟨rfl, _, q.size, by simp [pointers], extent⟩
    | false =>
        rw [bit] at extent
        exact .inr ⟨_, q.size, rfl, extent⟩
  next := by
    cases back with
    | nil =>
        refine .inl ⟨rfl, ?_⟩
        intro n none
        cases none
    | cons n back =>
        have extent := layout.extent (x := lo + 8 + span front + b.size) (d := n) (by simp)
        cases bit : n.alloc with
        | true =>
            have cut : cutFreeHead (n :: back) = ([], n :: back) := by simp [cutFreeHead, bit]
            rw [bit] at extent
            rw [cut]
            refine .inl ⟨rfl, ?_⟩
            intro m first
            cases first
            exact ⟨n.size, extent⟩
        | false =>
            have cut : cutFreeHead (n :: back) = ([n], back) := by simp [cutFreeHead, bit]
            rw [bit] at extent
            rw [cut]
            exact .inr ⟨_, n.size, rfl, extent⟩

/-- The blocks that are merged form one run. -/
theorem merged_run (lo : Nat) (front : List Block) (b : Block) (back : List Block) :
    pointers (lo + 8 + span (cutFreeLast front).1) (cutFreeLast front).2 ++
        (lo + 8 + span front) :: pointers (lo + 8 + span front + b.size) (cutFreeHead back).1 =
      pointers (lo + 8 + span (cutFreeLast front).1)
        ((cutFreeLast front).2 ++ b :: (cutFreeHead back).1) := by
  rw [pointers_append, pointers_cons, Nat.add_assoc _ (span _) (span (cutFreeLast front).2),
    ← span_cutFreeLast]

theorem mem_merged_run {x : Nat} {d : Block}
    (at_ : (x, d) ∈ located (lo + 8 + span (cutFreeLast front).1)
      ((cutFreeLast front).2 ++ b :: (cutFreeHead back).1)) :
    (x, d) ∈ located (lo + 8) (front ++ b :: back) := by
  rw [located_append, located_cons, Nat.add_assoc _ (span _) (span (cutFreeLast front).2),
    ← span_cutFreeLast] at at_
  rcases List.mem_append.mp at_ with inLeft | here
  · exact mem_located_loose.mpr (.inr (.inl inLeft))
  · rcases List.mem_cons.mp here with same | inRight
    · exact mem_located_loose.mpr (.inr (.inr (.inl (Prod.mk.inj same))))
    · exact mem_located_loose.mpr (.inr (.inr (.inr (.inl inRight))))

/-- Marking a block free moves none of the others. -/
theorem mem_located_side {x : Nat} {d : Block}
    (at_ : (x, d) ∈ located (lo + 8) (cutFreeLast front).1 ∨
      (x, d) ∈ located (lo + 8 + span front + b.size + span (cutFreeHead back).1)
        (cutFreeHead back).2) :
    (x, d) ∈ located (lo + 8) (front ++ b :: back) ∧
      (x, d) ∈ located (lo + 8) (coalesced front (b.mark false) back) := by
  rcases at_ with inFront | inBack
  · exact ⟨mem_located_loose.mpr (.inl inFront), mem_located_coalesced.mpr (.inl inFront)⟩
  · exact ⟨mem_located_loose.mpr (.inr (.inr (.inr (.inr inBack)))),
      mem_located_coalesced.mpr (.inr (.inr inBack))⟩

/-- `mm_free` merges the block with its free neighbours and puts the result in
front of the list. -/
theorem Layout.merges (layout : Layout lo h (front ++ b :: back)) (nodes : SuccWalk h h.rootBp fl)
    (once : fl.Nodup) (rep : Represents lo h' (coalesced front (b.mark false) back)
      ((lo + 8 + span (cutFreeLast front).1) :: fl.diff (absorbed lo front (b.mark false) back))) :
    Merges h (lo + 8 + span front) (pointers (lo + 8) (cutFreeLast front).1)
      (pointers (lo + 8 + span (cutFreeLast front).1) (cutFreeLast front).2)
      (pointers (lo + 8 + span front + b.size) (cutFreeHead back).1)
      (pointers (lo + 8 + span front + b.size + span (cutFreeHead back).1) (cutFreeHead back).2)
      (lo + 8 + span (cutFreeLast front).1) h' where
  tiled := by
    rw [← b.mark_size false, ← pointers_coalesced]
    exact rep.consistent.layout.blockWalk
  merged := by
    have at_ : (lo + 8 + span (cutFreeLast front).1,
        (b.mark false).merge (cutFreeLast front).2 (cutFreeHead back).1) ∈
        located (lo + 8) (coalesced front (b.mark false) back) :=
      mem_located_coalesced.mpr (.inr (.inl ⟨rfl, rfl⟩))
    have size : ((b.mark false).merge (cutFreeLast front).2 (cutFreeHead back).1).size =
        span ((cutFreeLast front).2 ++ b :: (cutFreeHead back).1) := by
      simp only [Block.merge, Block.mark_size, span_append, span_cons]
      omega
    rw [merged_run, layout.sum_blockSize fun x d => mem_merged_run, ← size]
    exact rep.consistent.layout.extent at_
  lowest := by
    rw [merged_run]
    refine ⟨?_, fun x member => (mem_pointers member).1⟩
    cases (cutFreeLast front).2 <;> rfl
  others := by
    have layout' := rep.consistent.layout
    intro x member
    rcases List.mem_append.mp member with inFront | inBack
    · exact layout.same_extent layout' (fun x d at_ => mem_located_side (.inl at_)) x inFront
    · exact layout.same_extent layout' (fun x d at_ => mem_located_side (.inr at_)) x inBack
  order := by
    intro free walk
    rw [walk.unique nodes, ← once.sdiff_eq_filter]
    exact rep.consistent.succWalk

end Free

/-! ## Runs -/

section Clients

variable {lo : Nat} {c : Client}

/-- In every run `mm_free` of a live pointer merges its block with the free
neighbours, and puts the result in front of the free list without them. -/
theorem free_merges (reached : (Client.runs lo).Reachable c) {p s : Nat}
    (member : (p, s) ∈ c.live) :
    ∃ h' before left right after m, mmFree p c.heap = some ((), h') ∧
      FreeNeighbours c.heap p before left right after ∧
      Merges c.heap p before left right after m h' := by
  obtain ⟨-, bs, fl, rep, owns⟩ := Serving.of_reachable reached
  obtain ⟨front, b, back, rfl, rfl, taken, behind⟩ :=
    owns.split_at (List.mem_map.mpr ⟨(p, s), member, rfl⟩)
  obtain ⟨⟨⟨⟩, h'⟩, run, updated, settled⟩ := wp_mmFree rep behind taken
  have layout := rep.consistent.layout
  exact ⟨h', _, _, _, _, _, run, layout.freeNeighbours behind,
    layout.merges rep.consistent.succWalk rep.consistent.list.nodup
      ⟨updated.consistent, settled⟩⟩

theorem free_merges_asking :
    ∃ h' before left right after m, mmFree 4120 askingClient.heap = some ((), h') ∧
      FreeNeighbours askingClient.heap 4120 before left right after ∧
      Merges askingClient.heap 4120 before left right after m h' := by
  have member : (4120, 20) ∈ askingClient.live := by simp [askingClient_live]
  exact free_merges askingClient_reachable member

end Clients

end SysProg.Malloc

import SysProg.Implicit.Client
import SysProg.Malloc.Contract

/-!
# The contract of the first allocator

In every run of a client the walk over the heap meets well-formed blocks only,
the live ranges stay apart and keep what was written to them, and `mm_malloc`
takes the lowest block that fits.
-/

namespace SysProg.Implicit

open Logic Malloc

/-- `NEXT_BLKP` walks from the prologue over the given blocks to the epilogue
in the last word of the heap. -/
structure WellFormed (h : Heap) (blocks : List Nat) : Prop where
  second : hdrp h.prolBp = h.memStartBrk + 4
  prologueSize : getSize (hdrp h.prolBp) h = some (8, h)
  prologueAlloc : getAlloc (hdrp h.prolBp) h = some (1, h)
  prologueFooter : ftrp h.prolBp h = some (h.prolBp, h)
  prologueTags : word h.mem (hdrp h.prolBp) = word h.mem h.prolBp
  prologueNext : nextBlkp h.prolBp h = some (h.prolBp + 8, h)
  tiled : BlockWalk h (h.prolBp + 8) blocks
  sparse : blocks.IsChain fun x y =>
    getAlloc (hdrp x) h = some (1, h) ∨ getAlloc (hdrp y) h = some (1, h)

/-- The block at `bp` is free and has at least `bsize` bytes. -/
def Fits (h : Heap) (bsize bp : Nat) : Prop :=
  getAlloc (hdrp bp) h = some (0, h) ∧
    ∃ size, getSize (hdrp bp) h = some (size, h) ∧ bsize ≤ size

/-- The live ranges lie in the payload of allocated blocks, and apart. -/
structure Held (h : Heap) (blocks : List Nat) (live : List (Nat × Nat)) : Prop where
  disjoint : live.Pairwise fun e f => e.1 + e.2 ≤ f.1 ∨ f.1 + f.2 ≤ e.1
  allocated : ∀ p s, (p, s) ∈ live → p ∈ blocks ∧ getAlloc (hdrp p) h = some (1, h)
  payload : ∀ p s, (p, s) ∈ live → ∃ footer, ftrp p h = some (footer, h) ∧ p + s ≤ footer

/-- What the first allocator promises to its client. -/
structure Contract (c : Client) (blocks : List Nat) : Prop where
  wellFormed : WellFormed c.heap blocks
  held : Held c.heap blocks c.live
  /-- Every request is carried out, and spares what it is not about. -/
  served : ∀ request, Allowed c request → ∃ c', serve c request = some c' ∧
    ∀ p s, (p, s) ∈ c.live → p ≠ request.argument → (p, s) ∈ c'.live ∧
      ∀ i, i < s → c'.heap.mem (p + i) = c.heap.mem (p + i)
  /-- `mm_realloc` fails without any change or moves the first bytes. -/
  moved : ∀ p s n, (p, s) ∈ c.live → 0 < n → n < 2 ^ 31 →
    ∃ r h', mmRealloc p n c.heap = some (r, h') ∧ (r = NULL ∧ h' = c.heap ∨
      r ≠ NULL ∧ ∀ i, i < min s n → h'.mem (r + i) = c.heap.mem (p + i))
  /-- `mm_malloc` allocates the lowest block that fits, if one does. -/
  lowest : ∀ n, 0 < n → n < 2 ^ 31 →
    (∃ bp ∈ blocks, Fits c.heap (add32 (align n) DSIZE) bp) →
    ∃ r h', mmMalloc n c.heap = some (r, h') ∧ r ∈ blocks ∧
      Fits c.heap (add32 (align n) DSIZE) r ∧
      (∀ bp ∈ blocks, Fits c.heap (add32 (align n) DSIZE) bp → r ≤ bp) ∧
      getAlloc (hdrp r) h' = some (1, h')

section

variable {listp : Nat} {h : Heap} {bs : List Block}

/-- The allocation bit of a block, as the macro reads it. -/
theorem Tiling.getAlloc_eq (tiling : Tiling listp h bs) {x : Nat} {b : Block}
    (at_ : (x, b) ∈ located (listp + 8) bs) : getAlloc (hdrp x) h = some (b.alloc.toNat, h) :=
  run_of_wp (((tiling.blockAt at_).wp_getAlloc_hdrp _).mpr ⟨rfl, rfl⟩)

theorem Tiling.fits_iff (tiling : Tiling listp h bs) {x bsize : Nat} {b : Block}
    (at_ : (x, b) ∈ located (listp + 8) bs) :
    Fits h bsize x ↔ b.alloc = false ∧ bsize ≤ b.size := by
  have size : getSize (hdrp x) h = some (b.size, h) :=
    run_of_wp (((tiling.blockAt at_).wp_getSize_hdrp _).mpr ⟨rfl, rfl⟩)
  unfold Fits
  rw [tiling.getAlloc_eq at_, size]
  cases b.alloc <;> simp

/-- Of two neighbours in the walk one is allocated. -/
theorem sparse_pointers {a : Nat} (sparse : Sparse bs)
    (bits : ∀ x b, (x, b) ∈ located a bs → getAlloc (hdrp x) h = some (b.alloc.toNat, h)) :
    (pointers a bs).IsChain fun x y =>
      getAlloc (hdrp x) h = some (1, h) ∨ getAlloc (hdrp y) h = some (1, h) := by
  induction bs generalizing a with
  | nil => exact List.isChain_nil
  | cons b back ih =>
      cases back with
      | nil => exact List.isChain_singleton _
      | cons n back =>
          obtain ⟨seam, rest⟩ := List.isChain_cons_cons.mp sparse
          refine List.isChain_cons_cons.mpr
            ⟨?_, ih rest fun x d later => bits x d (List.mem_cons_of_mem _ later)⟩
          rcases seam with taken | taken
          · left
            rw [bits a b List.mem_cons_self, taken]
            rfl
          · right
            rw [bits (a + b.size) n (List.mem_cons_of_mem _ List.mem_cons_self), taken]
            rfl

theorem Represents.wellFormed (rep : Represents listp h bs) :
    WellFormed h (pointers (listp + 8) bs) where
  second := by
    have start := rep.tiling.start_eq
    rw [rep.tiling.listp_eq]
    unfold hdrp WSIZE
    omega
  prologueSize := by
    rw [rep.tiling.listp_eq]
    exact run_of_wp ((rep.tiling.wp_getSize_listp _).mpr ⟨rfl, rfl⟩)
  prologueAlloc := by
    rw [rep.tiling.listp_eq]
    exact run_of_wp ((rep.tiling.wp_getAlloc_listp _).mpr ⟨rfl, rfl⟩)
  prologueFooter := by
    rw [rep.tiling.listp_eq]
    exact run_of_wp ((rep.tiling.wp_ftrp_listp _).mpr ⟨rfl, rfl⟩)
  prologueTags := by
    rw [rep.tiling.listp_eq]
    exact rep.tiling.header.trans rep.tiling.footer.symm
  prologueNext := by
    rw [rep.tiling.listp_eq]
    exact run_of_wp ((rep.tiling.wp_nextBlkp_listp _).mpr ⟨rfl, rfl⟩)
  tiled := by
    have start := rep.tiling.start_eq
    rw [rep.tiling.listp_eq]
    exact blockWalk_of_tags (by omega) rep.tiling.brk_eq rep.tiling.brk_lt rep.tiling.tags
      rep.tiling.epilogue
  sparse := sparse_pointers rep.sparse fun _ _ at_ => rep.tiling.getAlloc_eq at_

/-- If any block fits, the search finds the lowest one. -/
theorem LowestFit.lowest {bsize r : Nat} (search : LowestFit listp bs bsize r)
    (tiling : Tiling listp h bs) (candidate : ∃ bp ∈ pointers (listp + 8) bs, Fits h bsize bp) :
    r ≠ NULL ∧ r ∈ pointers (listp + 8) bs ∧ Fits h bsize r ∧
      ∀ bp ∈ pointers (listp + 8) bs, Fits h bsize bp → r ≤ bp := by
  cases search with
  | @found front back b split isFree fits skipped =>
      subst split
      have bAt : (listp + 8 + span front, b) ∈ located (listp + 8) (front ++ b :: back) := by simp
      refine ⟨by unfold NULL; omega, List.mem_map.mpr ⟨_, bAt, rfl⟩,
        (tiling.fits_iff bAt).mpr ⟨isFree, fits⟩, ?_⟩
      intro bp member fitting
      obtain ⟨⟨x, d⟩, at_, rfl⟩ := List.mem_map.mp member
      obtain ⟨free, enough⟩ := (tiling.fits_iff at_).mp fitting
      rw [located_append, List.mem_append] at at_
      rcases at_ with inFront | inBack
      · rcases skipped d (mem_of_located inFront) with taken | small
        · rw [free] at taken
          cases taken
        · omega
      · exact (located_bounds inBack).1
  | none skipped =>
      obtain ⟨bp, member, fitting⟩ := candidate
      obtain ⟨⟨x, d⟩, at_, rfl⟩ := List.mem_map.mp member
      obtain ⟨free, enough⟩ := (tiling.fits_iff at_).mp fitting
      rcases skipped d (mem_of_located at_) with taken | small
      · rw [free] at taken
        cases taken
      · omega

theorem Owns.held {live : List (Nat × Nat)} (owns : Owns listp bs live)
    (tiling : Tiling listp h bs) : Held h (pointers (listp + 8) bs) live where
  disjoint := by
    have keys : live.Pairwise fun e f => e.1 ≠ f.1 := List.pairwise_map.mp owns.distinct
    refine keys.imp_of_mem ?_
    rintro ⟨p, s⟩ ⟨q, t⟩ first second differ
    exact owns.apart first second differ
  allocated p s member := by
    obtain ⟨d, at_, taken, -⟩ := owns.backed p s member
    refine ⟨List.mem_map.mpr ⟨_, at_, rfl⟩, ?_⟩
    rw [tiling.getAlloc_eq at_, taken]
    rfl
  payload p s member := by
    obtain ⟨d, at_, -, wide⟩ := owns.backed p s member
    exact ⟨_, run_of_wp (((tiling.blockAt at_).wp_ftrp _).mpr ⟨rfl, rfl⟩), by omega⟩

end

section

variable {lo : Nat} {c : Client}

/-- `mm_malloc` allocates the lowest block that fits. -/
theorem Represents.malloc_lowest {listp n : Nat} {h : Heap} {bs : List Block}
    (rep : Represents listp h bs) (positive : 0 < n) (small : n < 2 ^ 31)
    (candidate : ∃ bp ∈ pointers (listp + 8) bs, Fits h (add32 (align n) DSIZE) bp) :
    ∃ r h', mmMalloc n h = some (r, h') ∧ r ∈ pointers (listp + 8) bs ∧
      Fits h (add32 (align n) DSIZE) r ∧
      (∀ bp ∈ pointers (listp + 8) bs, Fits h (add32 (align n) DSIZE) bp → r ≤ bp) ∧
      getAlloc (hdrp r) h' = some (1, h') := by
  obtain ⟨⟨r, h'⟩, run, outcome⟩ := wp_mmMalloc rep positive (by omega)
  refine ⟨r, h', run, ?_⟩
  rw [bsize_eq positive (by omega)] at candidate ⊢
  cases outcome with
  | fit search notNull handed =>
      obtain ⟨-, member, fits, least⟩ := search.lowest rep.tiling candidate
      obtain ⟨d, at_, taken, -⟩ := handed.exists_at
      refine ⟨member, fits, least, ?_⟩
      rw [handed.updated.tiling.getAlloc_eq at_, taken]
      rfl
  | grown search handed => exact absurd rfl (search.lowest rep.tiling candidate).1
  | full search exhausted => exact absurd rfl (search.lowest rep.tiling candidate).1

/-- In every state of every run the contract holds. -/
theorem implicit_contract (reached : (runs lo).Reachable c) : ∃ blocks, Contract c blocks := by
  have serving := Serving.of_reachable reached
  obtain ⟨bs, rep, owns⟩ := id serving
  refine ⟨pointers (lo + 8 + 8) bs, rep.wellFormed, owns.held rep.tiling, ?_, ?_, ?_⟩
  · intro request allowed
    obtain ⟨c', run, served⟩ := serving.serve allowed
    exact ⟨c', run, served.kept⟩
  · intro p s n member positive small
    obtain ⟨⟨r, h'⟩, run, -, outcome⟩ := serving.realloc member positive small
    exact ⟨r, h', run, outcome⟩
  · intro n positive small
    exact rep.malloc_lowest positive small

/-- A successful `mm_init` on a fresh heap starts a run. -/
theorem started_of_run {h : Heap} (fresh : Fresh lo h)
    (success : (mmInit h).map Prod.fst = some 0) :
    (runs lo).Reachable ⟨((mmInit h).getD (-1, h)).2, []⟩ :=
  .start ⟨h, fresh, run_of_map_fst success (-1, h), rfl⟩

/-- An allowed request prolongs a run. -/
theorem prolonged (reached : (runs lo).Reachable c) {request : Request}
    (allowed : Allowed c request) : (runs lo).Reachable ((serve c request).getD c) := by
  obtain ⟨c', run, -⟩ := (Serving.of_reachable reached).serve allowed
  rw [run]
  exact .next reached ⟨allowed, run⟩

/-- The client that has just initialised the blank heap. -/
def firstClient : Client := ⟨((mmInit blankHeap).getD (-1, blankHeap)).2, []⟩

/-- The client that then asks for 20 bytes. -/
def grantedClient : Client := (serve firstClient (.malloc 20)).getD firstClient

/-- The client that then asks for 50 bytes in their place. -/
def movedClient : Client := (serve grantedClient (.realloc 4112 50)).getD grantedClient

theorem movedClient_reachable : (runs 4096).Reachable movedClient := by
  have first : (runs 4096).Reachable firstClient :=
    started_of_run ⟨rfl, rfl, rfl, by decide⟩ (by decide +kernel)
  have granted : (runs 4096).Reachable grantedClient := prolonged first (.malloc (by decide))
  have owned : (4112, 20) ∈ grantedClient.live := by decide +kernel
  exact prolonged granted (.realloc owned (by decide) (by decide))

theorem implicit_contract_moved :
    movedClient.live = [(4144, 50)] ∧ ∃ blocks, Contract movedClient blocks :=
  ⟨by decide +kernel, implicit_contract movedClient_reachable⟩

end

end SysProg.Implicit

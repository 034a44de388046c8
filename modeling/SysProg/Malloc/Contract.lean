import SysProg.Malloc.Walks

/-!
# The contract of the allocator

The three guarantees that hold in every run of a client: the blocks tile the
heap, the free list holds exactly the free blocks, and the bytes of a live
pointer belong to its holder alone.
-/

namespace SysProg.Malloc

open Logic

section

variable {lo : Nat} {c : Client}

/-- After every request of every run the heap is well formed, and every
allowed request is carried out. -/
theorem heap_wellFormed (reached : (Client.runs lo).Reachable c) :
    WellFormed c.heap ∧ ∀ request, c.Allowed request → ∃ c', c.serve request = some c' := by
  have serving := Serving.of_reachable reached
  refine ⟨?_, ?_⟩
  · obtain ⟨-, bs, fl, rep, -⟩ := serving
    exact rep.consistent.layout.wellFormed
  · intro request allowed
    obtain ⟨c', run, -⟩ := serving.serve allowed
    exact ⟨c', run⟩

/-- A client that has initialised its heap successfully is in a run. -/
theorem initialised_reachable {h : Heap} (fresh : Fresh lo h) (unchecked : h.checked = false)
    (success : (mmInit h).map Prod.fst = some 0) :
    (Client.runs lo).Reachable ⟨((mmInit h).getD (-1, h)).2, []⟩ :=
  .start ⟨h, fresh, unchecked, run_of_map_fst success (-1, h), rfl⟩

/-- An allowed request prolongs a run. -/
theorem served_reachable (reached : (Client.runs lo).Reachable c) {request : Request}
    (allowed : c.Allowed request) : (Client.runs lo).Reachable ((c.serve request).getD c) := by
  obtain ⟨c', run, -⟩ := (Serving.of_reachable reached).serve allowed
  rw [run]
  exact .next reached ⟨allowed, run⟩

/-- An empty heap of zeroes that may grow to a megabyte. -/
def blankHeap : Heap where
  mem := fun _ => 0
  memStartBrk := 4096
  memBrk := 4096
  memMaxAddr := 4096 + 2 ^ 20
  prolBp := 0
  rootBp := 0
  checked := false

/-- The client that has just initialised the blank heap. -/
def blankClient : Client := ⟨((mmInit blankHeap).getD (-1, blankHeap)).2, []⟩

theorem blankClient_reachable : (Client.runs 4096).Reachable blankClient :=
  initialised_reachable ⟨rfl, rfl, rfl, by decide⟩ rfl (by decide +kernel)

/-- The client that then asks for 20 bytes. -/
def askingClient : Client := (blankClient.serve (.malloc 20)).getD blankClient

theorem askingClient_reachable : (Client.runs 4096).Reachable askingClient :=
  served_reachable blankClient_reachable (.malloc (by decide))

theorem askingClient_live : askingClient.live = [(4120, 20)] := by decide +kernel

/-- It asks for 40 bytes more. -/
def crowdedClient : Client := (askingClient.serve (.malloc 40)).getD askingClient

theorem crowdedClient_reachable : (Client.runs 4096).Reachable crowdedClient :=
  served_reachable askingClient_reachable (.malloc (by decide))

theorem crowdedClient_live : crowdedClient.live = [(4152, 40), (4120, 20)] := by decide +kernel

/-- It gives the first block back and resizes the second one. -/
def busyClient : Client :=
  let released := (crowdedClient.serve (.free 4120)).getD crowdedClient
  (released.serve (.realloc 4152 100)).getD released

theorem busyClient_reachable : (Client.runs 4096).Reachable busyClient := by
  have released := served_reachable crowdedClient_reachable
    (.free (.inr (by rw [crowdedClient_live]; decide) : crowdedClient.Owned 4120))
  exact served_reachable released (.realloc (.inr (by decide +kernel)) (by decide))

theorem busyClient_live : busyClient.live = [(4152, 100)] := by decide +kernel

theorem heap_wellFormed_busy : WellFormed busyClient.heap ∧
    ∃ c', busyClient.serve (.free 4152) = some c' := by
  obtain ⟨wellFormed, serves⟩ := heap_wellFormed busyClient_reachable
  exact ⟨wellFormed, serves (.free 4152) (.free (.inr (by rw [busyClient_live]; decide)))⟩

/-- The free list visits exactly the free blocks of the heap, each once, and
is linked backwards as it is forwards. -/
structure FreeListExact (h : Heap) (blocks free : List Nat) : Prop where
  tiled : BlockWalk h h.prolBp blocks
  forward : SuccWalk h h.rootBp free
  once : free.Nodup
  exact_ : ∀ x, x ∈ free ↔ x ∈ blocks ∧ getAlloc (hdrp x) h = some (0, h)
  first : prevFreeblkp h.rootBp h = some (NULL, h)
  back : ∀ x ∈ free, ∃ y, nextFreeblkp x h = some (y, h) ∧ prevFreeblkp y h = some (x, h)
  backward : ∃ last, prevFreeblkp h.prolBp h = some (last, h) ∧ PredWalk h last free.reverse

/-- A represented heap has an exact free list. -/
theorem Represents.freeListExact {h : Heap} {bs : List Block} {fl : List Nat}
    (rep : Represents lo h bs fl) : FreeListExact h (pointers (lo + 8) bs) fl where
  tiled := rep.consistent.layout.blockWalk
  forward := rep.consistent.succWalk
  once := rep.consistent.list.nodup
  exact_ x := by
    have layout := rep.consistent.layout
    constructor
    · intro member
      obtain ⟨d, at_, free⟩ := rep.consistent.free x member
      exact ⟨List.mem_map.mpr ⟨(x, d), at_, rfl⟩, (layout.getAlloc_zero_iff at_).mpr free⟩
    · rintro ⟨member, bit⟩
      obtain ⟨⟨y, d⟩, at_, rfl⟩ := List.mem_map.mp member
      exact rep.settled.complete _ ⟨d, at_, (layout.getAlloc_zero_iff at_).mp bit⟩
  first := by
    have read := rep.consistent.prevFreeblkp_eq rep.consistent.root_mem
    rw [rep.consistent.first] at read
    exact read
  back _ member := rep.consistent.pred_succ member
  backward := rep.consistent.predWalk

/-- After every request of every run the free list is exact. -/
theorem freeList_exact (reached : (Client.runs lo).Reachable c) :
    ∃ blocks free, FreeListExact c.heap blocks free := by
  obtain ⟨-, bs, fl, rep, -⟩ := Serving.of_reachable reached
  exact ⟨_, _, rep.freeListExact⟩

theorem freeList_exact_busy : ∃ blocks free, FreeListExact busyClient.heap blocks free :=
  freeList_exact busyClient_reachable

/-- The ranges asked for through the live pointers are disjoint, lie between
the prologue and the epilogue, and avoid every boundary tag and link word. -/
structure Isolated (h : Heap) (blocks free : List Nat) (live : List (Nat × Nat)) : Prop where
  disjoint : live.Pairwise fun e f => e.1 + e.2 ≤ f.1 ∨ f.1 + f.2 ≤ e.1
  between : ∀ p s, (p, s) ∈ live → h.prolBp + 16 ≤ p ∧ p + s ≤ h.memBrk - 4
  tags : ∀ p s i, (p, s) ∈ live → i < s → ∀ bp ∈ blocks, ∀ size,
    getSize (hdrp bp) h = some (size, h) →
      (p + i < bp - 4 ∨ bp ≤ p + i) ∧ (p + i < bp + size - 8 ∨ bp + size - 4 ≤ p + i)
  links : ∀ p s i, (p, s) ∈ live → i < s → ∀ x ∈ free ++ [h.prolBp], p + i < x ∨ x + 8 ≤ p + i

theorem Owns.isolated {h : Heap} {bs : List Block} {fl : List Nat} {live : List (Nat × Nat)}
    (owns : Owns lo bs live) (c : Threaded lo h bs fl) :
    Isolated h (pointers (lo + 8) bs) fl live where
  disjoint := by
    have keys : live.Pairwise fun e f => e.1 ≠ f.1 := List.pairwise_map.mp owns.distinct
    refine keys.imp_of_mem ?_
    rintro ⟨p, s⟩ ⟨q, t⟩ first second differ
    exact owns.apart first second differ
  between p s member := by
    have positive := (owns.behind p s member).1
    have lowest := (owns.clientByte member (le_refl p) (by omega)).bounds c.layout
    have highest := (owns.clientByte (i := p + s - 1) member (by omega) (by omega)).bounds c.layout
    omega
  tags p s i member inside bp block size sized := by
    obtain ⟨⟨y, d⟩, at_, rfl⟩ := List.mem_map.mp block
    rw [c.layout.getSize_hdrp at_] at sized
    cases sized
    exact (owns.clientByte member (by omega) (by omega)).outside_tags at_
  links p s i member inside x node :=
    (owns.clientByte member (by omega) (by omega)).outside_links c node

/-- In every state of every run the live ranges are isolated, and no request
changes what lies in the ranges it is not about. -/
theorem clients_isolated (reached : (Client.runs lo).Reachable c) :
    (∃ blocks free, FreeListExact c.heap blocks free ∧ Isolated c.heap blocks free c.live) ∧
      ∀ request c', c.Allowed request → c.serve request = some c' →
        ∀ p s, (p, s) ∈ c.live → p ≠ request.argument →
          ∀ i, i < s → c'.heap.mem (p + i) = c.heap.mem (p + i) := by
  have serving := Serving.of_reachable reached
  refine ⟨?_, ?_⟩
  · obtain ⟨-, bs, fl, rep, owns⟩ := serving
    exact ⟨_, _, rep.freeListExact, owns.isolated rep.consistent.toThreaded⟩
  · intro request c' allowed run p s member differ
    obtain ⟨found, foundRun, served⟩ := serving.serve allowed
    rw [run] at foundRun
    cases foundRun
    exact (served.kept p s member differ).2

theorem clients_isolated_crowded :
    crowdedClient.live = [(4152, 40), (4120, 20)] ∧
      (∃ blocks free, FreeListExact crowdedClient.heap blocks free ∧
        Isolated crowdedClient.heap blocks free crowdedClient.live) ∧
      ∃ c', crowdedClient.serve (.free 4120) = some c' ∧
        ∀ i, i < 40 → c'.heap.mem (4152 + i) = crowdedClient.heap.mem (4152 + i) := by
  obtain ⟨isolated, frame⟩ := clients_isolated crowdedClient_reachable
  have allowed : crowdedClient.Allowed (.free 4120) :=
    .free (.inr (by rw [crowdedClient_live]; decide))
  obtain ⟨c', run, -⟩ := (Serving.of_reachable crowdedClient_reachable).serve allowed
  refine ⟨crowdedClient_live, isolated, c', run, ?_⟩
  exact frame _ c' allowed run 4152 40 (by rw [crowdedClient_live]; decide) (by decide)

end

end SysProg.Malloc

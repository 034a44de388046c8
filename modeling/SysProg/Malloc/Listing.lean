import SysProg.Malloc.Bounds
import SysProg.Malloc.Placement

/-!
# What `mm_check` prints

The debugging routine of `mm.c` walks the heap from the prologue and the free list from its
end.  Between the requests of a client both walks end, and the listing is complete: what
the allocator does next depends on nothing else.
-/

namespace SysProg.Malloc

open Logic

/-- A line of the heap status; the letter is `A` or `F`. -/
structure Row where
  bp : Nat
  size : Nat
  alloc : Bool
  deriving DecidableEq

/-- The heap range, the heap status and the free list, in the order in which they are
printed. -/
structure Listing where
  low : Nat
  high : Nat
  status : List Row
  free : List (Nat × Nat)
  deriving DecidableEq

/-- The loop over the heap, from `bp` on and cut off after `fuel` rounds. -/
def statusFrom : Nat → Nat → MM (List Row)
  | 0, _ => fun _ => none
  | fuel + 1, bp => do
      if (← getSize (hdrp bp)) = 0 then pure []
      else do
        let size ← getSize (hdrp bp)
        let alloc ← getAlloc (hdrp bp)
        let rest ← statusFrom fuel (← nextBlkp bp)
        pure (⟨bp, size, alloc ≠ 0⟩ :: rest)

/-- The loop over the free list, from `bp` on and cut off after `fuel` rounds. -/
def freeFrom : Nat → Nat → MM (List (Nat × Nat))
  | 0, _ => fun _ => none
  | fuel + 1, bp => do
      if bp = NULL then pure []
      else do
        let size ← getSize (hdrp bp)
        let rest ← freeFrom fuel (← prevFreeblkp bp)
        pure ((bp, size) :: rest)

/-- `mm_check`; both loops have fewer rounds than the heap has bytes. -/
def mmCheck : MM Listing := fun h =>
  (do
    let status ← statusFrom (h.memBrk - h.memStartBrk) (← prolBp)
    let free ← freeFrom (h.memBrk - h.memStartBrk) (← prevFreeblkp (← prolBp))
    pure ⟨h.memStartBrk, h.memBrk - 1, status, free⟩ : MM Listing) h

/-! ## The property -/

/-- The listing shows the heap of a client: adjacent blocks from the prologue to the
break, no two free ones in a row, the free ones once more in the free list, and behind the
prologue the allocated ones where the client has its pointers. -/
structure Shows (c : Client) (l : Listing) : Prop where
  low : l.low = c.heap.memStartBrk
  high : l.high + 1 = c.heap.memBrk
  prologue : l.status.head? = some ⟨l.low + 8, 16, true⟩
  adjacent : l.status.IsChain fun r s =>
    s.bp = r.bp + r.size ∧ (r.alloc = true ∨ s.alloc = true)
  last : ∀ r ∈ l.status.getLast?, r.bp + r.size = l.high + 1
  once : (l.free.map Prod.fst).Nodup
  free : ∀ x size, (x, size) ∈ l.free ↔ ⟨x, size, false⟩ ∈ l.status
  owned : ∀ x, x ∈ c.live.map Prod.fst ↔ x ≠ l.low + 8 ∧ ∃ size, ⟨x, size, true⟩ ∈ l.status
  large : ∀ p s, (p, s) ∈ c.live → ∃ size, ⟨p, size, true⟩ ∈ l.status ∧ s + 8 ≤ size

/-! ## The two walks -/

/-- The lines for a run of blocks. -/
def rows (a : Nat) (bs : List Block) : List Row :=
  (located a bs).map fun e => ⟨e.1, e.2.size, e.2.alloc⟩

/-- A node with the size in its header. -/
def nodeRow (m : Mem) (x : Nat) : Nat × Nat := (x, word m (x - 4) &&& sizeMask)

/-- The listing of a represented heap. -/
def listingOf (lo : Nat) (h : Heap) (bs : List Block) (fl : List Nat) : Listing :=
  ⟨h.memStartBrk, h.memBrk - 1, rows (lo + 8) bs, fl.reverse.map (nodeRow h.mem)⟩

section Walks

variable {lo a : Nat} {h : Heap} {bs : List Block} {fl : List Nat}

theorem rows_cons (a : Nat) (b : Block) (bs : List Block) :
    rows a (b :: bs) = ⟨a, b.size, b.alloc⟩ :: rows (a + b.size) bs := rfl

theorem mem_rows {x size : Nat} {alloc : Bool} :
    ⟨x, size, alloc⟩ ∈ rows a bs ↔ ∃ b, (x, b) ∈ located a bs ∧ b.size = size ∧
      b.alloc = alloc := by
  simp [rows]

/-- The first loop walks a run of tagged blocks that ends at the break. -/
theorem statusFrom_run {fuel : Nat} (low : h.memStartBrk + 4 ≤ a) (brk : h.memBrk = a + span bs)
    (limit : h.memBrk < 2 ^ 32) (tags : ∀ x b, (x, b) ∈ located a bs → Tagged h.mem x b)
    (epilogue : word h.mem (h.memBrk - 4) = 1) (enough : bs.length < fuel) :
    statusFrom fuel a h = some (rows a bs, h) := by
  obtain ⟨fuel, rfl⟩ : ∃ n, fuel = n + 1 := ⟨fuel - 1, by omega⟩
  induction bs generalizing a fuel with
  | nil =>
      obtain rfl : a = h.memBrk := brk.symm
      have masked : 1 &&& sizeMask = 0 := by decide
      have size : getSize (hdrp h.memBrk) h = some (0, h) := by
        apply run_of_wp
        simp only [getSize, hdrp, WSIZE, wp_bind, wp_pure]
        rw [wp_getWord _ (by omega), epilogue, masked]
        exact ⟨rfl, rfl⟩
      rw [statusFrom, bind_run_of_run size, if_pos rfl]
      rfl
  | cons b back ih =>
      have large := b.size_ge
      simp only [span_cons] at brk
      have at_ : BlockAt h a b := ⟨low, by omega, limit, tags a b List.mem_cons_self⟩
      have size := run_of_wp ((at_.wp_getSize_hdrp _).mpr ⟨rfl, rfl⟩)
      have alloc := run_of_wp ((at_.wp_getAlloc_hdrp _).mpr ⟨rfl, rfl⟩)
      have next := run_of_wp ((at_.wp_nextBlkp _).mpr ⟨rfl, rfl⟩)
      rw [List.length_cons] at enough
      obtain ⟨fuel, rfl⟩ : ∃ n, fuel = n + 1 := ⟨fuel - 1, by omega⟩
      have rest := ih (a := a + b.size) (by omega) (by omega)
        (fun x d later => tags x d (List.mem_cons_of_mem _ later)) fuel (by omega)
      have letter : decide (b.alloc.toNat ≠ 0) = b.alloc := by cases b.alloc <;> rfl
      rw [statusFrom, bind_run_of_run size, if_neg (by omega), bind_run_of_run size,
        bind_run_of_run alloc, bind_run_of_run next, bind_run_of_run rest, rows_cons]
      simp only [letter]
      rfl

/-- The second loop walks the links back to null. -/
theorem freeFrom_run {x fuel : Nat} (walk : PredWalk h x fl) (enough : fl.length < fuel)
    (inside : ∀ y ∈ fl, h.memStartBrk + 4 ≤ y ∧ y ≤ h.memBrk) :
    freeFrom fuel x h = some (fl.map (nodeRow h.mem), h) := by
  obtain ⟨fuel, rfl⟩ : ∃ n, fuel = n + 1 := ⟨fuel - 1, by omega⟩
  induction walk generalizing fuel with
  | null =>
      rw [freeFrom, if_pos rfl]
      rfl
  | @node y prev rest inner pred walk ih =>
      obtain ⟨here, later⟩ := List.forall_mem_cons.mp inside
      have size : getSize (hdrp y) h = some ((nodeRow h.mem y).2, h) := by
        apply run_of_wp
        simp only [getSize, hdrp, WSIZE, wp_bind, wp_pure]
        rw [wp_getWord _ (by omega)]
        exact ⟨rfl, rfl⟩
      rw [List.length_cons] at enough
      obtain ⟨fuel, rfl⟩ : ∃ n, fuel = n + 1 := ⟨fuel - 1, by omega⟩
      rw [freeFrom, if_neg inner, bind_run_of_run size, bind_run_of_run pred,
        bind_run_of_run (ih later fuel (by omega))]
      rfl

/-- A represented heap is listed. -/
theorem Represents.mmCheck_run (rep : Represents lo h bs fl) :
    mmCheck h = some (listingOf lo h bs fl, h) := by
  have layout := rep.consistent.layout
  have start := layout.start_eq
  have brk := layout.brk_eq
  have blocks := length_le_span bs
  have short := rep.consistent.length_lt
  obtain ⟨last, pred, walk⟩ := rep.consistent.predWalk
  have status : statusFrom (h.memBrk - h.memStartBrk) h.prolBp h =
      some (rows (lo + 8) bs, h) := by
    rw [layout.prol_eq]
    exact statusFrom_run (by omega) brk layout.brk_lt layout.tags layout.epilogue (by omega)
  have inside : ∀ y ∈ fl.reverse, h.memStartBrk + 4 ≤ y ∧ y ≤ h.memBrk := by
    intro y member
    obtain ⟨d, at_, -⟩ := rep.consistent.free y (List.mem_reverse.mp member)
    have bounds := layout.bounds at_
    omega
  have free : freeFrom (h.memBrk - h.memStartBrk) last h =
      some (fl.reverse.map (nodeRow h.mem), h) := by
    refine freeFrom_run walk ?_ inside
    rw [List.length_reverse]
    omega
  have prol : prolBp h = some (h.prolBp, h) := rfl
  unfold mmCheck
  rw [bind_run_of_run prol, bind_run_of_run status, bind_run_of_run prol, bind_run_of_run pred,
    bind_run_of_run free]
  rfl

/-! ## What the listing shows -/

theorem rows_adjacent (sparse : Sparse bs) : (rows a bs).IsChain fun r s =>
    s.bp = r.bp + r.size ∧ (r.alloc = true ∨ s.alloc = true) := by
  induction bs generalizing a with
  | nil => exact .nil
  | cons b back ih =>
      cases back with
      | nil => exact .singleton _
      | cons d rest =>
          obtain ⟨apart, sparse⟩ := List.isChain_cons_cons.mp sparse
          rw [rows_cons, rows_cons]
          exact List.isChain_cons_cons.mpr ⟨⟨rfl, apart⟩, ih sparse⟩

theorem rows_last {r : Row} (last : r ∈ (rows a bs).getLast?) : r.bp + r.size = a + span bs := by
  induction bs generalizing a with
  | nil => cases last
  | cons b back ih =>
      cases back with
      | nil =>
          cases last
          rfl
      | cons d rest =>
          rw [rows_cons, rows_cons, List.getLast?_cons_cons] at last
          rw [ih last, span_cons b, Nat.add_assoc]

/-- The rows determine the blocks. -/
theorem rows_injective {bs' : List Block} (same : rows a bs' = rows a bs) : bs' = bs := by
  induction bs generalizing a bs' with
  | nil =>
      cases bs' with
      | nil => rfl
      | cons b back => cases same
  | cons b back ih =>
      cases bs' with
      | nil => cases same
      | cons d rest =>
          rw [rows_cons, rows_cons, List.cons.injEq, Row.mk.injEq] at same
          obtain ⟨⟨-, size, alloc⟩, later⟩ := same
          obtain rfl : d = b := by
            cases b
            cases d
            simp only at size alloc
            subst size alloc
            rfl
          rw [ih later]

theorem nodeRow_eq (layout : Layout lo h bs) {x : Nat} {b : Block}
    (at_ : (x, b) ∈ located (lo + 8) bs) : nodeRow h.mem x = (x, b.size) := by
  have header := (layout.tags x b at_).1
  rw [nodeRow, header, Block.tag_and_sizeMask (layout.size_lt at_)]

theorem map_nodeRow (m : Mem) (nodes : List Nat) :
    (nodes.map (nodeRow m)).map Prod.fst = nodes := by
  rw [List.map_map]
  exact List.map_id nodes

/-- The free list of a represented heap shows the free rows. -/
theorem Represents.mem_free (rep : Represents lo h bs fl) (x size : Nat) :
    (x, size) ∈ (fl.reverse.map (nodeRow h.mem)) ↔ ⟨x, size, false⟩ ∈ rows (lo + 8) bs := by
  have layout := rep.consistent.layout
  rw [mem_rows]
  constructor
  · intro member
    obtain ⟨y, listed, row⟩ := List.mem_map.mp member
    obtain ⟨d, at_, free⟩ := rep.consistent.free y (List.mem_reverse.mp listed)
    rw [nodeRow_eq layout at_] at row
    cases row
    exact ⟨d, at_, rfl, free⟩
  · rintro ⟨d, at_, rfl, free⟩
    have listed := rep.settled.complete x ⟨d, at_, free⟩
    exact List.mem_map.mpr ⟨x, List.mem_reverse.mpr listed, nodeRow_eq layout at_⟩

end Walks

section Clients

variable {lo : Nat} {c c' : Client} {l : Listing}

/-- The listing of a served client, whether or not accesses outside are refused. -/
theorem Serving.mmCheck_shows (serving : Serving lo c) :
    ∃ l, mmCheck c.heap = some (l, c.heap) ∧
      mmCheck c.heap.guarded = some (l, c.heap.guarded) ∧ Shows c l := by
  obtain ⟨-, bs, fl, rep, owns⟩ := serving
  have layout := rep.consistent.layout
  have start := layout.start_eq
  have brk := layout.brk_eq
  refine ⟨listingOf lo c.heap bs fl, rep.mmCheck_run, rep.guarded.mmCheck_run,
    ⟨rfl, ?_, ?_, rows_adjacent rep.settled.sparse, ?_, ?_, rep.mem_free, ?_, ?_⟩⟩
  · simp only [listingOf]
    omega
  · obtain ⟨tail, rfl⟩ := layout.exists_tail
    simp only [listingOf, start]
    rfl
  · intro r last
    have ends := rows_last last
    simp only [listingOf]
    omega
  · simp only [listingOf, map_nodeRow]
    exact List.nodup_reverse.mpr rep.consistent.list.nodup
  · intro x
    simp only [listingOf, mem_rows, start]
    constructor
    · intro member
      obtain ⟨⟨p, s⟩, live, rfl⟩ := List.mem_map.mp member
      obtain ⟨d, at_, taken, -⟩ := owns.backed p s live
      exact ⟨(owns.behind p s live).2, d.size, d, at_, rfl, taken⟩
    · rintro ⟨behind, size, d, at_, rfl, taken⟩
      exact owns.owned x d at_ taken behind
  · intro p s live
    obtain ⟨d, at_, taken, fits⟩ := owns.backed p s live
    exact ⟨d.size, mem_rows.mpr ⟨d, at_, rfl, taken⟩, by omega⟩

/-- After every request of every run `mm_check` ends, leaves the heap as it is and prints
what is there; none of its accesses is outside the heap. -/
theorem mm_check_shows (reached : (Client.runs lo).Reachable c) :
    ∃ l, mmCheck c.heap = some (l, c.heap) ∧
      mmCheck c.heap.guarded = some (l, c.heap.guarded) ∧ Shows c l :=
  (Serving.of_reachable reached).mmCheck_shows

theorem mm_check_shows_asking :
    ∃ l, mmCheck askingClient.heap = some (l, askingClient.heap) ∧
      mmCheck askingClient.heap.guarded = some (l, askingClient.heap.guarded) ∧
        Shows askingClient l :=
  mm_check_shows askingClient_reachable

/-- Represented heaps with one listing are twins. -/
theorem Represents.of_listing {lo' : Nat} {h h' : Heap} {bs bs' : List Block} {fl fl' : List Nat}
    (rep : Represents lo h bs fl) (rep' : Represents lo' h' bs' fl')
    (same : listingOf lo' h' bs' fl' = listingOf lo h bs fl) :
    lo' = lo ∧ bs' = bs ∧ fl' = fl := by
  have start := rep.consistent.layout.start_eq
  have start' := rep'.consistent.layout.start_eq
  simp only [listingOf, Listing.mk.injEq] at same
  obtain ⟨low, -, status, free⟩ := same
  obtain rfl : lo' = lo := by omega
  have nodes := congrArg (List.map Prod.fst) free
  rw [map_nodeRow, map_nodeRow] at nodes
  exact ⟨rfl, rows_injective status, List.reverse_injective nodes⟩

/-- Twins have one listing. -/
theorem Twins.listing_eq {h h' : Heap} {bs : List Block} {fl : List Nat}
    (twins : Twins lo h h' bs fl) : listingOf lo h' bs fl = listingOf lo h bs fl := by
  have layout := twins.first.consistent.layout
  have layout' := twins.second.consistent.layout
  have rowsEq : fl.reverse.map (nodeRow h'.mem) = fl.reverse.map (nodeRow h.mem) := by
    apply List.map_congr_left
    intro x member
    obtain ⟨d, at_, -⟩ := twins.first.consistent.free x (List.mem_reverse.mp member)
    rw [nodeRow_eq layout at_, nodeRow_eq layout' at_]
  simp only [listingOf, rowsEq, twins.brk, layout.start_eq, layout'.start_eq]

/-- Two clients with the same pointers whose heaps are listed alike, in any runs over
storages that end at one address, are answered alike: whatever they have written to their
blocks and write on, the same calls return the same pointers, and the heaps are listed alike
again. -/
theorem listing_decides {lo' : Nat} {c c' : Client} (reached : (Client.runs lo).Reachable c)
    (reached' : (Client.runs lo').Reachable c') (live : c'.live = c.live)
    (limit : c'.heap.memMaxAddr = c.heap.memMaxAddr)
    (listed : (mmCheck c'.heap).map Prod.fst = (mmCheck c.heap).map Prod.fst)
    {returned : List Nat} {trace : List TraceOp} {s s' : Session}
    (first : Execution ⟨c, returned⟩ trace s) (second : Execution ⟨c', returned⟩ trace s') :
    s'.returned = s.returned ∧ s'.client.live = s.client.live ∧
      (mmCheck s'.client.heap).map Prod.fst = (mmCheck s.client.heap).map Prod.fst := by
  have serving := Serving.of_reachable reached
  have serving' := Serving.of_reachable reached'
  obtain ⟨unchecked, bs, fl, rep, -⟩ := id serving
  obtain ⟨unchecked', bs', fl', rep', -⟩ := id serving'
  rw [rep.mmCheck_run, rep'.mmCheck_run] at listed
  obtain ⟨rfl, rfl, rfl⟩ := rep.of_listing rep' (Option.some.inj listed)
  have start : Abreast lo' ⟨c, returned⟩ ⟨c', returned⟩ :=
    ⟨serving, serving', live, rfl, _, _, rep, rep', limit, unchecked, unchecked'⟩
  have abreast := first.abreast second start
  obtain ⟨bs1, fl1, twins⟩ := abreast.twins
  refine ⟨abreast.returned, abreast.live, ?_⟩
  rw [twins.first.mmCheck_run, twins.second.mmCheck_run]
  exact congrArg some twins.listing_eq

/-- The client that gives its block back. -/
def freedClient : Client := (askingClient.serve (.free 4120)).getD askingClient

theorem freedClient_reachable : (Client.runs 4096).Reachable freedClient :=
  served_reachable askingClient_reachable (.free (.inr (by decide +kernel)))

theorem listing_decides_freed :
    ∃ s s', Execution ⟨blankClient, []⟩ freedTrace s ∧ Execution ⟨freedClient, []⟩ freedTrace s' ∧
      s'.returned = s.returned ∧ s'.client.live = s.client.live ∧
      (mmCheck s'.client.heap).map Prod.fst = (mmCheck s.client.heap).map Prod.fst := by
  obtain ⟨s, first⟩ := (Serving.of_reachable blankClient_reachable).executes
  obtain ⟨s', second⟩ := (Serving.of_reachable freedClient_reachable).executes
  exact ⟨s, s', first, second, listing_decides blankClient_reachable freedClient_reachable
    (by decide +kernel) (by decide +kernel) (by decide +kernel) first second⟩

end Clients

end SysProg.Malloc

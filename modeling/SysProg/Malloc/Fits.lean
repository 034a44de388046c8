import SysProg.Malloc.Resizing

/-!
# Which block `mm_malloc` returns

A walk of the free list sees every free block of the heap.  So `mm_malloc`
finds a block whenever one is large enough, the first one along the list, and
extends the heap only when none is; the extension starts with the last block
if that is free.
-/

namespace SysProg.Malloc

open Logic

/-! ## The property -/

/-- The block at `bp` is free and has at least `bsize` bytes. -/
def Fitting (h : Heap) (bsize bp : Nat) : Prop :=
  getAlloc (hdrp bp) h = some (0, h) ∧
    ∃ size, getSize (hdrp bp) h = some (size, h) ∧ bsize ≤ size

/-- `mm_malloc` returns the first fitting block of the free list, without
`mem_sbrk`; without one it fails when `mem_sbrk` does, and otherwise returns the
end of the heap.  `blocks` are the blocks of the heap and `free` is its list. -/
structure FindsFit (h : Heap) (size : Nat) (blocks free : List Nat) : Prop where
  search : ∃ r, findFit (align size + DSIZE) h = some (r, h)
  fit : (∃ bp ∈ blocks, Fitting h (align size + DSIZE) bp) →
    ∃ front r back h', free = front ++ r :: back ∧ Fitting h (align size + DSIZE) r ∧
      (∀ bp ∈ front, ¬ Fitting h (align size + DSIZE) bp) ∧ r ≠ NULL ∧
      mmMalloc size h = some (r, h') ∧ mallocNoSbrk size h = some (r, h')
  grow : (∀ bp ∈ blocks, ¬ Fitting h (align size + DSIZE) bp) →
    ∃ r h', mmMalloc size h = some (r, h') ∧
      (r = NULL ↔ memSbrk (toInt (max (align size + DSIZE) CHUNKSIZE)) h = some (none, h)) ∧
      (r ≠ NULL → ∃ last, blocks.getLast? = some last ∧
        (getAlloc (hdrp last) h = some (0, h) ∧ r = last ∨
          getAlloc (hdrp last) h = some (1, h) ∧ r = h.memBrk))

section Blocks

variable {lo bsize x : Nat} {h : Heap} {bs : List Block} {d : Block}

/-- A block of the layout fits when it is free and large enough. -/
theorem Layout.fitting_iff (layout : Layout lo h bs) (at_ : (x, d) ∈ located (lo + 8) bs) :
    Fitting h bsize x ↔ d.alloc = false ∧ bsize ≤ d.size := by
  rw [Fitting, layout.getAlloc_zero_iff at_, layout.getSize_hdrp at_]
  constructor
  · rintro ⟨free, s, same, fits⟩
    cases same
    exact ⟨free, fits⟩
  · rintro ⟨free, fits⟩
    exact ⟨free, d.size, rfl, fits⟩

/-- Without a fitting block there is no fit, and conversely. -/
theorem Layout.noFit_walk (layout : Layout lo h bs) :
    (∀ bp ∈ pointers (lo + 8) bs, ¬ Fitting h bsize bp) ↔ NoFit lo bsize bs := by
  constructor
  · intro none x d at_ free
    have unfit := none x (List.mem_map.mpr ⟨(x, d), at_, rfl⟩)
    rw [layout.fitting_iff at_] at unfit
    exact Nat.lt_of_not_le fun fits => unfit ⟨free, fits⟩
  · intro none bp member fitting
    obtain ⟨⟨x, d⟩, at_, rfl⟩ := List.mem_map.mp member
    obtain ⟨free, fits⟩ := (layout.fitting_iff at_).mp fitting
    exact absurd fits (Nat.not_le_of_lt (none x d at_ free))

/-- `mem_sbrk` fails exactly when there is no room. -/
theorem memSbrk_none_iff {n : Nat} (limit : n < 2 ^ 32) :
    memSbrk (toInt n) h = some (none, h) ↔ ¬ Room h n := by
  constructor
  · intro failed room
    have grown : memSbrk (toInt n) h = some (some h.memBrk, h.grow n) :=
      run_of_wp ((wp_memSbrk_room room _).mpr ⟨rfl, rfl⟩)
    rw [failed] at grown
    cases grown
  · intro full
    exact run_of_wp ((wp_memSbrk_full full limit _).mpr ⟨rfl, rfl⟩)

/-- The block that an extension starts with: the last one if it is free,
otherwise the new one at the old break. -/
theorem Layout.last_cut (layout : Layout lo h bs) :
    ∃ last, (pointers (lo + 8) bs).getLast? = some last ∧
      (getAlloc (hdrp last) h = some (0, h) ∧ lo + 8 + span (cutFreeLast bs).1 = last ∨
        getAlloc (hdrp last) h = some (1, h) ∧ lo + 8 + span (cutFreeLast bs).1 = h.memBrk) := by
  have nonempty : bs ≠ [] := by
    rintro rfl
    exact nomatch layout.head
  obtain ⟨init, p, rfl, -⟩ := exists_before nonempty 0
  have pAt : (lo + 8 + span init, p) ∈ located (lo + 8) (init ++ [p]) := by simp
  have bit := layout.getAlloc_hdrp pAt
  refine ⟨lo + 8 + span init, by simp [pointers], ?_⟩
  rw [cutFreeLast_concat, bit]
  cases p.alloc with
  | false => exact .inl ⟨rfl, rfl⟩
  | true => exact .inr ⟨rfl, layout.brk_eq.symm⟩

end Blocks

/-! ## Runs -/

section Represented

variable {lo size : Nat} {h : Heap} {bs : List Block} {fl : List Nat}

/-- The first fit splits the free list at the first fitting block. -/
theorem Represents.first_fit {bsize r : Nat} {h' : Heap} (rep : Represents lo h bs fl)
    (search : FirstFit lo bs bsize fl r) (notNull : r ≠ NULL)
    (run : mmMalloc size h = some (r, h')) (stays : mallocNoSbrk size h = some (r, h')) :
    ∃ front r back h', fl = front ++ r :: back ∧ Fitting h bsize r ∧
      (∀ bp ∈ front, ¬ Fitting h bsize bp) ∧ r ≠ NULL ∧
      mmMalloc size h = some (r, h') ∧ mallocNoSbrk size h = some (r, h') := by
  have layout := rep.consistent.layout
  cases search with
  | @found front back _ b split at_ fits skipped =>
      obtain ⟨d, at', isFree⟩ := rep.consistent.free r (by simp [split])
      have free : b.alloc = false := located_unique at' at_ ▸ isFree
      refine ⟨front, r, back, h', split, (layout.fitting_iff at_).mpr ⟨free, fits⟩, ?_, notNull, run,
        stays⟩
      intro bp member fitting
      obtain ⟨d, bpAt, -⟩ := rep.consistent.free bp (by simp [split, member])
      have tooSmall := skipped bp member d bpAt
      have large := ((layout.fitting_iff bpAt).mp fitting).2
      omega
  | none small => exact absurd rfl notNull

/-- `mm_malloc` in a represented heap. -/
theorem Represents.findsFit (rep : Represents lo h bs fl) (positive : 0 < size)
    (small : size ≤ 2 ^ 32 - 16) : FindsFit h size (pointers (lo + 8) bs) fl := by
  have aligned : align size + DSIZE = (wanted size positive).size := by
    rw [align_eq (by omega)]
    rfl
  have layout := rep.consistent.layout
  have malloc := wp_mmMalloc rep positive small
  have stays := mallocNoSbrk_run rep positive small
  have widest : max (wanted size positive).size CHUNKSIZE < 2 ^ 32 := by
    simp only [wanted, CHUNKSIZE]
    omega
  obtain ⟨⟨r, h'⟩, run, outcome⟩ := malloc
  dsimp only at outcome
  refine ⟨?_, ?_, ?_⟩
  · have look : wp (findFit (wanted size positive).size) _ h :=
      wp_findFit rep.consistent.toThreaded
    obtain ⟨⟨r, h1⟩, looked, same, -⟩ := look
    rw [aligned]
    exact ⟨r, same ▸ looked⟩
  · rw [aligned]
    rintro ⟨bp, member, fitting⟩
    have unfit : ¬ NoFit lo (wanted size positive).size bs := fun none =>
      layout.noFit_walk.mpr none bp member fitting
    obtain ⟨-, same, -⟩ := stays.resolve_left fun stuck => unfit stuck.1
    cases outcome with
    | fit split behind isFree fits search updated settled =>
        exact rep.first_fit search (by unfold NULL; omega) run (same.trans run)
    | grown search isFree sized room updated settled =>
        exact absurd (search.noFit rep.settled) unfit
    | full search exhausted => exact absurd (search.noFit rep.settled) unfit
  · rw [aligned, layout.noFit_walk, memSbrk_none_iff widest]
    intro none
    refine ⟨r, h', run, ?_⟩
    cases outcome with
    | @fit front back b _ split behind isFree fits search updated settled =>
        subst split
        have bAt : (lo + 8 + span front, b) ∈ located (lo + 8) (front ++ b :: back) := by simp
        have tooSmall := none _ _ bAt isFree
        omega
    | grown search isFree sized room updated settled =>
        have notNull : lo + 8 + span (cutFreeLast bs).1 ≠ NULL := by
          unfold NULL
          omega
        rw [sized] at room
        refine ⟨iff_of_false notNull (fun full => full room), fun _ => layout.last_cut⟩
    | full search exhausted =>
        exact ⟨iff_of_true rfl exhausted, fun notNull => absurd rfl notNull⟩

end Represented

section Clients

variable {lo : Nat} {c : Client}

/-- In every run `mm_malloc` returns the first fitting block of the free list
if there is one, and otherwise the end of the heap as far as `mem_sbrk` lets
it. -/
theorem malloc_findsFit (reached : (Client.runs lo).Reachable c) {size : Nat}
    (positive : 0 < size) (small : size < 2 ^ 31) :
    ∃ blocks free, FreeListExact c.heap blocks free ∧ FindsFit c.heap size blocks free := by
  obtain ⟨-, bs, fl, rep, -⟩ := Serving.of_reachable reached
  exact ⟨_, _, rep.freeListExact, rep.findsFit positive (by omega)⟩

theorem malloc_findsFit_asking :
    ∃ blocks free, FreeListExact askingClient.heap blocks free ∧
      FindsFit askingClient.heap 5000 blocks free :=
  malloc_findsFit askingClient_reachable (by decide) (by decide)

end Clients

end SysProg.Malloc

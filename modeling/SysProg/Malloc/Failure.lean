import SysProg.Malloc.FreeOrder

/-!
# Failing calls

`mm_malloc` and `mm_realloc` return null only when the search along the free
list and `mem_sbrk` have both failed, and until then nothing has been written.
-/

namespace SysProg.Malloc

open Logic

/-- The block at `p`, which was asked for with `old` bytes, is allocated with the
same size and the same bytes in both heaps. -/
structure Kept (h : Heap) (p old : Nat) (h' : Heap) : Prop where
  block : ∃ bsize, Extent h p bsize 1 ∧ Extent h' p bsize 1 ∧ old + DSIZE ≤ bsize ∧
    ∀ i, i < bsize - DSIZE → h'.mem (p + i) = h.mem (p + i)

/-- Calls that return null leave the heap as it was, and with it the old block
of `mm_realloc`. -/
structure FailsAtomically (c : Client) (p size : Nat) : Prop where
  malloc : ∃ r h', mmMalloc size c.heap = some (r, h') ∧ (r = NULL → h' = c.heap)
  realloc : ∃ r h', mmRealloc p size c.heap = some (r, h') ∧
    (r = NULL → h' = c.heap ∧ ∀ old, (p, old) ∈ c.live → Kept c.heap p old h')

section Clients

variable {lo : Nat} {c : Client} {p size : Nat}

/-- A live block of an unchanged heap. -/
theorem Owns.kept {h : Heap} {bs : List Block} {fl : List Nat} {live : List (Nat × Nat)}
    (owns : Owns lo bs live) (rep : Represents lo h bs fl) {old : Nat} (member : (p, old) ∈ live) :
    Kept h p old h := by
  obtain ⟨d, at_, taken, fits⟩ := owns.backed p old member
  have extent := rep.consistent.layout.extent at_
  rw [taken] at extent
  refine ⟨d.size, extent, extent, ?_, fun _ _ => rfl⟩
  unfold DSIZE
  omega

/-- `mm_malloc` of a nonzero size. -/
theorem Represents.malloc_atomic {h : Heap} {bs : List Block} {fl : List Nat}
    (rep : Represents lo h bs fl) (positive : 0 < size) (small : size < 2 ^ 31) :
    ∃ r h', mmMalloc size h = some (r, h') ∧ (r = NULL → h' = h) := by
  obtain ⟨⟨r, h'⟩, run, outcome⟩ := wp_mmMalloc rep positive (by omega)
  refine ⟨r, h', run, fun null => ?_⟩
  rcases outcome.handed rep rfl with ⟨-, same⟩ | ⟨bs', fl', handed⟩
  · exact same
  · exact absurd null handed.ne_null

/-- In every run a call of `mm_malloc` or `mm_realloc` that returns null changes
nothing. -/
theorem fails_atomically (reached : (Client.runs lo).Reachable c) (owned : c.Owned p)
    (positive : 0 < size) (small : size < 2 ^ 31) : FailsAtomically c p size := by
  obtain ⟨unchecked, bs, fl, rep, owns⟩ := Serving.of_reachable reached
  refine ⟨rep.malloc_atomic positive small, ?_⟩
  have kept : ∀ {h'}, h' = c.heap → h' = c.heap ∧ ∀ old, (p, old) ∈ c.live →
      Kept c.heap p old h' := by
    rintro h' rfl
    exact ⟨rfl, fun old member => owns.kept rep member⟩
  by_cases null : p = NULL
  · obtain ⟨r, h', run, atomic⟩ := rep.malloc_atomic positive small
    refine ⟨r, h', ?_, fun failed => kept (atomic failed)⟩
    rw [mmRealloc, if_pos null]
    exact run
  · obtain ⟨front, b, back, rfl, rfl, taken, behind⟩ := owns.split_at (owned.resolve_left null)
    obtain ⟨⟨r, h'⟩, run, outcome⟩ := wp_mmRealloc rep unchecked behind taken positive small
    refine ⟨r, h', run, fun failed => kept ?_⟩
    rcases outcome.handed rep behind taken with ⟨-, same⟩ | ⟨bs', fl', handed, -⟩
    · exact same
    · exact absurd failed handed.ne_null

theorem fails_atomically_asking : FailsAtomically askingClient 4120 2000000000 := by
  have owned : askingClient.Owned 4120 := .inr (by simp [askingClient_live])
  exact fails_atomically askingClient_reachable owned (by decide) (by decide)

end Clients

end SysProg.Malloc

import SysProg.Implicit.Interface
import SysProg.Malloc.Equivalence
import SysProg.Malloc.Growth
import SysProg.Malloc.Placement

/-!
# The allocator of `mm_explicit.c`

The first version with a free list allocates and frees as the later ones do.  Its
`mm_realloc` always moves the block: it copies the old one with its tag words, as far as
the new size goes, and then frees it.
-/

namespace SysProg.Malloc

open Logic

namespace Copying

/-- `mm_realloc`. -/
def mmRealloc (ptr size : Nat) : MM Nat := do
  let newptr ← Explicit.mmMalloc size
  if newptr = NULL then pure NULL
  else do
    let copysize ← getSize (hdrp ptr)
    let copysize := if size < copysize then size else copysize
    Implicit.memcpy newptr ptr copysize
    mmFree ptr
    pure newptr

end Copying

/-- `mm_explicit.c`. -/
def Version.copying : Version :=
  ⟨Malloc.mmInit, Explicit.mmMalloc, Malloc.mmFree, Copying.mmRealloc⟩

/-! ## The heap never shrinks -/

theorem grows_explicit_place (bp bsize : Nat) : Grows (Explicit.place bp bsize) := by
  refine (grows_getSize _).bind fun _ => (grows_cutOut bp).bind fun _ => ?_
  refine .ite (grows_putTags _ _ _) ((grows_putSplitTags _ _ _).bind fun _ => ?_)
  refine grows_rootBp.bind fun _ => .ite ?_ ?_
  all_goals
    exact (grows_nextBlkp bp).bind fun _ => (grows_setRoot _).bind fun _ => .pure _

theorem grows_clean_mmMalloc (size : Nat) : Grows (Clean.mmMalloc size) :=
  grows_mallocWith grows_place size

theorem grows_explicit_mmMalloc (size : Nat) : Grows (Explicit.mmMalloc size) :=
  grows_mallocWith grows_explicit_place size

theorem grows_clean_reallocAbsorbNext (ptr newbsize totalbsize : Nat) :
    Grows (Clean.reallocAbsorbNext ptr newbsize totalbsize) := by
  refine (grows_nextBlkp _).bind fun _ => (grows_cutOut _).bind fun _ => ?_
  refine (grows_putSplitTags _ _ _).bind fun _ => (grows_nextBlkp _).bind fun _ => ?_
  exact (grows_coalesce _).bind fun _ => (grows_setRoot _).bind fun _ => .pure _

/-! ## The copy -/

section Copy

variable {lo : Nat} {h : Heap} {live : List (Nat × Nat)} {p ptr size old : Nat}

/-- The owner of a block overwrites it. -/
theorem Serving.overwrite (serving : Serving lo ⟨h, live⟩) (owned : (p, size) ∈ live) {m : Mem}
    (only : ∀ i, ¬ (p ≤ i ∧ i < p + size) → m i = h.mem i) :
    Served lo ⟨h, live⟩ p ⟨h.withMem m, live⟩ := by
  obtain ⟨unchecked, bs, fl, rep, owns⟩ := serving
  refine ⟨⟨unchecked, bs, fl, rep.overwrite fun i outside => only i ?_, owns⟩, ?_⟩
  · rintro ⟨lower, upper⟩
    exact outside (owns.clientByte owned lower upper)
  · intro q n member differ
    refine ⟨member, fun i inside => only _ ?_⟩
    have apart := owns.apart member owned differ
    omega

/-- Between two blocks of a client the copy is defined.  It stays inside the new block and
takes along what the client has in the old one. -/
theorem Serving.exists_copy (serving : Serving lo ⟨h, live⟩) (fresh : (p, size) ∈ live)
    (owned : (ptr, old) ∈ live) (differ : p ≠ ptr) :
    ∃ n, min old size ≤ n ∧ n ≤ size ∧ ∀ (rest : MM Nat) (post : Nat → Heap → Prop),
      wp (do
        let copysize ← getSize (hdrp ptr)
        let copysize := if size < copysize then size else copysize
        Implicit.memcpy p ptr copysize
        rest) post h ↔ wp rest post (h.withMem (copyBytes h.mem p ptr n)) := by
  obtain ⟨-, bs, fl, rep, owns⟩ := serving
  obtain ⟨d, dAt, -, dWide⟩ := owns.backed p size fresh
  obtain ⟨e, eAt, -, eWide⟩ := owns.backed ptr old owned
  have layout : Layout lo h bs := rep.consistent.layout
  have start := layout.start_eq
  have dBounds := layout.bounds dAt
  have eBounds := layout.bounds eAt
  have length : (if size < e.size then size else e.size) = min size e.size := by
    split <;> omega
  -- The tags behind the old payload still belong to its block, so the blocks being disjoint
  -- is enough.
  have apart : p + min size e.size ≤ ptr ∨ ptr + min size e.size ≤ p := by
    rcases located_disjoint dAt eAt with ⟨same, -⟩ | before | behind
    · exact absurd same differ
    · omega
    · omega
  refine ⟨min size e.size, by omega, by omega, fun rest post => ?_⟩
  rw [wp_bind, layout.wp_getSize_hdrp eAt, length, wp_bind]
  exact Implicit.wp_memcpy apart (by omega) (by omega) _

end Copy

/-! ## `mm_realloc` from a client's view -/

section Serve

variable {lo : Nat} {h : Heap} {live : List (Nat × Nat)} {ptr size old : Nat}

/-- A client's pointer is not null. -/
theorem Serving.not_null (serving : Serving lo ⟨h, live⟩) (owned : (ptr, old) ∈ live) :
    ptr ≠ NULL := by
  obtain ⟨-, bs, fl, -, owns⟩ := serving
  have kept : (ptr, old) ∈ giveBack NULL live := owns.giveBack_null.symm ▸ owned
  exact (Owns.mem_giveBack.mp kept).2

/-- The two versions allocate alike for a client. -/
theorem Serving.explicit_mmMalloc_eq (serving : Serving lo ⟨h, live⟩) (small : size < 2 ^ 31) :
    Explicit.mmMalloc size h = mmMalloc size h := by
  obtain ⟨-, bs, fl, rep, -⟩ := serving
  exact Malloc.explicit_mmMalloc_eq rep small

/-- `mm_realloc` of a live block: the new block is the one that `mm_malloc` hands out, it
holds the bytes that the client keeps, and the old block is freed. -/
theorem Serving.copying_realloc (serving : Serving lo ⟨h, live⟩) (owned : (ptr, old) ∈ live)
    (small : size < 2 ^ 31) :
    wp (Copying.mmRealloc ptr size) (fun r t =>
      ∃ h1, mmMalloc size h = some (r, h1) ∧
        (r = NULL ∧ t = h1 ∨
          r ≠ NULL ∧ Served lo ⟨h, live⟩ ptr ⟨t, (r, size) :: giveBack ptr live⟩ ∧
            ∀ i < min old size, t.mem (r + i) = h.mem (ptr + i))) h := by
  have same := serving.explicit_mmMalloc_eq small
  obtain ⟨⟨r, h1⟩, run, served⟩ := Serving.malloc serving small
  unfold Copying.mmRealloc
  refine (wp_bind_of_run (same.trans run) _ _).mpr ?_
  by_cases failed : r = NULL
  · rw [if_pos failed, wp_pure]
    exact ⟨h1, failed ▸ run, .inl ⟨rfl, rfl⟩⟩
  rw [if_neg failed]
  have serving1 : Serving lo ⟨h1, (r, size) :: live⟩ := by
    have serving1 := served.serving
    rwa [take, if_neg failed] at serving1
  have kept1 : ∀ p s, (p, s) ∈ live → ∀ i < s, h1.mem (p + i) = h.mem (p + i) :=
    fun p s member => (served.kept p s member (serving.not_null member)).2
  have fresh : (r, size) ∈ (r, size) :: live := List.mem_cons_self
  have owned1 : (ptr, old) ∈ (r, size) :: live := List.mem_cons_of_mem _ owned
  have distinct : r ∉ live.map Prod.fst := by
    obtain ⟨-, bs, fl, -, owns⟩ := serving1
    exact (List.nodup_cons.mp owns.distinct).1
  have others : ∀ {p s}, (p, s) ∈ live → p ≠ r := by
    rintro p s member rfl
    exact distinct (List.mem_map_of_mem (f := Prod.fst) member)
  have differ : ptr ≠ r := others owned
  obtain ⟨n, enough, within, copies⟩ := serving1.exists_copy fresh owned1 differ.symm
  refine (copies _ _).mpr ?_
  have served2 := serving1.overwrite (m := copyBytes h1.mem r ptr n) fresh fun i outside =>
    copyBytes_outside (by omega)
  rw [wp_bind]
  refine wp_mono (@Serving.free lo _ served2.serving ptr
    (.inr (List.mem_map_of_mem (f := Prod.fst) owned1))) ?_
  rintro _ t freed
  have left : giveBack ptr ((r, size) :: live) = (r, size) :: giveBack ptr live :=
    List.filter_cons_of_pos (decide_eq_true differ.symm)
  rw [wp_pure]
  refine ⟨h1, run, .inr ⟨failed, ⟨left ▸ freed.serving, ?_⟩, ?_⟩⟩
  · intro p s member away
    have member1 : (p, s) ∈ (r, size) :: live := List.mem_cons_of_mem _ member
    refine ⟨List.mem_cons_of_mem _ (Owns.mem_giveBack.mpr ⟨member, away⟩), fun i inside => ?_⟩
    calc t.mem (p + i) = copyBytes h1.mem r ptr n (p + i) :=
          (freed.kept p s member1 away).2 i inside
      _ = h1.mem (p + i) := (served2.kept p s member1 (others member)).2 i inside
      _ = h.mem (p + i) := kept1 p s member i inside
  · intro i inside
    calc t.mem (r + i) = copyBytes h1.mem r ptr n (r + i) :=
          (freed.kept r size fresh differ.symm).2 i (by omega)
      _ = h1.mem (ptr + i) := copyBytes_inside (by omega)
      _ = h.mem (ptr + i) := kept1 ptr old owned i (by omega)

end Serve

end SysProg.Malloc

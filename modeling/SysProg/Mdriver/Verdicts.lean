import SysProg.Implicit.Contract
import SysProg.Malloc.Fits
import SysProg.Malloc.Placement
import SysProg.Mdriver.Promises

/-!
# The driver on the allocators of the lab

Both `mm.c` and `mm_implicit.c` keep the promises that the driver checks, so its
verdict on them is justified for every trace.
-/

namespace SysProg.Mdriver

open Logic Malloc

/-- No free block of the walk from `start` on is large enough for the size, and
`mem_sbrk` fails. -/
structure NoMemory (start : Nat) (h : Heap) (n : Nat) : Prop where
  unfit : ∃ blocks, BlockWalk h start blocks ∧ ∀ bp ∈ blocks, ¬ Fitting h (align n + DSIZE) bp
  limit : memSbrk (toInt (max (align n + DSIZE) CHUNKSIZE)) h = some (none, h)

theorem wanted_size {n : Nat} (positive : 0 < n) (small : n < 2 ^ 31) :
    align n + DSIZE = (wanted n positive).size ∧
      max (wanted n positive).size CHUNKSIZE < 2 ^ 32 := by
  constructor
  · rw [align_eq (by omega)]
    rfl
  · simp only [wanted, CHUNKSIZE]
    omega

theorem setBytes_outside {m : Mem} {p n i : Nat} {v : UInt8} (outside : ¬ (p ≤ i ∧ i < p + n)) :
    setBytes m p v n i = m i :=
  if_neg outside

/-- The blocks that a request is not about are spared. -/
theorem spared_giveBack {pkg : Package Heap} {live : List (Nat × Nat)} {h t : Heap}
    (bytes : pkg.byte = Heap.mem) (ptr : Nat)
    (kept : ∀ p n, (p, n) ∈ live → p ≠ ptr → ∀ i < n, t.mem (p + i) = h.mem (p + i)) :
    Spared pkg (giveBack ptr live) h t := by
  intro p n member i inside
  obtain ⟨old, differ⟩ := Owns.mem_giveBack.mp member
  rw [bytes]
  exact kept p n old differ i inside

/-- No live block is at the null pointer. -/
theorem giveBack_null_of_backed (a : Nat) (bs : List Block) {live : List (Nat × Nat)}
    (low : 0 < a) (backed : ∀ p s, (p, s) ∈ live → ∃ d, (p, d) ∈ located a bs) :
    giveBack NULL live = live := by
  refine List.filter_eq_self.mpr ?_
  rintro ⟨p, s⟩ member
  obtain ⟨d, at_⟩ := backed p s member
  have bounds := located_bounds at_
  have notNull : p ≠ NULL := by
    unfold NULL
    omega
  exact decide_eq_true notNull

/-! ## `mm.c` -/

section Final

variable {lo : Nat} {h : Heap} {live : List (Nat × Nat)}

theorem owned_of_live {p n : Nat} (member : (p, n) ∈ live) : Client.Owned ⟨h, live⟩ p :=
  .inr (List.mem_map_of_mem member)

/-- Where `mm_malloc` finds no memory. -/
theorem noMemory_of_malloc {bs : List Block} {fl : List Nat} {n r : Nat} {positive : 0 < n}
    {t : Heap} (rep : Represents lo h bs fl) (small : n < 2 ^ 31)
    (outcome : MallocOutcome lo h bs fl (wanted n positive) r t) (null : r = NULL) :
    NoMemory h.prolBp h n := by
  obtain ⟨aligned, widest⟩ := wanted_size positive small
  have layout := rep.consistent.layout
  have unfit := layout.noFit_walk.mpr ((outcome.search_of_null null).noFit rep.settled)
  constructor
  · rw [aligned]
    exact ⟨_, layout.blockWalk, unfit⟩
  · rw [aligned, memSbrk_none_iff widest]
    unfold NULL at null
    cases outcome with
    | fit => omega
    | grown => omega
    | full search exhausted => exact exhausted

/-- Where `mm_realloc` finds no memory. -/
theorem noMemory_of_realloc {front back : List Block} {b : Block} {fl : List Nat} {n r : Nat}
    {positive : 0 < n} {t : Heap} (rep : Represents lo h (front ++ b :: back) fl)
    (small : n < 2 ^ 31) (outcome : ReallocOutcome lo h front b back fl (wanted n positive) r t)
    (null : r = NULL) : NoMemory h.prolBp h n := by
  cases outcome with
  | moved tight differs malloc handed copied => exact absurd null handed.ne_null
  | full tight differs malloc => exact noMemory_of_malloc rep small malloc rfl
  | _ =>
      unfold NULL at null
      omega

/-- `mm_realloc` of a live block fails where there is no memory, and otherwise the
bytes that were asked for are where it points. -/
theorem realloc_of_serving (serving : Serving lo ⟨h, live⟩) {p m n : Nat} (member : (p, m) ∈ live)
    (positive : 0 < n) (small : n < 2 ^ 31) :
    wp (mmRealloc p n) (fun q t => if q = NULL then NoMemory h.prolBp h n else
      ∀ i < min m n, t.mem (q + i) = h.mem (p + i)) h := by
  obtain ⟨unchecked, bs, fl, rep, owns⟩ := serving
  obtain ⟨d, at_, -, wide⟩ := owns.backed p m member
  obtain ⟨front, b, back, rfl, rfl, taken, behind⟩ := owns.split_at (List.mem_map_of_mem member)
  obtain rfl : d = b := located_unique at_ (by simp)
  refine wp_mono (wp_mmRealloc rep unchecked behind taken positive small) ?_
  intro q t outcome
  by_cases null : q = NULL
  · rw [if_pos null]
    exact noMemory_of_realloc rep small outcome null
  · rw [if_neg null]
    intro i inside
    obtain ⟨nothing, -⟩ | ⟨bs', fl', -, copied⟩ := outcome.handed rep behind taken
    · exact absurd nothing null
    · refine copied i (by omega) ?_
      simp only [wanted]
      omega

/-- `mm_malloc` fails where there is no memory. -/
theorem malloc_of_serving (serving : Serving lo ⟨h, live⟩) {n : Nat} (positive : 0 < n)
    (small : n < 2 ^ 31) :
    wp (mmMalloc n) (fun p _ => p = NULL → NoMemory h.prolBp h n) h := by
  obtain ⟨-, bs, fl, rep, -⟩ := serving
  refine wp_mono (wp_mmMalloc rep positive (by omega)) ?_
  exact fun _ _ outcome null => noMemory_of_malloc rep small outcome null

/-- `memset` on a block leaves the heap represented. -/
theorem serving_memset (serving : Serving lo ⟨h, live⟩) {p n : Nat} {v : UInt8}
    (member : (p, n) ∈ live) : Serving lo ⟨h.withMem (setBytes h.mem p v n), live⟩ := by
  obtain ⟨unchecked, bs, fl, rep, owns⟩ := serving
  refine ⟨unchecked, bs, fl, rep.overwrite fun i outside => setBytes_outside ?_, owns⟩
  rintro ⟨lower, upper⟩
  exact outside (owns.clientByte member lower upper)

/-- The terms of `mm.c` over a storage from `lo` to `limit`. -/
def mmTerms (lo limit : Nat) : Terms Heap where
  Ready := Storage lo limit
  Cramped _ := limit < lo + 24 + CHUNKSIZE
  Serves h live := Serving lo ⟨h, live⟩
  Full h := NoMemory h.prolBp h

/-- `mm.c` keeps the promises. -/
theorem mm_promises (lo limit : Nat) : Promises mm (mmTerms lo limit) where
  starts := by
    intro h storage
    refine ⟨_, rfl, ?_⟩
    obtain ⟨⟨status, g⟩, run, holds⟩ := wp_mmInit storage.fresh
    refine ⟨_, run, ?_⟩
    rcases holds with ⟨failed, cramped⟩ | ⟨started, -⟩
    · rw [storage.limit_eq] at cramped
      rw [if_pos (by omega)]
      exact cramped
    · subst started
      exact storage.serving run
  placed := by
    rintro h live p n ⟨-, bs, fl, rep, owns⟩ member
    obtain ⟨d, at_, -, -⟩ := owns.backed p n member
    have layout := rep.consistent.layout
    have start : h.memStartBrk = lo := layout.start_eq
    have prologue : h.prolBp = lo + 8 := layout.prol_eq
    have between : h.prolBp + 16 ≤ p ∧ p + n ≤ h.memBrk - 4 :=
      (owns.isolated rep.consistent.toThreaded).between p n member
    dsimp only [mm, ALIGNMENT]
    refine ⟨layout.aligned at_, ?_, ?_⟩
    · omega
    · omega
  apart := by
    rintro h live ⟨-, bs, fl, rep, owns⟩
    exact (owns.isolated rep.consistent.toThreaded).disjoint
  malloc := by
    intro h live n serving positive small
    refine wp_mono (wp_and (Serving.malloc serving small)
      (malloc_of_serving serving positive small)) ?_
    rintro p t ⟨served, full⟩
    by_cases null : p = NULL
    · rw [if_pos null]
      exact full null
    · have serving' := served.serving
      have nothing : giveBack NULL live = live := by
        obtain ⟨-, bs, fl, -, owns⟩ := serving
        exact owns.giveBack_null
      have spared : Spared mm (giveBack NULL live) h t :=
        spared_giveBack rfl NULL fun q m member differ => (served.kept q m member differ).2
      rw [take, if_neg null] at serving'
      rw [nothing] at spared
      rw [if_neg null]
      exact ⟨serving', spared⟩
  realloc := by
    intro h live p m n serving member positive small
    refine wp_mono (wp_and (Serving.realloc serving (owned_of_live member) small)
      (realloc_of_serving serving member positive small)) ?_
    rintro q t ⟨served, outcome⟩
    by_cases null : q = NULL
    · rw [if_pos null] at outcome ⊢
      exact outcome
    · have serving' := served.serving
      rw [if_neg (fun failed => null failed.1), take, if_neg null] at serving'
      rw [if_neg null] at outcome ⊢
      refine ⟨serving', spared_giveBack rfl p ?_, outcome⟩
      exact fun r k member differ => (served.kept r k member differ).2
  free := by
    intro h live p n serving member
    refine wp_mono (Serving.free serving (owned_of_live member)) ?_
    intro _ t served
    refine ⟨served.serving, spared_giveBack rfl p ?_⟩
    exact fun q m member differ => (served.kept q m member differ).2
  memset := fun serving member => serving_memset serving member
  memset_byte := rfl

/-- On `mm.c` the driver comes to a verdict for every trace.  It complains only where
`mem_sbrk` fails and no free block is large enough, and at the first reallocation of
a block whose index ends in a byte from 128 on, which it always rejects. -/
theorem mm_verdict {lo limit : Nat} {r : Replay Heap} {ops : List Traceop}
    (storage : Storage lo limit r.state) (wellFormed : WellFormed r.slots [] ops)
    (positive : ∀ op ∈ ops, op.Positive) :
    ∃ verdict r', evalMmValid mm ops r = some (verdict, r') ∧
      (limit < lo + 24 + CHUNKSIZE ∧ verdict = some (0, .initFailed) ∨
        Verdict (mmTerms lo limit) (fun before r1 => evalMmValid mm before r = some (none, r1)) 0
          ops verdict) := by
  obtain ⟨⟨verdict, r'⟩, run, judged⟩ :=
    (mm_promises lo limit).wp_evalMmValid storage wellFormed positive
  exact ⟨verdict, r', run, judged⟩

/-- A block whose index is 200 grows. -/
def negativeTrace : List Traceop := [.alloc 200 8, .realloc 200 16]

theorem blank_storage : Storage 4096 (4096 + 2 ^ 20) blankReplay.state :=
  ⟨rfl, rfl, rfl, by decide, rfl⟩

theorem mm_verdict_negative :
    ∃ verdict r', evalMmValid mm negativeTrace blankReplay = some (verdict, r') ∧
      (4096 + 2 ^ 20 < 4096 + 24 + CHUNKSIZE ∧ verdict = some (0, .initFailed) ∨
        Verdict (mmTerms 4096 (4096 + 2 ^ 20))
          (fun before r1 => evalMmValid mm before blankReplay = some (none, r1)) 0 negativeTrace
          verdict) :=
  mm_verdict blank_storage (by decide) (by decide)

example : (evalMmValid mm negativeTrace blankReplay).map Prod.fst =
    some (some (1, .notPreserved)) := by
  decide +kernel

end Final

/-! ## `mm_implicit.c` -/

/-- `mm_implicit.c` over `memlib.c`. -/
def mmImplicit : Package Heap :=
  { mm with
    mmInit := Implicit.mmInit
    mmMalloc := Implicit.mmMalloc
    mmFree := Implicit.mmFree
    mmRealloc := Implicit.mmRealloc }

section First

variable {lo : Nat} {h : Heap} {live : List (Nat × Nat)}

/-- Where the first `mm_malloc` finds no memory. -/
theorem implicit_noMemory {listp : Nat} {bs : List Block} {n r : Nat} {positive : 0 < n} {t : Heap}
    (rep : Implicit.Represents listp h bs) (small : n < 2 ^ 31)
    (outcome : Implicit.MallocOutcome listp h bs (wanted n positive) r t) (null : r = NULL) :
    NoMemory (h.prolBp + 8) h n := by
  obtain ⟨aligned, widest⟩ := wanted_size positive small
  cases outcome with
  | fit search notNull => exact absurd null notNull
  | grown search handed => exact absurd null handed.ne_null
  | full search exhausted =>
      constructor
      · rw [aligned]
        refine ⟨_, rep.wellFormed.tiled, fun bp member fitting => ?_⟩
        exact (search.lowest rep.tiling ⟨bp, member, fitting⟩).1 rfl
      · rw [aligned]
        exact (memSbrk_none_iff widest).mpr exhausted

theorem implicit_malloc_full (serving : Implicit.Serving lo ⟨h, live⟩) {n : Nat}
    (positive : 0 < n) (small : n < 2 ^ 31) :
    wp (Implicit.mmMalloc n) (fun p _ => p = NULL → NoMemory (h.prolBp + 8) h n) h := by
  obtain ⟨bs, rep, -⟩ := serving
  refine wp_mono (Implicit.wp_mmMalloc rep positive (by omega)) ?_
  exact fun _ _ outcome null => implicit_noMemory rep small outcome null

/-- The first `mm_realloc` returns null only where its `mm_malloc` does. -/
theorem implicit_realloc_null {p n q : Nat} {t : Heap}
    (run : Implicit.mmRealloc p n h = some (q, t)) (null : q = NULL) :
    ∃ t', Implicit.mmMalloc n h = some (NULL, t') := by
  obtain ⟨⟨r, t'⟩, malloc, rest⟩ := Option.bind_eq_some_iff.mp run
  refine ⟨t', ?_⟩
  dsimp only at rest
  by_cases failed : r = NULL
  · exact failed ▸ malloc
  · rw [if_neg failed] at rest
    obtain ⟨⟨copysize, t1⟩, -, rest⟩ := Option.bind_eq_some_iff.mp rest
    obtain ⟨⟨_, t2⟩, -, rest⟩ := Option.bind_eq_some_iff.mp rest
    obtain ⟨⟨_, t3⟩, -, rest⟩ := Option.bind_eq_some_iff.mp rest
    cases rest
    exact absurd null failed

/-- The terms of `mm_implicit.c` over a storage from `lo` to `limit`. -/
def implicitTerms (lo limit : Nat) : Terms Heap where
  Ready := Storage lo limit
  Cramped _ := limit < lo + 16 + CHUNKSIZE
  Serves h live := lo % 8 = 0 ∧ Implicit.Serving lo ⟨h, live⟩
  Full h := NoMemory (h.prolBp + 8) h

/-- `mm_implicit.c` keeps the promises. -/
theorem implicit_promises (lo limit : Nat) : Promises mmImplicit (implicitTerms lo limit) where
  starts := by
    intro h storage
    refine ⟨_, rfl, ?_⟩
    obtain ⟨⟨status, g⟩, run, holds⟩ := Implicit.wp_mmInit storage.fresh
    refine ⟨_, run, ?_⟩
    rcases holds with ⟨failed, cramped⟩ | ⟨started, -⟩
    · rw [storage.limit_eq] at cramped
      rw [if_pos (by omega)]
      exact cramped
    · subst started
      exact ⟨storage.start_aligned, .start ⟨_, storage.fresh, run, rfl⟩⟩
  placed := by
    rintro h live p n ⟨aligned, bs, rep, owns⟩ member
    obtain ⟨d, at_, -, wide⟩ := owns.backed p n member
    have bounds := rep.tiling.bounds at_
    have start : h.memStartBrk + 8 = lo + 8 := rep.tiling.start_eq
    dsimp only [mmImplicit, mm, ALIGNMENT]
    refine ⟨located_aligned (by omega) at_, ?_, ?_⟩
    · omega
    · have below : p + d.size ≤ h.memBrk := bounds.2
      omega
  apart := by
    rintro h live ⟨-, bs, rep, owns⟩
    exact (owns.held rep.tiling).disjoint
  malloc := by
    rintro h live n ⟨aligned, serving⟩ positive small
    refine wp_mono (wp_and (Implicit.Serving.malloc serving small)
      (implicit_malloc_full serving positive small)) ?_
    rintro p t ⟨served, full⟩
    by_cases null : p = NULL
    · rw [if_pos null]
      exact full null
    · have serving' := served.serving
      have nothing : giveBack NULL live = live := by
        obtain ⟨bs, rep, owns⟩ := serving
        refine giveBack_null_of_backed (lo + 8 + 8) bs (by omega) fun p s member => ?_
        obtain ⟨d, at_, -⟩ := owns.backed p s member
        exact ⟨d, at_⟩
      have spared : Spared mmImplicit (giveBack NULL live) h t :=
        spared_giveBack rfl NULL fun q m member differ => (served.kept q m member differ).2
      rw [take, if_neg null] at serving'
      rw [nothing] at spared
      rw [if_neg null]
      exact ⟨⟨aligned, serving'⟩, spared⟩
  realloc := by
    rintro h live p m n ⟨aligned, serving⟩ member positive small
    obtain ⟨⟨q, t⟩, run, served, outcome⟩ := Implicit.Serving.realloc serving member positive small
    refine ⟨_, run, ?_⟩
    dsimp only at served outcome ⊢
    by_cases null : q = NULL
    · rw [if_pos null]
      obtain ⟨t', failed⟩ := implicit_realloc_null run null
      exact wp_elim (implicit_malloc_full serving positive small) failed rfl
    · have serving' := served.serving
      rw [if_neg null, take, if_neg null] at serving'
      rw [if_neg null]
      refine ⟨⟨aligned, serving'⟩, spared_giveBack rfl p ?_, ?_⟩
      · exact fun r k member differ => (served.kept r k member differ).2
      · exact (outcome.resolve_left fun failed => null failed.1).2
  free := by
    rintro h live p n ⟨aligned, serving⟩ member
    refine wp_mono (Implicit.Serving.free serving member) ?_
    intro _ t served
    refine ⟨⟨aligned, served.serving⟩, spared_giveBack rfl p ?_⟩
    exact fun q m member differ => (served.kept q m member differ).2
  memset := by
    rintro h live p n v ⟨aligned, bs, rep, owns⟩ member
    refine ⟨aligned, bs, ⟨rep.tiling.overwrite fun i outside => setBytes_outside ?_, rep.sparse⟩,
      owns⟩
    rintro ⟨lower, upper⟩
    exact outside (owns.payloadByte member lower upper)
  memset_byte := rfl

/-- The same holds of `mm_implicit.c`. -/
theorem implicit_verdict {lo limit : Nat} {r : Replay Heap} {ops : List Traceop}
    (storage : Storage lo limit r.state) (wellFormed : WellFormed r.slots [] ops)
    (positive : ∀ op ∈ ops, op.Positive) :
    ∃ verdict r', evalMmValid mmImplicit ops r = some (verdict, r') ∧
      (limit < lo + 16 + CHUNKSIZE ∧ verdict = some (0, .initFailed) ∨
        Verdict (implicitTerms lo limit)
          (fun before r1 => evalMmValid mmImplicit before r = some (none, r1)) 0 ops verdict) := by
  obtain ⟨⟨verdict, r'⟩, run, judged⟩ :=
    (implicit_promises lo limit).wp_evalMmValid storage wellFormed positive
  exact ⟨verdict, r', run, judged⟩

theorem implicit_verdict_growing :
    ∃ verdict r', evalMmValid mmImplicit growingTrace blankReplay = some (verdict, r') ∧
      (4096 + 2 ^ 20 < 4096 + 16 + CHUNKSIZE ∧ verdict = some (0, .initFailed) ∨
        Verdict (implicitTerms 4096 (4096 + 2 ^ 20))
          (fun before r1 => evalMmValid mmImplicit before blankReplay = some (none, r1)) 0
          growingTrace verdict) :=
  implicit_verdict blank_storage (by decide) (by decide)

end First

end SysProg.Mdriver

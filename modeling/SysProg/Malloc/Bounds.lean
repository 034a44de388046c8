import SysProg.Malloc.Resizing

/-!
# Accesses outside the heap

The requests are carried out once more on a heap that refuses every access
below its start or beyond its break.  Only one access is ever refused: the
copy of `mm_realloc` into the previous block has the length of the new
payload, which may reach from the old block beyond the break.
-/

namespace SysProg.Malloc

open Logic

/-- The same heap, refusing accesses outside. -/
def Heap.guarded (h : Heap) : Heap := { h with checked := true }

/-- The client over the guarded heap. -/
def Client.guarded (c : Client) : Client := { c with heap := c.heap.guarded }

/-- `mm_realloc` of `ptr` to `size` bytes absorbs the previous block, and the
bytes it copies to that block reach beyond the break. -/
structure Overreads (h : Heap) (ptr size : Nat) : Prop where
  resized : ptr ≠ NULL ∧ size ≠ 0
  absorbs : ∃ old prev, getSize (hdrp ptr) h = some (old, h) ∧
    (do getSize (← ftrp (← prevBlkp ptr)) : MM Nat) h = some (prev, h) ∧
    (do getAlloc (← ftrp (← prevBlkp ptr)) : MM Nat) h = some (0, h) ∧
    old < align size + DSIZE + MIN_BSIZE ∧ old ≠ align size + DSIZE ∧
    align size + DSIZE + MIN_BSIZE ≤ old + prev
  beyond : h.memBrk < ptr + align size

/-- The request is such a call. -/
def Request.Overreads (h : Heap) : Request → Prop
  | .realloc ptr size => SysProg.Malloc.Overreads h ptr size
  | _ => False

section Guard

variable {lo : Nat} {h : Heap} {bs back : List Block} {fl : List Nat} {b want : Block}

theorem Layout.guarded (layout : Layout lo h bs) : Layout lo h.guarded bs :=
  ⟨layout.start_eq, layout.start_aligned, layout.limit, layout.brk_le, layout.brk_eq,
    layout.prol_eq, layout.head, layout.tags, layout.epilogue⟩

/-- Guarding changes nothing that is represented. -/
theorem Represents.guarded (rep : Represents lo h bs fl) : Represents lo h.guarded bs fl where
  consistent :=
    { layout := rep.consistent.layout.guarded
      list := ⟨rep.consistent.list.root, rep.consistent.list.linked, rep.consistent.list.nodup⟩
      free := rep.consistent.free
      first := rep.consistent.first }
  settled := rep.settled

/-- A copy from beyond the break is refused. -/
theorem memmove_refused {g : Heap} {dst src n : Nat} (on : g.checked = true) (positive : 0 < n)
    (beyond : g.memBrk < src + n) : memmove dst src n g = none := by
  have refused : ¬ g.Accessible src n := by
    intro accessible
    have inside := accessible on positive
    omega
  unfold memmove
  rw [if_neg fun both => refused both.2]

/-- The branch that absorbs the previous block fails on the guarded heap when
the copy reaches beyond the break. -/
theorem reallocAbsorbPrev_refused {init : List Block} {p : Block} {totalbsize : Nat}
    (rep : Represents lo h (init ++ [p] ++ b :: back) fl) (on : h.checked = true)
    (isFree : p.alloc = false) (narrow : want.size < 2 ^ 32)
    (beyond : h.memBrk < lo + 8 + span init + p.size + (want.size - 8)) :
    reallocAbsorbPrev (lo + 8 + span init + p.size) want.size totalbsize h = none := by
  obtain ⟨c, settled⟩ := rep
  have pAt : (lo + 8 + span init, p) ∈ located (lo + 8) (init ++ [p] ++ b :: back) := by simp
  have member : lo + 8 + span init ∈ fl := settled.complete _ ⟨p, pAt, isFree⟩
  have wide := want.size_ge
  have length : sub32 want.size DSIZE = want.size - 8 :=
    sub32_eq (by unfold DSIZE; omega) narrow
  have found : prevBlkp (lo + 8 + span init + p.size) h = some (lo + 8 + span init, h) :=
    run_of_wp ((c.layout.wp_prevBlkp pAt _).mpr ⟨rfl, rfl⟩)
  obtain ⟨⟨_, h1⟩, cutRun, cut⟩ := wp_cutOut c member
  have sameBrk : h1.memBrk = h.memBrk :=
    cut.consistent.layout.brk_eq.trans c.layout.brk_eq.symm
  have refused : memmove (lo + 8 + span init) (lo + 8 + span init + p.size) (want.size - 8) h1 =
      none :=
    memmove_refused (cut.arena.checked.trans on) (by omega) (by rw [sameBrk]; exact beyond)
  unfold reallocAbsorbPrev
  rw [bind_run_of_run found, bind_run_of_run cutRun, length]
  change (memmove _ _ _ h1).bind _ = none
  rw [refused]
  rfl

end Guard

section Realloc

variable {lo size : Nat} {h : Heap} {init front back : List Block} {fl : List Nat} {p b : Block}

/-- The condition in terms of the block list. -/
theorem Layout.overreads_iff (layout : Layout lo h (init ++ [p] ++ b :: back))
    (positive : 0 < size) (small : size < 2 ^ 31) :
    Overreads h (lo + 8 + span init + p.size) size ↔
      AbsorbsPrev (init ++ [p]) b (wanted size positive) ∧
        h.memBrk < lo + 8 + span init + p.size + ((wanted size positive).size - 8) := by
  have pAt : (lo + 8 + span init, p) ∈ located (lo + 8) (init ++ [p] ++ b :: back) := by simp
  have bAt : (lo + 8 + span init + p.size, b) ∈
      located (lo + 8) (init ++ [p] ++ b :: back) := by simp [Nat.add_assoc]
  have merged : (b.merge [p] []).size = b.size + p.size := by
    simp [Block.merge, Nat.add_comm]
  have sizeRead := layout.getSize_hdrp bAt
  have prevRead : (do getSize (← ftrp (← prevBlkp (lo + 8 + span init + p.size))) : MM Nat) h =
      some (p.size, h) := by
    refine run_of_wp ?_
    rw [wp_bind, layout.wp_prevBlkp pAt, wp_bind, layout.wp_ftrp pAt,
      layout.wp_getSize_footer pAt]
    exact ⟨rfl, rfl⟩
  have bitRead : (do getAlloc (← ftrp (← prevBlkp (lo + 8 + span init + p.size))) : MM Nat) h =
      some (p.alloc.toNat, h) := layout.getAlloc_prev
  have aligned : align size = (wanted size positive).size - 8 := by
    rw [align_eq (by omega)]
    rfl
  have wide := (wanted size positive).size_ge
  generalize wanted size positive = want at *
  have total : align size + DSIZE = want.size := by
    unfold DSIZE
    omega
  have room : MIN_BSIZE = 16 := rfl
  constructor
  · rintro ⟨-, ⟨old, prev, oldRead, prevRead', bit, tight, differs, fits⟩, beyond⟩
    rw [sizeRead] at oldRead
    rw [prevRead] at prevRead'
    rw [bitRead] at bit
    cases oldRead
    cases prevRead'
    rw [total, room] at tight fits
    rw [total] at differs
    rw [aligned] at beyond
    refine ⟨⟨init, p, rfl, tight, differs, ?_, by omega⟩, beyond⟩
    cases free : p.alloc with
    | false => rfl
    | true =>
        rw [free] at bit
        cases bit
  · rintro ⟨⟨init', p', split, tight, differs, free, fits⟩, beyond⟩
    obtain ⟨rfl, same⟩ := List.append_inj' split rfl
    cases same
    rw [free] at bitRead
    rw [← aligned] at beyond
    refine ⟨⟨by unfold NULL; omega, by omega⟩, ⟨b.size, p.size, sizeRead, prevRead, bitRead, ?_⟩,
      beyond⟩
    rw [total, room]
    exact ⟨tight, differs, by omega⟩

/-- `mm_realloc` of an allocated block ends on the guarded heap unless it
overreads. -/
theorem mmRealloc_guarded_iff (rep : Represents lo h (front ++ b :: back) fl) (behind : front ≠ [])
    (taken : b.alloc = true) (positive : 0 < size) (small : size < 2 ^ 31) :
    (mmRealloc (lo + 8 + span front) size h.guarded).isSome ↔
      ¬ Overreads h (lo + 8 + span front) size := by
  have guarded := rep.guarded
  have layout := guarded.consistent.layout
  have run := wp_mmRealloc_readable guarded behind taken positive small
  obtain ⟨init, p, rfl, place⟩ := exists_before behind (lo + 8)
  have bAt : (lo + 8 + span init + p.size, b) ∈
      located (lo + 8) (init ++ [p] ++ b :: back) := by simp [Nat.add_assoc]
  have condition := rep.consistent.layout.overreads_iff positive small
  rw [place] at run ⊢
  by_cases reads : Overreads h (lo + 8 + span init + p.size) size
  · refine iff_of_false ?_ (fun claimed => claimed reads)
    obtain ⟨absorbs, beyond⟩ := condition.mp reads
    have narrow : (wanted size positive).size + 16 < 2 ^ 32 := by
      simp only [wanted]
      omega
    obtain ⟨branchRun, branch, select⟩ := exists_reallocBranch lo b behind positive
      narrow
    have ended := select layout mmMalloc reallocAbsorbNext
    rw [place] at ended
    rw [mmRealloc_eq, ended]
    cases branch with
    | shrink fits =>
        obtain ⟨-, -, -, tight, -⟩ := absorbs
        omega
    | same sized =>
        obtain ⟨-, -, -, -, differs, -⟩ := absorbs
        exact absurd sized differs
    | @prev init' p' split tight differs isFree fits =>
        obtain ⟨rfl, same⟩ := List.append_inj' split rfl
        cases same
        have refused : ∀ totalbsize, reallocAbsorbPrev (lo + 8 + span init + p.size)
            (wanted size positive).size totalbsize h.guarded = none := fun _ =>
          reallocAbsorbPrev_refused guarded rfl isFree (by omega) beyond
        simp only [place, refused]
        simp
    | next split tight differs noPrev isFree fits => exact absurd absorbs noPrev
    | move tight differs noPrev noNext => exact absurd absorbs noPrev
  · refine iff_of_true ?_ reads
    have start := layout.start_eq
    have bounds := layout.bounds bAt
    obtain ⟨result, ended, -⟩ := run fun absorbs => by
      refine Heap.accessible_inside (by omega) ?_
      change _ ≤ h.memBrk
      by_contra beyond
      exact reads (condition.mpr ⟨absorbs, by omega⟩)
    rw [ended]
    rfl

end Realloc

section Clients

variable {lo : Nat} {c : Client}

/-- In every run, a request accesses only bytes between the start and the break
of the heap, unless it is a call of `mm_realloc` that overreads. -/
theorem accesses_inside_iff (reached : (Client.runs lo).Reachable c) {request : Request}
    (allowed : c.Allowed request) :
    (c.guarded.serve request).isSome ↔ ¬ request.Overreads c.heap := by
  obtain ⟨-, bs, fl, rep, owns⟩ := Serving.of_reachable reached
  have malloc : ∀ {size}, size < 2 ^ 31 → (mmMalloc size c.heap.guarded).isSome := by
    intro size small
    by_cases zero : size = 0
    · subst zero
      rfl
    · obtain ⟨result, ended, -⟩ :=
        wp_mmMalloc rep.guarded (Nat.pos_of_ne_zero zero) (by omega : size ≤ 2 ^ 32 - 16)
      rw [ended]
      rfl
  have free : ∀ {ptr}, c.Owned ptr → (mmFree ptr c.heap.guarded).isSome := by
    rintro ptr (rfl | member)
    · rfl
    · obtain ⟨front, b, back, rfl, rfl, taken, behind⟩ := owns.split_at member
      obtain ⟨result, ended, -⟩ := wp_mmFree rep.guarded behind taken
      rw [ended]
      rfl
  cases allowed with
  | malloc small =>
      obtain ⟨⟨r, h'⟩, ended⟩ := Option.isSome_iff_exists.mp (malloc small)
      refine iff_of_true ?_ (fun reads => reads)
      simp [Client.serve, Client.guarded, ended]
  | free owned =>
      obtain ⟨⟨r, h'⟩, ended⟩ := Option.isSome_iff_exists.mp (free owned)
      refine iff_of_true ?_ (fun reads => reads)
      simp [Client.serve, Client.guarded, ended]
  | @realloc ptr size owned small =>
      have served : (c.guarded.serve (.realloc ptr size)).isSome =
          (mmRealloc ptr size c.heap.guarded).isSome := by
        simp only [Client.serve, Client.guarded]
        cases mmRealloc ptr size c.heap.guarded with
        | none => rfl
        | some result => rfl
      rw [served]
      by_cases null : ptr = NULL
      · refine iff_of_true ?_ (fun reads => reads.resized.1 null)
        simp only [mmRealloc, if_pos null]
        exact malloc small
      by_cases zero : size = 0
      · refine iff_of_true ?_ (fun reads => reads.resized.2 zero)
        obtain ⟨⟨r, h'⟩, ended⟩ := Option.isSome_iff_exists.mp (free owned)
        simp only [mmRealloc, if_neg null, if_pos zero]
        rw [bind_run_of_run ended]
        rfl
      obtain ⟨front, b, back, rfl, rfl, taken, behind⟩ := owns.split_at (owned.resolve_left null)
      exact mmRealloc_guarded_iff rep behind taken (Nat.pos_of_ne_zero zero) small
  | write owned inside => exact iff_of_true rfl (fun reads => reads)

theorem accesses_inside_asking : (askingClient.guarded.serve (.realloc 4120 100)).isSome ↔
    ¬ Request.Overreads askingClient.heap (.realloc 4120 100) :=
  accesses_inside_iff askingClient_reachable
    (.realloc (.inr (by simp [askingClient_live])) (by decide : 100 < 2 ^ 31))

/-- The client that then fills the rest of the first chunk. -/
def filledClient : Client := (askingClient.serve (.malloc 4048)).getD askingClient

/-- The client that then gives the first block back, so that a gap precedes the
last block of the heap. -/
def gapClient : Client := (filledClient.serve (.free 4120)).getD filledClient

/-- Growing the last block by eight bytes into the gap reads beyond the break. -/
theorem realloc_reads_outside : ¬ ∀ c : Client, (Client.runs 4096).Reachable c →
    ∀ request, c.Allowed request → (c.guarded.serve request).isSome := by
  intro claimed
  have filled : (Client.runs 4096).Reachable filledClient :=
    served_reachable askingClient_reachable (.malloc (by decide : 4048 < 2 ^ 31))
  have gap : (Client.runs 4096).Reachable gapClient :=
    served_reachable filled (.free (.inr (by decide +kernel)))
  have ends := claimed gapClient gap (.realloc 4152 4072)
    (.realloc (.inr (by decide +kernel)) (by decide))
  have fails : (gapClient.guarded.serve (.realloc 4152 4072)).isSome = false := by decide +kernel
  rw [fails] at ends
  cases ends

end Clients

end SysProg.Malloc

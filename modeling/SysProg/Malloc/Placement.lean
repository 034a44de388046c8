import SysProg.Malloc.Equivalence

/-!
# Placement does not depend on contents

Two heaps that represent the same blocks and the same free list may differ in
all payloads and in the storage above the break.  Every routine returns the
same pointer on both and leaves two such heaps, since it reads nothing but
boundary tags and links.
-/

namespace SysProg.Malloc

open Logic

/-- Two heaps that represent the same blocks and the same free list. -/
structure Twins (lo : Nat) (h h' : Heap) (bs : List Block) (fl : List Nat) : Prop where
  first : Represents lo h bs fl
  second : Represents lo h' bs fl
  limit : h'.memMaxAddr = h.memMaxAddr
  unchecked : h.checked = false
  unchecked' : h'.checked = false

/-- A routine returns the same pointer on two heaps and leaves twins. -/
def RunsAlike (lo : Nat) (x : MM Nat) (h h' : Heap) : Prop :=
  ∃ r g g' bs fl, x h = some (r, g) ∧ x h' = some (r, g') ∧ Twins lo g g' bs fl

section Runs

variable {lo : Nat} {h h' : Heap} {bs : List Block} {fl : List Nat} {x y : MM Nat}

theorem RunsAlike.of_wp {post post' : Nat → Heap → Prop} (run : wp x post h) (run' : wp x post' h')
    (agree : ∀ r g r' g', post r g → post' r' g' → r' = r ∧ ∃ bs fl, Twins lo g g' bs fl) :
    RunsAlike lo x h h' := by
  obtain ⟨⟨r, g⟩, ends, holds⟩ := run
  obtain ⟨⟨r', g'⟩, ends', holds'⟩ := run'
  obtain ⟨rfl, bs, fl, twins⟩ := agree r g r' g' holds holds'
  exact ⟨_, _, _, bs, fl, ends, ends', twins⟩

theorem RunsAlike.congr (alike : RunsAlike lo y h h') (same : x h = y h) (same' : x h' = y h') :
    RunsAlike lo x h h' := by
  obtain ⟨r, g, g', bs, fl, ends, ends', twins⟩ := alike
  exact ⟨r, g, g', bs, fl, same.trans ends, same'.trans ends', twins⟩

/-- What a routine leaves of twins, if it leaves the arena alone. -/
theorem Twins.after (twins : Twins lo h h' bs fl) {g g' : Heap} {bs' : List Block} {fl' : List Nat}
    (arena : SameArena h g) (arena' : SameArena h' g') (first : Represents lo g bs' fl')
    (second : Represents lo g' bs' fl') : Twins lo g g' bs' fl' where
  first := first
  second := second
  limit := (arena'.limit.trans twins.limit).trans arena.limit.symm
  unchecked := arena.checked.trans twins.unchecked
  unchecked' := arena'.checked.trans twins.unchecked'

/-- Twins have the same break. -/
theorem Twins.brk (twins : Twins lo h h' bs fl) : h'.memBrk = h.memBrk := by
  rw [twins.first.consistent.layout.brk_eq, twins.second.consistent.layout.brk_eq]

/-- Twins have the same room. -/
theorem Twins.room (twins : Twins lo h h' bs fl) {n : Nat} : Room h' n ↔ Room h n := by
  unfold Room
  rw [twins.brk, twins.limit]

end Runs

/-! ## First fit -/

section Fit

variable {lo n x r r' : Nat} {bs : List Block} {nodes rest : List Nat}

/-- A search stops at the first node or goes on behind it. -/
theorem FirstFit.cases_cons (fit : FirstFit lo bs n (x :: rest) r) :
    (r = x ∧ ∃ b, (x, b) ∈ located (lo + 8) bs ∧ n ≤ b.size) ∨
      (∀ d, (x, d) ∈ located (lo + 8) bs → d.size < n) ∧ FirstFit lo bs n rest r := by
  cases fit with
  | found front back split at_ fits skipped =>
      cases front with
      | nil =>
          cases split
          exact .inl ⟨rfl, _, at_, fits⟩
      | cons y front =>
          cases split
          refine .inr ⟨skipped x List.mem_cons_self, .found front back rfl at_ fits ?_⟩
          intro y member
          exact skipped y (List.mem_cons_of_mem _ member)
  | none small =>
      refine .inr ⟨small x List.mem_cons_self, .none fun y member => ?_⟩
      exact small y (List.mem_cons_of_mem _ member)

theorem FirstFit.unique (fit : FirstFit lo bs n nodes r) (fit' : FirstFit lo bs n nodes r') :
    r' = r := by
  induction nodes with
  | nil =>
      cases fit with
      | found front back split => simp at split
      | none small =>
          cases fit' with
          | found front back split => simp at split
          | none small => rfl
  | cons x rest ih =>
      rcases fit.cases_cons with ⟨rfl, b, at_, fits⟩ | ⟨small, later⟩
      · rcases fit'.cases_cons with ⟨rfl, -⟩ | ⟨small, -⟩
        · rfl
        · have contrary := small b at_
          omega
      · rcases fit'.cases_cons with ⟨rfl, b, at_, fits⟩ | ⟨-, later'⟩
        · have contrary := small b at_
          omega
        · exact ih later later'

/-- A fit is not null. -/
theorem FirstFit.not_null {front : List Block} (fit : FirstFit lo bs n nodes (lo + 8 + span front))
    (fit' : FirstFit lo bs n nodes NULL) : False := by
  have same := fit.unique fit'
  unfold NULL at same
  omega

end Fit

/-! ## `mm_malloc` and `mm_free` -/

section Calls

variable {lo : Nat} {h h' : Heap} {bs : List Block} {fl : List Nat}

/-- On twins `mm_malloc` has one outcome. -/
theorem MallocOutcome.twins {want : Block} {r r' : Nat} {g g' : Heap}
    (twins : Twins lo h h' bs fl) (outcome : MallocOutcome lo h bs fl want r g)
    (outcome' : MallocOutcome lo h' bs fl want r' g') :
    r' = r ∧ ∃ bs' fl', Twins lo g g' bs' fl' := by
  cases outcome with
  | fit split behind isFree fits search updated settled =>
      cases outcome' with
      | fit split' behind' isFree' fits' search' updated' settled' =>
          have same := search.unique search'
          obtain ⟨rfl, rfl, rfl⟩ := split_unique (split'.symm.trans split) (by omega)
          exact ⟨rfl, _, _, twins.after updated.arena updated'.arena ⟨updated.consistent, settled⟩
            ⟨updated'.consistent, settled'⟩⟩
      | grown search' => exact (search.not_null search').elim
      | full search' => exact (search.not_null search').elim
  | @grown new _ search isFree sized room updated settled =>
      cases outcome' with
      | fit split' behind' isFree' fits' search' => exact (search'.not_null search).elim
      | @grown new' _ search' isFree' sized' room' updated' settled' =>
          obtain rfl : new' = new := by
            apply Block.eq_of_tag
            unfold Block.tag
            rw [sized, sized', isFree, isFree']
          exact ⟨rfl, _, _, twins.after updated.arena updated'.arena ⟨updated.consistent, settled⟩
            ⟨updated'.consistent, settled'⟩⟩
      | full search' exhausted =>
          rw [sized] at room
          exact absurd (twins.room.mpr room) exhausted
  | full search exhausted =>
      cases outcome' with
      | fit split' behind' isFree' fits' search' => exact (search'.not_null search).elim
      | grown search' isFree' sized' room' =>
          rw [sized'] at room'
          exact absurd (twins.room.mp room') exhausted
      | full search' exhausted' => exact ⟨rfl, _, _, twins⟩

theorem Twins.malloc {size : Nat} (twins : Twins lo h h' bs fl) (small : size < 2 ^ 31) :
    RunsAlike lo (mmMalloc size) h h' := by
  by_cases zero : size = 0
  · have nothing : ∀ k : Heap, mmMalloc size k = some (NULL, k) := by
      intro k
      unfold mmMalloc
      rw [if_pos zero]
      rfl
    exact ⟨NULL, h, h', bs, fl, nothing h, nothing h', twins⟩
  · have positive : 0 < size := Nat.pos_of_ne_zero zero
    refine .of_wp (wp_mmMalloc twins.first positive (by omega))
      (wp_mmMalloc twins.second positive (by omega)) ?_
    intro r g r' g' outcome outcome'
    exact outcome.twins twins outcome'

theorem Twins.free {front back : List Block} {b : Block}
    (twins : Twins lo h h' (front ++ b :: back) fl) (behind : front ≠ []) (taken : b.alloc = true) :
    ∃ g g' bs' fl', mmFree (lo + 8 + span front) h = some ((), g) ∧
      mmFree (lo + 8 + span front) h' = some ((), g') ∧ Twins lo g g' bs' fl' := by
  obtain ⟨⟨⟨⟩, g⟩, ends, updated, settled⟩ := wp_mmFree twins.first behind taken
  obtain ⟨⟨⟨⟩, g'⟩, ends', updated', settled'⟩ := wp_mmFree twins.second behind taken
  exact ⟨g, g', _, _, ends, ends', twins.after updated.arena updated'.arena
    ⟨updated.consistent, settled⟩ ⟨updated'.consistent, settled'⟩⟩

end Calls

/-! ## `mm_realloc` -/

section Realloc

variable {lo : Nat} {h h' : Heap} {front back : List Block} {b want : Block} {fl : List Nat}

/-- Blocks handed out with the same layout leave twins. -/
theorem Twins.handed {bs bs' : List Block} {fl' : List Nat} {kept : List Block} {r : Nat}
    {g g' : Heap} (twins : Twins lo h h' bs fl) (handed : Handed lo h kept want r g bs' fl')
    (handed' : Handed lo h' kept want r g' bs' fl') : Twins lo g g' bs' fl' :=
  twins.after handed.updated.arena handed'.updated.arena
    ⟨handed.updated.consistent, handed.settled⟩ ⟨handed'.updated.consistent, handed'.settled⟩

theorem Twins.shrink (twins : Twins lo h h' (front ++ b :: back) fl) (behind : front ≠ [])
    (taken : b.alloc = true) (wantTaken : want.alloc = true) (fits : want.size + 16 ≤ b.size) :
    RunsAlike lo (reallocShrink (lo + 8 + span front) b.size want.size) h h' := by
  refine .of_wp (wp_reallocShrink twins.first behind taken wantTaken fits)
    (wp_reallocShrink twins.second behind taken wantTaken fits) ?_
  rintro _ g _ g' ⟨rfl, handed, -⟩ ⟨rfl, handed', -⟩
  exact ⟨rfl, _, _, twins.handed handed handed'⟩

theorem Twins.absorbPrev {init : List Block} {p : Block}
    (twins : Twins lo h h' (init ++ [p] ++ b :: back) fl) (isFree : p.alloc = false)
    (taken : b.alloc = true) (wantTaken : want.alloc = true)
    (fits : want.size + 16 ≤ (b.merge [p] []).size) :
    RunsAlike lo (reallocAbsorbPrev (lo + 8 + span init + p.size) want.size (b.merge [p] []).size)
      h h' := by
  have readable := Heap.accessible_unchecked twins.unchecked
  have readable' := Heap.accessible_unchecked twins.unchecked'
  refine .of_wp (wp_reallocAbsorbPrev twins.first (readable _ _) isFree taken wantTaken fits)
    (wp_reallocAbsorbPrev twins.second (readable' _ _) isFree taken wantTaken fits) ?_
  rintro _ g _ g' ⟨rfl, handed, -⟩ ⟨rfl, handed', -⟩
  exact ⟨rfl, _, _, twins.handed handed handed'⟩

theorem Twins.absorbNext {n : Block} (twins : Twins lo h h' (front ++ b :: n :: back) fl)
    (behind : front ≠ []) (isFree : n.alloc = false) (taken : b.alloc = true)
    (wantTaken : want.alloc = true) (fits : want.size + 16 ≤ (b.merge [] [n]).size) :
    RunsAlike lo (reallocAbsorbNext (lo + 8 + span front) want.size (b.merge [] [n]).size)
      h h' := by
  refine .of_wp (wp_reallocAbsorbNext twins.first behind isFree taken wantTaken fits)
    (wp_reallocAbsorbNext twins.second behind isFree taken wantTaken fits) ?_
  rintro _ g _ g' ⟨rfl, handed, -⟩ ⟨rfl, handed', -⟩
  exact ⟨rfl, _, _, twins.handed handed handed'⟩

/-- Copying into a block that was just handed out, and freeing the old one. -/
theorem Twins.move {bs bs' : List Block} {fl' fl'' : List Nat} {r : Nat} {g g' : Heap}
    (twins : Twins lo h h' (front ++ b :: back) fl) (behind : front ≠ []) (taken : b.alloc = true)
    (handed : Handed lo h (front ++ b :: back) want r g bs fl')
    (handed' : Handed lo h' (front ++ b :: back) want r g' bs' fl'')
    (after : ∃ bs fl, Twins lo g g' bs fl) :
    RunsAlike lo (do
      memmove r (lo + 8 + span front) (min b.size want.size - 8)
      mmFree (lo + 8 + span front)
      pure r) g g' := by
  obtain ⟨bs1, fl1, twins1⟩ := after
  obtain ⟨rfl, rfl⟩ := twins1.first.unique ⟨handed.updated.consistent, handed.settled⟩
  obtain ⟨rfl, rfl⟩ := twins1.second.unique ⟨handed'.updated.consistent, handed'.settled⟩
  refine .of_wp (wp_move handed behind taken)
    (wp_move handed' behind taken) ?_
  rintro _ k _ k' ⟨rfl, front1, back1, split, place, done, -⟩
    ⟨rfl, front2, back2, split', place', done', -⟩
  obtain ⟨rfl, -, rfl⟩ := split_unique (split'.symm.trans split) (place'.trans place.symm)
  exact ⟨rfl, _, _, twins.handed done done'⟩

theorem Twins.reallocMove {size : Nat} (twins : Twins lo h h' (front ++ b :: back) fl)
    (behind : front ≠ []) (taken : b.alloc = true) (positive : 0 < size) (small : size < 2 ^ 31) :
    RunsAlike lo (reallocMove (lo + 8 + span front) size b.size (wanted size positive).size)
      h h' := by
  obtain ⟨⟨r, g⟩, ends, outcome⟩ := wp_mmMalloc twins.first positive (by omega)
  obtain ⟨⟨r', g'⟩, ends', outcome'⟩ := wp_mmMalloc twins.second positive (by omega)
  obtain ⟨rfl, after⟩ := outcome.twins twins outcome'
  have wantTaken : (wanted size positive).alloc = true := rfl
  have wantSmall : (wanted size positive).size < 2 ^ 32 := by
    simp only [wanted]
    omega
  generalize wanted size positive = want at *
  have large := b.size_ge
  have wide := want.size_ge
  have bAt : (lo + 8 + span front, b) ∈ located (lo + 8) (front ++ b :: back) := by simp
  have limit := twins.first.consistent.layout.size_lt bAt
  have length : sub32 (min b.size want.size) DSIZE = min b.size want.size - 8 :=
    sub32_eq (by unfold DSIZE; omega) (by omega)
  have start : ∀ k l : Heap, mmMalloc size k = some (r', l) →
      Malloc.reallocMove (lo + 8 + span front) size b.size want.size k =
        (if r' = NULL then pure NULL else do
          memmove r' (lo + 8 + span front) (min b.size want.size - 8)
          mmFree (lo + 8 + span front)
          pure r' : MM Nat) l := by
    intro k l run
    unfold Malloc.reallocMove
    rw [bind_run_of_run run, length]
  rcases outcome.handed twins.first wantTaken with ⟨rfl, rfl⟩ | ⟨bs1, fl1, handed⟩
  · obtain ⟨bs1, fl1, twins1⟩ := after
    refine ⟨NULL, g, g', bs1, fl1, ?_, ?_, twins1⟩
    · rw [start _ _ ends, if_pos rfl]
      rfl
    · rw [start _ _ ends', if_pos rfl]
      rfl
  · rcases outcome'.handed twins.second wantTaken with ⟨rfl, rfl⟩ | ⟨bs2, fl2, handed'⟩
    · exact absurd rfl handed.ne_null
    · obtain ⟨s, k, k', bs3, fl3, run, run', twins3⟩ :=
        twins.move behind taken handed handed' after
      refine ⟨s, k, k', bs3, fl3, ?_, ?_, twins3⟩
      · rw [start _ _ ends, if_neg handed.ne_null]
        exact run
      · rw [start _ _ ends', if_neg handed.ne_null]
        exact run'

/-- `mm_realloc` of an allocated block to a nonzero size takes the same branch
on twins. -/
theorem Twins.resize {size : Nat} (twins : Twins lo h h' (front ++ b :: back) fl)
    (behind : front ≠ []) (taken : b.alloc = true) (positive : 0 < size) (small : size < 2 ^ 31) :
    RunsAlike lo (mmRealloc (lo + 8 + span front) size) h h' := by
  have wantTaken : (wanted size positive).alloc = true := rfl
  have moves := twins.reallocMove behind taken positive small
  obtain ⟨run, branch, select⟩ := exists_reallocBranch lo b behind positive
    (by simp only [wanted]; omega)
  rw [mmRealloc_eq]
  have first := select twins.first.consistent.layout mmMalloc reallocAbsorbNext
  have second := select twins.second.consistent.layout mmMalloc reallocAbsorbNext
  refine RunsAlike.congr ?_ first second
  generalize wanted size positive = want at *
  cases branch with
  | shrink fits => exact twins.shrink behind taken wantTaken fits
  | same sized => exact ⟨_, h, h', _, fl, rfl, rfl, twins⟩
  | @prev init p split tight differs isFree fits =>
      subst split
      have place : lo + 8 + span (init ++ [p]) = lo + 8 + span init + p.size := by
        simp [Nat.add_assoc]
      rw [place]
      exact twins.absorbPrev isFree taken wantTaken fits
  | next split tight differs noPrev isFree fits =>
      subst split
      exact twins.absorbNext behind isFree taken wantTaken fits
  | move tight differs noPrev noNext => exact moves

end Realloc

/-! ## Executions of a trace -/

/-- A call of a trace; a pointer is `NULL` or what an earlier call returned. -/
inductive TraceOp where
  | malloc (size : Nat)
  | free (index : Option Nat)
  | realloc (index : Option Nat) (size : Nat)

/-- A client and what its calls have returned, in order. -/
structure Session where
  client : Client
  returned : List Nat

/-- The pointer that an index designates. -/
def designated (returned : List Nat) : Option Nat → Option Nat
  | none => some NULL
  | some index => returned[index]?

/-- The call with its pointer. -/
def TraceOp.request (returned : List Nat) : TraceOp → Option Request
  | .malloc size => some (.malloc size)
  | .free index => (designated returned index).map .free
  | .realloc index size => (designated returned index).map fun ptr => .realloc ptr size

namespace Session

/-- The client may make the call. -/
def Allowed (s : Session) (op : TraceOp) : Prop :=
  ∃ request, op.request s.returned = some request ∧ s.client.Allowed request

/-- A call of `mm.c`. -/
def call (s : Session) (op : TraceOp) : Option Session := do
  let request ← op.request s.returned
  let (r, client) ← Version.final.serve s.client request
  pure ⟨client, s.returned ++ [r]⟩

/-- The caller has written to bytes that it asked for. -/
structure Wrote (s s' : Session) : Prop where
  live : s'.client.live = s.client.live
  returned : s'.returned = s.returned
  heap : ∃ m, s'.client.heap = s.client.heap.withMem m ∧
    ∀ i, (∀ p size, (p, size) ∈ s.client.live → i < p ∨ p + size ≤ i) → m i = s.client.heap.mem i

end Session

/-- An execution of a trace: before each call and after the last one the caller
may write to the payloads. -/
inductive Execution : Session → List TraceOp → Session → Prop where
  | done {s s' : Session} (wrote : s.Wrote s') : Execution s [] s'
  | call {s s1 s2 s' : Session} {op : TraceOp} {rest : List TraceOp} (wrote : s.Wrote s1)
      (allowed : s1.Allowed op) (called : s1.call op = some s2) (later : Execution s2 rest s') :
      Execution s (op :: rest) s'

/-- A storage from `lo` to `limit`, with any contents, any break and any values
of the globals of `mm.c`. -/
structure Storage (lo limit : Nat) (h : Heap) : Prop where
  start_eq : h.memStartBrk = lo
  start_aligned : lo % 8 = 0
  limit_eq : h.memMaxAddr = limit
  limit_lt : limit < 2 ^ 32
  unchecked : h.checked = false

/-- `mem_reset_brk(); mm_init()`. -/
def restart : MM Int := do
  memResetBrk
  mmInit

/-- Two heaps with the same blocks, the same free list and the same size. -/
structure SamePlacement (h h' : Heap) (blocks free : List Nat) : Prop where
  tiled : BlockWalk h h.prolBp blocks
  tiled' : BlockWalk h' h'.prolBp blocks
  tags : ∀ bp ∈ blocks, word h'.mem (hdrp bp) = word h.mem (hdrp bp)
  listed : SuccWalk h h.rootBp free
  listed' : SuccWalk h' h'.rootBp free
  size : h'.memBrk - h'.memStartBrk = h.memBrk - h.memStartBrk

/-! ## Two executions side by side -/

theorem Twins.samePlacement {lo : Nat} {h h' : Heap} {bs : List Block} {fl : List Nat}
    (twins : Twins lo h h' bs fl) : SamePlacement h h' (pointers (lo + 8) bs) fl where
  tiled := twins.first.consistent.layout.blockWalk
  tiled' := twins.second.consistent.layout.blockWalk
  tags := by
    intro bp member
    obtain ⟨⟨x, b⟩, at_, rfl⟩ := List.mem_map.mp member
    exact (twins.second.consistent.layout.tags x b at_).1.trans
      (twins.first.consistent.layout.tags x b at_).1.symm
  listed := twins.first.consistent.succWalk
  listed' := twins.second.consistent.succWalk
  size := by
    rw [twins.brk, twins.first.consistent.layout.start_eq, twins.second.consistent.layout.start_eq]

/-- Two sessions with the same pointers over twins. -/
structure Abreast (lo : Nat) (s s' : Session) : Prop where
  serving : Serving lo s.client
  serving' : Serving lo s'.client
  live : s'.client.live = s.client.live
  returned : s'.returned = s.returned
  twins : ∃ bs fl, Twins lo s.client.heap s'.client.heap bs fl

section Abreast

variable {lo : Nat} {s s' t t' : Session}

/-- The bytes that were asked for are client bytes, so writing to them keeps the
representation. -/
theorem Session.Wrote.represents (wrote : s.Wrote t) (serving : Serving lo s.client)
    {bs : List Block} {fl : List Nat} (rep : Represents lo s.client.heap bs fl) :
    Represents lo t.client.heap bs fl := by
  obtain ⟨m, heap, only⟩ := wrote.heap
  obtain ⟨-, bs', fl', rep', owns⟩ := serving
  obtain ⟨rfl, rfl⟩ := rep.unique rep'
  rw [heap]
  refine rep.overwrite fun i outside => only i fun p size member => ?_
  by_contra inside
  exact outside (owns.clientByte member (by omega) (by omega))

theorem Session.Wrote.serving (wrote : s.Wrote t) (serving : Serving lo s.client) :
    Serving lo t.client := by
  have ⟨unchecked, bs, fl, rep, owns⟩ := serving
  have after := wrote.represents serving rep
  obtain ⟨m, heap, -⟩ := wrote.heap
  refine ⟨?_, bs, fl, after, ?_⟩
  · rw [heap]
    exact unchecked
  · rw [wrote.live]
    exact owns

/-- Writes to the payloads keep two sessions abreast. -/
theorem Abreast.wrote (abreast : Abreast lo s s') (wrote : s.Wrote t) (wrote' : s'.Wrote t') :
    Abreast lo t t' where
  serving := wrote.serving abreast.serving
  serving' := wrote'.serving abreast.serving'
  live := (wrote'.live.trans abreast.live).trans wrote.live.symm
  returned := (wrote'.returned.trans abreast.returned).trans wrote.returned.symm
  twins := by
    obtain ⟨bs, fl, twins⟩ := abreast.twins
    obtain ⟨m, heap, -⟩ := wrote.heap
    obtain ⟨m', heap', -⟩ := wrote'.heap
    have arena : SameArena s.client.heap t.client.heap := by
      rw [heap]
      exact ⟨rfl, rfl, rfl⟩
    have arena' : SameArena s'.client.heap t'.client.heap := by
      rw [heap']
      exact ⟨rfl, rfl, rfl⟩
    exact ⟨bs, fl, twins.after arena arena' (wrote.represents abreast.serving twins.first)
      (wrote'.represents abreast.serving' twins.second)⟩

/-- The same call runs alike in two sessions that are abreast. -/
theorem Abreast.runsAlike (abreast : Abreast lo s s') {op : TraceOp} {request : Request}
    (chosen : op.request s.returned = some request) (allowed : s.client.Allowed request) :
    RunsAlike lo (Version.final.call request) s.client.heap s'.client.heap := by
  obtain ⟨bs, fl, twins⟩ := abreast.twins
  obtain ⟨-, bs', fl', rep', owns⟩ := abreast.serving
  obtain ⟨rfl, rfl⟩ := twins.first.unique rep'
  have released : ∀ {ptr}, s.client.Owned ptr →
      ∃ g g' bs' fl', mmFree ptr s.client.heap = some ((), g) ∧
        mmFree ptr s'.client.heap = some ((), g') ∧ Twins lo g g' bs' fl' := by
    rintro ptr (rfl | member)
    · exact ⟨_, _, _, _, rfl, rfl, twins⟩
    · obtain ⟨front, b, back, rfl, rfl, taken, behind⟩ := owns.split_at member
      exact twins.free behind taken
  have frees : ∀ {ptr}, s.client.Owned ptr → RunsAlike lo (do
      mmFree ptr
      pure NULL) s.client.heap s'.client.heap := by
    intro ptr owned
    obtain ⟨g, g', bs', fl', ends, ends', after⟩ := released owned
    exact ⟨NULL, g, g', bs', fl', bind_run_of_run ends _, bind_run_of_run ends' _, after⟩
  cases allowed with
  | malloc small => exact twins.malloc small
  | free owned => exact frees owned
  | @realloc ptr size owned small =>
      change RunsAlike lo (mmRealloc ptr size) _ _
      by_cases null : ptr = NULL
      · have same : mmRealloc ptr size = mmMalloc size := by
          unfold mmRealloc
          rw [if_pos null]
        rw [same]
        exact twins.malloc small
      by_cases zero : size = 0
      · have same : mmRealloc ptr size = (do
            mmFree ptr
            pure NULL) := by
          unfold mmRealloc
          rw [if_neg null, if_pos zero]
        rw [same]
        exact frees owned
      · obtain ⟨front, b, back, rfl, rfl, taken, behind⟩ :=
          owns.split_at (owned.resolve_left null)
        exact twins.resize behind taken (Nat.pos_of_ne_zero zero) small
  | write owned inside => cases op <;> simp [TraceOp.request, Option.map_eq_some_iff] at chosen

/-- An allowed call is carried out, and its end is served again. -/
theorem Session.call_serving (serving : Serving lo s.client) (op : TraceOp) {request : Request}
    (chosen : op.request s.returned = some request) (allowed : s.client.Allowed request) :
    ∃ r c, Version.final.serve s.client request = some (r, c) ∧
      s.call op = some ⟨c, s.returned ++ [r]⟩ ∧ Serving lo c := by
  obtain ⟨c, run, served⟩ := serving.serve allowed
  rw [← final_serve] at run
  obtain ⟨⟨r, c⟩, answer, rfl⟩ := Option.map_eq_some_iff.mp run
  exact ⟨r, c, answer, by simp [Session.call, chosen, answer], served.serving⟩

/-- The same call keeps two sessions abreast. -/
theorem Abreast.call (abreast : Abreast lo s s') {op : TraceOp} (allowed : s.Allowed op)
    (allowed' : s'.Allowed op) (called : s.call op = some t) (called' : s'.call op = some t') :
    Abreast lo t t' := by
  obtain ⟨request, chosen, may⟩ := allowed
  obtain ⟨request', chosen', may'⟩ := allowed'
  have same := chosen'
  rw [abreast.returned, chosen] at same
  cases same
  obtain ⟨r, c, answer, ends, serving⟩ := Session.call_serving abreast.serving op chosen may
  obtain ⟨r', c', answer', ends', serving'⟩ := Session.call_serving abreast.serving' op chosen' may'
  cases ends.symm.trans called
  cases ends'.symm.trans called'
  obtain ⟨r0, g, g', bs, fl, run, run', twins⟩ := abreast.runsAlike chosen may
  have here : (r, c) = (r0, ⟨g, liveAfter s.client.live r0 request⟩) := by
    apply Option.some.inj
    rw [← answer]
    simp [Version.serve, run]
  have there : (r', c') = (r0, ⟨g', liveAfter s'.client.live r0 request⟩) := by
    apply Option.some.inj
    rw [← answer']
    simp [Version.serve, run']
  cases here
  cases there
  refine ⟨serving, serving', ?_, ?_, bs, fl, twins⟩
  · simp only [abreast.live]
  · simp only [abreast.returned]

/-- Two executions of a trace stay abreast. -/
theorem Execution.abreast {trace : List TraceOp} (first : Execution s trace t)
    (second : Execution s' trace t') (abreast : Abreast lo s s') : Abreast lo t t' := by
  induction first generalizing s' with
  | done wrote =>
      cases second with
      | done wrote' => exact abreast.wrote wrote wrote'
  | call wrote allowed called later ih =>
      cases second with
      | call wrote' allowed' called' later' =>
          exact ih later' ((abreast.wrote wrote wrote').call allowed allowed' called called')

end Abreast

section Restart

variable {lo limit : Nat} {h h' : Heap}

/-- `mem_reset_brk` leaves an empty heap. -/
theorem Storage.fresh (storage : Storage lo limit h) :
    Fresh lo { h with memBrk := h.memStartBrk } where
  start_eq := storage.start_eq
  start_aligned := storage.start_aligned
  empty := storage.start_eq
  limit := by
    have limit_lt := storage.limit_lt
    rw [← storage.limit_eq] at limit_lt
    exact limit_lt

/-- A successful restart begins a client's run. -/
theorem Storage.serving {g : Heap} (storage : Storage lo limit h)
    (run : restart h = some (0, g)) : Serving lo ⟨g, []⟩ :=
  .start ⟨_, storage.fresh, storage.unchecked, run, rfl⟩

/-- From two storages at one address `mem_reset_brk` and `mm_init` have the
same status, and if they succeed, then two executions of one trace, with any
writes to the payloads, return the same pointers and leave the same blocks,
free list and heap size. -/
theorem placement_independent (storage : Storage lo limit h) (storage' : Storage lo limit h') :
    ∃ status g g', restart h = some (status, g) ∧ restart h' = some (status, g') ∧
      (status = 0 → ∀ trace s s', Execution ⟨⟨g, []⟩, []⟩ trace s →
        Execution ⟨⟨g', []⟩, []⟩ trace s' → s'.returned = s.returned ∧
          ∃ blocks free, SamePlacement s.client.heap s'.client.heap blocks free) := by
  obtain ⟨⟨status, g⟩, run, holds⟩ := wp_mmInit storage.fresh
  obtain ⟨⟨status', g'⟩, run', holds'⟩ := wp_mmInit storage'.fresh
  have limit_eq := storage.limit_eq
  have limit_eq' := storage'.limit_eq
  simp only [limit_eq] at holds
  simp only [limit_eq'] at holds'
  have same : status' = status := by omega
  subst same
  refine ⟨status', g, g', run, run', ?_⟩
  rintro started trace s s' first second
  subst started
  rcases holds with ⟨failed, -⟩ | ⟨-, -, arena, rep⟩
  · cases failed
  rcases holds' with ⟨failed, -⟩ | ⟨-, -, arena', rep'⟩
  · cases failed
  have serving := storage.serving run
  have serving' := storage'.serving run'
  have twins : Twins lo g g' [prologue, chunk] [lo + 24] :=
    ⟨rep, rep', arena'.limit.trans arena.limit.symm, serving.1, serving'.1⟩
  have start : Abreast lo ⟨⟨g, []⟩, []⟩ ⟨⟨g', []⟩, []⟩ :=
    ⟨serving, serving', rfl, rfl, _, _, twins⟩
  have abreast := first.abreast second start
  obtain ⟨bs, fl, twins'⟩ := abreast.twins
  exact ⟨abreast.returned, _, _, twins'.samePlacement⟩

/-- A block is allocated and freed. -/
def freedTrace : List TraceOp := [.malloc 20, .free (some 0)]

theorem Serving.executes {c : Client} (serving : Serving lo c) :
    ∃ s, Execution ⟨c, []⟩ freedTrace s := by
  have still : ∀ s : Session, s.Wrote s := fun s =>
    ⟨rfl, rfl, s.client.heap.mem, rfl, fun _ _ => rfl⟩
  have small : c.Allowed (.malloc 20) := .malloc (by decide)
  obtain ⟨r, c1, answer, called, serving1⟩ :=
    Session.call_serving (s := ⟨c, []⟩) serving (.malloc 20) rfl small
  have owned : c1.Owned r := by
    obtain ⟨⟨r', heap⟩, -, result⟩ := Option.bind_eq_some_iff.mp answer
    cases result
    by_cases null : r = NULL
    · exact .inl null
    · exact .inr (by simp [liveAfter, take, null])
  obtain ⟨r2, c2, -, called2, -⟩ :=
    Session.call_serving (s := ⟨c1, [r]⟩) serving1 (.free (some 0)) rfl (.free owned)
  exact ⟨_, .call (still _) ⟨_, rfl, small⟩ called
    (.call (still _) ⟨_, rfl, .free owned⟩ called2 (.done (still _)))⟩

/-- The storage of the blank heap after another use. -/
def usedHeap : Heap :=
  { blankHeap with mem := fun _ => 255, memBrk := 5000, prolBp := 7, rootBp := 9 }

theorem placement_independent_used :
    ∃ g g' s s', restart blankHeap = some (0, g) ∧ restart usedHeap = some (0, g') ∧
      Execution ⟨⟨g, []⟩, []⟩ freedTrace s ∧ Execution ⟨⟨g', []⟩, []⟩ freedTrace s' ∧
      s'.returned = s.returned ∧
        ∃ blocks free, SamePlacement s.client.heap s'.client.heap blocks free := by
  have storage : Storage 4096 (4096 + 2 ^ 20) blankHeap := ⟨rfl, rfl, rfl, by decide, rfl⟩
  have storage' : Storage 4096 (4096 + 2 ^ 20) usedHeap := ⟨rfl, rfl, rfl, by decide, rfl⟩
  obtain ⟨status, g, g', run, run', agree⟩ := placement_independent storage storage'
  have success : (restart blankHeap).map Prod.fst = some 0 := by decide +kernel
  rw [run] at success
  cases success
  obtain ⟨s, first⟩ := (storage.serving run).executes
  obtain ⟨s', second⟩ := (storage'.serving run').executes
  exact ⟨g, g', s, s', run, run', first, second, agree rfl freedTrace s s' first second⟩

end Restart

end SysProg.Malloc

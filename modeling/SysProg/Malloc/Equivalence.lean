import SysProg.Malloc.Contract

/-!
# The versions of the allocator are equivalent

Wherever a client can call it, the remainder of an absorbed block has no free
neighbour, and `place` is given a block that is large enough.  So the three
versions return the same pointers and leave the same heaps.
-/

namespace SysProg.Malloc

open Logic

/-! ## The two tests of `place` -/

section Place

variable {lo : Nat} {h : Heap} {bs : List Block} {fl : List Nat} {x n : Nat} {b : Block}

/-- On a block that is large enough the two tests agree. -/
theorem explicit_place_eq (layout : Layout lo h bs) (at_ : (x, b) ∈ located (lo + 8) bs)
    (fits : n ≤ b.size) (small : n + 16 < 2 ^ 32) : Explicit.place x n h = place x n h := by
  have limit := layout.size_lt at_
  have same : (sub32 b.size n < MIN_BSIZE) = (b.size < add32 n MIN_BSIZE) := by
    rw [sub32_eq fits limit, add32_eq (by unfold MIN_BSIZE DSIZE; omega)]
    unfold MIN_BSIZE DSIZE
    apply propext
    omega
  apply bind_run_congr
  rw [layout.wp_getSize_hdrp at_]
  simp only [same]

/-- `mm_malloc` gives both versions of `place` the same block, which is large
enough. -/
theorem explicit_mmMalloc_eq {size : Nat} (rep : Represents lo h bs fl) (small : size < 2 ^ 31) :
    Explicit.mmMalloc size h = mmMalloc size h := by
  rw [mmMalloc_eq]
  unfold Explicit.mmMalloc
  by_cases zero : size = 0
  · simp only [mallocWith, if_pos zero]
  have positive : 0 < size := Nat.pos_of_ne_zero zero
  rcases mallocWith_run rep positive (by omega) with ⟨r, h1, chosen, calls⟩ | ⟨-, -, fails⟩
  · have narrow : (wanted size positive).size + 16 < 2 ^ 32 := by
      simp only [wanted]
      omega
    obtain ⟨bs1, b, layout, at_, fits⟩ := chosen.block rep
    rw [calls Explicit.place, calls Malloc.place]
    exact run_bind_congr (explicit_place_eq layout at_ fits narrow) _
  · rw [fails Explicit.place, fails Malloc.place]

end Place

/-! ## The remainder of an absorbed block -/

section Absorb

variable {lo : Nat} {h : Heap} {front back : List Block} {b want : Block} {fl : List Nat}

theorem clean_reallocAbsorbNext_eq (ptr newbsize totalbsize : Nat) :
    Clean.reallocAbsorbNext ptr newbsize totalbsize = (do
      absorbNextCut ptr newbsize totalbsize
      let _ ← setRoot (← coalesce (← nextBlkp ptr))
      pure ptr) := by
  simp [Clean.reallocAbsorbNext, absorbNextCut]

/-- Both neighbours of the remainder are allocated, so `coalesce` returns it
as it is. -/
theorem clean_reallocAbsorbNext_run {n : Block}
    (rep : Represents lo h (front ++ b :: n :: back) fl) (behind : front ≠ [])
    (isFree : n.alloc = false) (taken : b.alloc = true) (wantTaken : want.alloc = true)
    (fits : want.size + 16 ≤ (b.merge [] [n]).size) :
    Clean.reallocAbsorbNext (lo + 8 + span front) want.size (b.merge [] [n]).size h =
      reallocAbsorbNext (lo + 8 + span front) want.size (b.merge [] [n]).size h := by
  have shape : front ++ b :: n :: back = front ++ [b, n] ++ back := by simp
  rw [shape] at rep
  have followed : Layout.nextAlloc back = true := by
    have sparse := rep.settled.sparse
    rw [List.append_assoc] at sparse
    have later : Sparse (n :: back) := (sparse_append.mp sparse).2.1.tail
    cases back with
    | nil => rfl
    | cons m tail =>
        have pair : n.alloc = true ∨ m.alloc = true := (List.isChain_cons_cons.mp later).1
        simpa [isFree, Layout.nextAlloc] using pair
  rw [clean_reallocAbsorbNext_eq, reallocAbsorbNext_eq]
  apply bind_run_congr
  refine wp_mono (wp_absorbNextCut rep behind isFree taken wantTaken fits) ?_
  rintro _ h2 ⟨h1, -, recut, -, -⟩
  have layout := recut.consistent.layout
  have wantAt : (lo + 8 + span front, want) ∈
      located (lo + 8) (front ++ [want, (b.merge [] [n]).rest want fits] ++ back) := by simp
  have split : front ++ [want, (b.merge [] [n]).rest want fits] ++ back =
      front ++ [want] ++ (b.merge [] [n]).rest want fits :: back := by simp
  apply bind_run_congr
  rw [layout.wp_nextBlkp wantAt]
  rw [split] at layout
  have stays : coalesce (lo + 8 + span front + want.size) h2 =
      some (lo + 8 + span front + want.size, h2) := by
    apply run_of_wp
    rw [wp_coalesce_select layout, if_pos ⟨wantTaken, followed⟩]
    exact ⟨rfl, rfl⟩
  exact bind_run_of_run stays _

/-- Where `mm_realloc` is called on an allocated block, the versions run
alike. -/
theorem reallocWith_clean {size : Nat} (rep : Represents lo h (front ++ b :: back) fl)
    (behind : front ≠ []) (taken : b.alloc = true) (positive : 0 < size) (small : size < 2 ^ 31)
    {malloc : Nat → MM Nat} (same : malloc size h = mmMalloc size h) :
    reallocWith malloc Clean.reallocAbsorbNext (lo + 8 + span front) size h =
      mmRealloc (lo + 8 + span front) size h := by
  have layout := rep.consistent.layout
  have wantTaken : (wanted size positive).alloc = true := rfl
  obtain ⟨run, branch, select⟩ := exists_reallocBranch lo b behind positive
    (by simp only [wanted]; omega)
  rw [mmRealloc_eq, select layout, select layout]
  cases branch with
  | shrink fits => rfl
  | same sized => rfl
  | prev split tight differs isFree fits => rfl
  | next split tight differs noPrev isFree fits =>
      subst split
      exact clean_reallocAbsorbNext_run rep behind isFree taken wantTaken fits
  | move tight differs noPrev noNext => exact run_bind_congr same _

end Absorb

/-! ## Traces -/

/-- What a client owns after a call returned `r`. -/
def liveAfter (live : List (Nat × Nat)) (r : Nat) : Request → List (Nat × Nat)
  | .malloc size => take r size live
  | .free ptr => giveBack ptr live
  | .realloc ptr size => if r = NULL ∧ size ≠ 0 then live else take r size (giveBack ptr live)
  | .write _ _ _ => live

namespace Version

/-- A request, carried out by a version; a call that returns no pointer is given
`NULL`. -/
def call (v : Version) : Request → MM Nat
  | .malloc size => v.mmMalloc size
  | .free ptr => do
      v.mmFree ptr
      pure NULL
  | .realloc ptr size => v.mmRealloc ptr size
  | .write ptr offset value => fun h =>
      some (NULL, h.withMem (Function.update h.mem (ptr + offset) value))

/-- The pointer that a request returns, and the client after it. -/
def serve (v : Version) (c : Client) (request : Request) : Option (Nat × Client) := do
  let (r, heap) ← v.call request c.heap
  pure (r, ⟨heap, liveAfter c.live r request⟩)

/-- The pointer returned and the heap left by each request of a trace. -/
def replay (v : Version) : Client → List Request → Option (List (Nat × Heap))
  | _, [] => some []
  | c, request :: rest => do
      let (r, c') ← v.serve c request
      let later ← v.replay c' rest
      pure ((r, c'.heap) :: later)

/-- A trace from `mm_init` on: the status and the heap that `mm_init` leaves,
and, if it succeeds, the answers to the requests. -/
def play (v : Version) (h : Heap) (trace : List Request) :
    Option (Int × Heap × List (Nat × Heap)) := do
  let (status, heap) ← v.mmInit h
  let answers ← if status = 0 then v.replay ⟨heap, []⟩ trace else some []
  pure (status, heap, answers)

end Version

/-- A trace of requests that a client of `mm.c` may make. -/
inductive Permitted : Client → List Request → Prop where
  | nil (c : Client) : Permitted c []
  | cons {c c' : Client} {request : Request} {rest : List Request} (allowed : c.Allowed request)
      (served : c.serve request = some c') (later : Permitted c' rest) :
      Permitted c (request :: rest)

/-- `mm.c` serves its clients as a version. -/
theorem final_serve (c : Client) (request : Request) :
    (Version.final.serve c request).map Prod.snd = c.serve request := by
  cases request with
  | malloc size =>
      simp only [Version.serve, Version.call, Version.final, Client.serve, liveAfter]
      cases mmMalloc size c.heap with
      | none => rfl
      | some result => rfl
  | free ptr =>
      simp only [Version.serve, Version.call, Version.final, Client.serve, liveAfter]
      change (((mmFree ptr c.heap).bind fun result => some (NULL, result.2)).bind _).map Prod.snd = _
      cases mmFree ptr c.heap with
      | none => rfl
      | some result => rfl
  | realloc ptr size =>
      simp only [Version.serve, Version.call, Version.final, Client.serve, liveAfter]
      cases mmRealloc ptr size c.heap with
      | none => rfl
      | some result => rfl
  | write ptr offset value => rfl

section Traces

variable {lo : Nat} {c : Client}

/-- `mm_realloc` of an owned pointer or of null runs alike in the versions. -/
theorem Serving.realloc_alike (serving : Serving lo c) {ptr size : Nat} (owned : c.Owned ptr)
    (small : size < 2 ^ 31) {malloc : Nat → MM Nat}
    (same : malloc size c.heap = mmMalloc size c.heap) :
    reallocWith malloc Clean.reallocAbsorbNext ptr size c.heap = mmRealloc ptr size c.heap := by
  obtain ⟨-, bs, fl, rep, owns⟩ := serving
  by_cases null : ptr = NULL
  · simp only [reallocWith, mmRealloc, if_pos null]
    exact same
  by_cases zero : size = 0
  · simp only [reallocWith, mmRealloc, if_neg null, if_pos zero]
  obtain ⟨front, b, back, rfl, rfl, taken, behind⟩ := owns.split_at (owned.resolve_left null)
  exact reallocWith_clean rep behind taken (Nat.pos_of_ne_zero zero) small same

/-- `mm_explicit_realloc_clean.c` carries out a request as `mm.c` does. -/
theorem Serving.clean_call (serving : Serving lo c) {request : Request}
    (allowed : c.Allowed request) :
    Version.clean.call request c.heap = Version.final.call request c.heap := by
  cases allowed with
  | malloc small =>
      simp only [Version.call, Version.clean, Version.final, Clean.mmMalloc, mmMalloc_eq]
  | free owned => simp only [Version.call, Version.clean, Version.final]
  | write owned inside => simp only [Version.call]
  | @realloc ptr size owned small =>
      have same : Clean.mmMalloc size c.heap = mmMalloc size c.heap := by
        rw [Clean.mmMalloc, mmMalloc_eq]
      simpa only [Version.call, Version.clean, Version.final, Clean.mmRealloc] using
        serving.realloc_alike owned small same

/-- `mm_explicit_realloc.c` carries out a request as `mm.c` does. -/
theorem Serving.explicit_call (serving : Serving lo c) {request : Request}
    (allowed : c.Allowed request) :
    Version.explicit.call request c.heap = Version.final.call request c.heap := by
  have allocates : ∀ {size}, size < 2 ^ 31 →
      Explicit.mmMalloc size c.heap = mmMalloc size c.heap := by
    obtain ⟨-, bs, fl, rep, -⟩ := serving
    exact explicit_mmMalloc_eq rep
  cases allowed with
  | malloc small => simpa only [Version.call, Version.explicit, Version.final] using allocates small
  | free owned => simp only [Version.call, Version.explicit, Version.final]
  | write owned inside => simp only [Version.call]
  | realloc owned small =>
      simpa only [Version.call, Version.explicit, Version.final, Explicit.mmRealloc,
        Explicit.reallocAbsorbNext] using serving.realloc_alike owned small (allocates small)

/-- A version that carries out the requests of served clients as `mm.c` does
answers their traces as `mm.c` does. -/
theorem Permitted.replay {v : Version} {trace : List Request} (permitted : Permitted c trace)
    (serving : Serving lo c)
    (same : ∀ {c : Client} {request : Request}, Serving lo c → c.Allowed request →
      v.call request c.heap = Version.final.call request c.heap) :
    ∃ answers, Version.final.replay c trace = some answers ∧ v.replay c trace = some answers := by
  induction permitted with
  | nil c => exact ⟨[], rfl, rfl⟩
  | @cons c c' request rest allowed served later ih =>
      obtain ⟨⟨r, next⟩, answer, rfl⟩ :=
        Option.map_eq_some_iff.mp ((final_serve c request).trans served)
      obtain ⟨found, foundRun, kept⟩ := serving.serve allowed
      rw [served] at foundRun
      cases foundRun
      obtain ⟨answers, first, second⟩ := ih kept.serving
      have answer' : v.serve c request = some (r, next) := by
        unfold Version.serve at answer ⊢
        rw [same serving allowed]
        exact answer
      refine ⟨(r, next.heap) :: answers, ?_, ?_⟩
      · simp [Version.replay, answer, first]
      · simp [Version.replay, answer', second]

/-- On every trace of permitted requests, from `mm_init` on any storage, the
three versions return the same status and pointers and leave the same heaps. -/
theorem versions_agree {h : Heap} (fresh : Fresh lo h) (unchecked : h.checked = false)
    {trace : List Request}
    (permitted : ∀ h0, mmInit h = some (0, h0) → Permitted ⟨h0, []⟩ trace) :
    ∃ outcome, Version.final.play h trace = some outcome ∧
      Version.clean.play h trace = some outcome ∧ Version.explicit.play h trace = some outcome := by
  obtain ⟨⟨status, h0⟩, run, -⟩ := wp_mmInit fresh
  by_cases started : status = 0
  · subst started
    have serving : Serving lo ⟨h0, []⟩ := .start ⟨h, fresh, unchecked, run, rfl⟩
    have trace_permitted := permitted h0 run
    obtain ⟨answers, final, clean⟩ := trace_permitted.replay (v := .clean) serving
      fun served allowed => served.clean_call allowed
    obtain ⟨answers', final', explicit⟩ := trace_permitted.replay (v := .explicit) serving
      fun served allowed => served.explicit_call allowed
    rw [final] at final'
    cases final'
    have initial : ∀ v : Version, v.mmInit = mmInit → v.replay ⟨h0, []⟩ trace = some answers →
        v.play h trace = some (0, h0, answers) := by
      intro v same replayed
      simp [Version.play, same, run, replayed]
    exact ⟨_, initial _ rfl final, initial _ rfl clean, initial _ rfl explicit⟩
  · have initial : ∀ v : Version, v.mmInit = mmInit →
        v.play h trace = some (status, h0, []) := by
      intro v same
      simp [Version.play, same, run, started]
    exact ⟨_, initial _ rfl, initial _ rfl, initial _ rfl⟩

theorem Permitted.serving (serving : Serving lo c) {request : Request} {rest : List Request}
    (allowed : c.Allowed request) (later : ∀ c', c.serve request = some c' → Permitted c' rest) :
    Permitted c (request :: rest) := by
  obtain ⟨c', served, -⟩ := serving.serve allowed
  exact .cons allowed served (later c' served)

/-- A block is allocated and grows into the chunk behind it. -/
def growingTrace : List Request := [.malloc 20, .realloc 4120 100]

theorem versions_agree_growing :
    ∃ outcome, Version.final.play blankHeap growingTrace = some outcome ∧
      Version.clean.play blankHeap growingTrace = some outcome ∧
      Version.explicit.play blankHeap growingTrace = some outcome := by
  have fresh : Fresh 4096 blankHeap := ⟨rfl, rfl, rfl, by decide⟩
  refine versions_agree fresh rfl ?_
  intro h0 run
  have first : (⟨h0, []⟩ : Client) = blankClient := by
    unfold blankClient
    rw [run]
    rfl
  rw [first]
  have serving := Serving.of_reachable blankClient_reachable
  refine .serving serving (.malloc (by decide)) fun c' served => ?_
  have second : c' = askingClient := by
    unfold askingClient
    rw [served]
    rfl
  subst second
  obtain ⟨found, foundRun, kept⟩ := serving.serve (.malloc (by decide : 20 < 2 ^ 31))
  rw [served] at foundRun
  cases foundRun
  have owned : askingClient.Owned 4120 := .inr (by simp [askingClient_live])
  exact .serving kept.serving (.realloc owned (by decide)) fun c' _ => .nil c'

end Traces

end SysProg.Malloc

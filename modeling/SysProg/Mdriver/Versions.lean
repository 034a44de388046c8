import SysProg.Malloc.Copying
import SysProg.Mdriver.Main

/-!
# The driver on the other versions of the allocator

Where two allocators answer their clients alike, the driver cannot tell them apart.  So
`mm_explicit_realloc_clean.c` and `mm_explicit_realloc.c` have the statistics of `mm.c`.
`mm_explicit.c` places its blocks elsewhere, but it keeps the same promises.
-/

namespace SysProg.Mdriver

open Logic Malloc

/-! ## Allocators that answer alike -/

section Mirrors

variable {σ : Type} {pkg : Package σ} {terms : Terms σ} {malloc : Nat → Prog σ Nat}
  {realloc : Nat → Nat → Prog σ Nat} {Alike : σ → σ → List (Nat × Nat) → Prop}

/-- The package with other calls for `mm_malloc` and `mm_realloc`. -/
def Package.withCalls (pkg : Package σ) (malloc : Nat → Prog σ Nat)
    (realloc : Nat → Nat → Prog σ Nat) : Package σ :=
  { pkg with mmMalloc := malloc, mmRealloc := realloc }

/-- The calls run as those of the package wherever it serves a client. -/
structure Mirrors (pkg : Package σ) (terms : Terms σ) (malloc : Nat → Prog σ Nat)
    (realloc : Nat → Nat → Prog σ Nat) : Prop where
  malloc_eq : ∀ {s live n}, terms.Serves s live → n < 2 ^ 31 → malloc n s = pkg.mmMalloc n s
  realloc_eq : ∀ {s live p m n}, terms.Serves s live → (p, m) ∈ live → n < 2 ^ 31 →
    realloc p n s = pkg.mmRealloc p n s

/-- They keep the promises of the package. -/
theorem Mirrors.promises (mirrors : Mirrors pkg terms malloc realloc)
    (promises : Promises pkg terms) : Promises (pkg.withCalls malloc realloc) terms where
  starts := promises.starts
  placed := promises.placed
  apart := promises.apart
  malloc serves positive small :=
    (wp_congr_run (mirrors.malloc_eq serves small) _).mpr (promises.malloc serves positive small)
  realloc serves member positive small :=
    (wp_congr_run (mirrors.realloc_eq serves member small) _).mpr
      (promises.realloc serves member positive small)
  free := promises.free
  memset := promises.memset
  memset_byte := promises.memset_byte

/-- They repeat themselves where the package does. -/
theorem Mirrors.repeats (mirrors : Mirrors pkg terms malloc realloc)
    (repeats : Repeats pkg terms Alike) : Repeats (pkg.withCalls malloc realloc) terms Alike where
  serves := repeats.serves
  symm := repeats.symm
  heapsize := repeats.heapsize
  starts := repeats.starts
  malloc alike positive small := by
    obtain ⟨serves, serves'⟩ := repeats.serves alike
    obtain ⟨p, t, t', run, run', next⟩ := repeats.malloc alike positive small
    exact ⟨p, t, t', (mirrors.malloc_eq serves small).trans run,
      (mirrors.malloc_eq serves' small).trans run', next⟩
  realloc alike member positive small := by
    obtain ⟨serves, serves'⟩ := repeats.serves alike
    obtain ⟨q, t, t', run, run', next⟩ := repeats.realloc alike member positive small
    exact ⟨q, t, t', (mirrors.realloc_eq serves member small).trans run,
      (mirrors.realloc_eq serves' member small).trans run', next⟩
  free := repeats.free
  memset := repeats.memset

/-- They stay in the storage of the package if they never shrink the heap. -/
theorem Steady.withCalls (steady : Steady pkg terms)
    (mallocs : ∀ n, Within (Keeping terms.Ready) (malloc n) ∧
      Within (InvImage (· ≤ ·) pkg.memHeapsize) (malloc n))
    (reallocs : ∀ p n, Within (Keeping terms.Ready) (realloc p n) ∧
      Within (InvImage (· ≤ ·) pkg.memHeapsize) (realloc p n)) :
    Steady (pkg.withCalls malloc realloc) terms where
  reset := steady.reset
  init := steady.init
  malloc n := (mallocs n).1
  realloc p n := (reallocs p n).1
  free := steady.free
  memset := steady.memset
  mallocGrows n := (mallocs n).2
  reallocGrows p n := (reallocs p n).2
  freeGrows := steady.freeGrows
  narrow := steady.narrow

/-! ## The verdict -/

variable {r : Replay σ} {live : Live} {slots : Nat} {ops : List Traceop} {trace : Trace}

/-- A step: a request is checked alike. -/
theorem Mirrors.checkOp_eq (mirrors : Mirrors pkg terms malloc realloc) {op : Traceop}
    (sound : Sound pkg terms slots r live) (permitted : op.Permitted slots (live.map Prod.fst))
    (positive : op.Positive) :
    checkOp (pkg.withCalls malloc realloc) op r = checkOp pkg op r := by
  cases op with
  | alloc index size =>
      obtain ⟨-, bound, -⟩ := payload_size 0 positive permitted.2.1
      exact run_bind_congr (Part.run_congr (mirrors.malloc_eq sound.serves bound)) _
  | realloc index size =>
      obtain ⟨present, small⟩ := permitted
      obtain ⟨⟨index, q⟩, member, rfl⟩ := List.mem_map.mp present
      obtain ⟨-, bound, -⟩ := payload_size 0 positive small
      have block := sound.tracked.blockAt_run member
      refine (bind_run_of_run block _).trans ((?_ : _ = _).trans (bind_run_of_run block _).symm)
      exact run_bind_congr
        (Part.run_congr (mirrors.realloc_eq sound.serves (mem_payloads member) bound)) _
  | free index => rfl

/-- A run: a trace is checked alike. -/
theorem Mirrors.checkOps_eq (mirrors : Mirrors pkg terms malloc realloc)
    (promises : Promises pkg terms) {i : Nat} (sound : Sound pkg terms slots r live)
    (wellFormed : WellFormed slots (live.map Prod.fst) ops) (positive : ∀ op ∈ ops, op.Positive) :
    checkOps (pkg.withCalls malloc realloc) i ops r = checkOps pkg i ops r := by
  induction ops generalizing i r live with
  | nil => rfl
  | cons op rest ih =>
      obtain ⟨permitted, wellFormed⟩ := wellFormed
      obtain ⟨first, later⟩ := List.forall_mem_cons.mp positive
      obtain ⟨⟨c, r1⟩, run, -, continues⟩ := promises.wp_checkOp sound permitted first
      have run' := (mirrors.checkOp_eq sound permitted first).trans run
      rw [checkOps, checkOps, bind_run_of_run run, bind_run_of_run run']
      cases c with
      | some complaint => rfl
      | none =>
          obtain ⟨live1, sound1, ids⟩ := continues rfl
          rw [← ids] at wellFormed
          exact ih sound1 wellFormed later

/-- `eval_mm_valid` runs alike. -/
theorem Mirrors.evalMmValid_eq (mirrors : Mirrors pkg terms malloc realloc)
    (promises : Promises pkg terms) (prepared : Prepared terms slots r)
    (wellFormed : WellFormed slots [] ops) (positive : ∀ op ∈ ops, op.Positive) :
    evalMmValid (pkg.withCalls malloc realloc) ops r = evalMmValid pkg ops r := by
  obtain ⟨⟨_, s⟩, reset, ⟨status, u⟩, init, started⟩ := promises.starts prepared.ready
  have behind : evalMmValid (pkg.withCalls malloc realloc) ops r = _ :=
    evalMmValid_behind reset init
  rw [behind, evalMmValid_behind reset init]
  by_cases failed : status < 0
  · rw [if_pos failed, if_pos failed]
  · rw [if_neg failed, if_neg failed]
    rw [if_neg failed] at started
    have sound : Sound pkg terms slots { r with state := u, ranges := [] } [] :=
      ⟨.start prepared.room rfl, started, fun _ member => absurd member List.not_mem_nil⟩
    exact mirrors.checkOps_eq promises sound wellFormed positive

/-! ## The statistics -/

/-- The statistics of a trace are determined by what a replay of it shows. -/
theorem Fair.unique {stat stat' : Stats} (some_ready : ∃ s, terms.Ready s)
    (fair : Fair pkg terms trace stat) (fair' : Fair pkg terms trace stat') : stat' = stat := by
  obtain ⟨s, ready⟩ := some_ready
  have start : Prepared terms trace.slots (⟨s, [], fun _ => none, fun _ => none, trace.slots⟩ :
      Replay σ) := ⟨ready, rfl⟩
  cases fair with
  | invalid verdict =>
      obtain ⟨r1, run⟩ := verdict _ start
      cases fair' with
      | invalid verdict' =>
          obtain ⟨r2, run'⟩ := verdict' _ start
          cases run.symm.trans run'
          rfl
      | measured verdict' =>
          obtain ⟨r2, run', -⟩ := verdict' _ start
          cases run.symm.trans run'
  | measured verdict =>
      obtain ⟨r1, run, size⟩ := verdict _ start
      cases fair' with
      | invalid verdict' =>
          obtain ⟨r2, run'⟩ := verdict' _ start
          cases run.symm.trans run'
      | measured verdict' =>
          obtain ⟨r2, run', size'⟩ := verdict' _ start
          cases run.symm.trans run'
          rw [← size, ← size']

/-- The statistics are the same. -/
theorem Mirrors.fair (mirrors : Mirrors pkg terms malloc realloc) (promises : Promises pkg terms)
    (acceptable : Acceptable trace) {stat : Stats}
    (fair : Fair (pkg.withCalls malloc realloc) terms trace stat) : Fair pkg terms trace stat := by
  have same {r : Replay σ} (prepared : Prepared terms trace.slots r) :=
    mirrors.evalMmValid_eq promises prepared acceptable.1 acceptable.2
  cases fair with
  | invalid verdict =>
      refine .invalid fun r prepared => ?_
      obtain ⟨r', run⟩ := verdict r prepared
      exact ⟨r', (same prepared).symm.trans run⟩
  | measured verdict fits =>
      refine .measured (fun r prepared => ?_) fits
      obtain ⟨r', run, size⟩ := verdict r prepared
      exact ⟨r', (same prepared).symm.trans run, size⟩

/-- `main` records the same statistics. -/
theorem Mirrors.runTraces_run (mirrors : Mirrors pkg terms malloc realloc)
    (promises : Promises pkg terms) (repeats : Repeats pkg terms Alike)
    (steady : Steady (pkg.withCalls malloc realloc) terms) (some_ready : ∃ s, terms.Ready s)
    {traces : List (Nat × Trace)} (acceptable : ∀ trace ∈ traces, Acceptable trace.2)
    {stats : List Stats}
    (fair : List.Forall₂ (fun trace stat => Fair pkg terms trace.2 stat) traces stats)
    (ready : terms.Ready r.state) :
    ∃ r', runTraces (pkg.withCalls malloc realloc) traces r = some (some stats, r') := by
  obtain ⟨stats', fair', run⟩ := (mirrors.repeats repeats).runTraces_run
    (mirrors.promises promises) steady some_ready acceptable
  have same : stats' = stats := by
    clear run
    induction fair generalizing stats' with
    | nil =>
        cases fair'
        rfl
    | cons first later ih =>
        obtain ⟨here, there⟩ := List.forall_mem_cons.mp acceptable
        cases fair' with
        | cons first' later' =>
            rw [ih there _ later',
              Fair.unique some_ready first (mirrors.fair promises here first')]
  obtain ⟨r', ran, -⟩ := run r ready
  exact ⟨r', same ▸ ran⟩

end Mirrors

/-! ## The versions -/

section Versions

variable {lo limit : Nat}

/-- A version of the allocator over `memlib.c`. -/
def package (v : Version) : Package Heap :=
  { mm with
    mmInit := v.mmInit
    mmMalloc := v.mmMalloc
    mmFree := v.mmFree
    mmRealloc := v.mmRealloc }

theorem clean_mirrors :
    Mirrors mm (mmTerms lo limit) Version.clean.mmMalloc Version.clean.mmRealloc where
  malloc_eq _ _ := by rw [mm, mmMalloc_eq]; rfl
  realloc_eq serving member small :=
    Serving.realloc_alike serving (owned_of_live member) small (by rw [mmMalloc_eq]; rfl)

theorem explicit_mirrors :
    Mirrors mm (mmTerms lo limit) Version.explicit.mmMalloc Version.explicit.mmRealloc where
  malloc_eq serving small := Serving.explicit_mmMalloc_eq serving small
  realloc_eq serving member small :=
    Serving.realloc_alike serving (owned_of_live member) small
      (Serving.explicit_mmMalloc_eq serving small)

theorem clean_steady (bound : limit < lo + 2 ^ 31) :
    Steady (package .clean) (mmTerms lo limit) := by
  refine (mm_steady bound).withCalls (fun n => ?_) (fun p n => ?_)
  · have grows := grows_clean_mmMalloc n
    exact ⟨keeping_storage grows, heapsize_grows grows⟩
  · have grows := grows_reallocWith grows_clean_mmMalloc grows_clean_reallocAbsorbNext p n
    exact ⟨keeping_storage grows, heapsize_grows grows⟩

theorem explicit_steady (bound : limit < lo + 2 ^ 31) :
    Steady (package .explicit) (mmTerms lo limit) := by
  refine (mm_steady bound).withCalls (fun n => ?_) (fun p n => ?_)
  · have grows := grows_explicit_mmMalloc n
    exact ⟨keeping_storage grows, heapsize_grows grows⟩
  · have grows := grows_reallocWith grows_explicit_mmMalloc grows_clean_reallocAbsorbNext p n
    exact ⟨keeping_storage grows, heapsize_grows grows⟩

/-- `main` records the same statistics of the three versions that resize in place,
whatever the traces. -/
theorem versions_stats (bound : limit < lo + 2 ^ 31) {s : Heap} (storage : Storage lo limit s)
    {traces : List (Nat × Trace)} (acceptable : ∀ trace ∈ traces, Acceptable trace.2) :
    ∃ stats, ∀ r : Replay Heap, Storage lo limit r.state →
      ∀ v ∈ [Version.final, Version.clean, Version.explicit],
        ∃ r', runTraces (package v) traces r = some (some stats, r') := by
  have promises := mm_promises lo limit
  have some_ready : ∃ s, (mmTerms lo limit).Ready s := ⟨s, storage⟩
  obtain ⟨stats, fair, run⟩ :=
    mm_repeats.runTraces_run promises (mm_steady bound) some_ready acceptable
  refine ⟨stats, fun r ready => ?_⟩
  have final : ∃ r', runTraces (package .final) traces r = some (some stats, r') := by
    obtain ⟨r', ran, -⟩ := run r ready
    exact ⟨r', ran⟩
  have clean : ∃ r', runTraces (package .clean) traces r = some (some stats, r') :=
    clean_mirrors.runTraces_run promises mm_repeats (clean_steady bound) some_ready acceptable
      fair ready
  have explicit : ∃ r', runTraces (package .explicit) traces r = some (some stats, r') :=
    explicit_mirrors.runTraces_run promises mm_repeats (explicit_steady bound) some_ready
      acceptable fair ready
  exact List.forall_mem_cons.mpr ⟨final, List.forall_mem_cons.mpr ⟨clean,
    List.forall_mem_singleton.mpr explicit⟩⟩

theorem versions_stats_two :
    ∃ stats, ∀ r : Replay Heap, Storage 4096 (4096 + 2 ^ 20) r.state →
      ∀ v ∈ [Version.final, Version.clean, Version.explicit],
        ∃ r', runTraces (package v) twoTraces r = some (some stats, r') :=
  versions_stats (by decide) blank_storage (by decide)

/-! ## `mm_explicit.c` -/

/-- The calls of `mm_explicit.c` for `mm_malloc`. -/
theorem copying_malloc_mirrors :
    Mirrors mm (mmTerms lo limit) Version.copying.mmMalloc mm.mmRealloc where
  malloc_eq serving small := Serving.explicit_mmMalloc_eq serving small
  realloc_eq _ _ _ := rfl

/-- `mm_explicit.c` keeps the promises of `mm.c`. -/
theorem copying_promises (lo limit : Nat) :
    Promises (package .copying) (mmTerms lo limit) := by
  have kept : Promises (mm.withCalls Version.copying.mmMalloc mm.mmRealloc) (mmTerms lo limit) :=
    copying_malloc_mirrors.promises (mm_promises lo limit)
  refine ⟨kept.starts, kept.placed, kept.apart, kept.malloc, ?_, kept.free, kept.memset,
    kept.memset_byte⟩
  intro h live p m n serving member positive small
  refine wp_mono (Serving.copying_realloc serving member small) ?_
  rintro q t ⟨h1, run, outcome⟩
  by_cases null : q = NULL
  · rw [if_pos null]
    exact wp_elim (malloc_of_serving serving positive small) run null
  · rw [if_neg null]
    obtain ⟨failed, -⟩ | ⟨-, served, copied⟩ := outcome
    · exact absurd failed null
    · refine ⟨served.serving, spared_giveBack rfl p ?_, copied⟩
      exact fun r k old differ => (served.kept r k old differ).2

/-- On `mm_explicit.c` the driver comes to a justified verdict as well. -/
theorem copying_verdict {lo limit : Nat} {r : Replay Heap} {ops : List Traceop}
    (storage : Storage lo limit r.state) (wellFormed : WellFormed r.slots [] ops)
    (positive : ∀ op ∈ ops, op.Positive) :
    ∃ verdict r', evalMmValid (package .copying) ops r = some (verdict, r') ∧
      (limit < lo + 24 + CHUNKSIZE ∧ verdict = some (0, .initFailed) ∨
        Verdict (mmTerms lo limit)
          (fun before r1 => evalMmValid (package .copying) before r = some (none, r1)) 0 ops
          verdict) := by
  obtain ⟨⟨verdict, r'⟩, run, judged⟩ :=
    (copying_promises lo limit).wp_evalMmValid storage wellFormed positive
  exact ⟨verdict, r', run, judged⟩

theorem copying_verdict_growing :
    ∃ verdict r', evalMmValid (package .copying) growingTrace blankReplay = some (verdict, r') ∧
      (4096 + 2 ^ 20 < 4096 + 24 + CHUNKSIZE ∧ verdict = some (0, .initFailed) ∨
        Verdict (mmTerms 4096 (4096 + 2 ^ 20))
          (fun before r1 => evalMmValid (package .copying) before blankReplay = some (none, r1)) 0
          growingTrace verdict) :=
  copying_verdict blank_storage (by decide) (by decide)

end Versions

end SysProg.Mdriver

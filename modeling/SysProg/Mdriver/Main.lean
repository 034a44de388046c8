import SysProg.Malloc.Growth
import SysProg.Mdriver.Repeats
import SysProg.Mdriver.Verdicts

/-!
# The loop of `main`

What `main` learns of a trace depends on the trace alone: neither the traces before
it nor the contents of the storage change the verdict or the utilization, and an
accepted trace never ends the driver.
-/

namespace SysProg.Mdriver

open Logic Malloc

/-! ## The verdict does not depend on the storage -/

section Twice

variable {σ : Type} {pkg : Package σ} {terms : Terms σ}
  {Alike : σ → σ → List (Nat × Nat) → Prop} {r r' r1 : Replay σ} {live : Live}
  {slots index : Nat} {size : Int}

theorem range_eq {q q' : Range} (lo : q'.lo = q.lo) (size : q'.hi - q'.lo + 1 = q.hi - q.lo + 1)
    (wide : q.lo ≤ q.hi) (wide' : q'.lo ≤ q'.hi) : q' = q := by
  have hi : q'.hi = q.hi := by omega
  cases q
  cases q'
  exact congrArg₂ Range.mk lo hi

/-- The second replay writes to a block too. -/
theorem Follows.memset {p n : Nat} {v : UInt8} (follows : Follows pkg terms Alike slots r r' live)
    (repeats : Repeats pkg terms Alike) (steady : Steady pkg terms)
    (member : (p, n) ∈ live.payloads) :
    Follows pkg terms Alike slots r { r' with state := pkg.memset p v n r'.state } live where
  sound := follows.sound
  room := follows.room
  alike := repeats.symm (repeats.memset (repeats.symm follows.alike) member)
  ready := steady.memset follows.ready
  blocks := follows.blocks

/-- The end of two equal requests. -/
structure Together (pkg : Package σ) (terms : Terms σ)
    (Alike : σ → σ → List (Nat × Nat) → Prop) (slots : Nat) (op : Traceop) (live : Live)
    (r r' : Replay σ) : Prop where
  again : ∃ live', Follows pkg terms Alike slots r r' live' ∧ Sound pkg terms slots r' live' ∧
    live'.map Prod.fst = op.after (live.map Prod.fst)

/-- Both replays have accepted an allocation. -/
theorem Follows.alloc_together {r1' : Replay σ} (follows : Follows pkg terms Alike slots r r' live)
    (sound' : Sound pkg terms slots r' live) (promises : Promises pkg terms)
    (repeats : Repeats pkg terms Alike) (steady : Steady pkg terms)
    (absent : index ∉ live.map Prod.fst) (inside : index < slots) (positive : 0 < size)
    (small : size < 2 ^ 31) (accepts : checkAlloc pkg index size r = some (none, r1))
    (accepts' : checkAlloc pkg index size r' = some (none, r1')) :
    Together pkg terms Alike slots (.alloc index size) live r1 r1' := by
  obtain ⟨q, t, again, -, sized, follows'⟩ :=
    follows.alloc promises repeats steady absent small accepts
  obtain ⟨p', s', run', -, -, -, rfl⟩ := checkAlloc_inversion accepts'
  cases again.symm.trans run'
  rcases wp_elim (promises.wp_checkAlloc sound' absent inside positive small) accepts' with
    ⟨-, -, -, ⟨-, -, failed⟩ | ⟨-, -, q', sound''⟩⟩
  · cases failed
  obtain ⟨lo, sized'⟩ := sound''.head
  have next := follows' (⟨q.lo, q.lo + (size - 1).toNat⟩ :: r'.ranges)
    (Function.update r'.blockSizes index (some (sizeT size)))
  obtain rfl : q' = q := range_eq lo (sized'.trans sized.symm)
    (next.sound.tracked.nonempty _ List.mem_cons_self)
    (sound''.tracked.nonempty _ List.mem_cons_self)
  refine ⟨_, next.memset repeats steady ?_, sound'', rfl⟩
  rw [Live.payloads, List.map_cons, sized]
  exact List.mem_cons_self

/-- Both replays have accepted a reallocation. -/
theorem Follows.realloc_together {r1' : Replay σ} (follows : Follows pkg terms Alike slots r r' live)
    (sound' : Sound pkg terms slots r' live) (promises : Promises pkg terms)
    (repeats : Repeats pkg terms Alike) (steady : Steady pkg terms)
    (present : index ∈ live.map Prod.fst) (positive : 0 < size) (small : size < 2 ^ 31)
    (accepts : checkRealloc pkg index size r = some (none, r1))
    (accepts' : checkRealloc pkg index size r' = some (none, r1')) :
    Together pkg terms Alike slots (.realloc index size) live r1 r1' := by
  obtain ⟨q0, q, t, member, again, -, sized, follows'⟩ :=
    follows.realloc promises repeats steady present small accepts
  obtain ⟨p0, n0, p', s', block, -, run', -, -, -, rfl⟩ := checkRealloc_inversion accepts'
  cases block.symm.trans (follows.blocks _ member)
  cases again.symm.trans run'
  rcases wp_elim (promises.wp_checkRealloc sound' present positive small) accepts' with
    ⟨-, -, -, -, -, ⟨-, -, failed⟩ | ⟨-, ⟨-, failed⟩ | ⟨-, -, q', sound''⟩⟩⟩
  · cases failed
  · cases failed
  obtain ⟨lo, sized'⟩ := sound''.head
  have next := follows'
    (⟨q.lo, q.lo + (size - 1).toNat⟩ :: r'.ranges.eraseP fun p => p.lo = q0.lo)
    (Function.update r'.blockSizes index (some (sizeT size)))
  obtain rfl : q' = q := range_eq lo (sized'.trans sized.symm)
    (next.sound.tracked.nonempty _ List.mem_cons_self)
    (sound''.tracked.nonempty _ List.mem_cons_self)
  refine ⟨_, next.memset repeats steady ?_, sound'', ?_⟩
  · rw [Live.payloads, List.map_cons, sized]
    exact List.mem_cons_self
  · rw [List.map_cons, without_ids]
    rfl

/-- Two replays that are alike say the same about a request. -/
theorem Follows.checkOp_same {op : Traceop} (follows : Follows pkg terms Alike slots r r' live)
    (sound' : Sound pkg terms slots r' live) (promises : Promises pkg terms)
    (repeats : Repeats pkg terms Alike) (steady : Steady pkg terms)
    (permitted : op.Permitted slots (live.map Prod.fst)) (positive : op.Positive) :
    ∃ c r1 r1', checkOp pkg op r = some (c, r1) ∧ checkOp pkg op r' = some (c, r1') ∧
      (c = none → Together pkg terms Alike slots op live r1 r1') := by
  cases op with
  | alloc index size =>
      change 0 < size at positive
      obtain ⟨absent, small, inside⟩ := permitted
      obtain ⟨length, bound, -⟩ := payload_size 0 positive small
      obtain ⟨p, t, t', malloc, malloc', -⟩ :=
        repeats.malloc follows.alike (n := sizeT size) (by omega) bound
      obtain ⟨⟨c, r1⟩, run, p1, s1, found, outcome⟩ :=
        promises.wp_checkAlloc follows.sound absent inside positive small
      obtain ⟨⟨c', r1'⟩, run', p2, s2, found', outcome'⟩ :=
        promises.wp_checkAlloc sound' absent inside positive small
      cases malloc.symm.trans found
      cases malloc'.symm.trans found'
      rcases outcome with ⟨null, -, rfl⟩ | ⟨notNull, rfl, -⟩
      · rcases outcome' with ⟨-, -, rfl⟩ | ⟨notNull, -⟩
        · exact ⟨_, r1, r1', run, run', fun accepted => (nomatch accepted)⟩
        · exact absurd null notNull
      · rcases outcome' with ⟨null, -⟩ | ⟨-, rfl, -⟩
        · exact absurd null notNull
        · exact ⟨none, r1, r1', run, run', fun _ => follows.alloc_together sound' promises repeats
            steady absent inside positive small run run'⟩
  | realloc index size =>
      change 0 < size at positive
      obtain ⟨length, bound, -⟩ := payload_size 0 positive permitted.2
      obtain ⟨⟨c, r1⟩, run, q1, p1, s1, member, found, outcome⟩ :=
        promises.wp_checkRealloc follows.sound permitted.1 positive permitted.2
      obtain ⟨⟨c', r1'⟩, run', q2, p2, s2, member', found', outcome'⟩ :=
        promises.wp_checkRealloc sound' permitted.1 positive permitted.2
      obtain ⟨p, t, t', realloc, realloc', -⟩ :=
        repeats.realloc follows.alike (mem_payloads member) (n := sizeT size) (by omega) bound
      have same : q2.lo = q1.lo := (follows.sound.tracked.lo_iff member' member).mpr rfl
      rw [same] at found'
      cases realloc.symm.trans found
      cases realloc'.symm.trans found'
      rcases outcome with ⟨null, -, rfl⟩ | ⟨notNull, ⟨high, rfl⟩ | ⟨low, rfl, -⟩⟩
      · rcases outcome' with ⟨-, -, rfl⟩ | ⟨notNull, -⟩
        · exact ⟨_, r1, r1', run, run', fun accepted => (nomatch accepted)⟩
        · exact absurd null notNull
      · rcases outcome' with ⟨null, -⟩ | ⟨-, ⟨-, rfl⟩ | ⟨low, -⟩⟩
        · exact absurd null notNull
        · exact ⟨_, r1, r1', run, run', fun accepted => (nomatch accepted)⟩
        · omega
      · rcases outcome' with ⟨null, -⟩ | ⟨-, ⟨high, -⟩ | ⟨-, rfl, -⟩⟩
        · exact absurd null notNull
        · omega
        · exact ⟨none, r1, r1', run, run', fun _ => follows.realloc_together sound' promises
            repeats steady permitted.1 positive permitted.2 run run'⟩
  | free index =>
      obtain ⟨⟨c, r1⟩, run, rfl, -⟩ := promises.wp_checkFree follows.sound permitted
      obtain ⟨⟨c', r1'⟩, run', rfl, sound''⟩ := promises.wp_checkFree sound' permitted
      refine ⟨none, r1, r1', run, run', fun _ => ⟨_, ?_, sound'', without_ids live index⟩⟩
      obtain ⟨q, t, member, again, next⟩ := follows.free promises repeats steady permitted run
      obtain ⟨p', s', block, found, rfl⟩ := checkFree_inversion run'
      cases block.symm.trans (follows.blocks _ member)
      cases again.symm.trans found
      exact ⟨next.sound, next.room, next.alike, next.ready, next.blocks⟩

/-- Two replays that are alike come to the same verdict. -/
theorem Follows.checkOps_same {ops : List Traceop} {i : Nat}
    (follows : Follows pkg terms Alike slots r r' live) (sound' : Sound pkg terms slots r' live)
    (promises : Promises pkg terms) (repeats : Repeats pkg terms Alike)
    (steady : Steady pkg terms) (wellFormed : WellFormed slots (live.map Prod.fst) ops)
    (positive : ∀ op ∈ ops, op.Positive) :
    ∃ verdict r1 r1', checkOps pkg i ops r = some (verdict, r1) ∧
      checkOps pkg i ops r' = some (verdict, r1') ∧
      (verdict = none → pkg.memHeapsize r1'.state = pkg.memHeapsize r1.state) := by
  induction ops generalizing i r r' live with
  | nil => exact ⟨none, r, r', rfl, rfl, fun _ => repeats.heapsize follows.alike⟩
  | cons op rest ih =>
      obtain ⟨permitted, wellFormed⟩ := wellFormed
      obtain ⟨first, later⟩ := List.forall_mem_cons.mp positive
      obtain ⟨c, r1, r1', run, run', together⟩ :=
        follows.checkOp_same sound' promises repeats steady permitted first
      rw [checkOps, bind_run_of_run run, bind_run_of_run run']
      cases c with
      | some complaint =>
          exact ⟨_, r1, r1', rfl, rfl, fun accepted => absurd accepted (Option.some_ne_none _)⟩
      | none =>
          obtain ⟨live', next, sound'', ids⟩ := together rfl
          rw [← ids] at wellFormed
          exact ih next sound'' wellFormed later

/-- The verdict on a trace and the heap that an accepted trace leaves do not depend on
the state of the storage. -/
theorem Repeats.evalMmValid_same (repeats : Repeats pkg terms Alike)
    (promises : Promises pkg terms) (steady : Steady pkg terms) {ops : List Traceop}
    (prepared : Prepared terms slots r) (prepared' : Prepared terms slots r')
    (wellFormed : WellFormed slots [] ops) (positive : ∀ op ∈ ops, op.Positive) :
    ∃ verdict r1 r1', evalMmValid pkg ops r = some (verdict, r1) ∧
      evalMmValid pkg ops r' = some (verdict, r1') ∧
      (verdict = none → pkg.memHeapsize r1'.state = pkg.memHeapsize r1.state) := by
  obtain ⟨status, t, u, t', u', reset, init, reset', init', alike⟩ :=
    repeats.starts prepared.ready prepared'.ready
  rw [evalMmValid_behind reset init, evalMmValid_behind reset' init']
  by_cases failed : status < 0
  · rw [if_pos failed]
    exact ⟨_, _, _, rfl, rfl, fun accepted => absurd accepted (Option.some_ne_none _)⟩
  · rw [if_neg failed]
    obtain ⟨serves, serves'⟩ := repeats.serves (alike failed)
    have again : terms.Ready u' :=
      steady.init _ _ _ init' (steady.reset _ _ _ reset' prepared'.ready)
    have follows : Follows pkg terms Alike slots { r with state := u, ranges := [] }
        { r' with state := u', ranges := [] } [] :=
      ⟨⟨.start prepared.room rfl, serves, fun _ member => (nomatch member)⟩, prepared'.room,
        alike failed, again, fun _ member => (nomatch member)⟩
    have sound' : Sound pkg terms slots { r' with state := u', ranges := [] } [] :=
      ⟨.start prepared'.room rfl, serves', fun _ member => (nomatch member)⟩
    exact follows.checkOps_same sound' promises repeats steady wellFormed positive

end Twice

/-! ## The storage may be initialised again -/

section Steady

variable {σ : Type} {pkg : Package σ} {terms : Terms σ} {slots : Nat} {α : Type}

/-- A driver routine that leaves the storage ready, and the arrays where they are. -/
abbrev KeepsReady (terms : Terms σ) (slots : Nat) (x : DM σ α) : Prop :=
  Within (Keeping (Prepared terms slots)) x

theorem keepsReady_run {x : Prog σ α} (kept : Within (Keeping terms.Ready) x) :
    KeepsReady terms slots (statePart.run x) := by
  intro r a r' ends prepared
  obtain ⟨s, run, rfl⟩ := Part.run_eq_some ends
  exact ⟨kept _ _ _ run prepared.ready, prepared.room⟩

theorem keepsReady_of_state {x : DM σ α}
    (same : ∀ r a r', x r = some (a, r') → r'.state = r.state ∧ r'.slots = r.slots) :
    KeepsReady terms slots x := by
  intro r a r' run prepared
  obtain ⟨state, room⟩ := same r a r' run
  exact ⟨state ▸ prepared.ready, room.trans prepared.room⟩

theorem keepsReady_blockAt (index : Nat) : KeepsReady terms slots (blockAt index) := by
  refine keepsReady_of_state fun r a r' run => ?_
  obtain ⟨-, rfl⟩ := blockAt_some run
  exact ⟨rfl, rfl⟩

theorem keepsReady_blockSizeAt (index : Nat) : KeepsReady terms slots (blockSizeAt index) := by
  refine keepsReady_of_state fun r a r' run => ?_
  obtain ⟨-, rfl⟩ := blockSizeAt_some run
  exact ⟨rfl, rfl⟩

theorem keepsReady_addRange (lo : Nat) (size : Int) :
    KeepsReady terms slots (addRange pkg lo size) := by
  refine keepsReady_of_state fun r a r' run => ?_
  simp only [addRange] at run
  split at run
  · cases run
  · split at run
    · cases run
      exact ⟨rfl, rfl⟩
    · split at run
      · cases run
        exact ⟨rfl, rfl⟩
      · split at run
        · cases run
          exact ⟨rfl, rfl⟩
        · cases run
          exact ⟨rfl, rfl⟩

theorem keepsReady_removeRange (lo : Nat) : KeepsReady terms slots (removeRange lo : DM σ Unit) :=
  keepsReady_of_state fun r a r' run => by
    cases run
    exact ⟨rfl, rfl⟩

theorem keepsReady_clearRanges : KeepsReady terms slots (clearRanges : DM σ Unit) :=
  keepsReady_of_state fun r a r' run => by
    cases run
    exact ⟨rfl, rfl⟩

theorem Steady.keepsReady_record (steady : Steady pkg terms) (p index : Nat) (size : Int) :
    KeepsReady terms slots (record pkg p index size) := by
  intro r a r' run prepared
  obtain ⟨-, rfl⟩ := record_some run
  exact ⟨steady.memset prepared.ready, prepared.room⟩

theorem Steady.keepsReady_checkOp (steady : Steady pkg terms) (op : Traceop) :
    KeepsReady terms slots (checkOp pkg op) := by
  cases op with
  | alloc index size =>
      refine (keepsReady_run (steady.malloc _)).bind fun p => .ite (.pure _) ?_
      refine (keepsReady_addRange p size).bind fun complaint => ?_
      cases complaint with
      | some complaint => exact .pure _
      | none => exact steady.keepsReady_record p index size
  | realloc index size =>
      refine (keepsReady_blockAt index).bind fun oldp => ?_
      refine (keepsReady_run (steady.realloc _ _)).bind fun newp => .ite (.pure _) ?_
      refine (keepsReady_removeRange oldp).bind fun _ => ?_
      refine (keepsReady_addRange newp size).bind fun complaint => ?_
      cases complaint with
      | some complaint => exact .pure _
      | none =>
          refine (keepsReady_blockSizeAt index).bind fun oldsize => ?_
          refine (keepsReady_of_state fun r a r' run => ?_).bind fun s => .ite (.pure _) ?_
          · cases run
            exact ⟨rfl, rfl⟩
          · exact steady.keepsReady_record newp index size
  | free index =>
      refine (keepsReady_blockAt index).bind fun p => (keepsReady_removeRange p).bind fun _ => ?_
      exact (keepsReady_run (steady.free p)).bind fun _ => .pure _

theorem Steady.keepsReady_checkOps (steady : Steady pkg terms) (i : Nat) (ops : List Traceop) :
    KeepsReady terms slots (checkOps pkg i ops) := by
  induction ops generalizing i with
  | nil => exact .pure _
  | cons op rest ih =>
      refine (steady.keepsReady_checkOp op).bind fun c => ?_
      cases c with
      | some complaint => exact .pure _
      | none => exact ih (i + 1)

/-- Whatever the verdict, the storage may be initialised again. -/
theorem Steady.keepsReady_evalMmValid (steady : Steady pkg terms) (ops : List Traceop) :
    KeepsReady terms slots (evalMmValid pkg ops) := by
  refine (keepsReady_run steady.reset).bind fun _ => keepsReady_clearRanges.bind fun _ => ?_
  refine (keepsReady_run steady.init).bind fun status => .ite (.pure _) ?_
  exact steady.keepsReady_checkOps 0 ops

end Steady

/-! ## The statistics -/

section Stats

variable {σ : Type} {pkg : Package σ} {terms : Terms σ}
  {Alike : σ → σ → List (Nat × Nat) → Prop} {slots : Nat} {ops : List Traceop} {trace : Trace}

/-- A trace that the driver can be given. -/
def Acceptable (trace : Trace) : Prop :=
  WellFormed trace.slots [] trace.ops ∧ ∀ op ∈ trace.ops, op.Positive

instance (trace : Trace) : Decidable (Acceptable trace) := inferInstanceAs (Decidable (_ ∧ _))

/-- What is recorded of a trace is what a replay of it alone shows. -/
inductive Fair (pkg : Package σ) (terms : Terms σ) (trace : Trace) : Stats → Prop where
  | invalid {opnum : Nat} {complaint : Complaint}
      (verdict : ∀ r : Replay σ, Prepared terms trace.slots r →
        ∃ r', evalMmValid pkg trace.ops r = some (some (opnum, complaint), r')) :
      Fair pkg terms trace (.invalid opnum complaint)
  | measured {heapsize : Nat}
      (verdict : ∀ r : Replay σ, Prepared terms trace.slots r →
        ∃ r', evalMmValid pkg trace.ops r = some (none, r') ∧
          pkg.memHeapsize r'.state = heapsize)
      (fits : peak [] trace.ops ≤ heapsize) :
      Fair pkg terms trace (.measured (peak [] trace.ops) heapsize)

/-- An accepted trace passes any number of calls of `eval_mm_speed`. -/
theorem Repeats.speedRuns_run (repeats : Repeats pkg terms Alike) (promises : Promises pkg terms)
    (steady : Steady pkg terms) {r r' r1 : Replay σ} (prepared : Prepared terms slots r)
    (prepared' : Prepared terms slots r') (wellFormed : WellFormed slots [] ops)
    (accepts : evalMmValid pkg ops r = some (none, r1)) (calls : Nat) :
    ∃ r2, speedRuns pkg ops calls r' = some (true, r2) ∧ Prepared terms slots r2 := by
  induction calls generalizing r' with
  | zero => exact ⟨r', rfl, prepared'⟩
  | succ calls ih =>
      obtain ⟨r2, once, prepared2⟩ :=
        repeats.evalMmSpeed_run promises steady prepared prepared' wellFormed accepts
      obtain ⟨r3, rest, prepared3⟩ := ih prepared2
      refine ⟨r3, ?_, prepared3⟩
      rw [speedRuns, bind_run_of_run once]
      exact rest

/-- A trace has the same statistics from every state of the storage. -/
theorem Repeats.runTrace_run (repeats : Repeats pkg terms Alike) (promises : Promises pkg terms)
    (steady : Steady pkg terms) (some_ready : ∃ s, terms.Ready s) (acceptable : Acceptable trace) :
    ∃ stats, Fair pkg terms trace stats ∧ ∀ calls (r : Replay σ), terms.Ready r.state →
      ∃ r', runTrace pkg calls trace r = some (some stats, r') ∧ terms.Ready r'.state := by
  obtain ⟨s, ready⟩ := some_ready
  obtain ⟨wellFormed, positive⟩ := acceptable
  let fresh (s : σ) (ranges : List Range) : Replay σ :=
    ⟨s, ranges, fun _ => none, fun _ => none, trace.slots⟩
  have prepared0 : Prepared terms trace.slots (fresh s []) := ⟨ready, rfl⟩
  obtain ⟨verdict, r1, -, run, -, -⟩ :=
    repeats.evalMmValid_same promises steady prepared0 prepared0 wellFormed positive
  have same : ∀ r : Replay σ, Prepared terms trace.slots r → ∃ r',
      evalMmValid pkg trace.ops r = some (verdict, r') ∧
        (verdict = none → pkg.memHeapsize r'.state = pkg.memHeapsize r1.state) := by
    intro r prepared
    obtain ⟨verdict', r2, r', run', again, size⟩ :=
      repeats.evalMmValid_same promises steady prepared0 prepared wellFormed positive
    cases run.symm.trans run'
    exact ⟨r', again, size⟩
  have start : ∀ r : Replay σ, (freshArrays trace.slots : DM σ Unit) r =
      some ((), fresh r.state r.ranges) := fun _ => rfl
  cases verdict with
  | some complaint =>
      obtain ⟨opnum, complaint⟩ := complaint
      refine ⟨.invalid opnum complaint, .invalid fun r prepared => ?_, fun calls r ready' => ?_⟩
      · obtain ⟨r', again, -⟩ := same r prepared
        exact ⟨r', again⟩
      · have prepared : Prepared terms trace.slots (fresh r.state r.ranges) := ⟨ready', rfl⟩
        obtain ⟨r', again, -⟩ := same _ prepared
        refine ⟨r', ?_, (steady.keepsReady_evalMmValid trace.ops _ _ _ again prepared).ready⟩
        rw [runTrace, bind_run_of_run (start r), bind_run_of_run again]
        rfl
  | none =>
      obtain ⟨-, -, -, fits⟩ :=
        repeats.evalMmUtil_run promises steady prepared0 prepared0 wellFormed positive run
      refine ⟨.measured (peak [] trace.ops) (pkg.memHeapsize r1.state),
        .measured (fun r prepared => ?_) fits, fun calls r ready' => ?_⟩
      · obtain ⟨r', again, size⟩ := same r prepared
        exact ⟨r', again, size rfl⟩
      · have prepared : Prepared terms trace.slots (fresh r.state r.ranges) := ⟨ready', rfl⟩
        obtain ⟨r2, again, -⟩ := same _ prepared
        have prepared2 := steady.keepsReady_evalMmValid trace.ops _ _ _ again prepared
        obtain ⟨r3, util, prepared3, -⟩ :=
          repeats.evalMmUtil_run promises steady prepared0 prepared2 wellFormed positive run
        obtain ⟨r4, speed, prepared4⟩ :=
          repeats.speedRuns_run promises steady prepared0 prepared3 wellFormed run calls
        refine ⟨r4, ?_, prepared4.ready⟩
        rw [runTrace, bind_run_of_run (start r), bind_run_of_run again]
        dsimp only
        rw [bind_run_of_run util]
        dsimp only
        rw [bind_run_of_run speed]
        rfl

/-- The statistics of a list of traces are those of its traces. -/
theorem Repeats.runTraces_run (repeats : Repeats pkg terms Alike) (promises : Promises pkg terms)
    (steady : Steady pkg terms) (some_ready : ∃ s, terms.Ready s)
    {traces : List (Nat × Trace)} (acceptable : ∀ trace ∈ traces, Acceptable trace.2) :
    ∃ stats, List.Forall₂ (fun trace stat => Fair pkg terms trace.2 stat) traces stats ∧
      ∀ r : Replay σ, terms.Ready r.state →
        ∃ r', runTraces pkg traces r = some (some stats, r') ∧ terms.Ready r'.state := by
  induction traces with
  | nil => exact ⟨[], .nil, fun r ready => ⟨r, rfl, ready⟩⟩
  | cons trace rest ih =>
      obtain ⟨first, later⟩ := List.forall_mem_cons.mp acceptable
      obtain ⟨stat, fair, alone⟩ := repeats.runTrace_run promises steady some_ready first
      obtain ⟨stats, fairs, run⟩ := ih later
      refine ⟨stat :: stats, .cons fair fairs, fun r ready => ?_⟩
      obtain ⟨r1, here, ready1⟩ := alone trace.1 r ready
      obtain ⟨r2, there, ready2⟩ := run r1 ready1
      refine ⟨r2, ?_, ready2⟩
      rw [runTraces, bind_run_of_run here]
      dsimp only
      rw [bind_run_of_run there]
      rfl

end Stats

/-! ## `mm.c` -/

section Final

variable {lo limit : Nat}

theorem Storage.grown {h h' : Heap} (storage : Storage lo limit h) (grown : Grown h h') :
    Storage lo limit h' where
  start_eq := grown.start.trans storage.start_eq
  start_aligned := storage.start_aligned
  limit_eq := grown.limit.trans storage.limit_eq
  limit_lt := storage.limit_lt
  unchecked := grown.checked.trans storage.unchecked

theorem keeping_storage {α : Type} {x : MM α} (grows : Grows x) :
    Within (Keeping (Storage lo limit)) x :=
  fun _ _ _ run storage => Storage.grown storage (grows _ _ _ run)

theorem heapsize_grows {α : Type} {x : MM α} (grows : Grows x) :
    Within (InvImage (· ≤ ·) mm.memHeapsize) x := by
  intro h a h' run
  have grown := grows h a h' run
  change h.memBrk - h.memStartBrk ≤ h'.memBrk - h'.memStartBrk
  rw [grown.start]
  exact Nat.sub_le_sub_right grown.brk _

/-- `mm.c` stays in its storage. -/
theorem mm_steady (bound : limit < lo + 2 ^ 31) : Steady mm (mmTerms lo limit) where
  reset := by
    intro h a h' run storage
    cases run
    exact ⟨storage.start_eq, storage.start_aligned, storage.limit_eq, storage.limit_lt,
      storage.unchecked⟩
  init := keeping_storage grows_mmInit
  malloc n := keeping_storage (grows_mmMalloc n)
  realloc p n := keeping_storage (grows_mmRealloc p n)
  free p := keeping_storage (grows_mmFree p)
  memset := fun storage => ⟨storage.start_eq, storage.start_aligned, storage.limit_eq,
    storage.limit_lt, storage.unchecked⟩
  mallocGrows n := heapsize_grows (grows_mmMalloc n)
  reallocGrows p n := heapsize_grows (grows_mmRealloc p n)
  freeGrows p := heapsize_grows (grows_mmFree p)
  narrow := by
    rintro h live storage ⟨-, bs, fl, rep, -⟩
    have start := storage.start_eq
    have limited := storage.limit_eq
    have below : h.memBrk ≤ h.memMaxAddr := rep.consistent.layout.brk_le
    have brk : h.memBrk = lo + 8 + span bs := rep.consistent.layout.brk_eq
    change h.memBrk - h.memStartBrk = h.memBrk - 1 + 1 - h.memStartBrk ∧
      h.memBrk - h.memStartBrk < 2 ^ 31
    omega

/-- Two heaps with the same clients, the same blocks and the same free list. -/
def MmAlike (lo : Nat) (h h' : Heap) (live : List (Nat × Nat)) : Prop :=
  Serving lo ⟨h, live⟩ ∧ Serving lo ⟨h', live⟩ ∧ ∃ bs fl, Twins lo h h' bs fl

theorem Twins.swap {h h' : Heap} {bs : List Block} {fl : List Nat} (twins : Twins lo h h' bs fl) :
    Twins lo h' h bs fl :=
  ⟨twins.second, twins.first, twins.limit.symm, twins.unchecked', twins.unchecked⟩

/-- `mm.c` repeats itself. -/
theorem mm_repeats : Repeats mm (mmTerms lo limit) (MmAlike lo) where
  serves := fun alike => ⟨alike.1, alike.2.1⟩
  symm := by
    rintro h h' live ⟨serving, serving', bs, fl, twins⟩
    exact ⟨serving', serving, bs, fl, Twins.swap twins⟩
  heapsize := by
    rintro h h' live ⟨-, -, bs, fl, twins⟩
    exact twins.samePlacement.size
  starts := by
    intro h h' storage storage'
    obtain ⟨⟨status, g⟩, run, holds⟩ := wp_mmInit storage.fresh
    obtain ⟨⟨status', g'⟩, run', holds'⟩ := wp_mmInit storage'.fresh
    have limit_eq := storage.limit_eq
    have limit_eq' := storage'.limit_eq
    dsimp only at holds holds'
    obtain rfl : status' = status := by
      rw [limit_eq] at holds
      rw [limit_eq'] at holds'
      omega
    refine ⟨status', _, g, _, g', rfl, run, rfl, run', fun started => ?_⟩
    rcases holds with ⟨failed, -⟩ | ⟨rfl, -, arena, rep⟩
    · omega
    rcases holds' with ⟨failed, -⟩ | ⟨-, -, arena', rep'⟩
    · omega
    have serving := storage.serving run
    have serving' := storage'.serving run'
    have limits : g'.memMaxAddr = g.memMaxAddr := by
      rw [arena'.limit, arena.limit]
      exact limit_eq'.trans limit_eq.symm
    exact ⟨serving, serving', _, _, rep, rep', limits, serving.1, serving'.1⟩
  malloc := by
    rintro h h' live n ⟨serving, serving', bs, fl, twins⟩ positive small
    obtain ⟨p, g, g', bs', fl', run, run', twins'⟩ := twins.malloc small
    have served := (wp_elim (Serving.malloc serving small) run).serving
    have served' := (wp_elim (Serving.malloc serving' small) run').serving
    refine ⟨p, g, g', run, run', fun notNull => ?_⟩
    rw [take, if_neg notNull] at served served'
    exact ⟨served, served', bs', fl', twins'⟩
  realloc := by
    rintro h h' live p m n ⟨serving, serving', bs, fl, twins⟩ member positive small
    have served := Serving.realloc serving (owned_of_live member) small
    have served' := Serving.realloc serving' (owned_of_live member) small
    obtain ⟨-, bs1, fl1, rep, owns⟩ := serving
    obtain ⟨rfl, rfl⟩ := twins.first.unique rep
    obtain ⟨front, b, back, rfl, rfl, taken, behind⟩ := owns.split_at (List.mem_map_of_mem member)
    obtain ⟨q, g, g', bs', fl', run, run', twins'⟩ := twins.resize behind taken positive small
    have serves := (wp_elim served run).serving
    have serves' := (wp_elim served' run').serving
    refine ⟨q, g, g', run, run', fun notNull => ?_⟩
    rw [if_neg (fun failed => notNull failed.1), take, if_neg notNull] at serves serves'
    exact ⟨serves, serves', bs', fl', twins'⟩
  free := by
    rintro h h' live p n ⟨serving, serving', bs, fl, twins⟩ member
    have served := Serving.free serving (owned_of_live member)
    have served' := Serving.free serving' (owned_of_live member)
    obtain ⟨-, bs1, fl1, rep, owns⟩ := serving
    obtain ⟨rfl, rfl⟩ := twins.first.unique rep
    obtain ⟨front, b, back, rfl, rfl, taken, behind⟩ := owns.split_at (List.mem_map_of_mem member)
    obtain ⟨g, g', bs', fl', run, run', twins'⟩ := twins.free behind taken
    exact ⟨g, g', run, run', (wp_elim served run).serving, (wp_elim served' run').serving, bs', fl',
      twins'⟩
  memset := by
    rintro h h' live p n v ⟨serving, serving', bs, fl, twins⟩ member
    have written := serving_memset (v := v) serving member
    obtain ⟨-, bs1, fl1, rep, owns⟩ := id written
    obtain ⟨-, bs2, fl2, rep', owns'⟩ := serving
    obtain ⟨rfl, rfl⟩ := twins.first.unique rep'
    have kept : Represents lo (h.withMem (setBytes h.mem p v n)) bs fl := by
      refine rep'.overwrite fun i outside => setBytes_outside ?_
      rintro ⟨lower, upper⟩
      exact outside (owns'.clientByte member lower upper)
    exact ⟨written, serving', bs, fl, kept, twins.second, twins.limit, twins.unchecked,
      twins.unchecked'⟩

/-- What `main` prints about `mm.c` depends on the traces alone, one by one; no trace
ends the driver, and the utilization of an accepted one is the peak of its demand over
a heap that is no smaller. -/
theorem mm_stats (bound : limit < lo + 2 ^ 31) {s : Heap} (storage : Storage lo limit s)
    {traces : List (Nat × Trace)} (acceptable : ∀ trace ∈ traces, Acceptable trace.2) :
    ∃ stats, List.Forall₂ (fun trace stat => Fair mm (mmTerms lo limit) trace.2 stat) traces stats ∧
      ∀ r : Replay Heap, Storage lo limit r.state →
        ∃ r', runTraces mm traces r = some (some stats, r') := by
  obtain ⟨stats, fair, run⟩ := mm_repeats.runTraces_run (mm_promises lo limit) (mm_steady bound)
    ⟨s, storage⟩ acceptable
  refine ⟨stats, fair, fun r ready => ?_⟩
  obtain ⟨r', ran, -⟩ := run r ready
  exact ⟨r', ran⟩

/-- Two traces, of which the driver accepts the first one only. -/
def twoTraces : List (Nat × Trace) :=
  [(2, ⟨some 20000, 2, 4, some 1, growingTrace⟩), (1, ⟨some 20000, 201, 2, some 1, negativeTrace⟩)]

theorem mm_stats_two :
    ∃ stats, List.Forall₂ (fun trace stat => Fair mm (mmTerms 4096 (4096 + 2 ^ 20)) trace.2 stat)
        twoTraces stats ∧
      ∀ r : Replay Heap, Storage 4096 (4096 + 2 ^ 20) r.state →
        ∃ r', runTraces mm twoTraces r = some (some stats, r') :=
  mm_stats (by decide) blank_storage (by decide)

end Final

end SysProg.Mdriver

import SysProg.Malloc.Client
import SysProg.Mdriver.Checker

/-!
# What `eval_mm_valid` says about a correct allocator

`Promises` is what a client expects of an allocator.  Under it the driver always
comes to a verdict, and it complains only where the allocator has no memory left
or where it compares a signed byte with an index that is too large for it.
-/

namespace SysProg.Mdriver

open Logic Malloc

/-! ## The promises of an allocator -/

/-- The contents of the blocks are as they were. -/
def Spared {σ : Type} (pkg : Package σ) (live : List (Nat × Nat)) (s t : σ) : Prop :=
  ∀ p n, (p, n) ∈ live → ∀ i < n, pkg.byte t (p + i) = pkg.byte s (p + i)

/-- The terms in which an allocator is specified: where it may be initialised, and
where there is too little memory for that; the blocks of the given addresses and
sizes that a state serves; and where there is no memory for a size. -/
structure Terms (σ : Type) where
  Ready : σ → Prop
  Cramped : σ → Prop
  Serves : σ → List (Nat × Nat) → Prop
  Full : σ → Nat → Prop

/-- What a client expects of an allocator. -/
structure Promises {σ : Type} (pkg : Package σ) (terms : Terms σ) : Prop where
  starts : ∀ {s}, terms.Ready s → wp pkg.memResetBrk (fun _ t =>
    wp pkg.mmInit (fun status u => if status < 0 then terms.Cramped s else terms.Serves u []) t) s
  placed : ∀ {s live p n}, terms.Serves s live → (p, n) ∈ live →
    p % ALIGNMENT = 0 ∧ pkg.memHeapLo s ≤ p ∧ p + n ≤ pkg.memHeapHi s + 1
  apart : ∀ {s live}, terms.Serves s live →
    live.Pairwise fun e f => e.1 + e.2 ≤ f.1 ∨ f.1 + f.2 ≤ e.1
  malloc : ∀ {s live n}, terms.Serves s live → 0 < n → n < 2 ^ 31 →
    wp (pkg.mmMalloc n) (fun p t => if p = NULL then terms.Full s n else
      terms.Serves t ((p, n) :: live) ∧ Spared pkg live s t) s
  realloc : ∀ {s live p m n}, terms.Serves s live → (p, m) ∈ live → 0 < n → n < 2 ^ 31 →
    wp (pkg.mmRealloc p n) (fun q t => if q = NULL then terms.Full s n else
      terms.Serves t ((q, n) :: giveBack p live) ∧ Spared pkg (giveBack p live) s t ∧
        ∀ i < min m n, pkg.byte t (q + i) = pkg.byte s (p + i)) s
  free : ∀ {s live p n}, terms.Serves s live → (p, n) ∈ live → wp (pkg.mmFree p) (fun _ t =>
    terms.Serves t (giveBack p live) ∧ Spared pkg (giveBack p live) s t) s
  memset : ∀ {s live p n v}, terms.Serves s live → (p, n) ∈ live →
    terms.Serves (pkg.memset p v n s) live
  memset_byte : ∀ {s p v n i},
    pkg.byte (pkg.memset p v n s) i = if p ≤ i ∧ i < p + n then v else pkg.byte s i

/-! ## The state between two requests -/

/-- The blocks as the allocator knows them. -/
def Live.payloads (live : Live) : List (Nat × Nat) :=
  live.map fun e => (e.2.lo, e.2.hi - e.2.lo + 1)

/-- The blocks hold the low bytes of their indices. -/
def Filled {σ : Type} (pkg : Package σ) (s : σ) (live : Live) : Prop :=
  ∀ e ∈ live, ∀ i, e.2.lo ≤ i → i ≤ e.2.hi → pkg.byte s i = UInt8.ofNat (e.1 % 256)

/-- The invariant of the loop of `eval_mm_valid`. -/
structure Sound {σ : Type} (pkg : Package σ) (terms : Terms σ) (slots : Nat) (r : Replay σ)
    (live : Live) : Prop where
  tracked : Tracked slots r live
  serves : terms.Serves r.state live.payloads
  filled : Filled pkg r.state live

/-- The size that a request asks for is positive. -/
def Traceop.Positive : Traceop → Prop
  | .alloc _ size => 0 < size
  | .realloc _ size => 0 < size
  | .free _ => True

instance : (op : Traceop) → Decidable op.Positive
  | .alloc _ size => inferInstanceAs (Decidable (0 < size))
  | .realloc _ size => inferInstanceAs (Decidable (0 < size))
  | .free _ => inferInstanceAs (Decidable True)

/-- What the driver may say about a request in the state `s`. -/
inductive Justified {σ : Type} (terms : Terms σ) (s : σ) : Traceop → Option Complaint → Prop where
  | accepted {op : Traceop} (low : op.LowByte) : Justified terms s op none
  | mallocFailed {index : Nat} {size : Int} (full : terms.Full s (sizeT size)) :
      Justified terms s (.alloc index size) (some .mallocFailed)
  | reallocFailed {index : Nat} {size : Int} (full : terms.Full s (sizeT size)) :
      Justified terms s (.realloc index size) (some .reallocFailed)
  /-- The byte that was written reads back negative. -/
  | notPreserved {index : Nat} {size : Int} (high : 128 ≤ index % 256) :
      Justified terms s (.realloc index size) (some .notPreserved)

/-- What the driver may say about the requests from the number `i` on, where `Passes`
tells which requests are accepted and what they leave. -/
inductive Verdict {σ : Type} (terms : Terms σ) (Passes : List Traceop → Replay σ → Prop) (i : Nat)
    (ops : List Traceop) : Option (Nat × Complaint) → Prop where
  | accepted (low : ∀ op ∈ ops, op.LowByte) : Verdict terms Passes i ops none
  | complaint {before rest : List Traceop} {op : Traceop} {r : Replay σ} {complaint : Complaint}
      (split : ops = before ++ op :: rest) (low : ∀ earlier ∈ before, earlier.LowByte)
      (passes : Passes before r) (justified : Justified terms r.state op (some complaint)) :
      Verdict terms Passes i ops (some (i + before.length, complaint))

section Rounds

variable {σ : Type} {pkg : Package σ} {terms : Terms σ} {r : Replay σ} {live : Live}
  {slots index p : Nat} {size : Int}

theorem mem_payloads {e : Nat × Range} (member : e ∈ live) :
    (e.2.lo, e.2.hi - e.2.lo + 1) ∈ live.payloads :=
  List.mem_map_of_mem member

/-- Giving a block back removes its index. -/
theorem Tracked.payloads_without {q : Range} (tracked : Tracked slots r live)
    (member : (index, q) ∈ live) : giveBack q.lo live.payloads = (live.without index).payloads := by
  rw [giveBack, Live.payloads, Live.payloads, Live.without, List.filter_map]
  refine congrArg (List.map _) (List.filter_congr fun e inside => ?_)
  have same := tracked.lo_iff inside member
  exact decide_eq_decide.mpr (not_congr same)

/-- Blocks that are spared stay filled. -/
theorem Filled.spared {s t : σ} (filled : Filled pkg s live)
    (spared : Spared pkg live.payloads s t) : Filled pkg t live := by
  intro e member i lower upper
  have kept := spared _ _ (mem_payloads member) (i - e.2.lo) (by omega)
  rw [Nat.add_sub_cancel' lower] at kept
  exact kept.trans (filled e member i lower upper)

theorem Filled.without {s : σ} (filled : Filled pkg s live) :
    Filled pkg s (live.without index) :=
  fun e member => filled e (List.mem_filter.mp member).1

/-- `add_range` accepts what the allocator serves. -/
theorem Promises.addRange_run (promises : Promises pkg terms) (tracked : Tracked slots r live)
    (positive : 0 < size) (small : size < 2 ^ 31)
    (serves : terms.Serves r.state ((p, sizeT size) :: live.payloads)) :
    Admitted pkg p size r ∧
      addRange pkg p size r =
        some (none, { r with ranges := ⟨p, p + (size - 1).toNat⟩ :: r.ranges }) := by
  obtain ⟨length, -, -⟩ := payload_size p positive small
  obtain ⟨aligned, lower, upper⟩ := promises.placed serves List.mem_cons_self
  have apart := (List.pairwise_cons.mp (promises.apart serves)).1
  have others : ∀ q ∈ r.ranges, ∃ e ∈ live, e.2 = q := by
    rw [tracked.ranges]
    exact fun q member => List.mem_map.mp member
  have passes : overlapping ⟨p, p + (size - 1).toNat⟩ r.ranges = none := by
    refine (overlapping_none_iff (Nat.le_add_right _ _) ?_).mpr ?_
    · intro q member
      obtain ⟨e, inside, rfl⟩ := others q member
      exact tracked.nonempty e inside
    · intro q member
      obtain ⟨e, inside, rfl⟩ := others q member
      have wide := tracked.nonempty e inside
      have disjoint := apart _ (mem_payloads inside)
      dsimp only [Passed] at disjoint ⊢
      omega
  have inHeap : InHeap pkg r.state ⟨p, p + (size - 1).toNat⟩ := by
    constructor
    · exact lower
    · dsimp only
      omega
  refine ⟨⟨positive, aligned, inHeap, passes⟩, ?_⟩
  have within : ¬ (p < pkg.memHeapLo r.state ∨ pkg.memHeapHi r.state < p ∨
      p + (size - 1).toNat < pkg.memHeapLo r.state ∨
      pkg.memHeapHi r.state < p + (size - 1).toNat) := by omega
  simp only [addRange]
  rw [if_neg (not_not.mpr positive), if_neg (not_not.mpr aligned), if_neg within, passes]

/-- A block that was just added is filled and recorded. -/
theorem Promises.wp_record (promises : Promises pkg terms) (tracked : Tracked slots r live)
    (absent : index ∉ live.map Prod.fst) (inside : index < slots) (positive : 0 < size)
    (small : size < 2 ^ 31) (serves : terms.Serves r.state ((p, sizeT size) :: live.payloads))
    (filled : Filled pkg r.state live) :
    wp (record pkg p index size)
      (fun c r' => c = none ∧ ∃ q, Sound pkg terms slots r' ((index, q) :: live))
      { r with ranges := ⟨p, p + (size - 1).toNat⟩ :: r.ranges } := by
  obtain ⟨length, bound, -⟩ := payload_size p positive small
  obtain ⟨admitted, -⟩ := promises.addRange_run tracked positive small serves
  have apart := (List.pairwise_cons.mp (promises.apart serves)).1
  refine ⟨_, record_run (tracked.room ▸ inside), rfl, ⟨p, p + (size - 1).toNat⟩, ?_, ?_, ?_⟩
  · exact tracked.record absent inside small admitted
  · rw [Live.payloads, List.map_cons, length]
    exact promises.memset serves List.mem_cons_self
  · refine List.forall_mem_cons.mpr ⟨fun i lower upper => ?_, fun e inside i lower upper => ?_⟩
    · dsimp only at lower upper
      exact promises.memset_byte.trans (if_pos (by omega))
    · have disjoint := apart _ (mem_payloads inside)
      dsimp only at disjoint
      exact (promises.memset_byte.trans (if_neg (by omega))).trans
        (filled e inside i lower upper)

/-- The case `ALLOC`: only a failing `mm_malloc` gives a complaint. -/
theorem Promises.wp_checkAlloc (promises : Promises pkg terms)
    (sound : Sound pkg terms slots r live) (absent : index ∉ live.map Prod.fst)
    (inside : index < slots) (positive : 0 < size) (small : size < 2 ^ 31) :
    wp (checkAlloc pkg index size) (fun c r' =>
      ∃ p s, pkg.mmMalloc (sizeT size) r.state = some (p, s) ∧
        (p = NULL ∧ terms.Full r.state (sizeT size) ∧ c = some .mallocFailed ∨
          p ≠ NULL ∧ c = none ∧ ∃ q, Sound pkg terms slots r' ((index, q) :: live))) r := by
  obtain ⟨length, bound, -⟩ := payload_size 0 positive small
  unfold checkAlloc
  rw [wp_bind, Part.wp_run]
  obtain ⟨⟨p, t⟩, run, served⟩ := promises.malloc sound.serves (n := sizeT size) (by omega) bound
  refine ⟨_, run, ?_⟩
  dsimp only at served ⊢
  by_cases failed : p = NULL
  · rw [if_pos failed] at served
    rw [if_pos failed, wp_pure]
    exact ⟨p, t, run, .inl ⟨failed, served, rfl⟩⟩
  · rw [if_neg failed] at served
    obtain ⟨serves, spared⟩ := served
    have tracked := sound.tracked.state t
    obtain ⟨-, accepts⟩ := promises.addRange_run tracked positive small serves
    rw [if_neg failed]
    refine (wp_bind_of_run accepts _ _).mpr (wp_mono (promises.wp_record tracked absent inside
      positive small serves (sound.filled.spared spared)) ?_)
    exact fun _ _ recorded => ⟨p, t, run, .inr ⟨failed, recorded⟩⟩

/-- A byte that was filled reads back as the index exactly where it is not negative. -/
theorem signedChar_low {i : Nat} :
    signedChar (UInt8.ofNat (i % 256)) = (i % 256 : Nat) ↔ i % 256 < 128 := by
  have value : (UInt8.ofNat (i % 256)).toNat = i % 256 := by
    rw [UInt8.toNat_ofNat']
    omega
  unfold signedChar
  rw [value]
  split
  all_goals omega

/-- The case `REALLOC`: a complaint comes from a failing `mm_realloc` or from a byte
that reads back negative. -/
theorem Promises.wp_checkRealloc (promises : Promises pkg terms)
    (sound : Sound pkg terms slots r live) (present : index ∈ live.map Prod.fst)
    (positive : 0 < size) (small : size < 2 ^ 31) :
    wp (checkRealloc pkg index size) (fun c r' =>
      ∃ q p s, (index, q) ∈ live ∧ pkg.mmRealloc q.lo (sizeT size) r.state = some (p, s) ∧
        (p = NULL ∧ terms.Full r.state (sizeT size) ∧ c = some .reallocFailed ∨
          p ≠ NULL ∧ (128 ≤ index % 256 ∧ c = some .notPreserved ∨
            index % 256 < 128 ∧ c = none ∧
              ∃ q, Sound pkg terms slots r' ((index, q) :: live.without index)))) r := by
  obtain ⟨⟨index, q⟩, member, rfl⟩ := List.mem_map.mp present
  obtain ⟨length, bound, value⟩ := payload_size 0 positive small
  have wide : q.lo ≤ q.hi := sound.tracked.nonempty _ member
  have narrow : q.hi - q.lo + 1 < 2 ^ 31 := sound.tracked.small _ member
  unfold checkRealloc
  rw [wp_bind_of_run (sound.tracked.blockAt_run member), wp_bind, Part.wp_run]
  obtain ⟨⟨p, t⟩, run, served⟩ :=
    promises.realloc sound.serves (mem_payloads member) (n := sizeT size) (by omega) bound
  refine ⟨_, run, ?_⟩
  dsimp only at served ⊢
  by_cases failed : p = NULL
  · rw [if_pos failed] at served
    rw [if_pos failed, wp_pure]
    exact ⟨q, p, t, member, run, .inl ⟨failed, served, rfl⟩⟩
  rw [if_neg failed] at served
  obtain ⟨serves, spared, copied⟩ := served
  rw [sound.tracked.payloads_without member] at serves spared
  have tracked := (sound.tracked.state t).without member
  obtain ⟨-, accepts⟩ := promises.addRange_run tracked positive small serves
  rw [if_neg failed, wp_bind_of_run (removeRange_run _)]
  refine (wp_bind_of_run accepts _ _).mpr ?_
  have entry : index < r.slots := sound.tracked.room ▸ sound.tracked.inside _ member
  have recorded : r.blockSizes index = some (q.hi - q.lo + 1) := sound.tracked.sizes _ member
  refine (wp_bind_of_run (blockSizeAt_run (n := q.hi - q.lo + 1) ?_ ?_) _ _).mpr ?_
  · exact entry
  · exact recorded
  refine (wp_bind_of_run (stateNow_run _) _ _).mpr ?_
  have kept : ∀ j < min (q.hi - q.lo + 1) (sizeT size),
      pkg.byte t (p + j) = UInt8.ofNat (index % 256) := by
    intro j inside
    have below : q.lo + j ≤ q.hi := by omega
    exact (copied j inside).trans (sound.filled _ member _ (Nat.le_add_right _ _) below)
  have least : (if size < toInt (q.hi - q.lo + 1) then size else toInt (q.hi - q.lo + 1)) =
      (min (q.hi - q.lo + 1) (sizeT size) : Nat) := by
    have plain : toInt (q.hi - q.lo + 1) = (q.hi - q.lo + 1 : Nat) := if_pos narrow
    rw [plain]
    split <;> unfold sizeT <;> omega
  have preserved : Preserved pkg t p index (min (q.hi - q.lo + 1) (sizeT size) : Nat) ↔
      index % 256 < 128 := by
    constructor
    · intro bytes
      have first := bytes 0 (by omega)
      rw [Nat.add_zero] at first
      rw [← signedChar_low, ← first, ← kept 0 (by omega), Nat.add_zero]
    · intro low j inside
      rw [kept j (by omega)]
      exact signedChar_low.mpr low
  rw [least]
  by_cases low : index % 256 < 128
  · rw [if_neg (not_not.mpr (preserved.mpr low))]
    refine wp_mono (promises.wp_record tracked Tracked.without_absent
      (sound.tracked.inside _ member) positive small serves (sound.filled.without.spared spared)) ?_
    exact fun _ _ recorded => ⟨q, p, t, member, run, .inr ⟨failed, .inr ⟨low, recorded⟩⟩⟩
  · rw [if_pos (fun bytes => low (preserved.mp bytes)), wp_pure]
    exact ⟨q, p, t, member, run, .inr ⟨failed, .inl ⟨Nat.le_of_not_lt low, rfl⟩⟩⟩

/-- The case `FREE` gives no complaint. -/
theorem Promises.wp_checkFree (promises : Promises pkg terms)
    (sound : Sound pkg terms slots r live) (present : index ∈ live.map Prod.fst) :
    wp (checkFree pkg index)
      (fun c r' => c = none ∧ Sound pkg terms slots r' (live.without index)) r := by
  obtain ⟨⟨index, q⟩, member, rfl⟩ := List.mem_map.mp present
  unfold checkFree
  rw [wp_bind_of_run (sound.tracked.blockAt_run member),
    wp_bind_of_run (removeRange_run _), wp_bind, Part.wp_run]
  refine wp_mono (promises.free sound.serves (mem_payloads member)) ?_
  rintro _ t ⟨serves, spared⟩
  rw [sound.tracked.payloads_without member] at serves spared
  rw [wp_pure]
  exact ⟨rfl, (sound.tracked.without member).state t, serves, sound.filled.without.spared spared⟩

/-- A step: a request is accepted and keeps the invariant, or the complaint is
justified. -/
theorem Promises.wp_checkOp (promises : Promises pkg terms) {op : Traceop}
    (sound : Sound pkg terms slots r live) (permitted : op.Permitted slots (live.map Prod.fst))
    (positive : op.Positive) :
    wp (checkOp pkg op) (fun c r' => Justified terms r.state op c ∧ (c = none →
      ∃ live', Sound pkg terms slots r' live' ∧
        live'.map Prod.fst = op.after (live.map Prod.fst))) r := by
  cases op with
  | alloc index size =>
      refine wp_mono (promises.wp_checkAlloc sound permitted.1 permitted.2.2 positive
        permitted.2.1) ?_
      rintro c r' ⟨p, s, -, ⟨-, full, rfl⟩ | ⟨-, rfl, q, sound'⟩⟩
      · exact ⟨.mallocFailed full, fun accepted => (nomatch accepted)⟩
      · exact ⟨.accepted trivial, fun _ => ⟨_, sound', rfl⟩⟩
  | realloc index size =>
      refine wp_mono (promises.wp_checkRealloc sound permitted.1 positive permitted.2) ?_
      rintro c r' ⟨q0, p, s, -, -, ⟨-, full, rfl⟩ | ⟨-, ⟨high, rfl⟩ | ⟨low, rfl, q, sound'⟩⟩⟩
      · exact ⟨.reallocFailed full, fun accepted => (nomatch accepted)⟩
      · exact ⟨.notPreserved high, fun accepted => (nomatch accepted)⟩
      · refine ⟨.accepted low, fun _ => ⟨_, sound', ?_⟩⟩
        rw [List.map_cons, without_ids]
        rfl
  | free index =>
      refine wp_mono (promises.wp_checkFree sound permitted) ?_
      rintro c r' ⟨rfl, sound'⟩
      exact ⟨.accepted trivial, fun _ => ⟨_, sound', without_ids live index⟩⟩

/-- A run: the driver comes to a justified verdict. -/
theorem Promises.wp_checkOps (promises : Promises pkg terms) {i : Nat} {ops : List Traceop}
    (sound : Sound pkg terms slots r live) (wellFormed : WellFormed slots (live.map Prod.fst) ops)
    (positive : ∀ op ∈ ops, op.Positive) :
    wp (checkOps pkg i ops) (fun verdict _ =>
      Verdict terms (fun before r' => checkOps pkg i before r = some (none, r')) i ops verdict)
      r := by
  induction ops generalizing i r live with
  | nil => exact ⟨_, rfl, .accepted fun _ member => (nomatch member)⟩
  | cons op rest ih =>
      obtain ⟨permitted, wellFormed⟩ := wellFormed
      obtain ⟨first, later⟩ := List.forall_mem_cons.mp positive
      obtain ⟨⟨c, r1⟩, run, justified, continues⟩ := promises.wp_checkOp sound permitted first
      rw [checkOps, wp_bind_of_run run]
      cases c with
      | some complaint =>
          exact ⟨_, rfl, @Verdict.complaint _ _ _ i _ [] _ _ r _ rfl
            (fun _ member => (nomatch member)) rfl justified⟩
      | none =>
          cases justified with
          | accepted low =>
              obtain ⟨live1, sound1, ids⟩ := continues rfl
              rw [← ids] at wellFormed
              refine wp_mono (ih sound1 wellFormed later) ?_
              rintro verdict _ judged
              cases judged with
              | accepted lows => exact .accepted (List.forall_mem_cons.mpr ⟨low, lows⟩)
              | @complaint before tail culprit r2 complaint split lows passes justified =>
                  subst split
                  have number : i + 1 + before.length = i + (op :: before).length := by
                    rw [List.length_cons]
                    omega
                  rw [number]
                  refine .complaint rfl (List.forall_mem_cons.mpr ⟨low, lows⟩) ?_ justified
                  exact (bind_run_of_run run _).trans passes

/-- On an allocator that keeps its promises the driver always comes to a verdict: its
complaint is about a call for which there is no memory, or about the first
reallocation of a block whose index ends in a byte from 128 on. -/
theorem Promises.wp_evalMmValid (promises : Promises pkg terms) {ops : List Traceop}
    (ready : terms.Ready r.state) (wellFormed : WellFormed r.slots [] ops)
    (positive : ∀ op ∈ ops, op.Positive) :
    wp (evalMmValid pkg ops) (fun verdict _ =>
      terms.Cramped r.state ∧ verdict = some (0, .initFailed) ∨
      Verdict terms (fun before r' => evalMmValid pkg before r = some (none, r')) 0 ops verdict)
      r := by
  obtain ⟨⟨_, s⟩, reset, ⟨status, u⟩, init, started⟩ := promises.starts ready
  by_cases failed : status < 0
  · rw [if_pos failed] at started
    refine ⟨_, evalMmValid_failed reset init failed, .inl ⟨started, rfl⟩⟩
  · rw [if_neg failed] at started
    have sound : Sound pkg terms r.slots { r with state := u, ranges := [] } [] :=
      ⟨.start rfl rfl, started, fun _ member => (nomatch member)⟩
    have same (before : List Traceop) :
        evalMmValid pkg before r = checkOps pkg 0 before { r with state := u, ranges := [] } :=
      evalMmValid_run reset init failed
    simp only [same, wp_congr_run (same ops)]
    refine wp_mono (promises.wp_checkOps sound wellFormed positive) ?_
    exact fun _ _ judged => .inr judged

end Rounds

end SysProg.Mdriver

import Mathlib.Data.List.Pairwise
import Mathlib.Tactic.Common
import SysProg.Mdriver.Program

/-!
# What `eval_mm_valid` checks

Whatever the allocator, after an accepted request the range list holds exactly
the payloads of the live blocks, the newest first.  The test for an overlap
misses one case: a payload that strictly contains an older one.
-/

namespace SysProg.Mdriver

open Logic Malloc

/-! ## Traces -/

namespace Traceop

/-- The request is about a block that is there, or for an allocation about one that
is not there yet and has an entry in the arrays; its size is an `int`. -/
def Permitted (slots : Nat) (live : List Nat) : Traceop → Prop
  | .alloc index size => index ∉ live ∧ size < 2 ^ 31 ∧ index < slots
  | .realloc index size => index ∈ live ∧ size < 2 ^ 31
  | .free index => index ∈ live

instance (slots : Nat) (live : List Nat) : (op : Traceop) → Decidable (op.Permitted slots live)
  | .alloc index size => inferInstanceAs (Decidable (index ∉ live ∧ size < 2 ^ 31 ∧ index < slots))
  | .realloc index size => inferInstanceAs (Decidable (index ∈ live ∧ size < 2 ^ 31))
  | .free index => inferInstanceAs (Decidable (index ∈ live))

/-- The blocks after the request, the newest payload first. -/
def after (live : List Nat) : Traceop → List Nat
  | .alloc index _ => index :: live
  | .realloc index _ => index :: live.filter (· ≠ index)
  | .free index => live.filter (· ≠ index)

end Traceop

/-- Every request is permitted where it stands. -/
def WellFormed (slots : Nat) : List Nat → List Traceop → Prop
  | _, [] => True
  | live, op :: rest => op.Permitted slots live ∧ WellFormed slots (op.after live) rest

instance decidableWellFormed (slots : Nat) : (live : List Nat) → (ops : List Traceop) →
    Decidable (WellFormed slots live ops)
  | _, [] => inferInstanceAs (Decidable True)
  | live, op :: rest =>
      have := decidableWellFormed slots (op.after live) rest
      inferInstanceAs (Decidable (op.Permitted slots live ∧ WellFormed slots (op.after live) rest))

/-- The blocks after a trace. -/
def liveAfter (live : List Nat) (ops : List Traceop) : List Nat := ops.foldl Traceop.after live

theorem wellFormed_append {slots : Nat} {live : List Nat} {before rest : List Traceop} :
    WellFormed slots live (before ++ rest) ↔
      WellFormed slots live before ∧ WellFormed slots (liveAfter live before) rest := by
  induction before generalizing live with
  | nil => exact (true_and _).symm ▸ Iff.rfl
  | cons op before ih =>
      rw [List.cons_append, WellFormed, WellFormed, ih, and_assoc]
      rfl

/-! ## The range list -/

/-- The overlap test lets a new payload pass beside an old one. -/
def Passed (new old : Range) : Prop :=
  new.hi < old.lo ∨ old.hi < new.lo ∨ new.lo < old.lo ∧ old.hi < new.hi

/-- The test passes exactly the payloads that are apart from every other one or
strictly contain it. -/
theorem overlapping_none_iff {payload : Range} {ranges : List Range}
    (nonempty : payload.lo ≤ payload.hi) (others : ∀ p ∈ ranges, p.lo ≤ p.hi) :
    overlapping payload ranges = none ↔ ∀ p ∈ ranges, Passed payload p := by
  rw [overlapping, List.find?_eq_none]
  refine forall₂_congr fun p member => ?_
  have wide := others p member
  rw [decide_eq_true_iff, Passed]
  omega

/-- Where at most one element has a property, erasing it is filtering. -/
theorem eraseP_eq_filter {α : Type} {q : α → Bool} {l : List α}
    (once : l.Pairwise fun a b => q a = true → q b = false) :
    l.eraseP q = l.filter fun a => !q a := by
  induction l with
  | nil => rfl
  | cons a l ih =>
      obtain ⟨first, later⟩ := List.pairwise_cons.mp once
      cases here : q a with
      | true =>
          have none_later : l.filter (fun b => !q b) = l := by
            refine List.filter_eq_self.mpr fun b member => ?_
            rw [first b member here, Bool.not_false]
          rw [List.eraseP_cons_of_pos here, List.filter_cons_of_neg (by rw [here]; decide),
            none_later]
      | false =>
          rw [List.eraseP_cons_of_neg (by rw [here]; decide),
            List.filter_cons_of_pos (by rw [here]; rfl), ih later]

/-- A live block: its index and its payload. -/
abbrev Live := List (Nat × Range)

/-- What the driver has recorded of the live blocks. -/
structure Tracked {σ : Type} (slots : Nat) (r : Replay σ) (live : Live) : Prop where
  room : r.slots = slots
  inside : ∀ e ∈ live, e.1 < slots
  ids : (live.map Prod.fst).Nodup
  ranges : r.ranges = live.map Prod.snd
  blocks : ∀ e ∈ live, r.blocks e.1 = some e.2.lo
  sizes : ∀ e ∈ live, r.blockSizes e.1 = some (e.2.hi - e.2.lo + 1)
  nonempty : ∀ e ∈ live, e.2.lo ≤ e.2.hi
  small : ∀ e ∈ live, e.2.hi - e.2.lo + 1 < 2 ^ 31
  aligned : ∀ e ∈ live, e.2.lo % ALIGNMENT = 0
  passed : live.Pairwise fun e f => Passed e.2 f.2

/-- The live blocks without the one of the index. -/
def Live.without (live : Live) (index : Nat) : Live := live.filter fun e => e.1 ≠ index

namespace Tracked

variable {σ : Type} {r : Replay σ} {live : Live} {slots index : Nat}

/-- Different blocks have different indices and different addresses. -/
theorem apart (tracked : Tracked slots r live) :
    live.Pairwise fun e f => e.1 ≠ f.1 ∧ e.2.lo ≠ f.2.lo := by
  have ids : live.Pairwise fun e f => e.1 ≠ f.1 := List.pairwise_map.mp tracked.ids
  have los : live.Pairwise fun e f => e.2.lo ≠ f.2.lo := by
    refine tracked.passed.imp_of_mem fun {e f} first second passed => ?_
    have wide := tracked.nonempty e first
    have wide' := tracked.nonempty f second
    unfold Passed at passed
    omega
  exact ids.and los

theorem lo_iff (tracked : Tracked slots r live) {e f : Nat × Range} (first : e ∈ live)
    (second : f ∈ live) : e.2.lo = f.2.lo ↔ e.1 = f.1 := by
  by_cases same : e = f
  · subst same
    exact iff_of_true rfl rfl
  · have symmetric : Std.Symm fun e f : Nat × Range => e.1 ≠ f.1 ∧ e.2.lo ≠ f.2.lo :=
      ⟨fun _ _ apart => ⟨apart.1.symm, apart.2.symm⟩⟩
    obtain ⟨ids, los⟩ := tracked.apart.forall first second same
    exact iff_of_false los ids

/-- `remove_range` removes the payload of the block. -/
theorem removeRange (tracked : Tracked slots r live) {p : Range} (member : (index, p) ∈ live) :
    r.ranges.eraseP (fun q => q.lo = p.lo) = (live.without index).map Prod.snd := by
  have once : live.Pairwise fun e f =>
      decide (e.2.lo = p.lo) = true → decide (f.2.lo = p.lo) = false := by
    refine tracked.apart.imp fun {e f} apart here => ?_
    rw [decide_eq_true_iff] at here
    rw [decide_eq_false_iff_not, ← here]
    exact apart.2.symm
  have erased := eraseP_eq_filter once
  rw [tracked.ranges, List.eraseP_map, Live.without]
  refine congrArg (List.map Prod.snd) (erased.trans ?_)
  refine List.filter_congr fun e inside => ?_
  have same := tracked.lo_iff inside member
  rw [← decide_not, decide_eq_decide]
  exact not_congr same

/-- Forgetting the block of an index. -/
theorem without (tracked : Tracked slots r live) {p : Range} (member : (index, p) ∈ live) :
    Tracked slots { r with ranges := r.ranges.eraseP fun q => q.lo = p.lo }
      (live.without index) where
  room := tracked.room
  inside e member := tracked.inside e (List.mem_filter.mp member).1
  ids := tracked.ids.sublist (List.filter_sublist.map Prod.fst)
  ranges := tracked.removeRange member
  blocks e inside := tracked.blocks e (List.mem_filter.mp inside).1
  sizes e inside := tracked.sizes e (List.mem_filter.mp inside).1
  nonempty e inside := tracked.nonempty e (List.mem_filter.mp inside).1
  small e inside := tracked.small e (List.mem_filter.mp inside).1
  aligned e inside := tracked.aligned e (List.mem_filter.mp inside).1
  passed := tracked.passed.sublist List.filter_sublist

theorem without_absent : index ∉ (live.without index).map Prod.fst := by
  intro member
  obtain ⟨e, inside, rfl⟩ := List.mem_map.mp member
  have other := (List.mem_filter.mp inside).2
  simp at other

/-- The allocator may change its state. -/
theorem state (tracked : Tracked slots r live) (s : σ) : Tracked slots { r with state := s } live :=
  ⟨tracked.room, tracked.inside, tracked.ids, tracked.ranges, tracked.blocks, tracked.sizes,
    tracked.nonempty, tracked.small, tracked.aligned, tracked.passed⟩

/-- A new payload that passes the tests of `add_range`, recorded for an index. -/
theorem added (tracked : Tracked slots r live) {p : Range} (absent : index ∉ live.map Prod.fst)
    (inside : index < slots) (nonempty : p.lo ≤ p.hi) (aligned : p.lo % ALIGNMENT = 0)
    (small : p.hi - p.lo + 1 < 2 ^ 31)
    (passes : overlapping p r.ranges = none) (s : σ) :
    Tracked slots
      { r with
        state := s
        ranges := p :: r.ranges
        blocks := Function.update r.blocks index (some p.lo)
        blockSizes := Function.update r.blockSizes index (some (p.hi - p.lo + 1)) }
      ((index, p) :: live) where
  room := tracked.room
  inside := List.forall_mem_cons.mpr ⟨inside, tracked.inside⟩
  ids := List.nodup_cons.mpr ⟨absent, tracked.ids⟩
  ranges := congrArg (p :: ·) tracked.ranges
  blocks := by
    refine List.forall_mem_cons.mpr ⟨Function.update_self .., fun e inside => ?_⟩
    have other : e.1 ≠ index := fun same => absent (same ▸ List.mem_map_of_mem inside)
    exact (Function.update_of_ne other ..).trans (tracked.blocks e inside)
  sizes := by
    refine List.forall_mem_cons.mpr ⟨Function.update_self .., fun e inside => ?_⟩
    have other : e.1 ≠ index := fun same => absent (same ▸ List.mem_map_of_mem inside)
    exact (Function.update_of_ne other ..).trans (tracked.sizes e inside)
  nonempty := List.forall_mem_cons.mpr ⟨nonempty, tracked.nonempty⟩
  small := List.forall_mem_cons.mpr ⟨small, tracked.small⟩
  aligned := List.forall_mem_cons.mpr ⟨aligned, tracked.aligned⟩
  passed := by
    refine List.pairwise_cons.mpr ⟨fun e inside => ?_, tracked.passed⟩
    have others : ∀ q ∈ r.ranges, q.lo ≤ q.hi := by
      rw [tracked.ranges]
      intro q member
      obtain ⟨e, inside, rfl⟩ := List.mem_map.mp member
      exact tracked.nonempty e inside
    refine (overlapping_none_iff nonempty others).mp passes e.2 ?_
    rw [tracked.ranges]
    exact List.mem_map_of_mem inside

end Tracked

/-! ## Accepted requests -/

section Accepted

variable {σ : Type} {pkg : Package σ} {r r' : Replay σ} {live : Live} {slots index : Nat}
  {size : Int}

theorem inSlots_run {α : Type} {access : DM σ α} (inside : index < r.slots) :
    inSlots index access r = access r :=
  if_pos inside

theorem inSlots_some {α : Type} {access : DM σ α} {a : α}
    (run : inSlots index access r = some (a, r')) : index < r.slots ∧ access r = some (a, r') := by
  unfold inSlots at run
  split at run
  · rename_i inside
    exact ⟨inside, run⟩
  · cases run

theorem blockAt_run {p : Nat} (inside : index < r.slots) (recorded : r.blocks index = some p) :
    blockAt index r = some (p, r) := by
  rw [blockAt, inSlots_run inside, recorded]
  rfl

theorem blockSizeAt_run {n : Nat} (inside : index < r.slots)
    (recorded : r.blockSizes index = some n) : blockSizeAt index r = some (n, r) := by
  rw [blockSizeAt, inSlots_run inside, recorded]
  rfl

theorem blockAt_some {p : Nat} (run : blockAt index r = some (p, r')) :
    r.blocks index = some p ∧ r = r' := by
  obtain ⟨-, run⟩ := inSlots_some run
  obtain ⟨_, recorded, same⟩ := Option.map_eq_some_iff.mp run
  cases same
  exact ⟨recorded, rfl⟩

theorem blockSizeAt_some {n : Nat} (run : blockSizeAt index r = some (n, r')) :
    r.blockSizes index = some n ∧ r = r' := by
  obtain ⟨-, run⟩ := inSlots_some run
  obtain ⟨_, recorded, same⟩ := Option.map_eq_some_iff.mp run
  cases same
  exact ⟨recorded, rfl⟩

theorem setBlock_run {p : Nat} (inside : index < r.slots) : setBlock index p r =
    some ((), { r with blocks := Function.update r.blocks index (some p) }) :=
  if_pos inside

theorem setBlockSize_run (inside : index < r.slots) : setBlockSize index size r =
    some ((), { r with blockSizes := Function.update r.blockSizes index (some (sizeT size)) }) :=
  if_pos inside

/-- The end of an accepted allocation or reallocation. -/
def record (pkg : Package σ) (p index : Nat) (size : Int) : DM σ (Option Complaint) := do
  fill pkg p index size
  setBlock index p
  setBlockSize index size
  pure none

/-- The driver's record of a new block. -/
def recorded (pkg : Package σ) (p index : Nat) (size : Int) (r : Replay σ) : Replay σ :=
  { r with
    state := pkg.memset p (UInt8.ofNat (index % 256)) (sizeT size) r.state
    blocks := Function.update r.blocks index (some p)
    blockSizes := Function.update r.blockSizes index (some (sizeT size)) }

theorem record_run {p : Nat} (inside : index < r.slots) :
    record pkg p index size r = some (none, recorded pkg p index size r) := by
  have filled : fill pkg p index size r = some ((), { r with
      state := pkg.memset p (UInt8.ofNat (index % 256)) (sizeT size) r.state }) := rfl
  have set := @setBlock_run σ { r with
    state := pkg.memset p (UInt8.ofNat (index % 256)) (sizeT size) r.state } index p inside
  rw [record, bind_run_of_run filled, bind_run_of_run set, bind_run_of_run (setBlockSize_run _)]
  · rfl
  · exact inside

theorem record_some {p : Nat} {complaint : Option Complaint}
    (run : record pkg p index size r = some (complaint, r')) :
    index < r.slots ∧ r' = recorded pkg p index size r := by
  have filled : fill pkg p index size r = some ((), { r with
      state := pkg.memset p (UInt8.ofNat (index % 256)) (sizeT size) r.state }) := rfl
  have rest := run
  rw [record, bind_run_of_run filled] at rest
  obtain ⟨_, set, -⟩ := Option.bind_eq_some_iff.mp rest
  have inside : index < r.slots := (inSlots_some set).1
  rw [record_run inside] at run
  cases run
  exact ⟨inside, rfl⟩

theorem stateNow_run (r : Replay σ) : stateNow r = some (r.state, r) := rfl

theorem removeRange_run (lo : Nat) : removeRange lo r =
    some ((), { r with ranges := r.ranges.eraseP fun p => p.lo = lo }) := rfl

/-- The payload lies in the heap. -/
def InHeap (pkg : Package σ) (s : σ) (p : Range) : Prop :=
  pkg.memHeapLo s ≤ p.lo ∧ p.hi ≤ pkg.memHeapHi s

/-- What `add_range` has tested where it returns 1. -/
structure Admitted (pkg : Package σ) (lo : Nat) (size : Int) (r : Replay σ) : Prop where
  positive : 0 < size
  aligned : lo % ALIGNMENT = 0
  inHeap : InHeap pkg r.state ⟨lo, lo + (size - 1).toNat⟩
  passes : overlapping ⟨lo, lo + (size - 1).toNat⟩ r.ranges = none

theorem addRange_accepts {lo : Nat} (accepts : addRange pkg lo size r = some (none, r')) :
    Admitted pkg lo size r ∧
      r' = { r with ranges := ⟨lo, lo + (size - 1).toNat⟩ :: r.ranges } := by
  simp only [addRange] at accepts
  split at accepts
  · cases accepts
  · rename_i positive
    split at accepts
    · cases accepts
    · rename_i aligned
      split at accepts
      · cases accepts
      · rename_i within
        split at accepts
        · cases accepts
        · rename_i passes
          cases accepts
          refine ⟨⟨Classical.not_not.mp positive, Classical.not_not.mp aligned, ?_, passes⟩, rfl⟩
          constructor
          · exact Nat.not_lt.mp fun below => within (.inl below)
          · exact Nat.not_lt.mp fun above => within (.inr (.inr (.inr above)))

/-- The size of a payload, as it is recorded. -/
theorem payload_size (lo : Nat) (positive : 0 < size) (small : size < 2 ^ 31) :
    lo + (size - 1).toNat - lo + 1 = sizeT size ∧ sizeT size < 2 ^ 31 ∧
      toInt (sizeT size) = size := by
  unfold sizeT toInt
  omega

/-- What an accepted allocation has done. -/
theorem checkAlloc_inversion (accepts : checkAlloc pkg index size r = some (none, r')) :
    ∃ p s, pkg.mmMalloc (sizeT size) r.state = some (p, s) ∧ p ≠ NULL ∧ index < r.slots ∧
      Admitted pkg p size { r with state := s } ∧
      r' = recorded pkg p index size
        { r with state := s, ranges := ⟨p, p + (size - 1).toNat⟩ :: r.ranges } := by
  obtain ⟨⟨p, r1⟩, ends, accepts⟩ := Option.bind_eq_some_iff.mp accepts
  obtain ⟨s, run, rfl⟩ := Part.run_eq_some ends
  dsimp only at accepts
  split at accepts
  · cases accepts
  · rename_i notNull
    obtain ⟨⟨complaint, r2⟩, ends, accepts⟩ := Option.bind_eq_some_iff.mp accepts
    cases complaint with
    | some complaint => cases accepts
    | none =>
        obtain ⟨admitted, rfl⟩ := addRange_accepts ends
        obtain ⟨inside, rfl⟩ := record_some accepts
        exact ⟨p, s, run, notNull, inside, admitted, rfl⟩

/-- A new block is tracked. -/
theorem Tracked.record {p : Nat} (tracked : Tracked slots r live)
    (absent : index ∉ live.map Prod.fst) (inside : index < slots) (small : size < 2 ^ 31)
    (admitted : Admitted pkg p size r) :
    Tracked slots (recorded pkg p index size
      { r with ranges := ⟨p, p + (size - 1).toNat⟩ :: r.ranges })
      ((index, ⟨p, p + (size - 1).toNat⟩) :: live) := by
  obtain ⟨length, bound, -⟩ := payload_size p admitted.positive small
  have added := tracked.added absent inside (Nat.le_add_right _ _) admitted.aligned
    (length ▸ bound) admitted.passes
    (pkg.memset p (UInt8.ofNat (index % 256)) (sizeT size) r.state)
  rw [length] at added
  exact added

theorem checkAlloc_accepts (tracked : Tracked slots r live) (absent : index ∉ live.map Prod.fst)
    (small : size < 2 ^ 31) (accepts : checkAlloc pkg index size r = some (none, r')) :
    ∃ p, Tracked slots r' ((index, p) :: live) := by
  obtain ⟨p, s, -, -, inside, admitted, rfl⟩ := checkAlloc_inversion accepts
  exact ⟨_, (tracked.state s).record absent (tracked.room ▸ inside) small admitted⟩

/-- A byte that equals the low byte of the index is not negative. -/
theorem low_byte {b : UInt8} {i : Nat} (same : signedChar b = (i % 256 : Nat)) : i % 256 < 128 := by
  have bound := b.toNat_lt
  unfold signedChar at same
  split at same
  all_goals omega

/-- The entries of a live block are read. -/
theorem Tracked.blockAt_run (tracked : Tracked slots r live) {p : Range}
    (member : (index, p) ∈ live) : blockAt index r = some (p.lo, r) :=
  Mdriver.blockAt_run (tracked.room ▸ tracked.inside _ member) (tracked.blocks _ member)

/-- What an accepted reallocation has done. -/
theorem checkRealloc_inversion (accepts : checkRealloc pkg index size r = some (none, r')) :
    ∃ oldp oldsize newp s, r.blocks index = some oldp ∧ r.blockSizes index = some oldsize ∧
      pkg.mmRealloc oldp (sizeT size) r.state = some (newp, s) ∧ newp ≠ NULL ∧
      Admitted pkg newp size
        { r with state := s, ranges := r.ranges.eraseP fun p => p.lo = oldp } ∧
      Preserved pkg s newp index (if size < toInt oldsize then size else toInt oldsize) ∧
      r' = recorded pkg newp index size
        { r with
          state := s
          ranges := ⟨newp, newp + (size - 1).toNat⟩ ::
            r.ranges.eraseP fun p => p.lo = oldp } := by
  obtain ⟨⟨oldp, r1⟩, ends, accepts⟩ := Option.bind_eq_some_iff.mp accepts
  obtain ⟨block, rfl⟩ := blockAt_some ends
  obtain ⟨⟨newp, r2⟩, ends, accepts⟩ := Option.bind_eq_some_iff.mp accepts
  obtain ⟨s, run, rfl⟩ := Part.run_eq_some ends
  dsimp only at accepts
  split at accepts
  · cases accepts
  · rename_i notNull
    rw [bind_run_of_run (removeRange_run _)] at accepts
    obtain ⟨⟨complaint, r2⟩, ends, accepts⟩ := Option.bind_eq_some_iff.mp accepts
    cases complaint with
    | some complaint => cases accepts
    | none =>
        obtain ⟨admitted, rfl⟩ := addRange_accepts ends
        obtain ⟨⟨oldsize, r3⟩, ends, accepts⟩ := Option.bind_eq_some_iff.mp accepts
        obtain ⟨size_eq, rfl⟩ := blockSizeAt_some ends
        dsimp only at accepts
        rw [bind_run_of_run (stateNow_run _)] at accepts
        generalize shorter : (if size < toInt oldsize then size else toInt oldsize) = kept
          at accepts
        split at accepts
        · cases accepts
        · rename_i preserved
          obtain ⟨-, rfl⟩ := record_some accepts
          subst shorter
          exact ⟨oldp, oldsize, newp, s, block, size_eq, run, notNull, admitted,
            Classical.not_not.mp preserved, rfl⟩

theorem checkRealloc_accepts (tracked : Tracked slots r live)
    (present : index ∈ live.map Prod.fst) (small : size < 2 ^ 31)
    (accepts : checkRealloc pkg index size r = some (none, r')) :
    index % 256 < 128 ∧ ∃ p, Tracked slots r' ((index, p) :: live.without index) := by
  obtain ⟨⟨index, q⟩, member, rfl⟩ := List.mem_map.mp present
  obtain ⟨oldp, oldsize, newp, s, block, sized, -, -, admitted, preserved, rfl⟩ :=
    checkRealloc_inversion accepts
  cases block.symm.trans (tracked.blocks _ member)
  cases sized.symm.trans (tracked.sizes _ member)
  have positive := admitted.positive
  have oldSmall := tracked.small _ member
  have positive' : 0 < (if size < toInt (q.hi - q.lo + 1) then size
      else toInt (q.hi - q.lo + 1)) := by
    unfold toInt
    split
    all_goals omega
  constructor
  · exact low_byte (preserved 0 (Int.lt_toNat.mpr positive'))
  · exact ⟨_, ((tracked.state s).without member).record Tracked.without_absent
      (tracked.inside _ member) small admitted⟩

/-- What an accepted release has done. -/
theorem checkFree_inversion (accepts : checkFree pkg index r = some (none, r')) :
    ∃ p s, r.blocks index = some p ∧ pkg.mmFree p r.state = some ((), s) ∧
      r' = { r with state := s, ranges := r.ranges.eraseP fun q => q.lo = p } := by
  obtain ⟨⟨p, r1⟩, ends, accepts⟩ := Option.bind_eq_some_iff.mp accepts
  obtain ⟨block, rfl⟩ := blockAt_some ends
  dsimp only at accepts
  rw [bind_run_of_run (removeRange_run _)] at accepts
  obtain ⟨⟨_, r3⟩, ends, accepts⟩ := Option.bind_eq_some_iff.mp accepts
  obtain ⟨s, run, rfl⟩ := Part.run_eq_some ends
  cases accepts
  exact ⟨p, s, block, run, rfl⟩

theorem checkFree_accepts (tracked : Tracked slots r live) (present : index ∈ live.map Prod.fst)
    (accepts : checkFree pkg index r = some (none, r')) :
    Tracked slots r' (live.without index) := by
  obtain ⟨⟨index, q⟩, member, rfl⟩ := List.mem_map.mp present
  obtain ⟨p, s, block, -, rfl⟩ := checkFree_inversion accepts
  cases block.symm.trans (tracked.blocks _ member)
  exact (tracked.without member).state s

/-- A reallocation is accepted only for an index whose low byte is a `char`. -/
def Traceop.LowByte : Traceop → Prop
  | .realloc index _ => index % 256 < 128
  | _ => True

theorem without_ids (live : Live) (index : Nat) :
    (live.without index).map Prod.fst = (live.map Prod.fst).filter (· ≠ index) := by
  rw [Live.without, List.filter_map]
  rfl

/-- A step: an accepted request keeps the record of the live blocks. -/
theorem checkOp_accepts {op : Traceop} (tracked : Tracked slots r live)
    (permitted : op.Permitted slots (live.map Prod.fst))
    (accepts : checkOp pkg op r = some (none, r')) :
    op.LowByte ∧
      ∃ live', Tracked slots r' live' ∧ live'.map Prod.fst = op.after (live.map Prod.fst) := by
  cases op with
  | alloc index size =>
      obtain ⟨p, tracked'⟩ := checkAlloc_accepts tracked permitted.1 permitted.2.1 accepts
      exact ⟨trivial, _, tracked', rfl⟩
  | realloc index size =>
      obtain ⟨low, p, tracked'⟩ := checkRealloc_accepts tracked permitted.1 permitted.2 accepts
      refine ⟨low, _, tracked', ?_⟩
      rw [List.map_cons, without_ids]
      rfl
  | free index =>
      exact ⟨trivial, _, checkFree_accepts tracked permitted accepts, without_ids live index⟩

/-- The block that is recorded for the request is the answer of the allocator, and it
lies in the heap as the allocator has left it. -/
def HandsOut (pkg : Package σ) (r r' : Replay σ) : Traceop → Prop
  | .alloc index size => ∃ p s, pkg.mmMalloc (sizeT size) r.state = some (p, s) ∧
      r'.blocks index = some p ∧ InHeap pkg s ⟨p, p + (size - 1).toNat⟩
  | .realloc index size => ∃ oldp p s, r.blocks index = some oldp ∧
      pkg.mmRealloc oldp (sizeT size) r.state = some (p, s) ∧
      r'.blocks index = some p ∧ InHeap pkg s ⟨p, p + (size - 1).toNat⟩
  | .free _ => True

/-- An accepted request has recorded what was handed out. -/
theorem checkOp_handsOut {op : Traceop} (accepts : checkOp pkg op r = some (none, r')) :
    HandsOut pkg r r' op := by
  cases op with
  | alloc index size =>
      obtain ⟨p, s, run, -, -, admitted, rfl⟩ := checkAlloc_inversion accepts
      exact ⟨p, s, run, Function.update_self .., admitted.inHeap⟩
  | realloc index size =>
      obtain ⟨oldp, -, p, s, block, -, run, -, admitted, -, rfl⟩ := checkRealloc_inversion accepts
      exact ⟨oldp, p, s, block, run, Function.update_self .., admitted.inHeap⟩
  | free index => trivial

theorem checkOps_cons {i : Nat} {op : Traceop} {rest : List Traceop}
    (accepts : checkOps pkg i (op :: rest) r = some (none, r')) :
    ∃ r1, checkOp pkg op r = some (none, r1) ∧ checkOps pkg (i + 1) rest r1 = some (none, r') := by
  obtain ⟨⟨complaint, r1⟩, first, later⟩ := Option.bind_eq_some_iff.mp accepts
  cases complaint with
  | some complaint => cases later
  | none => exact ⟨r1, first, later⟩

theorem checkOps_append {i : Nat} {before rest : List Traceop}
    (accepts : checkOps pkg i (before ++ rest) r = some (none, r')) :
    ∃ r1, checkOps pkg i before r = some (none, r1) ∧
      checkOps pkg (i + before.length) rest r1 = some (none, r') := by
  induction before generalizing i r with
  | nil => exact ⟨r, rfl, accepts⟩
  | cons op before ih =>
      obtain ⟨r1, first, later⟩ := checkOps_cons accepts
      obtain ⟨r2, middle, last⟩ := ih later
      refine ⟨r2, ?_, ?_⟩
      · rw [checkOps, bind_run_of_run first]
        exact middle
      · rw [List.length_cons, Nat.add_comm before.length, ← Nat.add_assoc]
        exact last

/-- A run: an accepted trace keeps it. -/
theorem checkOps_accepts {i : Nat} {ops : List Traceop} (tracked : Tracked slots r live)
    (wellFormed : WellFormed slots (live.map Prod.fst) ops)
    (accepts : checkOps pkg i ops r = some (none, r')) :
    (∀ op ∈ ops, op.LowByte) ∧
      ∃ live', Tracked slots r' live' ∧
        live'.map Prod.fst = liveAfter (live.map Prod.fst) ops := by
  induction ops generalizing i r live with
  | nil =>
      cases accepts
      exact ⟨fun _ member => (nomatch member), live, tracked, rfl⟩
  | cons op rest ih =>
      obtain ⟨permitted, wellFormed⟩ := wellFormed
      obtain ⟨r1, first, later⟩ := checkOps_cons accepts
      obtain ⟨low, live1, tracked1, ids⟩ := checkOp_accepts tracked permitted first
      rw [← ids] at wellFormed
      obtain ⟨lows, live', tracked', ids'⟩ := ih tracked1 wellFormed later
      refine ⟨List.forall_mem_cons.mpr ⟨low, lows⟩, live', tracked', ?_⟩
      rw [ids', ids]
      rfl

/-- Before the first request nothing is live. -/
theorem Tracked.start (room : r.slots = slots) (none_yet : r.ranges = []) :
    Tracked slots r [] where
  room := room
  inside _ member := nomatch member
  ids := List.nodup_nil
  ranges := none_yet
  blocks _ member := nomatch member
  sizes _ member := nomatch member
  nonempty _ member := nomatch member
  small _ member := nomatch member
  aligned _ member := nomatch member
  passed := .nil

/-- The loop of an accepted trace starts behind a successful `mm_init`. -/
theorem evalMmValid_starts {ops : List Traceop}
    (accepts : evalMmValid pkg ops r = some (none, r')) :
    ∃ s status s1, pkg.memResetBrk r.state = some ((), s) ∧ pkg.mmInit s = some (status, s1) ∧
      ¬ status < 0 ∧ checkOps pkg 0 ops { r with state := s1, ranges := [] } = some (none, r') := by
  obtain ⟨⟨_, r1⟩, ends, accepts⟩ := Option.bind_eq_some_iff.mp accepts
  obtain ⟨s, reset, rfl⟩ := Part.run_eq_some ends
  obtain ⟨⟨status, r1⟩, ends, accepts⟩ := Option.bind_eq_some_iff.mp accepts
  obtain ⟨s1, init, rfl⟩ := Part.run_eq_some ends
  dsimp only at accepts
  split at accepts
  · cases accepts
  · rename_i started
    exact ⟨s, status, s1, reset, init, started, accepts⟩

/-- What is left to do behind `mm_init`. -/
theorem evalMmValid_behind {ops : List Traceop} {s s1 : σ} {status : Int}
    (reset : pkg.memResetBrk r.state = some ((), s)) (init : pkg.mmInit s = some (status, s1)) :
    evalMmValid pkg ops r =
      (if status < 0 then pure (some (0, .initFailed)) else checkOps pkg 0 ops : DM σ _)
        { r with state := s1, ranges := [] } := by
  have cleared : (statePart.run pkg.memResetBrk : DM σ Unit) r =
      some ((), { r with state := s }) := by
    rw [Part.run]
    exact Option.map_eq_some_iff.mpr ⟨_, reset, rfl⟩
  have ready : (statePart.run pkg.mmInit : DM σ Int) { r with state := s, ranges := [] } =
      some (status, { r with state := s1, ranges := [] }) := by
    rw [Part.run]
    exact Option.map_eq_some_iff.mpr ⟨_, init, rfl⟩
  rw [evalMmValid, bind_run_of_run cleared, bind_run_of_run rfl, bind_run_of_run ready]

theorem evalMmValid_run {ops : List Traceop} {s s1 : σ} {status : Int}
    (reset : pkg.memResetBrk r.state = some ((), s)) (init : pkg.mmInit s = some (status, s1))
    (started : ¬ status < 0) :
    evalMmValid pkg ops r = checkOps pkg 0 ops { r with state := s1, ranges := [] } := by
  rw [evalMmValid_behind reset init, if_neg started]

theorem evalMmValid_failed {ops : List Traceop} {s s1 : σ} {status : Int}
    (reset : pkg.memResetBrk r.state = some ((), s)) (init : pkg.mmInit s = some (status, s1))
    (failed : status < 0) :
    evalMmValid pkg ops r =
      some (some (0, .initFailed), { r with state := s1, ranges := [] }) := by
  rw [evalMmValid_behind reset init, if_pos failed]
  rfl

end Accepted

/-- An empty heap of zeroes that may grow to a megabyte. -/
def blankReplay : Replay Heap where
  state := ⟨fun _ => 0, 4096, 4096, 4096 + 2 ^ 20, 0, 0, false⟩
  ranges := []
  blocks _ := none
  blockSizes _ := none
  slots := 256

/-- Two blocks, of which the first one grows. -/
def growingTrace : List Traceop := [.alloc 0 20, .alloc 1 4, .realloc 0 40, .free 1]

/-- An allocator that hands out two addresses and whose heap reaches to 100. -/
def nesting : Package (List Nat) where
  memResetBrk := pure ()
  mmInit := pure 0
  mmMalloc _ := fun ps => some (ps.headD NULL, ps.tail)
  mmFree _ := pure ()
  mmRealloc _ _ := pure NULL
  memHeapLo _ := 0
  memHeapHi _ := 100
  memHeapsize _ := 101
  byte _ _ := 0
  memset _ _ _ := id

/-- A payload that contains an older one is accepted. -/
example :
    (evalMmValid nesting [.alloc 0 8, .alloc 1 40]
      ⟨[24, 16], [], fun _ => none, fun _ => none, 2⟩).map (fun r => (r.1, r.2.ranges)) =
        some (none, [⟨16, 55⟩, ⟨24, 31⟩]) := by
  decide +kernel

end SysProg.Mdriver

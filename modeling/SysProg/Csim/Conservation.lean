import Mathlib.Algebra.BigOperators.Group.Finset.Basic
import Mathlib.Algebra.Order.BigOperators.Group.Finset
import SysProg.Csim.Inclusion

/-!
# What the counters of the simulator account for

Every access is a hit or a miss, and every miss that is not an eviction has
filled one line.  The timestamps and the tags of the valid lines of a set tell
these lines apart.
-/

namespace SysProg.Csim

open Logic

/-- The valid lines of a set. -/
def SET.validLines (set : SET) : List LINE := set.lines.filter LINE.valid

/-- The valid lines differ in their tags and in their timestamps, and these lie
between 1 and the access counter. -/
structure SET.WellFormed (set : SET) : Prop where
  tags : (set.validLines.map LINE.tag).Nodup
  times : (set.validLines.map LINE.useTime).Nodup
  stamped : ∀ line ∈ set.validLines, 1 ≤ line.useTime ∧ line.useTime ≤ set.useCnt

/-- The records with one of the instructions. -/
def countInstr (instrs : List Char) (trace : List Record) : Nat :=
  trace.countP fun r => r.instr ∈ instrs

/-- The counters account for the records so far and for the valid lines. -/
structure Accounts (s E : UInt32) (past : List Record) (state : (Nat → SET) × PARAM) : Prop where
  accesses : state.2.nHit.toNat + state.2.nMiss.toNat =
    countInstr ['L', 'S'] past + 2 * countInstr ['M'] past
  evicted : state.2.nEvict ≤ state.2.nMiss
  lines : state.2.nMiss.toNat - state.2.nEvict.toNat =
    ∑ i ∈ Finset.range (2 ^ s.toNat), (state.1 i).validLines.length
  room : state.2.nMiss.toNat - state.2.nEvict.toNat ≤ E.toNat * 2 ^ s.toNat
  sets : ∀ i < 2 ^ s.toNat, (state.1 i).WellFormed

/-- If the step counts an eviction, each set that it touches had only valid
lines. -/
def EvictsFull (s : UInt32) (before after : (Nat → SET) × PARAM) : Prop :=
  before.2.nEvict < after.2.nEvict → ∀ i < 2 ^ s.toNat, after.1 i ≠ before.1 i →
    ∀ line ∈ (before.1 i).lines, line.valid = true

/-- The counters account for every beginning of the trace, and every access
evicts from full sets only. -/
structure Conserves (s E : UInt32) (trace : List Record) (state : (Nat → SET) × PARAM) : Prop where
  records : ∀ past, past <+: trace → ∃ state',
    simulate state.1 state.2 past = some state' ∧ Accounts s E past state'
  evictions : ∀ past addr, past ++ [addr] <+: addresses trace → ∃ before after,
    Machine.replay access state past = some before ∧ access before addr = some after ∧
      EvictsFull s before after

/-! ## The reference cache -/

namespace Reference

variable {E : Nat} {r : Reference E}

/-- The tags in the first `n` sets are those that were missed and not evicted. -/
def Balanced (n : Nat) (r : Reference E) : Prop :=
  ∑ i ∈ Finset.range n, (r.sets i).keys.length + r.nEvict = r.nMiss

theorem balanced_start (n : Nat) : (start : Reference E).Balanced n := by
  simp [Balanced, start, RecencyList.empty]

/-- An access keeps the balance. -/
theorem Balanced.accessSet {n : Nat} (balanced : r.Balanced n) {set : Nat} (inside : set < n)
    (tag : Nat) : (r.accessSet set tag).Balanced n := by
  have member : set ∈ Finset.range n := Finset.mem_range.mpr inside
  have length := (r.sets set).access_length tag
  have old : ∑ i ∈ Finset.range n, (r.sets i).keys.length = (r.sets set).keys.length +
      ∑ i ∈ (Finset.range n).erase set, (r.sets i).keys.length :=
    (Finset.add_sum_erase _ _ member).symm
  have new : ∑ i ∈ Finset.range n, ((r.accessSet set tag).sets i).keys.length =
      ((r.sets set).access tag).1.keys.length +
        ∑ i ∈ (Finset.range n).erase set, (r.sets i).keys.length := by
    rw [← Finset.add_sum_erase _ _ member]
    congr 1
    · simp [Reference.accessSet]
    · refine Finset.sum_congr rfl fun i other => ?_
      simp [Reference.accessSet, Function.update_of_ne (Finset.ne_of_mem_erase other)]
  unfold Balanced at balanced ⊢
  rw [new]
  simp only [Reference.accessSet]
  omega

end Reference

/-! ## One set -/

section OneSet

variable {set set' : SET} {param param' : PARAM} {Tag : UInt64}

/-- Every valid line has been used. -/
def SET.Started (set : SET) : Prop :=
  ∀ line ∈ set.lines, line.valid = true → 1 ≤ line.useTime

/-- A stamp is not zero as long as the access counter does not wrap. -/
theorem SET.Started.stamp (started : set.Started) (small : set.useCnt.toNat + 1 < 2 ^ 32) (Ei : Nat)
    (change : LINE → LINE) : (set.stamp Ei change).Started := by
  intro line member valid
  obtain ⟨j, inside, rfl⟩ := List.getElem_of_mem member
  have old : j < set.lines.length := by simpa [SET.stamp] using inside
  simp only [SET.stamp, List.getElem_modify] at valid ⊢
  by_cases here : Ei = j
  · simp only [if_pos here, UInt32.le_iff_toNat_le, toNat_succ small]
    exact Nat.le_add_left 1 _
  · simp only [if_neg here] at valid ⊢
    exact started _ (List.getElem_mem old) valid

/-- An access stamps one line, and evicts only if all lines are valid. -/
theorem accessSet_stamps (below : param.nHit < param.nHit + 1)
    (accessed : accessSet set param Tag = some (set', param')) :
    (∃ Ei change, set' = set.stamp Ei change) ∧
      (param.nEvict < param'.nEvict → ∀ line ∈ set.lines, line.valid = true) := by
  have missed : ¬ param.nHit < param.nHit := UInt32.lt_irrefl _
  unfold accessSet at accessed
  have searched := search_searched Tag set.lines 0 param.E.toNat true
  generalize search Tag set.lines 0 param.E.toNat true = scan at searched accessed
  cases searched with
  | hit before after line lines valid same found =>
      simp only [found] at accessed
      rw [if_pos below] at accessed
      cases accessed
      exact ⟨⟨_, _, rfl⟩, fun more => absurd more (UInt32.lt_irrefl _)⟩
  | full absent valids =>
      simp only [if_neg missed, replaceLine, if_true] at accessed
      refine ⟨?_, fun _ => valids⟩
      cases lines : set.lines with
      | nil =>
          rw [lines] at accessed
          cases accessed
      | cons first rest =>
          rw [lines] at accessed
          cases accessed
          exact ⟨_, _, rfl⟩
  | room before after line absent lines invalid =>
      simp only [if_neg missed, replaceLine] at accessed
      cases accessed
      exact ⟨⟨_, _, rfl⟩, fun more => absurd more (UInt32.lt_irrefl _)⟩

/-- A set that represents distinct tags through its timestamps is well formed. -/
theorem Simulates.wellFormed {E : Nat} {tags : RecencyList Nat E} (sim : Simulates set tags)
    (started : set.Started) : set.WellFormed := by
  obtain ⟨recent, recency, keys⟩ := sim.represents
  have same : set.validLines.Perm recent := recency.same
  refine ⟨?_, ?_, ?_⟩
  · have distinct : ((set.validLines.map LINE.tag).map UInt64.toNat).Nodup := by
      rw [List.map_map, (same.map (UInt64.toNat ∘ LINE.tag)).nodup_iff]
      exact keys ▸ tags.distinct
    exact distinct.of_map _
  · have distinct : ((set.validLines.map LINE.useTime).map UInt32.toNat).Nodup := by
      rw [List.map_map, (same.map (UInt32.toNat ∘ LINE.useTime)).nodup_iff, List.Nodup,
        List.pairwise_map]
      exact recency.newest.imp fun later => (Nat.ne_of_lt later).symm
    exact distinct.of_map _
  · intro line member
    obtain ⟨present, valid⟩ := List.mem_filter.mp member
    exact ⟨started line present valid, UInt32.le_iff_toNat_le.mpr (sim.stamped line present valid)⟩

end OneSet

/-! ## Runs -/

/-- The simulator after `n` accesses, with its reference cache. -/
structure Tracks (s b E : UInt32) (n : Nat) (state : (Nat → SET) × PARAM)
    (r : Reference E.toNat) : Prop where
  refines : Refines s b E state.1 state.2 r
  balanced : r.Balanced (2 ^ s.toNat)
  started : ∀ i < 2 ^ s.toNat, (state.1 i).Started
  total : r.nHit + r.nMiss = n

/-- `L` and `S` make one access, `M` two. -/
theorem accesses_eq (trace : List Record) :
    accesses trace = countInstr ['L', 'S'] trace + 2 * countInstr ['M'] trace := by
  induction trace with
  | nil => rfl
  | cons r rest ih =>
      have split : accesses (r :: rest) = r.accesses + accesses rest := by simp [accesses]
      rw [split, ih]
      unfold countInstr
      rw [List.countP_cons, List.countP_cons]
      unfold Record.accesses
      split
      · rename_i instr
        simp [instr]
        omega
      · rename_i instr
        simp [instr]
        omega
      · rename_i instr
        simp [instr]
        omega
      · rename_i notM notL notS
        have other : r.instr ∉ ['L', 'S'] ∧ r.instr ∉ ['M'] := by simp_all
        simp [other.1, other.2]

section Tracks

variable {s b E : UInt32} {n : Nat} {state : (Nat → SET) × PARAM} {r : Reference E.toNat}

/-- An access happens in one set. -/
theorem exists_accessSet {state' : (Nat → SET) × PARAM} {addr : UInt64}
    (accessed : access state addr = some state') : ∃ i Tag set',
      accessSet (state.1 i) state.2 Tag = some (set', state'.2) ∧
        state'.1 = Function.update state.1 i set' := by
  rw [access, accessCache_eq] at accessed
  obtain ⟨⟨Tag, Set⟩, -, inside⟩ := Option.bind_eq_some_iff.mp accessed
  split at inside
  · obtain ⟨⟨set', param'⟩, done, rfl⟩ := Option.map_eq_some_iff.mp inside
    exact ⟨_, _, set', done, rfl⟩
  · cases inside

/-- One access. -/
theorem Tracks.access (tracks : Tracks s b E n state r) (some_bit : 1 ≤ s.toNat)
    (width : s.toNat + b.toNat < 64) (some_line : 0 < E.toNat) (few : n + 1 < 2 ^ 32)
    (addr : UInt64) : ∃ state', Csim.access state addr = some state' ∧
      Tracks s b E (n + 1) state' (r.access s.toNat b.toNat addr.toNat) ∧
      EvictsFull s state state' := by
  have total := tracks.total
  have hits := tracks.refines.nHit
  obtain ⟨cache', param', accessed, refines⟩ :=
    tracks.refines.access some_bit width some_line addr (by omega)
  have below : state.2.nHit < state.2.nHit + 1 := by
    rw [UInt32.lt_iff_toNat_lt, toNat_succ (by omega)]
    exact Nat.lt_succ_self _
  obtain ⟨i, Tag, set', done, update⟩ :=
    @exists_accessSet state (cache', param') addr accessed
  obtain ⟨⟨Ei, change, rfl⟩, full⟩ := accessSet_stamps below done
  obtain rfl : cache' = _ := update
  refine ⟨(_, param'), accessed, ⟨refines, ?_, ?_, ?_⟩, ?_⟩
  · exact tracks.balanced.accessSet (Nat.mod_lt _ (Nat.two_pow_pos _)) _
  · intro j inside
    by_cases here : j = i
    · subst here
      have used := tracks.refines.used j inside
      simp only [Function.update_self]
      exact (tracks.started j inside).stamp (by omega) Ei change
    · simp only [Function.update_of_ne here]
      exact tracks.started j inside
  · rw [Reference.access, Reference.accessSet_total, total]
  · intro more j inside touched
    by_cases here : j = i
    · subst here
      exact full more
    · exact absurd (Function.update_of_ne here _ _) touched

/-- A list of accesses. -/
theorem Tracks.replay (tracks : Tracks s b E n state r) (some_bit : 1 ≤ s.toNat)
    (width : s.toNat + b.toNat < 64) (some_line : 0 < E.toNat) (addrs : List UInt64)
    (few : n + addrs.length < 2 ^ 32) : ∃ state' r',
      Machine.replay Csim.access state addrs = some state' ∧
        Tracks s b E (n + addrs.length) state' r' := by
  induction addrs generalizing n state r with
  | nil => exact ⟨state, r, rfl, tracks⟩
  | cons addr rest ih =>
      rw [List.length_cons] at few ⊢
      obtain ⟨middle, accessed, next, -⟩ :=
        tracks.access some_bit width some_line (by omega) addr
      obtain ⟨state', r', later, last⟩ := ih next (by omega)
      refine ⟨state', r', ?_, ?_⟩
      · rw [Machine.replay, accessed, Option.bind_some, later]
      · rwa [← Nat.add_assoc, Nat.add_right_comm]

/-- The counters account for the accesses made. -/
theorem Tracks.accounts {past : List Record} (tracks : Tracks s b E (accesses past) state r) :
    Accounts s E past state := by
  have misses := tracks.refines.nMiss
  have evictions := tracks.refines.nEvict
  have balanced : _ + r.nEvict = r.nMiss := tracks.balanced
  have size : ∀ i ∈ Finset.range (2 ^ s.toNat),
      (state.1 i).validLines.length = (r.sets i).keys.length := fun i inside =>
    (tracks.refines.sets i (Finset.mem_range.mp inside)).represents.length
  have lines : state.2.nMiss.toNat - state.2.nEvict.toNat =
      ∑ i ∈ Finset.range (2 ^ s.toNat), (state.1 i).validLines.length := by
    rw [Finset.sum_congr rfl size]
    omega
  refine ⟨?_, ?_, lines, ?_, ?_⟩
  · rw [tracks.refines.nHit, misses, tracks.total, accesses_eq]
  · rw [UInt32.le_iff_toNat_le, misses, evictions]
    exact tracks.refines.evicted
  · calc state.2.nMiss.toNat - state.2.nEvict.toNat
        = ∑ i ∈ Finset.range (2 ^ s.toNat), (r.sets i).keys.length := by
          rw [lines, Finset.sum_congr rfl size]
      _ ≤ ∑ _i ∈ Finset.range (2 ^ s.toNat), E.toNat :=
          Finset.sum_le_sum fun i _ => (r.sets i).bounded
      _ = E.toNat * 2 ^ s.toNat := by
          rw [Finset.sum_const, Finset.card_range, Nat.nsmul_eq_mul, Nat.mul_comm]
  · exact fun i inside => (tracks.refines.sets i inside).wellFormed (tracks.started i inside)

end Tracks

/-- For every geometry and every trace the counters account for the records and
for the valid lines, and a line is evicted only from a full set. -/
theorem simulate_conserves (s b E : UInt32) (some_bit : 1 ≤ s) (bits : s ≤ 30)
    (width : s.toNat + b.toNat < 64) (some_line : 1 ≤ E) (cache : Nat → SET)
    (blank : ∀ i < 2 ^ s.toNat, (cache i).Blank E.toNat) (trace : List Record)
    (few : accesses trace < 2 ^ 32) : Conserves s E trace (cache, startParam s b E) := by
  have low : 1 ≤ s.toNat := UInt32.le_iff_toNat_le.mp some_bit
  have positive : 0 < E.toNat := UInt32.le_iff_toNat_le.mp some_line
  have start : Tracks s b E 0 (cache, startParam s b E) Reference.start := by
    refine ⟨.start (UInt32.le_iff_toNat_le.mp bits) b blank, Reference.balanced_start _, ?_, rfl⟩
    intro i inside line member valid
    rw [(blank i inside).invalid line member] at valid
    cases valid
  have length := addresses_length trace
  refine ⟨?_, ?_⟩
  · intro past first
    have short := (addresses_first first).length_le
    obtain ⟨state, r, played, tracks⟩ := start.replay low width positive (addresses past) (by omega)
    refine ⟨state, ?_, ?_⟩
    · rw [simulate_eq_replay_addresses, played]
    · rw [Nat.zero_add, addresses_length] at tracks
      exact tracks.accounts
  · intro past addr first
    have short := first.length_le
    rw [List.length_append, List.length_singleton] at short
    obtain ⟨before, r, played, tracks⟩ := start.replay low width positive past (by omega)
    obtain ⟨after, accessed, -, full⟩ := tracks.access low width positive (by omega) addr
    exact ⟨before, after, played, accessed, full⟩

theorem simulate_conserves_shortTrace :
    Conserves 1 1 shortTrace (blankCache, startParam 1 0 1) :=
  simulate_conserves 1 0 1 (by decide) (by decide) (by decide) (by decide) blankCache
    (fun _ _ => ⟨rfl, rfl, by simp [blankCache]⟩) shortTrace (by decide)

end SysProg.Csim

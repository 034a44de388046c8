import SysProg.Csim.Steering

/-!
# How an address is split

`accessCache` takes the tag of an address by one shift and cuts out its set by a
shift up and a shift down.  The two parts name the block of the address and the
set is inside the cache, but without set bits the shift down is by 64.
-/

namespace SysProg.Csim

/-- The parts of an address in a cache of `2 ^ s` sets: all shifts are defined,
and every access to the address is one for its tag in its set. -/
structure Decomposed (s b E : UInt32) (addr Tag Set : UInt64) : Prop where
  shifts : decompose s b addr = some (Tag, Set)
  index : Set.toNat = addr.toNat / 2 ^ b.toNat % 2 ^ s.toNat
  tag : Tag.toNat = addr.toNat / 2 ^ (s.toNat + b.toNat)
  setCount : (startParam s b E).S.toNat = 2 ^ s.toNat
  inside : Set.toNat < 2 ^ s.toNat
  access : ∀ cache param, Geometry s b E param →
    accessCache cache param addr = (accessSet (cache Set.toNat) param Tag).map fun result =>
      (Function.update cache Set.toNat result.1, result.2)

/-- Two addresses have their parts, and these are the same exactly in one
block. -/
def SoundlySplit (s b E : UInt32) (addr addr' : UInt64) : Prop :=
  ∃ Tag Set Tag' Set', Decomposed s b E addr Tag Set ∧ Decomposed s b E addr' Tag' Set' ∧
    (Tag = Tag' ∧ Set = Set' ↔ addr.toNat / 2 ^ b.toNat = addr'.toNat / 2 ^ b.toNat)

/-- The quotient and the remainder of a block by the number of sets name the
block. -/
theorem block_eq_iff (s b x y : Nat) :
    x / 2 ^ (s + b) = y / 2 ^ (s + b) ∧ x / 2 ^ b % 2 ^ s = y / 2 ^ b % 2 ^ s ↔
      x / 2 ^ b = y / 2 ^ b := by
  have above : ∀ z, z / 2 ^ (s + b) = z / 2 ^ b / 2 ^ s := by
    intro z
    rw [Nat.div_div_eq_div_mul, ← Nat.pow_add, Nat.add_comm]
  rw [above, above]
  constructor
  · rintro ⟨quotient, remainder⟩
    rw [← Nat.div_add_mod (x / 2 ^ b) (2 ^ s), quotient, remainder, Nat.div_add_mod]
  · intro same
    rw [same]
    exact ⟨rfl, rfl⟩

section Geometries

variable {s b : UInt32}

/-- With a set bit every address has its parts. -/
theorem exists_decomposed (some_bit : 1 ≤ s) (bits : s ≤ 30) (width : s.toNat + b.toNat < 64)
    (E : UInt32) (addr : UInt64) : ∃ Tag Set, Decomposed s b E addr Tag Set := by
  have low : 1 ≤ s.toNat := UInt32.le_iff_toNat_le.mp some_bit
  have high : s.toNat ≤ 30 := UInt32.le_iff_toNat_le.mp bits
  obtain ⟨Tag, Set, shifts, tag, index⟩ := exists_parts low width addr
  have inside : Set.toNat < 2 ^ s.toNat := by
    rw [index]
    exact Nat.mod_lt _ (Nat.two_pow_pos _)
  exact ⟨Tag, Set, shifts, index, tag, startParam_S high b E, inside,
    fun cache param geometry => geometry.accessCache shifts inside cache⟩

/-- Without set bits the last shift is by the width of the address. -/
theorem decompose_no_bits (b : UInt32) (addr : UInt64) : decompose 0 b addr = none := by
  have amount : (64 - 0 - b + b : UInt32) = 64 := by
    rw [UInt32.sub_zero, UInt32.sub_add_cancel]
  unfold decompose
  dsimp only
  rw [amount]
  cases shr addr (0 + b) with
  | none => rfl
  | some Tag =>
      cases shl addr (64 - 0 - b) with
      | none => rfl
      | some cleared => rfl

/-- Addresses are split soundly exactly in a cache with set bits. -/
theorem soundlySplit_iff (s b E : UInt32) (bits : s ≤ 30) (width : s.toNat + b.toNat < 64)
    (addr addr' : UInt64) : SoundlySplit s b E addr addr' ↔ 1 ≤ s := by
  constructor
  · rintro ⟨Tag, Set, -, -, parts, -, -⟩
    by_contra few
    have none : s = 0 := by
      rw [UInt32.le_iff_toNat_le] at few
      exact UInt32.toNat_inj.mp (Nat.lt_one_iff.mp (Nat.lt_of_not_le few))
    have shifts := parts.shifts
    rw [none, decompose_no_bits] at shifts
    cases shifts
  · intro some_bit
    obtain ⟨Tag, Set, parts⟩ := exists_decomposed some_bit bits width E addr
    obtain ⟨Tag', Set', parts'⟩ := exists_decomposed some_bit bits width E addr'
    refine ⟨Tag, Set, Tag', Set', parts, parts', ?_⟩
    rw [← UInt64.toNat_inj, ← UInt64.toNat_inj, parts.tag, parts'.tag, parts.index, parts'.index]
    exact block_eq_iff s.toNat b.toNat addr.toNat addr'.toNat

/-- Two neighbours in a cache of two sets with blocks of 8 bytes. -/
theorem soundlySplit_neighbours : SoundlySplit 1 3 1 0x17 0x18 ↔ (1 : UInt32) ≤ 1 :=
  soundlySplit_iff 1 3 1 (by decide) (by decide) 0x17 0x18

/-- A cache of one set with blocks of 32 bytes has no place for address 0. -/
theorem not_soundlySplit : ¬ ∀ s b E : UInt32, s ≤ 30 → s.toNat + b.toNat < 64 →
    ∀ addr addr', SoundlySplit s b E addr addr' := by
  intro claimed
  obtain ⟨Tag, Set, -, -, parts, -, -⟩ := claimed 0 5 1 (by decide) (by decide) 0 0
  have shifts := parts.shifts
  have undefined : decompose 0 5 0 = none := by decide
  rw [undefined] at shifts
  cases shifts

end Geometries

end SysProg.Csim

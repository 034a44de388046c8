import Mathlib.Algebra.Group.Nat.Defs

/-!
# Byte memory with little-endian words

Memory is a total map from addresses to bytes.  A word is the four bytes at
an address, least significant first.
-/

namespace SysProg.Logic

/-- The bytes of an address space. -/
abbrev Mem := Nat → UInt8

/-- The little-endian four-byte word at `a`. -/
def word (m : Mem) (a : Nat) : Nat :=
  (m a).toNat + 256 * (m (a + 1)).toNat + 65536 * (m (a + 2)).toNat +
    16777216 * (m (a + 3)).toNat

/-- Store the low 32 bits of `v` as the word at `a`. -/
def setWord (m : Mem) (a v : Nat) : Mem := fun i =>
  if i = a then UInt8.ofNat v
  else if i = a + 1 then UInt8.ofNat (v / 256)
  else if i = a + 2 then UInt8.ofNat (v / 65536)
  else if i = a + 3 then UInt8.ofNat (v / 16777216)
  else m i

/-- Copy `n` bytes from `src` to `dst`, as if through a temporary array. -/
def copyBytes (m : Mem) (dst src n : Nat) : Mem := fun i =>
  if dst ≤ i ∧ i < dst + n then m (src + (i - dst)) else m i

/-- Two memories agree on the addresses from `lo` up to but not including `hi`. -/
def AgreeOn (m m' : Mem) (lo hi : Nat) : Prop :=
  ∀ i, lo ≤ i → i < hi → m' i = m i

/-- A word is determined by its four bytes. -/
theorem word_congr {m m' : Mem} {a : Nat} (agree : AgreeOn m m' a (a + 4)) :
    word m' a = word m a := by
  unfold word
  rw [agree a (by omega) (by omega), agree (a + 1) (by omega) (by omega),
    agree (a + 2) (by omega) (by omega), agree (a + 3) (by omega) (by omega)]

@[simp] theorem word_setWord_same (m : Mem) (a v : Nat) :
    word (setWord m a v) a = v % 2 ^ 32 := by
  have byte0 : setWord m a v a = UInt8.ofNat v := by simp [setWord]
  have byte1 : setWord m a v (a + 1) = UInt8.ofNat (v / 256) := by simp [setWord]
  have byte2 : setWord m a v (a + 2) = UInt8.ofNat (v / 65536) := by simp [setWord]
  have byte3 : setWord m a v (a + 3) = UInt8.ofNat (v / 16777216) := by simp [setWord]
  simp only [word, byte0, byte1, byte2, byte3, UInt8.toNat_ofNat']
  omega

/-- Storing a word leaves every byte outside it alone. -/
theorem setWord_outside {m : Mem} {a v i : Nat} (outside : i < a ∨ a + 4 ≤ i) :
    setWord m a v i = m i := by
  unfold setWord
  rw [if_neg (by omega), if_neg (by omega), if_neg (by omega), if_neg (by omega)]

/-- Storing a word leaves every disjoint range alone. -/
theorem setWord_agreeOn {m : Mem} {a v lo hi : Nat} (disjoint : hi ≤ a ∨ a + 4 ≤ lo) :
    AgreeOn m (setWord m a v) lo hi := by
  intro i lower upper
  exact setWord_outside (by omega)

theorem word_setWord_ne {m : Mem} {a v b : Nat} (disjoint : b + 4 ≤ a ∨ a + 4 ≤ b) :
    word (setWord m a v) b = word m b :=
  word_congr (setWord_agreeOn disjoint)

theorem copyBytes_inside {m : Mem} {dst src n i : Nat} (inside : i < n) :
    copyBytes m dst src n (dst + i) = m (src + i) := by
  unfold copyBytes
  rw [if_pos (by omega)]
  congr 1
  omega

/-- A copy leaves every byte outside the destination alone. -/
theorem copyBytes_outside {m : Mem} {dst src n i : Nat} (outside : i < dst ∨ dst + n ≤ i) :
    copyBytes m dst src n i = m i := by
  unfold copyBytes
  rw [if_neg (by omega)]

namespace AgreeOn

theorem trans {m m' m'' : Mem} {lo hi : Nat} (first : AgreeOn m m' lo hi)
    (second : AgreeOn m' m'' lo hi) : AgreeOn m m'' lo hi :=
  fun i lower upper => (second i lower upper).trans (first i lower upper)

theorem mono {m m' : Mem} {lo hi lo' hi' : Nat} (agree : AgreeOn m m' lo hi)
    (lower : lo ≤ lo') (upper : hi' ≤ hi) : AgreeOn m m' lo' hi' :=
  fun i above below => agree i (by omega) (by omega)

end AgreeOn

attribute [irreducible] word setWord copyBytes

end SysProg.Logic

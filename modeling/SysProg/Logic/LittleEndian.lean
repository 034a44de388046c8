import Mathlib.Algebra.Order.Group.Nat
import Mathlib.Data.List.GetD
import Mathlib.Tactic.Ring

/-!
# Little-endian numbers

The number of some bytes, least significant first, and the first bytes of a
number.  The bytes behind a stored number stand for its multiples of a power
of 256.
-/

namespace SysProg.Logic

/-- The number of some bytes. -/
def decodeLE : List UInt8 → Nat
  | [] => 0
  | b :: rest => b.toNat + 256 * decodeLE rest

/-- The first `n` bytes of a number. -/
def encodeLE (n value : Nat) : List UInt8 :=
  (List.range n).map fun i => UInt8.ofNat (value / 256 ^ i)

section LittleEndian

variable {front back bytes : List UInt8} {n value : Nat}

@[simp] theorem encodeLE_length (n value : Nat) : (encodeLE n value).length = n := by
  simp [encodeLE]

theorem decodeLE_append :
    decodeLE (front ++ back) = decodeLE front + 256 ^ front.length * decodeLE back := by
  induction front with
  | nil => simp [decodeLE]
  | cons b rest ih =>
      rw [List.cons_append, decodeLE, ih, decodeLE, List.length_cons, pow_succ]
      ring

theorem decodeLE_lt (bytes : List UInt8) : decodeLE bytes < 256 ^ bytes.length := by
  induction bytes with
  | nil => exact Nat.one_pos
  | cons b rest ih =>
      have byte := b.toNat_lt
      rw [decodeLE, List.length_cons, pow_succ]
      omega

/-- The next byte of a number. -/
theorem decodeLE_take_succ (bytes : List UInt8) (n : Nat) :
    decodeLE (bytes.take (n + 1)) =
      decodeLE (bytes.take n) + 256 ^ n * (bytes.getD n 0).toNat := by
  by_cases inside : n < bytes.length
  · rw [List.take_succ_eq_append_getElem inside, decodeLE_append, List.length_take,
      Nat.min_eq_left (Nat.le_of_lt inside), List.getD_eq_getElem _ _ inside]
    simp [decodeLE]
  · have beyond : bytes.length ≤ n := Nat.le_of_not_lt inside
    rw [List.getD_eq_default _ _ beyond, List.take_of_length_le beyond,
      List.take_of_length_le (Nat.le_succ_of_le beyond)]
    simp

theorem decodeLE_encodeLE (n value : Nat) : decodeLE (encodeLE n value) = value % 256 ^ n := by
  induction n with
  | zero => simp [encodeLE, decodeLE, Nat.mod_one]
  | succ n ih =>
      have split : encodeLE (n + 1) value =
          encodeLE n value ++ [UInt8.ofNat (value / 256 ^ n)] := by
        simp [encodeLE, List.range_succ]
      rw [split, decodeLE_append, ih, encodeLE_length, Nat.mod_pow_succ]
      simp [decodeLE]

theorem decodeLE_split (fits : n ≤ bytes.length) :
    decodeLE bytes = decodeLE (bytes.take n) + 256 ^ n * decodeLE (bytes.drop n) := by
  conv_lhs => rw [← List.take_append_drop n bytes]
  rw [decodeLE_append, List.length_take, Nat.min_eq_left fits]

theorem decodeLE_take_lt (bytes : List UInt8) (n : Nat) : decodeLE (bytes.take n) < 256 ^ n :=
  Nat.lt_of_lt_of_le (decodeLE_lt _) (Nat.pow_le_pow_right (by decide) (List.length_take_le ..))

/-- The first bytes hold the remainder. -/
theorem decodeLE_take (fits : n ≤ bytes.length) :
    decodeLE (bytes.take n) = decodeLE bytes % 256 ^ n := by
  rw [decodeLE_split fits, Nat.add_mul_mod_self_left, Nat.mod_eq_of_lt (decodeLE_take_lt bytes n)]

/-- The bytes behind them hold the quotient. -/
theorem decodeLE_drop (fits : n ≤ bytes.length) :
    decodeLE (bytes.drop n) = decodeLE bytes / 256 ^ n := by
  rw [decodeLE_split fits, Nat.add_mul_div_left _ _ (Nat.pow_pos (by decide)),
    Nat.div_eq_of_lt (decodeLE_take_lt bytes n), Nat.zero_add]

end LittleEndian

/-- The rounds of a loop that stores one entry after another. -/
theorem foldl_set {α : Type} {entries : List α} {off n : Nat} (f : Nat → α)
    (fits : off + n ≤ entries.length) :
    (List.range n).foldl (fun buf i => buf.set (off + i) (f i)) entries =
      entries.take off ++ (List.range n).map f ++ entries.drop (off + n) := by
  induction n with
  | zero => simp
  | succ n ih =>
      have stored : (entries.take off ++ (List.range n).map f).length = off + n := by
        rw [List.length_append, List.length_take, List.length_map, List.length_range]
        omega
      have next : entries.drop (off + n) =
          entries[off + n] :: entries.drop (off + (n + 1)) := List.drop_eq_getElem_cons (by omega)
      rw [List.range_succ, List.foldl_append, ih (by omega), List.foldl_cons, List.foldl_nil,
        List.set_append_right _ _ (Nat.le_of_eq stored), stored, Nat.sub_self, next,
        List.set_cons_zero, List.map_append, List.map_singleton]
      simp

end SysProg.Logic

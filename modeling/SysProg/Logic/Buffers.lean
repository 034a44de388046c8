import Mathlib.Data.List.GetD

/-!
# Byte arrays of fixed size

An array holds a text when it begins with it and is zero behind it; a longer
text is cut off.  Copying a text before another one cuts off the end of the
other one.
-/

namespace SysProg.Logic

/-- The bytes of an ASCII text. -/
def ascii (text : String) : List UInt8 := text.toList.map fun c => UInt8.ofNat c.toNat

/-- The C string at the start of some bytes. -/
def beforeNul (bytes : List UInt8) : List UInt8 := bytes.takeWhile (· ≠ 0)

/-- The array that holds a text. -/
def filled (n : Nat) (text : List UInt8) : Vector UInt8 n :=
  Vector.ofFn fun i => text.getD i 0

/-- `memcpy(dst + off, src, count)`; it fails outside the arrays. -/
def memcpy {n m : Nat} (dst : Vector UInt8 n) (off : Nat) (src : Vector UInt8 m) (count : Nat) :
    Option (Vector UInt8 n) :=
  if off + count ≤ n ∧ count ≤ m then
    some (Vector.ofFn fun i =>
      if off ≤ i.val ∧ i.val < off + count then src.toList.getD (i.val - off) 0 else dst[i])
  else none

/-- `snprintf(dst, n, ..)` of a text: the length of the text and the array, which
gets as much of it as fits before the terminator. -/
def snprintf {n : Nat} (dst : Vector UInt8 n) (text : List UInt8) : Nat × Vector UInt8 n :=
  (text.length, Vector.ofFn fun i =>
    if i.val ≤ text.length then (text.take (n - 1)).getD i 0 else dst[i])

section Buffers

variable {n : Nat} {text front back : List UInt8}

theorem beforeNul_append (clear : 0 ∉ text) : beforeNul (text ++ back) = text ++ beforeNul back :=
  List.takeWhile_append_of_pos fun _ member => decide_eq_true fun nul => clear (nul ▸ member)

/-- A text without a terminator is a string as a whole. -/
theorem beforeNul_of_clear (clear : 0 ∉ text) : beforeNul text = text := by
  have whole : beforeNul (text ++ []) = text ++ [] := beforeNul_append clear
  rwa [List.append_nil] at whole

/-- What stands behind the terminator does not count. -/
theorem beforeNul_string (clear : 0 ∉ text) : beforeNul (text ++ 0 :: back) = text := by
  have stop : beforeNul (0 :: back) = [] := List.takeWhile_cons_of_neg (by decide)
  rw [beforeNul_append clear, stop, List.append_nil]

theorem filled_toList (n : Nat) (text : List UInt8) :
    (filled n text).toList = text.take n ++ List.replicate (n - text.length) 0 := by
  apply List.ext_getElem
  · simp
    omega
  · intro i inside _
    have short : i < n := by simpa using inside
    rw [List.getElem_append]
    split
    · rename_i before
      have within : i < text.length := by
        rw [List.length_take] at before
        omega
      simp [filled, within]
    · rename_i behind
      have beyond : text.length ≤ i := by
        rw [List.length_take] at behind
        omega
      simp [filled, beyond]

theorem filled_getElem {i : Nat} (inside : i < n) : (filled n text)[i] = text.getD i 0 := by
  simp [filled]

theorem filled_getD {i : Nat} (inside : i < n) :
    (filled n text).toList.getD i 0 = text.getD i 0 := by
  rw [List.getD_eq_getElem _ _ (by rwa [Vector.length_toList]), Vector.getElem_toList,
    filled_getElem]

/-- The whole of another array. -/
theorem memcpy_whole (dst src : Vector UInt8 n) : memcpy dst 0 src n = some src := by
  unfold memcpy
  rw [if_pos ⟨Nat.le_of_eq (Nat.zero_add n), Nat.le_refl n⟩]
  congr 1
  apply Vector.ext
  intro i inside
  simp

/-- A text before another one. -/
theorem memcpy_filled (short : front.length ≤ n) :
    memcpy (filled n front) front.length (filled n back) (n - front.length) =
      some (filled n (front ++ back)) := by
  unfold memcpy
  rw [if_pos ⟨by omega, Nat.sub_le _ _⟩]
  congr 1
  apply Vector.ext
  intro i inside
  rw [filled_getElem inside, Vector.getElem_ofFn]
  split
  · rename_i behind
    rw [List.getD_append_right _ _ _ _ behind.1]
    exact filled_getD (by omega)
  · rename_i outside
    have before : i < front.length := by
      dsimp only at outside
      omega
    rw [Fin.getElem_fin, filled_getElem, List.getD_append _ _ _ _ before]

/-- A text over the start of another one. -/
theorem memcpy_over (short : front.length ≤ n) :
    memcpy (filled n back) 0 (filled front.length front) front.length =
      some (filled n (front ++ back.drop front.length)) := by
  unfold memcpy
  rw [if_pos ⟨by omega, Nat.le_refl _⟩]
  congr 1
  apply Vector.ext
  intro i inside
  rw [filled_getElem inside, Vector.getElem_ofFn]
  split
  · rename_i within
    have before : i < front.length := by
      dsimp only at within
      omega
    rw [List.getD_append _ _ _ _ before, Nat.sub_zero]
    exact filled_getD before
  · rename_i outside
    have behind : front.length ≤ i := by
      dsimp only at outside
      omega
    rw [Fin.getElem_fin, filled_getElem, List.getD_append_right _ _ _ _ behind,
      List.getD_eq_getElem?_getD, List.getD_eq_getElem?_getD, List.getElem?_drop,
      Nat.add_sub_cancel' behind]

/-- A text that fits before the terminator. -/
theorem snprintf_filled (short : text.length < n) :
    snprintf (filled n []) text = (text.length, filled n text) := by
  unfold snprintf
  rw [List.take_of_length_le (by omega)]
  congr 1
  apply Vector.ext
  intro i inside
  rw [filled_getElem, Vector.getElem_ofFn]
  split
  · rfl
  · rename_i behind
    have beyond : text.length ≤ i := by
      dsimp only at behind
      omega
    rw [Fin.getElem_fin, filled_getElem, List.getD_nil, List.getD_eq_default _ _ beyond]

end Buffers

end SysProg.Logic

import Mathlib.Data.List.TakeWhile
import Mathlib.Data.Nat.Digits.Defs

/-!
# Numerals in a text

An alphabet gives each digit of a base a sign and reads some characters, among
them the signs, as digits.  Scanning takes the longest block of digits in front
of a text.  It reads a written numeral back, with any number of leading zeros and
in any spelling of the digits, as long as no further digit follows.  The conversions
of `scanf` add white space, signs and the prefix `0x`.
-/

namespace SysProg.Logic

/-- The digits of a base and the characters for them. -/
structure Alphabet (α : Type) (base : Nat) where
  sign : Nat → α
  digit : α → Option Nat
  two_le : 2 ≤ base
  digit_lt : ∀ c d, digit c = some d → d < base
  digit_sign : ∀ d < base, digit (sign d) = some d

namespace Alphabet

variable {α : Type} {base : Nat} (A : Alphabet α base)

def isDigit (c : α) : Bool := (A.digit c).isSome

/-- The number of a block of digits, the most significant one first. -/
def value (block : List α) : Nat := block.foldl (fun n c => base * n + (A.digit c).getD 0) 0

/-- The longest block of digits in front of a text, as a number, and the rest. -/
def scan (text : List α) : Option (Nat × List α) :=
  if text.takeWhile A.isDigit = [] then none
  else some (A.value (text.takeWhile A.isDigit), text.dropWhile A.isDigit)

/-- The numeral of a number without leading zeros. -/
def numeral (n : Nat) : List α :=
  if n = 0 then [A.sign 0] else (Nat.digits base n).reverse.map A.sign

variable {A} {block rest text : List α} {c : α} {n d : Nat}

/-- No digit comes first. -/
def Ends (A : Alphabet α base) (rest : List α) : Prop := ∀ c ∈ rest.head?, A.isDigit c = false

theorem Ends.nil : A.Ends [] := fun _ member => nomatch member

theorem Ends.cons (other : A.digit c = none) : A.Ends (c :: rest) := by
  rintro d member
  cases member
  rw [isDigit, other]
  rfl

/-! ## Scanning -/

theorem isDigit_sign (small : d < base) : A.isDigit (A.sign d) = true := by
  rw [isDigit, A.digit_sign d small]
  rfl

/-- A block of digits is read as a whole. -/
theorem scan_block (digits : ∀ c ∈ block, A.isDigit c = true) (nonempty : block ≠ [])
    (ends : A.Ends rest) : A.scan (block ++ rest) = some (A.value block, rest) := by
  have stop : rest.takeWhile A.isDigit = [] ∧ rest.dropWhile A.isDigit = rest := by
    cases rest with
    | nil => exact ⟨rfl, rfl⟩
    | cons c rest =>
        have other := ends c rfl
        exact ⟨List.takeWhile_cons_of_neg (by simp [other]),
          List.dropWhile_cons_of_neg (by simp [other])⟩
  rw [scan, List.takeWhile_append_of_pos digits, List.dropWhile_append_of_pos digits, stop.1,
    stop.2, List.append_nil, if_neg nonempty]

/-- Without a digit in front nothing is read. -/
theorem scan_ends (ends : A.Ends text) : A.scan text = none := by
  cases text with
  | nil => rfl
  | cons c text =>
      rw [scan, List.takeWhile_cons_of_neg (by simp [ends c rfl]), if_pos rfl]

/-- What is read leaves a shorter text. -/
theorem scan_shorter (read : A.scan text = some (n, rest)) : rest.length < text.length := by
  rw [scan] at read
  split at read
  · cases read
  · rename_i nonempty
    cases read
    have whole := congrArg List.length (List.takeWhile_append_dropWhile (p := A.isDigit) (l := text))
    rw [List.length_append] at whole
    have some_digit := List.length_pos_iff.mpr nonempty
    omega

/-! ## Numerals -/

theorem foldl_value (block : List α) (m : Nat) :
    block.foldl (fun n c => base * n + (A.digit c).getD 0) m =
      base ^ block.length * m + A.value block := by
  induction block generalizing m with
  | nil => simp [value]
  | cons c block ih =>
      have first : A.value (c :: block) =
          base ^ block.length * (A.digit c).getD 0 + A.value block := by
        rw [value, List.foldl_cons, Nat.mul_zero, Nat.zero_add, ih]
      rw [List.foldl_cons, ih, first, List.length_cons, pow_succ, Nat.mul_add, Nat.mul_assoc,
        Nat.add_assoc]

theorem value_append (front back : List α) :
    A.value (front ++ back) = base ^ back.length * A.value front + A.value back := by
  rw [value, List.foldl_append, foldl_value]
  rfl

/-- The signs of the digits of a number make up that number. -/
theorem value_signs {digits : List Nat} (small : ∀ d ∈ digits, d < base) :
    A.value (digits.reverse.map A.sign) = Nat.ofDigits base digits := by
  induction digits with
  | nil => rfl
  | cons d digits ih =>
      have first := A.digit_sign d (small d List.mem_cons_self)
      rw [List.reverse_cons, List.map_append, value_append,
        ih fun d member => small d (List.mem_cons_of_mem _ member), Nat.ofDigits_cons]
      simp only [List.map_cons, List.map_nil, value, List.foldl_cons, List.foldl_nil, first,
        Option.getD_some, List.length_singleton, pow_one, Nat.mul_zero, Nat.zero_add]
      exact Nat.add_comm _ _

theorem numeral_digits (A : Alphabet α base) (n : Nat) : ∀ c ∈ A.numeral n, A.isDigit c = true := by
  intro c member
  rw [numeral] at member
  split at member
  · rw [List.mem_singleton.mp member]
    exact isDigit_sign (Nat.lt_of_lt_of_le Nat.zero_lt_two A.two_le)
  · obtain ⟨d, inside, rfl⟩ := List.mem_map.mp member
    exact isDigit_sign (Nat.digits_lt_base A.two_le (List.mem_reverse.mp inside))

theorem numeral_ne_nil (A : Alphabet α base) (n : Nat) : A.numeral n ≠ [] := by
  rw [numeral]
  split
  · exact List.cons_ne_nil _ _
  · rename_i positive
    rw [ne_eq, List.map_eq_nil_iff, List.reverse_eq_nil_iff]
    exact Nat.digits_ne_nil_iff_ne_zero.mpr positive

@[simp] theorem value_numeral (A : Alphabet α base) (n : Nat) : A.value (A.numeral n) = n := by
  have zero := A.digit_sign 0 (Nat.lt_of_lt_of_le Nat.zero_lt_two A.two_le)
  rw [numeral]
  split
  · rename_i none
    simp [value, zero, none]
  · rw [value_signs fun d inside => Nat.digits_lt_base A.two_le inside]
    exact Nat.ofDigits_digits base n

/-- A written numeral is read back. -/
theorem scan_numeral (n : Nat) (ends : A.Ends rest) :
    A.scan (A.numeral n ++ rest) = some (n, rest) := by
  rw [scan_block (A.numeral_digits n) (A.numeral_ne_nil n) ends, value_numeral]

end Alphabet

/-! ## Characters in ASCII -/

/-- `isspace`. -/
def whiteSpace (c : UInt8) : Bool := c = 32 ∨ 9 ≤ c ∧ c ≤ 13

def decimalDigit (c : UInt8) : Option Nat :=
  if 48 ≤ c.toNat ∧ c.toNat ≤ 57 then some (c.toNat - 48) else none

def hexDigit (c : UInt8) : Option Nat :=
  if 48 ≤ c.toNat ∧ c.toNat ≤ 57 then some (c.toNat - 48)
  else if 97 ≤ c.toNat ∧ c.toNat ≤ 102 then some (c.toNat - 87)
  else if 65 ≤ c.toNat ∧ c.toNat ≤ 70 then some (c.toNat - 55)
  else none

theorem decimalDigit_lt (c : UInt8) (d : Nat) (read : decimalDigit c = some d) : d < 10 := by
  rw [decimalDigit] at read
  split at read
  · cases read
    omega
  · cases read

theorem toNat_ofNat {n : Nat} (small : n < 256) : (UInt8.ofNat n).toNat = n := by
  rw [UInt8.toNat_ofNat']
  exact Nat.mod_eq_of_lt small

theorem decimalDigit_sign (d : Nat) (small : d < 10) :
    decimalDigit (UInt8.ofNat (48 + d)) = some d := by
  rw [decimalDigit, toNat_ofNat (by omega), if_pos (by omega), Nat.add_sub_cancel_left]

theorem hexDigit_lt (c : UInt8) (d : Nat) (read : hexDigit c = some d) : d < 16 := by
  rw [hexDigit] at read
  split_ifs at read with figure lower upper
  · cases read
    omega
  · cases read
    omega
  · cases read
    omega

theorem hexDigit_sign (d : Nat) (small : d < 16) :
    hexDigit (if d < 10 then UInt8.ofNat (48 + d) else UInt8.ofNat (87 + d)) = some d := by
  split
  · rw [hexDigit, toNat_ofNat (by omega), if_pos (by omega), Nat.add_sub_cancel_left]
  · rw [hexDigit, toNat_ofNat (by omega), if_neg (by omega), if_pos (by omega),
      Nat.add_sub_cancel_left]

/-- The digits of `%d` and `%u`. -/
def decimal : Alphabet UInt8 10 where
  sign d := UInt8.ofNat (48 + d)
  digit := decimalDigit
  two_le := by decide
  digit_lt := decimalDigit_lt
  digit_sign := decimalDigit_sign

/-- The digits of `%x`, which are written in lower case and read in both cases. -/
def hexadecimal : Alphabet UInt8 16 where
  sign d := if d < 10 then UInt8.ofNat (48 + d) else UInt8.ofNat (87 + d)
  digit := hexDigit
  two_le := by decide
  digit_lt := hexDigit_lt
  digit_sign := hexDigit_sign

/-! ## Conversions -/

/-- An optional sign: whether it is a minus, and the rest of the text. -/
def scanSign : List UInt8 → Bool × List UInt8
  | [] => (false, [])
  | c :: text => if c = 45 then (true, text) else if c = 43 then (false, text) else (false, c :: text)

/-- An optional prefix `0x`. -/
def dropHexPrefix : List UInt8 → List UInt8
  | zero :: x :: text => if zero = 48 ∧ (x = 120 ∨ x = 88) then text else zero :: x :: text
  | text => text

def signed (negative : Bool) (n : Nat) : Int := if negative then -n else n

/-- The integer in front of a text, behind white space, as `%d` and `%u` take it. -/
def scanInteger (text : List UInt8) : Option (Int × List UInt8) :=
  let (negative, text) := scanSign (text.dropWhile whiteSpace)
  (decimal.scan text).map fun (n, rest) => (signed negative n, rest)

/-- The same of `%x`. -/
def scanHex (text : List UInt8) : Option (Int × List UInt8) :=
  let (negative, text) := scanSign (text.dropWhile whiteSpace)
  (hexadecimal.scan (dropHexPrefix text)).map fun (n, rest) => (signed negative n, rest)

/-- The value of `strtoul` for an integer. -/
def strtoul (z : Int) : UInt64 := if 2 ^ 64 ≤ z.natAbs then -1 else UInt64.ofInt z

/-- The value of `strtol` for an integer. -/
def strtol (z : Int) : Int := max (-2 ^ 63) (min z (2 ^ 63 - 1))

/-- `%d`. -/
def integerNumeral (z : Int) : List UInt8 :=
  if z < 0 then 45 :: decimal.numeral z.natAbs else decimal.numeral z.natAbs

section Conversions

variable {text rest block : List UInt8} {c : UInt8} {n : Nat} {z : Int}

/-- Neither white space nor a sign. -/
def Plain (c : UInt8) : Prop := whiteSpace c = false ∧ c ≠ 45 ∧ c ≠ 43

theorem scanSign_plain (plain : Plain c) :
    scanSign ((c :: text).dropWhile whiteSpace) = (false, c :: text) := by
  obtain ⟨visible, minus, plus⟩ := plain
  rw [List.dropWhile_cons_of_neg (by simp [visible]), scanSign, if_neg minus, if_neg plus]

theorem scanSign_shorter (text : List UInt8) : (scanSign text).2.length ≤ text.length := by
  cases text with
  | nil => exact Nat.le_refl _
  | cons c text =>
      rw [scanSign]
      split_ifs
      · exact Nat.le_succ _
      · exact Nat.le_succ _
      · exact Nat.le_refl _

theorem dropHexPrefix_shorter (text : List UInt8) : (dropHexPrefix text).length ≤ text.length := by
  unfold dropHexPrefix
  split
  · split
    · exact (Nat.le_succ _).trans (Nat.le_succ _)
    · exact Nat.le_refl _
  · exact Nat.le_refl _

/-- White space and signs are no digits. -/
theorem plain_of_digit (digit : hexDigit c ≠ none) : Plain c := by
  refine ⟨?_, ?_, ?_⟩
  · by_contra space
    have code : c.toNat = 32 ∨ 9 ≤ c.toNat ∧ c.toNat ≤ 13 := by
      simpa [whiteSpace, ← UInt8.toNat_inj, UInt8.le_iff_toNat_le, Classical.or_iff_not_imp_left]
        using space
    apply digit
    rw [hexDigit, if_neg (by omega), if_neg (by omega), if_neg (by omega)]
  · rintro rfl
    exact digit rfl
  · rintro rfl
    exact digit rfl

theorem hexDigit_of_decimal (digit : decimal.isDigit c = true) : hexDigit c ≠ none := by
  have figure : 48 ≤ c.toNat ∧ c.toNat ≤ 57 := by
    by_contra other
    simp [Alphabet.isDigit, decimal, decimalDigit, other] at digit
  rw [hexDigit, if_pos figure]
  exact Option.some_ne_none _

/-- White space in front of a conversion does not count. -/
theorem scanInteger_space {white : List UInt8} (blank : ∀ c ∈ white, whiteSpace c = true) :
    scanInteger (white ++ text) = scanInteger text := by
  rw [scanInteger, List.dropWhile_append_of_pos blank]
  rfl

theorem scanHex_space {white : List UInt8} (blank : ∀ c ∈ white, whiteSpace c = true) :
    scanHex (white ++ text) = scanHex text := by
  rw [scanHex, List.dropWhile_append_of_pos blank]
  rfl

/-- A block of decimal digits is read as a whole. -/
theorem scanInteger_block (digits : ∀ c ∈ block, decimal.isDigit c = true) (nonempty : block ≠ [])
    (ends : decimal.Ends rest) :
    scanInteger (block ++ rest) = some ((decimal.value block : Int), rest) := by
  obtain ⟨c, block, rfl⟩ := List.exists_cons_of_ne_nil nonempty
  have first := plain_of_digit (hexDigit_of_decimal (digits c List.mem_cons_self))
  rw [List.cons_append, scanInteger, scanSign_plain first, ← List.cons_append]
  dsimp only
  rw [Alphabet.scan_block digits nonempty ends]
  rfl

/-- A block of hexadecimal digits is read as a whole, unless it is the zero of a prefix. -/
theorem scanHex_block (digits : ∀ c ∈ block, hexadecimal.isDigit c = true) (nonempty : block ≠ [])
    (ends : hexadecimal.Ends rest) (noPrefix : ∀ c ∈ rest.head?, c ≠ 120 ∧ c ≠ 88) :
    scanHex (block ++ rest) = some ((hexadecimal.value block : Int), rest) := by
  have unprefixed : dropHexPrefix (block ++ rest) = block ++ rest := by
    match block, rest with
    | [], _ => exact absurd rfl nonempty
    | [zero], [] => rfl
    | [zero], c :: rest =>
        have other := noPrefix c rfl
        rw [List.singleton_append, dropHexPrefix, if_neg]
        rintro ⟨-, rfl | rfl⟩
        · exact other.1 rfl
        · exact other.2 rfl
    | zero :: x :: block, rest =>
        have second := digits x (List.mem_cons_of_mem _ List.mem_cons_self)
        rw [List.cons_append, List.cons_append, dropHexPrefix, if_neg]
        rintro ⟨-, rfl | rfl⟩
        · cases second
        · cases second
  obtain ⟨c, others, rfl⟩ := List.exists_cons_of_ne_nil nonempty
  have digit : hexDigit c ≠ none := by
    have digit := digits c List.mem_cons_self
    exact fun other => by simp [Alphabet.isDigit, hexadecimal, other] at digit
  rw [scanHex, List.cons_append, scanSign_plain (plain_of_digit digit), ← List.cons_append]
  dsimp only
  rw [unprefixed, Alphabet.scan_block digits nonempty ends]
  rfl

/-- What `%d` prints is read back. -/
theorem scanInteger_numeral (z : Int) (ends : decimal.Ends rest) :
    scanInteger (integerNumeral z ++ rest) = some (z, rest) := by
  rw [integerNumeral]
  split
  · rename_i negative
    rw [List.cons_append, scanInteger, List.dropWhile_cons_of_neg (by decide), scanSign,
      if_pos rfl]
    dsimp only
    rw [Alphabet.scan_numeral _ ends, Option.map_some, signed, if_pos rfl,
      Int.ofNat_natAbs_of_nonpos (Int.le_of_lt negative), Int.neg_neg]
  · rename_i positive
    rw [scanInteger_block (decimal.numeral_digits _) (decimal.numeral_ne_nil _) ends,
      Alphabet.value_numeral, Int.natAbs_of_nonneg (Int.not_lt.mp positive)]

/-- A conversion takes at least one character. -/
theorem scanInteger_shorter (read : scanInteger text = some (z, rest)) :
    rest.length < text.length := by
  rw [scanInteger] at read
  obtain ⟨⟨n, rest'⟩, scanned, same⟩ := Option.map_eq_some_iff.mp read
  cases same
  calc rest.length < (scanSign (text.dropWhile whiteSpace)).2.length :=
        Alphabet.scan_shorter scanned
    _ ≤ (text.dropWhile whiteSpace).length := scanSign_shorter _
    _ ≤ text.length := (List.dropWhile_suffix _).length_le

theorem scanHex_shorter (read : scanHex text = some (z, rest)) : rest.length < text.length := by
  rw [scanHex] at read
  obtain ⟨⟨n, rest'⟩, scanned, same⟩ := Option.map_eq_some_iff.mp read
  cases same
  calc rest.length < (dropHexPrefix (scanSign (text.dropWhile whiteSpace)).2).length :=
        Alphabet.scan_shorter scanned
    _ ≤ (scanSign (text.dropWhile whiteSpace)).2.length := dropHexPrefix_shorter _
    _ ≤ (text.dropWhile whiteSpace).length := scanSign_shorter _
    _ ≤ text.length := (List.dropWhile_suffix _).length_le

end Conversions

end SysProg.Logic

import Mathlib.Data.List.Induction
import Mathlib.Data.Nat.Digits.Lemmas
import SysProg.Logic.Buffers
import SysProg.Logic.Numerals
import SysProg.Logic.StateOption

/-!
# The signal-safe output of `csapp.c`

`sio_putl` writes a number without `printf`.  It stores the digits in an array, the last one
first, and turns the string around in place.  A number from 0 on is written in decimal; of a
negative one only the last digit is left, as a character in front of `'0'`.
-/

namespace SysProg.Rio

open Logic

/-! ## The program -/

/-- A program on an array of characters. -/
abbrev Chars := Prog (List UInt8)

/-- `s[i]` -/
def getChar (i : Int) : Chars UInt8 := fun s =>
  if 0 ≤ i then s[i.toNat]?.map fun c => (c, s) else none

/-- `s[i] = c` -/
def setChar (i : Int) (c : UInt8) : Chars Unit := fun s =>
  if 0 ≤ i ∧ i.toNat < s.length then some ((), s.set i.toNat c) else none

/-- `sio_strlen`. -/
def sioStrlen : Chars Nat := fun s => if 0 ∈ s then some ((beforeNul s).length, s) else none

/-- The loop of `sio_reverse`, cut off after `fuel` rounds. -/
def reverseFrom : Nat → Int → Int → Chars Unit
  | 0, _, _ => fun _ => none
  | fuel + 1, i, j =>
      if i < j then do
        let c ← getChar i
        let d ← getChar j
        setChar i d
        setChar j c
        reverseFrom fuel (i + 1) (j - 1)
      else pure ()

/-- `sio_reverse`. -/
def sioReverse : Chars Unit := do
  let length ← sioStrlen
  reverseFrom (length + 1) 0 (length - 1)

/-- `(c < 10) ? c + '0' : c - 10 + 'a'` -/
def digitChar (c : Int) : UInt8 :=
  if c < 10 then UInt8.ofInt (c + 48) else UInt8.ofInt (c - 10 + 97)

/-- The loop of `sio_ltoa`, cut off after `fuel` rounds; it returns `i`. -/
def ltoaFrom (b : Int) : Nat → Int → Nat → Chars Nat
  | 0, _, _ => fun _ => none
  | fuel + 1, v, i => do
      setChar i (digitChar (v.tmod b))
      if v.tdiv b > 0 then ltoaFrom b fuel (v.tdiv b) (i + 1) else pure (i + 1)

/-- `sio_ltoa`. -/
def sioLtoa (v b : Int) : Chars Unit := do
  let i ← ltoaFrom b (v.natAbs + 1) v 0
  setChar i 0
  sioReverse

/-- What `sio_puts` hands to `write`. -/
def sioPuts : Chars (List UInt8) := do
  let length ← sioStrlen
  fun s => some (s.take length, s)

/-- What `sio_putl` hands to `write`; its array `s` is not set. -/
def sioPutl (v : Int64) (s : Vector UInt8 128) : Option (List UInt8) := do
  let (text, _) ← (do
    sioLtoa v.toInt 10
    sioPuts) s.toList
  some text

/-! ## Single characters -/

section Characters

variable {front mid back text rest : List UInt8} {c d : UInt8} {fuel : Nat}

theorem getChar_run {i : Int} (at_ : i = front.length) :
    getChar i (front ++ c :: back) = some (c, front ++ c :: back) := by
  subst at_
  simp [getChar]

theorem setChar_run {i : Int} (at_ : i = front.length) :
    setChar i d (front ++ c :: back) = some ((), front ++ d :: back) := by
  subst at_
  simp [setChar]

/-! ## A string is turned around -/

theorem sioStrlen_run (clear : 0 ∉ text) :
    sioStrlen (text ++ 0 :: rest) = some (text.length, text ++ 0 :: rest) := by
  rw [sioStrlen, if_pos (List.mem_append_right _ List.mem_cons_self), beforeNul_string clear]

/-- The loop exchanges the outermost characters of what is left. -/
theorem reverseFrom_run {i j : Int} (first : i = front.length)
    (last : j = front.length + mid.length - 1) (enough : mid.length < fuel) :
    reverseFrom fuel i j (front ++ (mid ++ back)) = some ((), front ++ (mid.reverse ++ back)) := by
  induction mid using List.bidirectionalRec generalizing fuel front back i j with
  | nil =>
      obtain ⟨fuel, rfl⟩ := Nat.exists_eq_add_one_of_ne_zero (Nat.ne_zero_of_lt enough)
      rw [List.length_nil] at last
      rw [reverseFrom, if_neg (by omega)]
      rfl
  | singleton c =>
      obtain ⟨fuel, rfl⟩ := Nat.exists_eq_add_one_of_ne_zero (Nat.ne_zero_of_lt enough)
      rw [List.length_singleton] at last
      rw [reverseFrom, if_neg (by omega)]
      rfl
  | cons_append c inner d ih =>
      obtain ⟨fuel, rfl⟩ := Nat.exists_eq_add_one_of_ne_zero (Nat.ne_zero_of_lt enough)
      simp only [List.length_cons, List.length_append, List.length_nil] at last enough
      have outer : front ++ (c :: (inner ++ [d]) ++ back) =
          (front ++ c :: inner) ++ d :: back := by simp
      have taken : getChar i (front ++ (c :: (inner ++ [d]) ++ back)) =
          some (c, front ++ (c :: (inner ++ [d]) ++ back)) := getChar_run first
      have other : getChar j (front ++ (c :: (inner ++ [d]) ++ back)) =
          some (d, front ++ (c :: (inner ++ [d]) ++ back)) := by
        rw [outer]
        exact getChar_run (by simp only [List.length_append, List.length_cons]; omega)
      have stored : setChar i d (front ++ (c :: (inner ++ [d]) ++ back)) =
          some ((), (front ++ d :: inner) ++ d :: back) := by
        have run : setChar i d (front ++ (c :: (inner ++ [d]) ++ back)) =
          some ((), front ++ d :: (inner ++ [d] ++ back)) := setChar_run first
        rw [run]
        simp
      have exchanged : setChar j c ((front ++ d :: inner) ++ d :: back) =
          some ((), (front ++ d :: inner) ++ c :: back) :=
        setChar_run (by simp only [List.length_append, List.length_cons]; omega)
      have inside : (front ++ d :: inner) ++ c :: back =
          (front ++ [d]) ++ (inner ++ (c :: back)) := by simp
      have later := @ih (front ++ [d]) (c :: back) fuel (i + 1) (j - 1)
        (by simp only [List.length_append, List.length_singleton]; omega)
        (by simp only [List.length_append, List.length_singleton]; omega) (by omega)
      rw [reverseFrom, if_pos (by omega), bind_run_of_run taken, bind_run_of_run other,
        bind_run_of_run stored, bind_run_of_run exchanged, inside, later]
      simp

theorem sioReverse_run (clear : 0 ∉ text) :
    sioReverse (text ++ 0 :: rest) = some ((), text.reverse ++ 0 :: rest) := by
  rw [sioReverse, bind_run_of_run (sioStrlen_run clear)]
  exact @reverseFrom_run [] text (0 :: rest) (text.length + 1) 0 (text.length - 1) rfl
    (by simp) (Nat.lt_succ_self _)

end Characters

/-! ## The digits -/

/-- The digits of a number, the last one first; 0 has one digit. -/
def lowDigits (b n : Nat) : List Nat := if n = 0 then [0] else Nat.digits b n

/-- Their characters. -/
def lowChars (b n : Nat) : List UInt8 := (lowDigits b n).map fun d : Nat => digitChar d

section Digits

variable {b n i fuel : Nat} {front old s : List UInt8}

theorem lowDigits_step (two : 2 ≤ b) (n : Nat) :
    lowDigits b n = n % b :: if 0 < n / b then lowDigits b (n / b) else [] := by
  rw [lowDigits]
  by_cases zero : n = 0
  · subst zero
    simp
  · rw [if_neg zero, Nat.digits_def' two (Nat.pos_of_ne_zero zero)]
    congr 1
    by_cases last : n / b = 0
    · rw [last, if_neg (Nat.lt_irrefl 0), Nat.digits_zero]
    · rw [if_pos (Nat.pos_of_ne_zero last), lowDigits, if_neg last]

theorem lowChars_step (two : 2 ≤ b) (n : Nat) :
    lowChars b n = digitChar (n % b : Nat) :: if 0 < n / b then lowChars b (n / b) else [] := by
  rw [lowChars, lowDigits_step two, List.map_cons]
  split <;> rfl

theorem lowDigits_lt (two : 2 ≤ b) {d : Nat} (digit : d ∈ lowDigits b n) : d < b := by
  rw [lowDigits] at digit
  split at digit
  · rw [List.mem_singleton.mp digit]
    exact Nat.lt_of_lt_of_le Nat.zero_lt_two two
  · exact Nat.digits_lt_base two digit

/-- The loop stores the digits, the last one first. -/
theorem ltoaFrom_run (two : 2 ≤ b) (at_ : i = front.length)
    (room : (lowChars b n).length ≤ old.length) (enough : n < fuel) :
    ltoaFrom b fuel n i (front ++ old) = some (i + (lowChars b n).length,
      front ++ (lowChars b n ++ old.drop (lowChars b n).length)) := by
  induction fuel generalizing n i front old with
  | zero => cases enough
  | succ fuel ih =>
      have digits := lowChars_step two n
      obtain ⟨c, old, rfl⟩ : ∃ c rest, old = c :: rest := by
        cases old with
        | nil =>
            rw [digits] at room
            cases room
        | cons c rest => exact ⟨c, rest, rfl⟩
      have remainder : (n : Int).tmod b = (n % b : Nat) := rfl
      have quotient : (n : Int).tdiv b = (n / b : Nat) := rfl
      have stored : setChar i (digitChar (n % b : Nat)) (front ++ c :: old) =
          some ((), front ++ digitChar (n % b : Nat) :: old) := setChar_run (by rw [at_])
      rw [ltoaFrom, remainder, quotient, bind_run_of_run stored, digits]
      by_cases more : 0 < n / b
      · have smaller : n / b < fuel := by
          have positive : 0 < n := Nat.pos_of_ne_zero fun zero => by simp [zero] at more
          have less : n / b < n := Nat.div_lt_self positive two
          omega
        rw [digits, if_pos more, List.length_cons, List.length_cons] at room
        have later := @ih (n / b) (i + 1) (front ++ [digitChar (n % b : Nat)]) old (by simp [at_])
          (Nat.le_of_succ_le_succ room) smaller
        rw [List.append_assoc, List.singleton_append] at later
        rw [if_pos (by exact_mod_cast more), if_pos more, later]
        simp [Nat.add_assoc, Nat.add_comm 1]
      · rw [if_neg (by exact_mod_cast more), if_neg more]
        rfl

theorem digitChar_ne_zero {d : Nat} (small : d < 36) : digitChar d ≠ 0 := by
  revert d
  decide

/-- In a base up to 36 the array holds the digits, the first one first. -/
theorem sioLtoa_run (two : 2 ≤ b) (base : b ≤ 36) (room : (lowChars b n).length < s.length) :
    ∃ rest, sioLtoa n b s = some ((), (lowChars b n).reverse ++ 0 :: rest) := by
  have stored : ltoaFrom b ((n : Int).natAbs + 1) n 0 s =
      some ((lowChars b n).length, lowChars b n ++ s.drop (lowChars b n).length) := by
    have run := @ltoaFrom_run b n 0 (n + 1) [] s two rfl (Nat.le_of_lt room) (Nat.lt_succ_self n)
    rw [Nat.zero_add] at run
    exact run
  have clear : 0 ∉ lowChars b n := by
    intro member
    obtain ⟨d, digit, nul⟩ := List.mem_map.mp member
    have small : d < b := lowDigits_lt two digit
    exact digitChar_ne_zero (by omega : d < 36) nul
  obtain ⟨c, rest, behind⟩ : ∃ c rest, s.drop (lowChars b n).length = c :: rest := by
    cases behind : s.drop (lowChars b n).length with
    | nil =>
        rw [List.drop_eq_nil_iff] at behind
        omega
    | cons c rest => exact ⟨c, rest, rfl⟩
  have ended : setChar (lowChars b n).length 0 (lowChars b n ++ c :: rest) =
      some ((), lowChars b n ++ 0 :: rest) := setChar_run rfl
  rw [behind] at stored
  refine ⟨rest, ?_⟩
  rw [sioLtoa, bind_run_of_run stored, bind_run_of_run ended]
  exact sioReverse_run clear

theorem lastChar_clear (m : Nat) : 0 ∉ [UInt8.ofNat (48 - m % 10)] := by
  have small : m % 10 < 10 := Nat.mod_lt _ (by decide)
  generalize m % 10 = d at small
  revert d
  decide

/-- Of a negative number only the last digit is stored, below `'0'`. -/
theorem sioLtoa_negative {v : Int} (negative : v < 0) {c c' : UInt8} {rest : List UInt8} :
    sioLtoa v 10 (c :: c' :: rest) =
      some ((), [UInt8.ofNat (48 - v.natAbs % 10)] ++ 0 :: rest) := by
  have same : v = -(v.natAbs : Int) := by omega
  have below : v.tdiv 10 ≤ 0 := by
    have quotient : v.tdiv 10 = -((v.natAbs / 10 : Nat) : Int) :=
      (congrArg (Int.tdiv · 10) same).trans (Int.neg_tdiv ..)
    omega
  have char : digitChar (v.tmod 10) = UInt8.ofNat (48 - v.natAbs % 10) := by
    have digit : v.tmod 10 = -((v.natAbs % 10 : Nat) : Int) :=
      (congrArg (Int.tmod · 10) same).trans (Int.neg_tmod ..)
    have small : v.natAbs % 10 < 10 := Nat.mod_lt _ (by decide)
    rw [digit]
    generalize v.natAbs % 10 = d at small
    revert d
    decide
  have stored : ltoaFrom 10 (v.natAbs + 1) v 0 (c :: c' :: rest) =
      some (1, UInt8.ofNat (48 - v.natAbs % 10) :: c' :: rest) := by
    have run : setChar 0 (UInt8.ofNat (48 - v.natAbs % 10)) (c :: c' :: rest) =
      some ((), UInt8.ofNat (48 - v.natAbs % 10) :: c' :: rest) := @setChar_run [] _ _ _ _ rfl
    rw [ltoaFrom, char, if_neg (by omega)]
    exact bind_run_of_run run _
  have ended : setChar (1 : Nat) 0 (UInt8.ofNat (48 - v.natAbs % 10) :: c' :: rest) =
      some ((), [UInt8.ofNat (48 - v.natAbs % 10)] ++ 0 :: rest) :=
    @setChar_run [UInt8.ofNat (48 - v.natAbs % 10)] _ _ _ _ rfl
  rw [sioLtoa, bind_run_of_run stored, bind_run_of_run ended]
  exact sioReverse_run (lastChar_clear _)

end Digits

/-! ## The number -/

/-- The characters are those of the decimal numeral. -/
theorem lowChars_reverse (n : Nat) : (lowChars 10 n).reverse = decimal.numeral n := by
  have signs : ∀ d < 10, digitChar (d : Nat) = decimal.sign d := by decide
  have chars : lowChars 10 n = (lowDigits 10 n).map decimal.sign :=
    List.map_congr_left fun d digit => signs d (lowDigits_lt (by decide) digit)
  rw [chars, Alphabet.numeral, lowDigits]
  split
  · rfl
  · rw [List.map_reverse]

theorem lowChars_length {n : Nat} (small : n < 2 ^ 63) : (lowChars 10 n).length ≤ 19 := by
  rw [lowChars, List.length_map, lowDigits]
  split
  · decide
  · exact (Nat.digits_length_le_iff (by decide) n).mpr (by omega)

theorem sioPuts_run {text rest : List UInt8} (clear : 0 ∉ text) :
    sioPuts (text ++ 0 :: rest) = some (text, text ++ 0 :: rest) := by
  rw [sioPuts, bind_run_of_run (sioStrlen_run clear), List.take_left]

/-- `sio_putl` writes the decimal numeral of a number from 0 on, and one character for a
negative one, whatever is in its array. -/
theorem sioPutl_writes (v : Int64) (s : Vector UInt8 128) :
    sioPutl v s = some (if v.toInt < 0 then [UInt8.ofNat (48 - v.toInt.natAbs % 10)]
      else decimal.numeral v.toInt.toNat) := by
  have size : s.toList.length = 128 := s.length_toList
  -- the string that `sio_ltoa` leaves is handed on
  have putl {text rest : List UInt8} (clear : 0 ∉ text)
      (run : sioLtoa v.toInt 10 s.toList = some ((), text ++ 0 :: rest)) :
      sioPutl v s = some text := by
    rw [sioPutl, bind_run_of_run run, sioPuts_run clear]
    rfl
  by_cases negative : v.toInt < 0
  · rw [if_pos negative]
    obtain ⟨c, c', rest, array⟩ : ∃ c c' rest, s.toList = c :: c' :: rest := by
      cases array : s.toList with
      | nil => simp [array] at size
      | cons c rest =>
          cases rest with
          | nil => simp [array] at size
          | cons c' rest => exact ⟨c, c', rest, rfl⟩
    apply putl (lastChar_clear _)
    rw [array]
    exact @sioLtoa_negative _ negative c c' rest
  · rw [if_neg negative]
    have high := v.toInt_lt
    have whole : v.toInt = (v.toInt.toNat : Int) := by omega
    have clear : 0 ∉ decimal.numeral v.toInt.toNat := by
      intro member
      cases decimal.numeral_digits _ 0 member
    have short := lowChars_length (n := v.toInt.toNat) (by omega)
    obtain ⟨rest, run⟩ :=
      @sioLtoa_run 10 v.toInt.toNat s.toList (by decide) (by decide) (by omega)
    rw [lowChars_reverse] at run
    apply putl clear
    rw [whole]
    exact run

end SysProg.Rio

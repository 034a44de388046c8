import Mathlib.Data.List.Basic

/-!
# Reading a text line by line

`fgets` delivers a line with its end, or as much of it as there is room for, and notes
whether it has seen the end of the file.  A text of lines that fit is delivered line by
line, and what stands behind the last line end comes with the end of the file.
-/

namespace SysProg.Logic

/-- At most `n` characters of a text, no further than the first line end, and the rest. -/
def splitLine : Nat → List UInt8 → List UInt8 × List UInt8
  | 0, text => ([], text)
  | _ + 1, [] => ([], [])
  | n + 1, c :: text =>
      if c = 10 then ([c], text) else (c :: (splitLine n text).1, (splitLine n text).2)

/-- What a call of `fgets` leaves: the characters that it stores, none where it returns null,
the rest of the file, and the indicator for the end of the file. -/
structure Got where
  line : List UInt8
  rest : List UInt8
  eof : Bool

/-- `fgets(buf, size, file)`; without a line end and with room left it has seen the end of
the file. -/
def fgets (size : Nat) (file : List UInt8) : Got :=
  let got := splitLine (size - 1) file
  ⟨got.1, got.2, got.1.length < size - 1 ∧ got.1.getLast? ≠ some 10⟩

variable {body rest file : List UInt8} {n size : Nat}

/-- A line that fits is taken as a whole. -/
theorem splitLine_line (inner : 10 ∉ body) (fits : body.length < n) :
    splitLine n (body ++ 10 :: rest) = (body ++ [10], rest) := by
  induction body generalizing n with
  | nil =>
      obtain ⟨n, rfl⟩ : ∃ m, n = m + 1 := ⟨n - 1, by rw [List.length_nil] at fits; omega⟩
      rw [List.nil_append, splitLine, if_pos rfl]
      rfl
  | cons c body ih =>
      rw [List.length_cons] at fits
      obtain ⟨n, rfl⟩ : ∃ m, n = m + 1 := ⟨n - 1, by omega⟩
      have other : c ≠ 10 := fun same => inner (same ▸ List.mem_cons_self)
      rw [List.cons_append, splitLine, if_neg other,
        ih (fun member => inner (List.mem_cons_of_mem _ member)) (by omega)]
      rfl

/-- A short text without a line end is taken as a whole. -/
theorem splitLine_last (inner : 10 ∉ body) (fits : body.length ≤ n) :
    splitLine n body = (body, []) := by
  induction body generalizing n with
  | nil => cases n <;> rfl
  | cons c body ih =>
      rw [List.length_cons] at fits
      obtain ⟨n, rfl⟩ : ∃ m, n = m + 1 := ⟨n - 1, by omega⟩
      have other : c ≠ 10 := fun same => inner (same ▸ List.mem_cons_self)
      rw [splitLine, if_neg other,
        ih (fun member => inner (List.mem_cons_of_mem _ member)) (by omega)]

/-- `fgets` delivers a line that fits. -/
theorem fgets_line (inner : 10 ∉ body) (fits : body.length + 1 < size) :
    fgets size (body ++ 10 :: rest) = ⟨body ++ [10], rest, false⟩ := by
  rw [fgets, splitLine_line inner (by omega)]
  simp

/-- Behind the last line end it sees the end of the file. -/
theorem fgets_last (inner : 10 ∉ body) (fits : body.length + 1 < size) :
    fgets size body = ⟨body, [], true⟩ := by
  have ended : body.getLast? ≠ some 10 := fun last => inner (List.mem_of_getLast? last)
  have room : body.length < size - 1 := by omega
  rw [fgets, splitLine_last inner (by omega)]
  simp [room, ended]

end SysProg.Logic

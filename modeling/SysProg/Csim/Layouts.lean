import SysProg.Csim.Transcript

/-!
# Lines of a trace file

A trace has one line for each access: some white space, an instruction letter, the
address in hexadecimal and the size in decimal digits.  The program scans all lines in
front of the first text that is none.
-/

namespace SysProg.Csim

open Logic

/-- A line as it may stand in a trace file. -/
structure Entry where
  before : List UInt8
  instr : UInt8
  gap : List UInt8
  address : List UInt8
  size : List UInt8
  before_white : ∀ c ∈ before, whiteSpace c = true
  instr_visible : whiteSpace instr = false
  gap_white : ∀ c ∈ gap, whiteSpace c = true
  address_digits : ∀ c ∈ address, hexadecimal.isDigit c = true
  address_ne_nil : address ≠ []
  address_lt : hexadecimal.value address < 2 ^ 64
  size_digits : ∀ c ∈ size, decimal.isDigit c = true
  size_ne_nil : size ≠ []
  size_lt : decimal.value size < 2 ^ 31

namespace Entry

def bytes (e : Entry) : List UInt8 :=
  e.before ++ e.instr :: (e.gap ++ (e.address ++ 44 :: (e.size ++ [10])))

def line (e : Entry) : TraceLine :=
  ⟨e.instr, UInt64.ofNat (hexadecimal.value e.address), Int32.ofNat (decimal.value e.size)⟩

end Entry

section Scanning

variable {before gap address size rest file : List UInt8} {instr : UInt8} {z : Int}
  {l : TraceLine} {ls : List TraceLine}

/-- White space in front of a line does not count. -/
theorem fscanf_white (white : ∀ c ∈ before, whiteSpace c = true) :
    fscanf (before ++ file) = fscanf file := by
  unfold fscanf
  rw [List.dropWhile_append_of_pos white]

/-- A line is scanned part by part. -/
theorem fscanf_parts (before_white : ∀ c ∈ before, whiteSpace c = true)
    (instr_visible : whiteSpace instr = false) (gap_white : ∀ c ∈ gap, whiteSpace c = true)
    (address_digits : ∀ c ∈ address, hexadecimal.isDigit c = true) (address_ne_nil : address ≠ [])
    (integer : scanInteger (size ++ rest) = some (z, rest)) :
    fscanf (before ++ instr :: (gap ++ (address ++ 44 :: (size ++ rest)))) =
      some (⟨instr, strtoul (hexadecimal.value address), Int32.ofInt (strtol z)⟩, rest) := by
  have comma : hexadecimal.Ends (44 :: (size ++ rest)) := .cons rfl
  have noPrefix : ∀ c ∈ (44 :: (size ++ rest)).head?, c ≠ 120 ∧ c ≠ 88 := by
    rintro c member
    cases member
    exact ⟨by decide, by decide⟩
  rw [fscanf_white before_white]
  unfold fscanf
  rw [List.dropWhile_cons_of_neg (by simp [instr_visible]), List.head?_cons, List.tail_cons,
    Option.map_some, Option.bind_eq_bind, Option.bind_some]
  dsimp only
  rw [scanHex_space gap_white, scanHex_block address_digits address_ne_nil comma noPrefix,
    Option.bind_eq_bind, Option.bind_some]
  dsimp only
  rw [scanComma, if_pos rfl, Option.bind_eq_bind, Option.bind_some, integer]
  rfl

theorem strtoul_natCast {n : Nat} (small : n < 2 ^ 64) : strtoul n = UInt64.ofNat n := by
  have whole : ((n : Int) % 2 ^ 64).toNat = n := by omega
  rw [strtoul, Int.natAbs_natCast, if_neg (Nat.not_le.mpr small), UInt64.ofInt, whole]

theorem strtol_eq (low : -2 ^ 31 ≤ z) (high : z < 2 ^ 31) : strtol z = z := by
  rw [strtol]
  omega

/-- A line of a trace file is scanned up to its end. -/
theorem Entry.fscanf_bytes (e : Entry) (rest : List UInt8) :
    fscanf (e.bytes ++ rest) = some (e.line, 10 :: rest) := by
  have ends : decimal.Ends (10 :: rest) := .cons rfl
  have scanned := fscanf_parts e.before_white e.instr_visible e.gap_white e.address_digits
    e.address_ne_nil (scanInteger_block e.size_digits e.size_ne_nil ends)
  rw [strtoul_natCast e.address_lt, strtol_eq (by omega) (by exact_mod_cast e.size_lt),
    Int32.ofInt_eq_ofNat] at scanned
  rw [bytes, line]
  simpa only [List.append_assoc, List.cons_append, List.nil_append] using scanned

theorem Scans.white (white : ∀ c ∈ before, whiteSpace c = true) (scans : Scans file ls) :
    Scans (before ++ file) ls := by
  cases scans with
  | stop stopped => exact .stop ((fscanf_white white).trans stopped)
  | line scanned later => exact .line ((fscanf_white white).trans scanned) later

/-- The lines of a trace file are scanned up to the first text that is no line. -/
theorem scans_entries (entries : List Entry) {junk : List UInt8} (malformed : fscanf junk = none) :
    Scans (entries.flatMap Entry.bytes ++ junk) (entries.map Entry.line) := by
  induction entries with
  | nil => exact .stop malformed
  | cons e entries ih =>
      rw [List.flatMap_cons, List.append_assoc, List.map_cons]
      refine .line (e.fscanf_bytes _) ?_
      exact @Scans.white [10] _ _ (List.all_eq_true.mp rfl) ih

/-! ## The lines of an output -/

/-- A line that the program prints is scanned again. -/
theorem fscanf_text (visible : whiteSpace l.instr = false) (ends : decimal.Ends rest) :
    fscanf (l.text ++ rest) = some (l, rest) := by
  have low := l.size.le_toInt
  have high := l.size.toInt_lt
  have scanned := @fscanf_parts [] [32] _ _ _ l.instr _ (List.all_eq_true.mp rfl) visible
    (List.all_eq_true.mp rfl)
    (hexadecimal.numeral_digits l.addr.toNat) (hexadecimal.numeral_ne_nil _)
    (scanInteger_numeral l.size.toInt ends)
  rw [Alphabet.value_numeral, strtoul_natCast l.addr.toNat_lt, strtol_eq low high,
    Int32.ofInt_toInt, UInt64.ofNat_toNat] at scanned
  rw [TraceLine.text]
  simpa only [List.append_assoc, List.cons_append, List.nil_append] using scanned

theorem fscanf_visible (scanned : fscanf file = some (l, rest)) : whiteSpace l.instr = false := by
  unfold fscanf at scanned
  simp only [Option.bind_eq_bind, Option.bind_eq_some_iff, Option.map_eq_some_iff,
    Option.some.injEq, Prod.mk.injEq, Prod.exists] at scanned
  obtain ⟨instr, behind, ⟨c, first, rfl, -⟩, addr, file', -, file'', -, size, file''', -, rfl, -⟩ :=
    scanned
  have stopped := List.head?_dropWhile_not whiteSpace file
  rw [first] at stopped
  simpa using stopped

theorem Scans.visible (scans : Scans file ls) : ∀ l ∈ ls, whiteSpace l.instr = false := by
  induction scans with
  | stop stopped => exact fun _ member => absurd member List.not_mem_nil
  | line scanned later ih =>
      intro l member
      rcases List.mem_cons.mp member with rfl | later
      · exact fscanf_visible scanned
      · exact ih l later

end Scanning

/-- Lines and line ends, without the words and the summary. -/
def Printed.echoes : Printed → Bool
  | .line _ | .newline => true
  | .outcome _ | .summary .. => false

/-- The text of the lines of an output. -/
def echo (output : List Printed) : List UInt8 :=
  (output.filter Printed.echoes).flatMap Printed.text

/-- The word for an outcome. -/
def Printed.announces (o : Outcome) : Printed → Bool
  | .outcome o' => o = o'
  | _ => false

section Verbose

variable {E s b : Nat} {ls : List TraceLine} {o : Outcome}

theorem words_silent (os : List Outcome) : (os.flatMap words).filter Printed.echoes = [] := by
  induction os with
  | nil => rfl
  | cons o os ih =>
      rw [List.flatMap_cons, List.filter_append, ih, List.append_nil]
      cases o with
      | hit => rfl
      | miss => rfl
      | eviction => rfl

/-- A report echoes its line. -/
theorem echo_report (r : Reference E) (l : TraceLine) :
    echo (r.report s b l) = if l.shown then l.text ++ ascii " \n" else [] := by
  rw [echo, Reference.report]
  split
  · rw [List.filter_cons_of_pos rfl, List.filter_append, words_silent]
    exact congrArg (l.text ++ ·) (List.append_nil _)
  · rfl

theorem echo_append (front back : List Printed) : echo (front ++ back) = echo front ++ echo back := by
  rw [echo, List.filter_append, List.flatMap_append]
  rfl

/-- The lines of a transcript are scanned again, without the instruction loads. -/
theorem scans_echo (visible : ∀ l ∈ ls, whiteSpace l.instr = false) (r : Reference E) :
    Scans (echo (r.transcript s b ls)) (ls.filter TraceLine.shown) := by
  induction ls generalizing r with
  | nil => exact .stop rfl
  | cons l ls ih =>
      have later := ih (fun l member => visible l (List.mem_cons_of_mem _ member))
        (r.run s b [l.record])
      rw [Reference.transcript, echo_append, echo_report]
      cases shown : l.shown with
      | false =>
          rw [List.filter_cons_of_neg (by simp [shown])]
          exact later
      | true =>
          rw [List.filter_cons_of_pos shown, if_pos rfl, List.append_assoc]
          refine .line (fscanf_text (visible l List.mem_cons_self) (.cons rfl)) ?_
          exact Scans.white (List.all_eq_true.mp rfl) later

theorem Reference.run_cons (r : Reference E) (l : Record) (ls : List Record) :
    r.run s b (l :: ls) = (r.run s b [l]).run s b ls := rfl

theorem Reference.run_hidden {l : TraceLine} (hidden : l.shown = false) (r : Reference E) :
    r.run s b [l.record] = r := by
  rw [Reference.run, List.foldl_cons, accesses_hidden hidden]
  rfl

/-- Instruction loads leave nothing behind. -/
theorem transcript_shown (r : Reference E) (ls : List TraceLine) :
    r.transcript s b (ls.filter TraceLine.shown) = r.transcript s b ls ∧
      r.run s b ((ls.filter TraceLine.shown).map TraceLine.record) =
        r.run s b (ls.map TraceLine.record) ∧
      accesses ((ls.filter TraceLine.shown).map TraceLine.record) =
        accesses (ls.map TraceLine.record) := by
  induction ls generalizing r with
  | nil => exact ⟨rfl, rfl, rfl⟩
  | cons l ls ih =>
      obtain ⟨same, ran, counted⟩ := ih (r.run s b [l.record])
      rw [Reference.transcript, List.map_cons,
        Reference.run_cons r l.record (ls.map TraceLine.record), ← same, ← ran]
      cases shown : l.shown with
      | false =>
          rw [List.filter_cons_of_neg (by simp [shown]), Reference.run_hidden shown,
            Reference.report, if_neg (by simp [shown])]
          refine ⟨rfl, rfl, ?_⟩
          rw [counted]
          simp [accesses, accesses_hidden shown]
      | true =>
          rw [List.filter_cons_of_pos shown]
          refine ⟨rfl, rfl, ?_⟩
          rw [List.map_cons, accesses, List.map_cons, List.sum_cons, ← accesses, counted]
          simp [accesses]

/-! ## Counting words -/

theorem countP_words (o' : Outcome) :
    (words o').countP (Printed.announces .hit) = (if o' = .hit then 1 else 0) ∧
      (words o').countP (Printed.announces .miss) = (if o' = .hit then 0 else 1) ∧
      (words o').countP (Printed.announces .eviction) = (if o' = .eviction then 1 else 0) := by
  cases o' with
  | hit => exact ⟨rfl, rfl, rfl⟩
  | miss => exact ⟨rfl, rfl, rfl⟩
  | eviction => exact ⟨rfl, rfl, rfl⟩

/-- The words for some accesses count to the difference of the counters. -/
theorem countP_outcomes (r : Reference E) (addr n : Nat) :
    r.nHit + ((r.outcomes s b addr n).flatMap words).countP (Printed.announces .hit) =
        ((fun r : Reference E => r.access s b addr)^[n] r).nHit ∧
      r.nMiss + ((r.outcomes s b addr n).flatMap words).countP (Printed.announces .miss) =
        ((fun r : Reference E => r.access s b addr)^[n] r).nMiss ∧
      r.nEvict + ((r.outcomes s b addr n).flatMap words).countP (Printed.announces .eviction) =
        ((fun r : Reference E => r.access s b addr)^[n] r).nEvict := by
  induction n generalizing r with
  | zero => exact ⟨rfl, rfl, rfl⟩
  | succ n ih =>
      obtain ⟨hits, misses, evictions⟩ := ih (r.access s b addr)
      obtain ⟨hit, miss, eviction⟩ := countP_words (r.outcome s b addr)
      rw [Function.iterate_succ_apply, Reference.outcomes, List.flatMap_cons, List.countP_append,
        List.countP_append, List.countP_append, ← hits, ← misses, ← evictions, hit, miss, eviction,
        ← Nat.add_assoc, ← Nat.add_assoc, ← Nat.add_assoc]
      exact ⟨rfl, rfl, rfl⟩

/-- The words of a transcript count to the counters. -/
theorem countP_transcript (r : Reference E) (ls : List TraceLine) :
    r.nHit + (r.transcript s b ls).countP (Printed.announces .hit) =
        (r.run s b (ls.map TraceLine.record)).nHit ∧
      r.nMiss + (r.transcript s b ls).countP (Printed.announces .miss) =
        (r.run s b (ls.map TraceLine.record)).nMiss ∧
      r.nEvict + (r.transcript s b ls).countP (Printed.announces .eviction) =
        (r.run s b (ls.map TraceLine.record)).nEvict := by
  induction ls generalizing r with
  | nil => exact ⟨rfl, rfl, rfl⟩
  | cons l ls ih =>
      obtain ⟨hits, misses, evictions⟩ := ih (r.run s b [l.record])
      rw [List.map_cons, Reference.run_cons r l.record (ls.map TraceLine.record), ← hits, ← misses,
        ← evictions, Reference.transcript, List.countP_append, List.countP_append,
        List.countP_append]
      cases shown : l.shown with
      | false =>
          have silent : r.report s b l = [] := if_neg (by simp [shown])
          simp [silent, Reference.run_hidden shown]
      | true =>
          obtain ⟨hit, miss, eviction⟩ :=
            countP_outcomes (s := s) (b := b) r l.addr.toNat l.record.accesses
          have reported (o : Outcome) : (r.report s b l).countP (Printed.announces o) =
              ((r.outcomes s b l.addr.toNat l.record.accesses).flatMap words).countP
                (Printed.announces o) := by
            rw [Reference.report, if_pos shown, List.countP_cons, List.countP_append]
            rfl
          rw [reported, reported, reported, ← Nat.add_assoc, ← Nat.add_assoc, ← Nat.add_assoc, hit,
            miss, eviction]
          exact ⟨rfl, rfl, rfl⟩

end Verbose

section Program

variable {s b E : UInt32} {memory : Nat → List LINE} {file : List UInt8} {ls : List TraceLine}

/-- A modification in upper case and an instruction load. -/
def shortEntries : List Entry :=
  [{ before := [32]
     instr := 77
     gap := [32, 9]
     address := [48, 49, 67]
     size := [56]
     before_white := List.all_eq_true.mp rfl
     instr_visible := rfl
     gap_white := List.all_eq_true.mp rfl
     address_digits := List.all_eq_true.mp rfl
     address_ne_nil := List.cons_ne_nil _ _
     address_lt := by decide
     size_digits := List.all_eq_true.mp rfl
     size_ne_nil := List.cons_ne_nil _ _
     size_lt := by decide },
   { before := []
     instr := 73
     gap := []
     address := [52]
     size := [48, 52]
     before_white := List.all_eq_true.mp rfl
     instr_visible := rfl
     gap_white := List.all_eq_true.mp rfl
     address_digits := List.all_eq_true.mp rfl
     address_ne_nil := List.cons_ne_nil _ _
     address_lt := by decide
     size_digits := List.all_eq_true.mp rfl
     size_ne_nil := List.cons_ne_nil _ _
     size_lt := by decide }]

/-- Text that is no line. -/
def trailer : List UInt8 := ascii "== end"

end Program

end SysProg.Csim

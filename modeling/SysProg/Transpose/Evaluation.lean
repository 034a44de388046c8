import SysProg.Csim.Layouts
import SysProg.Logic.Lines
import SysProg.Transpose.Tracegen

/-!
# `test-trans`

The driver lets `tracegen` run each registered function under a tracer and cuts the accesses
between the two markers out of the trace.  A simulator counts their misses.  The programs
talk through files: the score of a function that passes validation is that of the ideal
cache on the accesses from the first one to the start marker up to the first one to the end
marker.
-/

namespace SysProg.Transpose

open Logic Csim

/-! ## The files -/

/-- `.marker`, as `tracegen` writes it with `"%llx %llx"`. -/
def markerText (start stop : UInt64) : List UInt8 :=
  hexadecimal.numeral start.toNat ++ 32 :: hexadecimal.numeral stop.toNat

/-- `.csim_results`, as `printSummary` writes it with `"%d %d %d\n"`. -/
def resultsText (hits misses evictions : UInt32) : List UInt8 :=
  printInt hits ++ 32 :: (printInt misses ++ 32 :: (printInt evictions ++ [10]))

/-- `fscanf(marker_fp, "%llx %llx", ..)`; what is not converted keeps its value. -/
def scanMarkers (text : List UInt8) (old : UInt64 × UInt64) : UInt64 × UInt64 :=
  match scanHex text with
  | none => old
  | some (start, text) =>
      match scanHex text with
      | none => (strtoul start, old.2)
      | some (stop, _) => (strtoul start, strtoul stop)

/-- `hits`, `misses` and `evictions`. -/
structure Counts where
  hits : UInt32
  misses : UInt32
  evictions : UInt32

/-- `%u`. -/
def scanUnsigned (text : List UInt8) : Option (UInt32 × List UInt8) :=
  (scanInteger text).map fun (z, rest) => ((strtoul z).toUInt32, rest)

/-- `fscanf(in_fp, "%u %u %u", ..)`. -/
def scanCounts (text : List UInt8) (old : Counts) : Counts :=
  match scanUnsigned text with
  | none => old
  | some (hits, text) =>
      match scanUnsigned text with
      | none => { old with hits := hits }
      | some (misses, text) =>
          match scanUnsigned text with
          | none => ⟨hits, misses, old.evictions⟩
          | some (evictions, _) => ⟨hits, misses, evictions⟩

/-! ## The part of a trace -/

/-- `buf[0]==' ' && buf[2]==' ' && (buf[1]=='S' || buf[1]=='M' || buf[1]=='L' )`. -/
def isAccess : List UInt8 → Bool
  | first :: instr :: second :: _ =>
      first = 32 ∧ second = 32 ∧ (instr = 83 ∨ instr = 77 ∨ instr = 76)
  | _ => false

/-- `sscanf(buf+3, "%llx,%u", &addr, &len)`, of which only `addr` is used. -/
def scanAddr (text : List UInt8) (addr : UInt64) : UInt64 :=
  match scanHex text with
  | none => addr
  | some (z, _) => strtoul z

/-- `addr`, what has been written to `part_trace_fp`, and whether that has been closed. -/
structure Part where
  addr : UInt64
  text : List UInt8
  closed : Bool

/-- The loop over `full_trace_fp`, cut off after `fuel` lines. -/
def filterTrace (marker_start marker_end : UInt64) :
    Nat → List UInt8 → UInt64 → Bool → Option Part
  | 0, _, _, _ => none
  | fuel + 1, file, addr, flag =>
      let got := fgets 1000 file
      if got.line = [] then some ⟨addr, [], false⟩
      else if isAccess got.line then
        let buf := beforeNul got.line
        let addr := scanAddr (buf.drop 3) addr
        let flag := flag || addr = marker_start
        let out := if flag && addr < 0xffffffff then buf else []
        if addr = marker_end then some ⟨addr, out, true⟩
        else
          (filterTrace marker_start marker_end fuel got.rest addr flag).map fun part =>
            { part with text := out ++ part.text }
      else filterTrace marker_start marker_end fuel got.rest addr flag

/-! ## The loop over the functions -/

/-- What the other programs do for the function at an index: the exit status of `tracegen`
under the tracer, the two files that this leaves, and how much of a trace that has not been
closed has been written; and what `csim-ref` writes for a geometry and a trace. -/
structure Tools where
  exit : Nat → Nat
  marker : Nat → List UInt8
  trace : Nat → List UInt8
  flushed : Nat → Nat
  reference : UInt32 → UInt32 → UInt32 → List UInt8 → List UInt8

/-- The locals of `eval_perf`, which are not set before the first function. -/
structure Locals where
  marker_start : UInt64
  marker_end : UInt64
  addr : UInt64
  counts : Counts

/-- `struct results`. -/
structure Results where
  funcid : Int
  correct : Int
  misses : Int32

def SUBMIT_DESCRIPTION : List UInt8 := ascii "Transpose submission"

/-- One round of the loop. -/
def evalFunc (tools : Tools) (s E b : UInt32) (i : Nat) (f : TransFunc) (v : Locals)
    (results : Results) : Option (TransFunc × Locals × Results) := do
  let results :=
    if f.description = SUBMIT_DESCRIPTION then { results with funcid := i } else results
  if tools.exit i ≠ 0 then some (f, v, results)
  else do
    let markers := scanMarkers (tools.marker i) (v.marker_start, v.marker_end)
    let results := if results.funcid = i then { results with correct := 1 } else results
    let part ← filterTrace markers.1 markers.2 ((tools.trace i).length + 1) (tools.trace i) v.addr
      false
    let file := if part.closed then part.text else part.text.take (tools.flushed i)
    let counts := scanCounts (tools.reference s E b file) v.counts
    let f := { f with
      correct := true
      num_hits := counts.hits
      num_misses := counts.misses
      num_evictions := counts.evictions }
    let results :=
      if results.funcid = i then { results with misses := counts.misses.toInt32 } else results
    some (f, ⟨markers.1, markers.2, part.addr, counts⟩, results)

/-- The loop from the function at `i` on. -/
def evalFrom (tools : Tools) (s E b : UInt32) :
    Nat → List TransFunc → Locals → Results → Option (List TransFunc × Results)
  | _, [], _, results => some ([], results)
  | i, f :: rest, v, results => do
      let (f, v, results) ← evalFunc tools s E b i f v results
      let (rest, results) ← evalFrom tools s E b (i + 1) rest v results
      some (f :: rest, results)

/-- `results` before the loop. -/
def noResults : Results := ⟨-1, 0, 2147483647⟩

/-- `eval_perf`. -/
def evalPerf (tools : Tools) (s E b : UInt32) (func_list : List TransFunc) (v : Locals) :
    Option (List TransFunc × Results) :=
  evalFrom tools s E b 0 func_list v noResults

/-! ## Files are read back -/

section Files

variable {start stop : UInt64} {n : UInt32} {rest : List UInt8}

theorem hexadecimal_space (rest : List UInt8) : hexadecimal.Ends (32 :: rest) := .cons rfl

theorem noPrefix_space (rest : List UInt8) :
    ∀ c ∈ ((32 : UInt8) :: rest).head?, c ≠ 120 ∧ c ≠ 88 := by
  rintro c member
  cases member
  exact ⟨by decide, by decide⟩

theorem white_blank : ∀ c ∈ [(32 : UInt8)], whiteSpace c = true := List.all_eq_true.mp rfl

theorem strtoul_toNat (n : UInt64) : strtoul (n.toNat : Int) = n := by
  rw [strtoul_natCast n.toNat_lt, UInt64.ofNat_toNat]

/-- The markers are read back. -/
theorem scanMarkers_text (start stop : UInt64) (old : UInt64 × UInt64) :
    scanMarkers (markerText start stop) old = (start, stop) := by
  have first : scanHex (markerText start stop) =
      some ((start.toNat : Int), 32 :: hexadecimal.numeral stop.toNat) := by
    rw [markerText, scanHex_block (hexadecimal.numeral_digits _) (hexadecimal.numeral_ne_nil _)
      (hexadecimal_space _) (noPrefix_space _), Alphabet.value_numeral]
  have second : scanHex (32 :: hexadecimal.numeral stop.toNat) =
      some ((stop.toNat : Int), []) := by
    have numeral := scanHex_block (hexadecimal.numeral_digits stop.toNat)
      (hexadecimal.numeral_ne_nil _) .nil fun _ member => nomatch member
    rw [List.append_nil, Alphabet.value_numeral] at numeral
    rw [← numeral]
    exact scanHex_space white_blank
  rw [scanMarkers, first]
  dsimp only
  rw [second]
  dsimp only
  rw [strtoul_toNat, strtoul_toNat]

/-- What `%d` prints of an `unsigned` is read back by `%u`. -/
theorem scanUnsigned_printInt (n : UInt32) (ends : decimal.Ends rest) :
    scanUnsigned (printInt n ++ rest) = some (n, rest) := by
  have low := n.toInt32.le_toInt
  have high := n.toInt32.toInt_lt
  have same : (strtoul n.toInt32.toInt).toUInt32 = n := by
    have small : ¬ 2 ^ 64 ≤ n.toInt32.toInt.natAbs := by omega
    have signed : n.toInt32.toInt =
        if 2 * n.toNat < 2 ^ 32 then (n.toNat : Int) else n.toNat - 2 ^ 32 :=
      BitVec.toInt_eq_toNat_cond n.toBitVec
    have bound := n.toNat_lt
    apply UInt32.toNat_inj.mp
    rw [strtoul, if_neg small, UInt64.toNat_toUInt32, UInt64.ofInt, UInt64.toNat_ofNat']
    split at signed <;> omega
  rw [scanUnsigned, printInt, scanInteger_numeral _ ends, Option.map_some]
  dsimp only
  rw [same]

theorem scanUnsigned_space (text : List UInt8) : scanUnsigned (32 :: text) = scanUnsigned text := by
  exact congrArg (Option.map _) (scanInteger_space white_blank)

/-- The counters are read back. -/
theorem scanCounts_text (hits misses evictions : UInt32) (old : Counts) :
    scanCounts (resultsText hits misses evictions) old = ⟨hits, misses, evictions⟩ := by
  rw [resultsText, scanCounts, scanUnsigned_printInt hits (.cons rfl)]
  dsimp only
  rw [scanUnsigned_space, scanUnsigned_printInt misses (.cons rfl)]
  dsimp only
  rw [scanUnsigned_space, scanUnsigned_printInt evictions (.cons rfl)]

end Files

/-! ## Traces -/

/-- A line for an access, as the tracer writes it. -/
structure Access where
  instr : UInt8
  address : List UInt8
  size : List UInt8
  instr_data : instr = 83 ∨ instr = 77 ∨ instr = 76
  address_digits : ∀ c ∈ address, hexadecimal.isDigit c = true
  address_ne_nil : address ≠ []
  address_lt : hexadecimal.value address < 2 ^ 64
  size_digits : ∀ c ∈ size, decimal.isDigit c = true
  size_ne_nil : size ≠ []
  size_lt : decimal.value size < 2 ^ 31
  short : address.length + size.length < 990

namespace Access

def addr (a : Access) : UInt64 := UInt64.ofNat (hexadecimal.value a.address)

def body (a : Access) : List UInt8 := 32 :: a.instr :: 32 :: (a.address ++ 44 :: a.size)

theorem instr_visible (a : Access) : whiteSpace a.instr = false := by
  rcases a.instr_data with same | same | same <;> rw [same] <;> rfl

/-- The line as the simulator takes it. -/
def entry (a : Access) : Entry where
  before := [32]
  instr := a.instr
  gap := [32]
  address := a.address
  size := a.size
  before_white := white_blank
  instr_visible := a.instr_visible
  gap_white := white_blank
  address_digits := a.address_digits
  address_ne_nil := a.address_ne_nil
  address_lt := a.address_lt
  size_digits := a.size_digits
  size_ne_nil := a.size_ne_nil
  size_lt := a.size_lt

end Access

/-- A line of a trace: an access to data, or anything else. -/
inductive Logged where
  | access (a : Access)
  | other (body : List UInt8) (inner : 10 ∉ body) (short : body.length < 999)
      (noAccess : isAccess (body ++ [10]) = false)

namespace Logged

def body : Logged → List UInt8
  | access a => a.body
  | other body _ _ _ => body

def access? : Logged → Option Access
  | access a => some a
  | other _ _ _ _ => none

end Logged

/-- The lines of a text. -/
def textLines (bodies : List (List UInt8)) : List UInt8 :=
  bodies.flatMap fun body => body ++ [10]

/-- The accesses that count, once the first one to the start marker has been seen or from it
on: those to the low part of the address space. -/
def window (marker_start : UInt64) (seen : Bool) (accesses : List Access) : List Access :=
  (if seen then accesses else accesses.dropWhile fun a => a.addr ≠ marker_start).filter
    fun a => a.addr < 0xffffffff

section Traces

variable {a : Access} {accesses : List Access} {lines : List Logged} {rest : List UInt8}
  {marker_start marker_end addr : UInt64} {seen : Bool} {fuel : Nat}

theorem hexDigit_ne {c : UInt8} (digit : hexadecimal.isDigit c = true) : c ≠ 0 ∧ c ≠ 10 := by
  constructor
  · rintro rfl
    cases digit
  · rintro rfl
    cases digit

theorem decimalDigit_ne {c : UInt8} (digit : decimal.isDigit c = true) : c ≠ 0 ∧ c ≠ 10 := by
  constructor
  · rintro rfl
    cases digit
  · rintro rfl
    cases digit

/-- The line of an access holds neither a terminator nor a line end. -/
theorem Access.body_clear (a : Access) : ∀ c ∈ a.body, c ≠ 0 ∧ c ≠ 10 := by
  have instr : a.instr ≠ 0 ∧ a.instr ≠ 10 := by
    rcases a.instr_data with same | same | same <;> rw [same] <;> decide
  refine List.forall_mem_cons.mpr ⟨by decide, List.forall_mem_cons.mpr ⟨instr,
    List.forall_mem_cons.mpr ⟨by decide, ?_⟩⟩⟩
  intro c member
  rcases List.mem_append.mp member with inAddress | behind
  · exact hexDigit_ne (a.address_digits c inAddress)
  · rcases List.mem_cons.mp behind with rfl | inSize
    · exact ⟨by decide, by decide⟩
    · exact decimalDigit_ne (a.size_digits c inSize)

theorem Access.isAccess_line (a : Access) : isAccess (a.body ++ [10]) = true := by
  simpa [body, isAccess] using a.instr_data

theorem Access.scanAddr_line (a : Access) (old : UInt64) :
    scanAddr ((a.body ++ [10]).drop 3) old = a.addr := by
  have text : (a.body ++ [10]).drop 3 = a.address ++ 44 :: (a.size ++ [10]) := by
    simp [body]
  have noPrefix : ∀ c ∈ ((44 : UInt8) :: (a.size ++ [10])).head?, c ≠ 120 ∧ c ≠ 88 := by
    rintro c member
    cases member
    exact ⟨by decide, by decide⟩
  rw [text, scanAddr, scanHex_block a.address_digits a.address_ne_nil (.cons rfl) noPrefix]
  exact strtoul_natCast a.address_lt

/-- `fgets` delivers a line of the trace. -/
theorem Logged.fgets_body (l : Logged) (rest : List UInt8) :
    fgets 1000 (l.body ++ 10 :: rest) = ⟨l.body ++ [10], rest, false⟩ := by
  cases l with
  | access a =>
      have short := a.short
      refine fgets_line (fun member => (a.body_clear 10 member).2 rfl) ?_
      simp only [body, Access.body, List.length_cons, List.length_append]
      omega
  | other body inner short noAccess => exact fgets_line inner (Nat.succ_lt_succ short)

/-- A line that is no access is skipped. -/
theorem filterTrace_other {body : List UInt8} (inner : 10 ∉ body) (short : body.length < 999)
    (noAccess : isAccess (body ++ [10]) = false) :
    filterTrace marker_start marker_end (fuel + 1) (body ++ 10 :: rest) addr seen =
      filterTrace marker_start marker_end fuel rest addr seen := by
  have got := Logged.fgets_body (.other body inner short noAccess) rest
  simp only [Logged.body] at got
  rw [filterTrace, got]
  simp [noAccess]

/-- An access is written to the part if it counts; the one to the end marker is the last. -/
theorem filterTrace_access :
    filterTrace marker_start marker_end (fuel + 1) (a.body ++ 10 :: rest) addr seen =
      if a.addr = marker_end then
        some ⟨a.addr, if (seen || decide (a.addr = marker_start)) && a.addr < 0xffffffff then
          a.body ++ [10] else [], true⟩
      else (filterTrace marker_start marker_end fuel rest a.addr
          (seen || decide (a.addr = marker_start))).map fun part =>
        { part with text := (if (seen || decide (a.addr = marker_start)) && a.addr < 0xffffffff then
          a.body ++ [10] else []) ++ part.text } := by
  have got := Logged.fgets_body (.access a) rest
  have whole : beforeNul (a.body ++ [10]) = a.body ++ [10] := by
    apply beforeNul_of_clear
    rw [List.mem_append, not_or]
    exact ⟨fun member => (a.body_clear 0 member).1 rfl, by decide⟩
  simp only [Logged.body] at got
  rw [filterTrace, got]
  simp only [List.append_eq_nil_iff, List.cons_ne_nil, and_false, if_false, a.isAccess_line,
    if_true, whole, a.scanAddr_line]

theorem window_cons (marker_start : UInt64) (seen : Bool) (a : Access) (accesses : List Access) :
    window marker_start seen (a :: accesses) =
      (if (seen || decide (a.addr = marker_start)) && a.addr < 0xffffffff then [a] else []) ++
        window marker_start (seen || decide (a.addr = marker_start)) accesses := by
  cases seen with
  | true =>
      simp only [window, List.filter_cons, if_true, Bool.true_or, Bool.true_and]
      split <;> rfl
  | false =>
      by_cases start : a.addr = marker_start
      · simp [window, List.filter_cons, start]
        split <;> rfl
      · simp [window, start]

/-- The part of a trace is the accesses of the window, up to the first one to the end
marker. -/
theorem filterTrace_lines {last : Access} (ends : last.addr = marker_end)
    (first : ∀ a ∈ lines.filterMap Logged.access?, a.addr ≠ marker_end)
    (enough : lines.length < fuel) :
    filterTrace marker_start marker_end fuel
        (textLines (lines.map Logged.body) ++ (last.body ++ 10 :: rest)) addr seen =
      some ⟨marker_end, textLines ((window marker_start seen
        (lines.filterMap Logged.access? ++ [last])).map Access.body), true⟩ := by
  induction lines generalizing fuel addr seen with
  | nil =>
      obtain ⟨fuel, rfl⟩ := Nat.exists_eq_add_one_of_ne_zero (Nat.ne_zero_of_lt enough)
      change filterTrace marker_start marker_end (fuel + 1) (last.body ++ 10 :: rest) addr seen = _
      rw [filterTrace_access, if_pos ends, ends]
      change _ = some (Part.mk marker_end (textLines ((window marker_start seen [last]).map _)) true)
      rw [window_cons, ends]
      congr 2
      have none : window marker_start (seen || decide (marker_end = marker_start)) [] = [] := by
        simp [window]
      rw [none, List.append_nil]
      split
      · simp [textLines]
      · rfl
  | cons l lines ih =>
      obtain ⟨fuel, rfl⟩ := Nat.exists_eq_add_one_of_ne_zero (Nat.ne_zero_of_lt enough)
      rw [List.length_cons, Nat.add_lt_add_iff_right] at enough
      have text : textLines ((l :: lines).map Logged.body) ++ (last.body ++ 10 :: rest) =
          l.body ++ 10 :: (textLines (lines.map Logged.body) ++ (last.body ++ 10 :: rest)) := by
        simp [textLines]
      rw [text]
      cases l with
      | other body inner short noAccess =>
          exact (filterTrace_other inner short noAccess).trans (ih first enough)
      | access a =>
          have notLast : a.addr ≠ marker_end := first a List.mem_cons_self
          have later := @ih a.addr (seen || decide (a.addr = marker_start)) fuel
            (fun a member => first a (List.mem_cons_of_mem _ member)) enough
          change filterTrace marker_start marker_end (fuel + 1) (a.body ++ 10 :: _) addr seen = _
          rw [filterTrace_access, if_neg notLast, later, Option.map_some]
          change _ = some (Part.mk marker_end (textLines ((window marker_start seen
            (a :: (lines.filterMap Logged.access? ++ [last]))).map _)) true)
          rw [window_cons marker_start seen]
          congr 2
          split
          · simp [textLines]
          · rfl

end Traces

/-! ## The reference simulator -/

/-- The counters of the ideal cache after a trace. -/
def ideal (s E b : UInt32) (trace : List Record) : Counts :=
  let r := (Reference.start : Reference E.toNat).run s.toNat b.toNat trace
  ⟨UInt32.ofNat r.nHit, UInt32.ofNat r.nMiss, UInt32.ofNat r.nEvict⟩

/-- The data accesses of a trace, as records. -/
def recorded (scored : List Access) : List Record := scored.map fun a => a.entry.line.record

/-- A simulator writes the counters of the ideal cache for each trace of data accesses, in
the tracer's layout, on which they do not overflow. -/
def Documented (reference : UInt32 → UInt32 → UInt32 → List UInt8 → List UInt8)
    (s E b : UInt32) : Prop :=
  ∀ scored : List Access, accesses (recorded scored) < 2 ^ 32 →
    let counts := ideal s E b (recorded scored)
    reference s E b (textLines (scored.map Access.body)) =
      resultsText counts.hits counts.misses counts.evictions

/-- The results file of `csim.c`. -/
def csimResults (memory : Nat → List LINE) (s E b : UInt32) (file : List UInt8) : List UInt8 :=
  match Csim.main false s b E memory file with
  | some [.summary hits misses evictions] => resultsText hits misses evictions
  | _ => []

theorem entries_bytes (accesses : List Access) :
    (accesses.map Access.entry).flatMap Entry.bytes = textLines (accesses.map Access.body) := by
  induction accesses with
  | nil => rfl
  | cons a accesses ih =>
      rw [List.map_cons, List.flatMap_cons, ih]
      simp [textLines, Entry.bytes, Access.entry, Access.body]

/-- `csim.c` may take the place of the reference simulator. -/
theorem csimResults_documented {s E b : UInt32} {memory : Nat → List LINE} (some_bit : 1 ≤ s)
    (bits : s ≤ 30) (width : s.toNat + b.toNat < 64) (some_line : 1 ≤ E)
    (blank : ∀ i < 2 ^ s.toNat, (buildCache memory i).Blank E.toNat) :
    Documented (csimResults memory) s E b := by
  intro scored few
  have records : ((scored.map Access.entry).map Entry.line).map TraceLine.record =
      recorded scored := by
    rw [List.map_map, List.map_map]
    rfl
  have scans := scans_entries (scored.map Access.entry) (rfl : fscanf [] = none)
  rw [List.append_nil, entries_bytes] at scans
  obtain ⟨hits, misses, evictions, output, hit, miss, eviction⟩ :=
    main_run some_bit bits width some_line blank scans (records ▸ few) false
  rw [records] at hit miss eviction
  dsimp only [ideal]
  rw [← hit, ← miss, ← eviction, UInt32.ofNat_toNat, UInt32.ofNat_toNat, UInt32.ofNat_toNat,
    csimResults, output]
  rfl

/-! ## The score -/

/-- The trace of a run of `tracegen`: the first access to the end marker, with the lines in
front of it and the text behind it. -/
structure TraceRun where
  start : UInt64
  stop : UInt64
  before : List Logged
  last : Access
  behind : List UInt8
  ends : last.addr = stop
  first : ∀ a ∈ before.filterMap Logged.access?, a.addr ≠ stop

namespace TraceRun

def text (t : TraceRun) : List UInt8 :=
  textLines (t.before.map Logged.body) ++ (t.last.body ++ 10 :: t.behind)

/-- The accesses that are scored. -/
def scored (t : TraceRun) : List Access :=
  window t.start false (t.before.filterMap Logged.access? ++ [t.last])

def records (t : TraceRun) : List Record := recorded t.scored

end TraceRun

/-- What the other programs do for registered functions: each run of `tracegen` ends, with
its status, its marker and its trace in the files, and the reference simulator is a
simulator. -/
structure Measured (M N : Nat) (s E b : UInt32) (func_list : List TransFunc) (tools : Tools) where
  start : Nat → Matrices Int32
  left : Nat → Matrices Int32
  status : Nat → Nat
  traces : Nat → TraceRun
  room : func_list.length ≤ MAX_TRANS_FUNCS
  ran : ∀ i < func_list.length,
    tracegen M N func_list (some i) (start i) = some (status i, left i)
  exit : ∀ i < func_list.length, tools.exit i = status i % 256
  marker : ∀ i < func_list.length, tools.marker i = markerText (traces i).start (traces i).stop
  trace : ∀ i < func_list.length, tools.trace i = (traces i).text
  few : ∀ i < func_list.length, accesses (traces i).records < 2 ^ 32
  reference : Documented tools.reference s E b

namespace Measured

variable {M N : Nat} {s E b : UInt32} {func_list : List TransFunc} {tools : Tools}

/-- The function at `i` leaves the transpose. -/
def passes (m : Measured M N s E b func_list tools) (i : Nat) : Bool := isTranspose M N (m.left i)

/-- The counters of the ideal cache on what the function at `i` accesses. -/
def counts (m : Measured M N s E b func_list tools) (i : Nat) : Counts :=
  ideal s E b (m.traces i).records

/-- The entry of a function behind the evaluation. -/
def score (m : Measured M N s E b func_list tools) (i : Nat) (f : TransFunc) : TransFunc :=
  if m.passes i then
    { f with
      correct := true
      num_hits := (m.counts i).hits
      num_misses := (m.counts i).misses
      num_evictions := (m.counts i).evictions }
  else f

/-- The results behind the round for the function at `i`. -/
def grade (m : Measured M N s E b func_list tools) (i : Nat) (f : TransFunc) (results : Results) :
    Results :=
  let results :=
    if f.description = SUBMIT_DESCRIPTION then { results with funcid := i } else results
  if m.passes i && results.funcid = i then
    { results with correct := 1, misses := (m.counts i).misses.toInt32 }
  else results

/-- The results behind the rounds from the function at `i` on. -/
def grades (m : Measured M N s E b func_list tools) :
    Nat → List TransFunc → Results → Results
  | _, [], results => results
  | i, f :: rest, results => m.grades (i + 1) rest (m.grade i f results)

end Measured

section Scores

variable {M N : Nat} {s E b : UInt32} {func_list : List TransFunc} {tools : Tools} {i : Nat}
  {f : TransFunc}

theorem length_textLines (bodies : List (List UInt8)) :
    bodies.length ≤ (textLines bodies).length := by
  induction bodies with
  | nil => exact Nat.le_refl _
  | cons body bodies ih =>
      simp only [textLines, List.flatMap_cons, List.length_cons, List.length_append] at ih ⊢
      omega

/-- The driver cuts the scored accesses out of a trace. -/
theorem TraceRun.filterTrace_text (t : TraceRun) (addr : UInt64) :
    filterTrace t.start t.stop (t.text.length + 1) t.text addr false =
      some ⟨t.stop, textLines (t.scored.map Access.body), true⟩ := by
  have lines := length_textLines (t.before.map Logged.body)
  have enough : t.before.length < t.text.length + 1 := by
    rw [List.length_map] at lines
    rw [text, List.length_append]
    omega
  exact filterTrace_lines t.ends t.first enough

namespace Measured

/-- `tracegen` reports a function that leaves anything else. -/
theorem exit_eq (m : Measured M N s E b func_list tools) (entry : func_list[i]? = some f) :
    tools.exit i = if m.passes i then 0 else i + 1 := by
  have below : i < func_list.length := (List.getElem?_eq_some_iff.mp entry).1
  have room := m.room
  rw [m.exit i below, (tracegen_selected entry (m.ran i below)).2, passes]
  unfold MAX_TRANS_FUNCS at room
  split <;> omega

/-- One round scores a function that passes, by the ideal cache, and skips any other. -/
theorem evalFunc_run (m : Measured M N s E b func_list tools) (entry : func_list[i]? = some f)
    (v : Locals) (results : Results) :
    ∃ v', evalFunc tools s E b i f v results = some (m.score i f, v', m.grade i f results) := by
  have below : i < func_list.length := (List.getElem?_eq_some_iff.mp entry).1
  have exit := m.exit_eq entry
  unfold evalFunc score grade
  cases passed : m.passes i with
  | false =>
      rw [passed] at exit
      exact ⟨v, if_pos (by rw [exit]; exact Nat.succ_ne_zero i)⟩
  | true =>
      rw [passed] at exit
      have written := m.reference (m.traces i).scored (m.few i below)
      refine ⟨⟨(m.traces i).start, (m.traces i).stop, (m.traces i).stop, m.counts i⟩, ?_⟩
      have done : ¬ tools.exit i ≠ 0 := fun failed => failed exit
      simp only [if_neg done, m.marker i below, scanMarkers_text, m.trace i below,
        TraceRun.filterTrace_text, Option.bind_eq_bind, Option.bind_some, if_true, written,
        scanCounts_text]
      generalize (if f.description = SUBMIT_DESCRIPTION then
        { results with funcid := (i : Int) } else results) = remembered
      by_cases submission : remembered.funcid = i
      · simp only [submission, if_true, Bool.true_and, decide_true]
        rfl
      · simp only [submission, if_false, Bool.and_false, decide_false]
        rfl

theorem evalFrom_run (m : Measured M N s E b func_list tools) {rest : List TransFunc}
    (listed : ∀ j f, rest[j]? = some f → func_list[i + j]? = some f) (v : Locals)
    (results : Results) :
    evalFrom tools s E b i rest v results =
      some (rest.mapIdx fun j f => m.score (i + j) f, m.grades i rest results) := by
  induction rest generalizing i v results with
  | nil => rfl
  | cons f rest ih =>
      have here : func_list[i]? = some f := listed 0 f rfl
      obtain ⟨v', round⟩ := m.evalFunc_run here v results
      have behind : ∀ j f, rest[j]? = some f → func_list[i + 1 + j]? = some f := by
        intro j f entry
        rw [Nat.add_right_comm]
        exact listed (j + 1) f entry
      rw [evalFrom, round, Option.bind_eq_bind, Option.bind_some]
      dsimp only
      rw [ih behind, Option.bind_eq_bind, Option.bind_some, List.mapIdx_cons]
      have shifted : (fun j f => m.score (i + 1 + j) f) = fun j f => m.score (i + (j + 1)) f := by
        funext j f
        rw [Nat.add_right_comm, Nat.add_assoc]
      rw [shifted]
      rfl

/-- Behind the submission nothing changes the results. -/
theorem grades_others (m : Measured M N s E b func_list tools) {rest : List TransFunc}
    (others : ∀ f ∈ rest, f.description ≠ SUBMIT_DESCRIPTION) {results : Results}
    (behind : results.funcid < i) : m.grades i rest results = results := by
  induction rest generalizing i with
  | nil => rfl
  | cons f rest ih =>
      have same : m.grade i f results = results := by
        have other : results.funcid ≠ i := behind.ne
        simp [grade, others f List.mem_cons_self, other]
      rw [grades, same]
      exact ih (fun f member => others f (List.mem_cons_of_mem _ member)) (by omega)

/-- The results are those of the submission. -/
theorem grades_submission (m : Measured M N s E b func_list tools) {rest : List TransFunc}
    {k : Nat} (below : k < rest.length)
    (submission : ∀ j f, rest[j]? = some f → (f.description = SUBMIT_DESCRIPTION ↔ j = k)) :
    m.grades i rest noResults =
      if m.passes (i + k) then ⟨(i + k : Nat), 1, (m.counts (i + k)).misses.toInt32⟩
      else ⟨(i + k : Nat), 0, 2147483647⟩ := by
  induction rest generalizing i k with
  | nil => cases below
  | cons f rest ih =>
      have behind (j : Nat) (f : TransFunc) (entry : rest[j]? = some f) :
          f.description = SUBMIT_DESCRIPTION ↔ j + 1 = k := submission (j + 1) f entry
      rw [grades]
      cases k with
      | zero =>
          have described : f.description = SUBMIT_DESCRIPTION := (submission 0 f rfl).mpr rfl
          have others : ∀ f ∈ rest, f.description ≠ SUBMIT_DESCRIPTION := by
            intro f member same
            obtain ⟨j, entry⟩ := List.mem_iff_getElem?.mp member
            exact absurd ((behind j f entry).mp same) (Nat.succ_ne_zero j)
          have first : m.grade i f noResults =
              if m.passes i then ⟨i, 1, (m.counts i).misses.toInt32⟩ else ⟨i, 0, 2147483647⟩ := by
            simp [grade, described, noResults]
          rw [first, Nat.add_zero]
          apply m.grades_others others
          split <;> exact Int.lt_add_one_of_le (Int.le_refl _)
      | succ k =>
          have other : f.description ≠ SUBMIT_DESCRIPTION :=
            fun same => Nat.succ_ne_zero k ((submission 0 f rfl).mp same).symm
          have same : m.grade i f noResults = noResults := by
            have unset : (-1 : Int) ≠ i := by omega
            simp [grade, other, noResults, unset]
          have later := @ih (i + 1) k (Nat.lt_of_succ_lt_succ below) fun j f entry =>
            (behind j f entry).trans Nat.succ_inj
          rw [same, later, Nat.add_right_comm, Nat.add_assoc]

end Measured

/-- The functions that leave the transpose are scored, by the counters of the ideal cache on
what they access in the low part of the address space between the markers.  The others keep
their entries.  The results are those of the submission. -/
theorem evalPerf_scores (m : Measured M N s E b func_list tools) (v : Locals) :
    ∃ results, evalPerf tools s E b func_list v = some (func_list.mapIdx m.score, results) ∧
      ∀ k < func_list.length,
        (∀ j f, func_list[j]? = some f → (f.description = SUBMIT_DESCRIPTION ↔ j = k)) →
        results = if m.passes k then ⟨k, 1, (m.counts k).misses.toInt32⟩ else ⟨k, 0, 2147483647⟩ := by
  refine ⟨m.grades 0 func_list noResults, ?_, ?_⟩
  · have listed : ∀ j f, func_list[j]? = some f → func_list[0 + j]? = some f := by
      intro j f entry
      rwa [Nat.zero_add]
    rw [evalPerf, m.evalFrom_run listed]
    simp only [Nat.zero_add]
  · intro k below submission
    have graded := m.grades_submission (i := 0) below submission
    rwa [Nat.zero_add] at graded

end Scores

/-! ## A short run -/

/-- The function of `trans.c` in its entry. -/
def registered : List TransFunc :=
  [⟨fun M N => transposeSubmit M N, SUBMIT_DESCRIPTION, false, 0, 0, 0⟩]

example : registerFunctions [] = some registered := rfl

section Short

variable {address : List UInt8}

theorem address_digits_of_all (all : address.all hexadecimal.isDigit = true) :
    ∀ c ∈ address, hexadecimal.isDigit c = true :=
  List.all_eq_true.mp all

theorem address_ne_nil_of_length (six : address.length = 6) : address ≠ [] := by
  rintro rfl
  cases six

theorem four_digits : ∀ c ∈ [(52 : UInt8)], decimal.isDigit c = true := List.all_eq_true.mp rfl

theorem four_ne_nil : [(52 : UInt8)] ≠ [] := List.cons_ne_nil _ _

theorem four_lt : decimal.value [52] < 2 ^ 31 := by decide

theorem short_of_length (six : address.length = 6) :
    address.length + [(52 : UInt8)].length < 990 := by
  rw [six]
  decide

/-- An access to four bytes. -/
def shortAccess (instr : UInt8) (address : List UInt8)
    (instr_data : instr = 83 ∨ instr = 77 ∨ instr = 76)
    (address_digits : address.all hexadecimal.isDigit = true) (address_length : address.length = 6)
    (address_lt : hexadecimal.value address < 2 ^ 64) : Access where
  instr := instr
  address := address
  size := [52]
  instr_data := instr_data
  address_digits := address_digits_of_all address_digits
  address_ne_nil := address_ne_nil_of_length address_length
  address_lt := address_lt
  size_digits := four_digits
  size_ne_nil := four_ne_nil
  size_lt := four_lt
  short := short_of_length address_length

end Short

/-- One instruction, the start marker, a load and a store in one set, and the end marker. -/
def shortRun : TraceRun where
  start := 0x601000
  stop := 0x601001
  before :=
    [.other (ascii "I  0400d7d4,8") (by decide) (by decide) rfl,
     .access (shortAccess 83 (ascii "601000") (by decide) rfl rfl (by decide)),
     .access (shortAccess 76 (ascii "601100") (by decide) rfl rfl (by decide)),
     .access (shortAccess 83 (ascii "641100") (by decide) rfl rfl (by decide))]
  last := shortAccess 83 (ascii "601001") (by decide) rfl rfl (by decide)
  behind := ascii "I  0400d7d7,3"
  ends := by decide
  first := by decide

/-- `csim.c` counts. -/
def shortTools : Tools where
  exit := fun _ => 0
  marker := fun _ => markerText 0x601000 0x601001
  trace := fun _ => shortRun.text
  flushed := fun _ => 0
  reference := csimResults fun _ => [⟨7, false, 9⟩]

/-- One entry in each matrix. -/
def shortMatrices : Matrices Int32
  | .A _ _ => 7
  | .B _ _ => 3

def shortMeasured : Measured 1 1 5 1 5 registered shortTools where
  start := fun _ => shortMatrices
  left := fun _ => Function.update shortMatrices (.B 0 0) 7
  status := fun _ => 0
  traces := fun _ => shortRun
  room := by decide
  ran := by
    intro i below
    obtain rfl : i = 0 := Nat.lt_one_iff.mp below
    rfl
  exit := fun _ _ => rfl
  marker := fun _ _ => rfl
  trace := fun _ _ => rfl
  few := fun _ _ => by decide
  reference := csimResults_documented (by decide) (by decide) (by decide) (by decide)
    fun _ _ => ⟨rfl, rfl, by simp [buildCache]⟩

theorem evalPerf_scores_short :
    ∃ func_list, evalPerf shortTools 5 1 5 registered ⟨0, 0, 0, 0, 0, 0⟩ =
      some (func_list, ⟨0, 1, 3⟩) := by
  obtain ⟨results, run, graded⟩ := evalPerf_scores shortMeasured ⟨0, 0, 0, ⟨0, 0, 0⟩⟩
  have submission : ∀ j f, registered[j]? = some f →
      (f.description = SUBMIT_DESCRIPTION ↔ j = 0) := by
    intro j f entry
    cases j with
    | zero =>
        cases entry
        exact ⟨fun _ => rfl, fun _ => rfl⟩
    | succ j => cases entry
  obtain rfl : results = ⟨0, 1, 3⟩ := graded 0 Nat.zero_lt_one submission
  exact ⟨_, run⟩

end SysProg.Transpose

import SysProg.Csim.Trace

/-!
# What `csim.c` prints about a trace

The program scans some lines from each file.  With the reference cache in place of
the sets, its output is a transcript of these lines and the summary of their
accesses.  The lines of a verbose output, put back into a file, give the same output
again.
-/

namespace SysProg.Csim

open Logic

/-! ## The reference output -/

/-- The lines that are scanned from a file. -/
inductive Scans : List UInt8 → List TraceLine → Prop where
  | stop {file : List UInt8} (stopped : fscanf file = none) : Scans file []
  | line {file rest : List UInt8} {l : TraceLine} {ls : List TraceLine}
      (scanned : fscanf file = some (l, rest)) (later : Scans rest ls) : Scans file (l :: ls)

/-- The words for an access. -/
def words : Outcome → List Printed
  | .hit => [.outcome .hit]
  | .miss => [.outcome .miss]
  | .eviction => [.outcome .miss, .outcome .eviction]

namespace Reference

variable {E : Nat}

/-- The outcome of an access to an address. -/
def outcome (s b : Nat) (r : Reference E) (addr : Nat) : Outcome :=
  ((r.sets (addr / 2 ^ b % 2 ^ s)).access (addr / 2 ^ (s + b))).2

/-- The outcomes of some accesses to one address. -/
def outcomes (s b addr : Nat) : Nat → Reference E → List Outcome
  | 0, _ => []
  | n + 1, r => r.outcome s b addr :: outcomes s b addr n (r.access s b addr)

/-- What a line adds to the transcript. -/
def report (s b : Nat) (r : Reference E) (l : TraceLine) : List Printed :=
  if l.shown then
    .line l ::
      ((r.outcomes s b l.addr.toNat l.record.accesses).flatMap words ++ [.newline])
  else []

/-- The transcript of some lines. -/
def transcript (s b : Nat) : Reference E → List TraceLine → List Printed
  | _, [] => []
  | r, l :: ls => r.report s b l ++ transcript s b (r.run s b [l.record]) ls

end Reference

/-! ## Accesses -/

section Saying

variable {verbose : Bool} {set set' : SET} {param : PARAM} {Tag : UInt64} {o : Outcome}
  {output : List Printed}

theorem say_run (verbose : Bool) (p : Printed) (output : List Printed) :
    say verbose p output = some ((), output ++ if verbose then [p] else []) := by
  cases verbose with
  | false => rw [if_neg Bool.false_ne_true, List.append_nil]; rfl
  | true => rfl

/-- The counters tell the outcomes apart. -/
theorem PARAM.count_inj {o' : Outcome} (same : param.count o = param.count o') : o = o' := by
  have hits := congrArg PARAM.nHit same
  have evictions := congrArg PARAM.nEvict same
  cases o with
  | hit => cases o' with
    | hit => rfl
    | miss => simp [PARAM.count] at hits
    | eviction => simp [PARAM.count] at hits
  | miss => cases o' with
    | hit => simp [PARAM.count] at hits
    | miss => rfl
    | eviction => simp [PARAM.count] at evictions
  | eviction => cases o' with
    | hit => simp [PARAM.count] at hits
    | miss => simp [PARAM.count] at evictions
    | eviction => rfl

/-- A miss prints one word, and an eviction a second one. -/
theorem replaceLineSaying_run {scan : Scan} (run : replaceLine set param Tag scan = some (set', param.count o)) :
    replaceLineSaying verbose set param Tag scan output =
      some ((set', param.count o), output ++ if verbose then words o else []) := by
  unfold replaceLine at run
  unfold replaceLineSaying
  dsimp only at run ⊢
  rw [bind_run_of_run (say_run verbose _ output)]
  split at run
  · rename_i full
    rw [if_pos full]
    cases lines : set.lines with
    | nil =>
        rw [lines] at run
        cases run
    | cons first rest =>
        rw [lines] at run
        obtain ⟨rfl, counted⟩ := Prod.ext_iff.mp (Option.some.inj run)
        obtain rfl : .eviction = o := PARAM.count_inj counted
        dsimp only
        rw [bind_run_of_run (say_run verbose _ _), List.append_assoc]
        cases verbose with
        | false => rfl
        | true => rfl
  · rename_i room
    obtain ⟨rfl, counted⟩ := Prod.ext_iff.mp (Option.some.inj run)
    obtain rfl : .miss = o := PARAM.count_inj counted
    rw [if_neg room]
    rfl

/-- The words are those of the outcome that is counted. -/
theorem accessSetSaying_run (few : param.nHit.toNat + 1 < 2 ^ 32)
    (run : accessSet set param Tag = some (set', param.count o)) :
    accessSetSaying verbose set param Tag output =
      some ((set', param.count o), output ++ if verbose then words o else []) := by
  have counts : param.nHit < param.nHit + 1 := by
    rw [UInt32.lt_iff_toNat_lt, toNat_succ few]
    exact Nat.lt_succ_self _
  unfold accessSet at run
  unfold accessSetSaying
  dsimp only at run ⊢
  cases found : (search Tag set.lines 0 param.E.toNat true).hit with
  | some Ei =>
      rw [found] at run
      dsimp only at run ⊢
      rw [if_pos counts] at run
      obtain ⟨rfl, counted⟩ := Prod.ext_iff.mp (Option.some.inj run)
      obtain rfl : .hit = o := PARAM.count_inj counted
      rw [bind_run_of_run (say_run verbose _ output), pure_bind, if_pos counts]
      rfl
  | none =>
      rw [found] at run
      dsimp only at run ⊢
      rw [if_neg (UInt32.lt_irrefl _)] at run
      rw [pure_bind, if_neg (UInt32.lt_irrefl _)]
      exact replaceLineSaying_run run

end Saying

section Run

variable {s b E : UInt32} {cache : Nat → SET} {param : PARAM} {r : Reference E.toNat}

/-- An access prints the words for the outcome in the reference cache. -/
theorem Refines.accessSaying (refines : Refines s b E cache param r) (some_bit : 1 ≤ s.toNat)
    (width : s.toNat + b.toNat < 64) (some_line : 0 < E.toNat) (addr : UInt64)
    (few : r.nHit + r.nMiss + 1 < 2 ^ 32) (verbose : Bool) (output : List Printed) :
    ∃ cache' param', accessCacheSaying verbose cache param addr output =
        some ((cache', param'),
          output ++ if verbose then words (r.outcome s.toNat b.toNat addr.toNat) else []) ∧
      Refines s b E cache' param' (r.access s.toNat b.toNat addr.toNat) := by
  obtain ⟨Tag, Set, shifts, tag, index⟩ := exists_parts some_bit width addr
  have inside : Set.toNat < 2 ^ s.toNat := by
    rw [index]
    exact Nat.mod_lt _ (Nat.two_pow_pos _)
  have used := refines.used Set.toNat inside
  have hits := refines.nHit
  obtain ⟨set', accessed, sim, counted⟩ := (refines.sets Set.toNat inside).access (by omega)
    (by omega) (congrArg UInt32.toNat refines.lineCount) some_line Tag
  have kept := refines.accessSet sim (by omega) few
  have said : accessSetSaying verbose (cache Set.toNat) param Tag output = some (_, _) :=
    accessSetSaying_run (by omega) accessed
  have parts : (liftM (decompose s b addr) : Print (UInt64 × UInt64)) output =
      some ((Tag, Set), output) := by
    rw [shifts]
    rfl
  rw [index, tag] at kept said
  refine ⟨_, _, ?_, kept⟩
  unfold accessCacheSaying
  rw [refines.setBits, refines.blockBits, bind_run_of_run parts]
  dsimp only
  rw [if_pos (refines.setCount ▸ inside), index, bind_run_of_run said]
  rfl

theorem simulateLine_cases (verbose : Bool) (cache : Nat → SET) (param : PARAM) (record : Record) :
    (record.accesses = 2 ∧ simulateLine verbose cache param record =
      accessCacheSaying verbose cache param record.addr >>= fun result =>
        accessCacheSaying verbose result.1 result.2 record.addr) ∨
    (record.accesses = 1 ∧
      simulateLine verbose cache param record = accessCacheSaying verbose cache param record.addr) ∨
    (record.accesses = 0 ∧ simulateLine verbose cache param record = pure (cache, param)) := by
  unfold simulateLine
  split
  · rename_i instr
    exact .inl ⟨by simp [Record.accesses, instr], rfl⟩
  · rename_i instr
    exact .inr (.inl ⟨by simp [Record.accesses, instr], rfl⟩)
  · rename_i instr
    exact .inr (.inl ⟨by simp [Record.accesses, instr], rfl⟩)
  · rename_i notM notL notS
    refine .inr (.inr ⟨?_, rfl⟩)
    unfold Record.accesses
    split
    · exact absurd ‹_› notM
    · exact absurd ‹_› notL
    · exact absurd ‹_› notS
    · rfl

/-- A line prints the words for its accesses. -/
theorem Refines.lineSaying (refines : Refines s b E cache param r) (some_bit : 1 ≤ s.toNat)
    (width : s.toNat + b.toNat < 64) (some_line : 0 < E.toNat) (record : Record)
    (few : r.nHit + r.nMiss + record.accesses < 2 ^ 32) (verbose : Bool) (output : List Printed) :
    ∃ cache' param', simulateLine verbose cache param record output =
        some ((cache', param'), output ++ if verbose then
          (r.outcomes s.toNat b.toNat record.addr.toNat record.accesses).flatMap words else []) ∧
      Refines s b E cache' param' (r.run s.toNat b.toNat [record]) := by
  rcases simulateLine_cases verbose cache param record with
    ⟨two, made⟩ | ⟨one, made⟩ | ⟨none, made⟩
  · rw [two] at few
    obtain ⟨cache', param', first, refines'⟩ :=
      refines.accessSaying some_bit width some_line record.addr (by omega) verbose output
    have total := r.accessSet_total (record.addr.toNat / 2 ^ b.toNat % 2 ^ s.toNat)
      (record.addr.toNat / 2 ^ (s.toNat + b.toNat))
    obtain ⟨cache'', param'', second, refines''⟩ :=
      refines'.accessSaying some_bit width some_line record.addr (by
        unfold Reference.access
        omega) verbose _
    refine ⟨cache'', param'', ?_, ?_⟩
    · rw [made, bind_run_of_run first, second, two]
      cases verbose with
      | false => simp
      | true => simp [Reference.outcomes]
    · rw [Reference.run, List.foldl_cons, two]
      exact refines''
  · rw [one] at few
    obtain ⟨cache', param', first, refines'⟩ :=
      refines.accessSaying some_bit width some_line record.addr (by omega) verbose output
    refine ⟨cache', param', ?_, ?_⟩
    · rw [made, first, one]
      cases verbose with
      | false => rfl
      | true => simp [Reference.outcomes]
    · rw [Reference.run, List.foldl_cons, one]
      exact refines'
  · refine ⟨cache, param, ?_, ?_⟩
    · rw [made, none]
      cases verbose with
      | false => exact congrArg (fun o => some ((cache, param), o)) (List.append_nil output).symm
      | true => exact congrArg (fun o => some ((cache, param), o)) (List.append_nil output).symm
    · rw [Reference.run, List.foldl_cons, none]
      exact refines

/-! ## Files -/

/-- An instruction load makes no access. -/
theorem accesses_hidden {l : TraceLine} (hidden : l.shown = false) : l.record.accesses = 0 := by
  have load : l.instr = 73 := by simpa [TraceLine.shown] using hidden
  rw [TraceLine.record, load]
  rfl

/-- A line takes at least its first character. -/
theorem fscanf_shorter {file rest : List UInt8} {l : TraceLine}
    (scanned : fscanf file = some (l, rest)) : rest.length < file.length := by
  unfold fscanf at scanned
  simp only [Option.bind_eq_bind, Option.bind_eq_some_iff, Option.map_eq_some_iff,
    Option.some.injEq, Prod.mk.injEq, Prod.exists] at scanned
  obtain ⟨instr, behind, ⟨c, first, -, rfl⟩, addr, file', hex, file'', comma, size, file''',
    integer, -, rfl⟩ := scanned
  have taken := scanInteger_shorter integer
  have address := scanHex_shorter hex
  have whole := (List.dropWhile_suffix (l := file) whiteSpace).length_le
  have tail := List.length_tail (l := file.dropWhile whiteSpace)
  have colon : file''.length ≤ file'.length := by
    cases file' with
    | nil => cases comma
    | cons c rest =>
        rw [scanComma] at comma
        split at comma
        · cases comma
          exact Nat.le_succ _
        · cases comma
  omega

/-- Some lines are scanned from each file, and no more than it has characters. -/
theorem exists_scans (file : List UInt8) : ∃ ls, Scans file ls ∧ ls.length ≤ file.length := by
  induction size : file.length using Nat.strong_induction_on generalizing file with
  | _ n ih =>
      subst size
      cases scanned : fscanf file with
      | none => exact ⟨[], .stop scanned, Nat.zero_le _⟩
      | some result =>
          have shorter := fscanf_shorter scanned
          obtain ⟨ls, later, length⟩ := ih _ shorter result.2 rfl
          exact ⟨result.1 :: ls, .line scanned later, Nat.lt_of_le_of_lt length shorter⟩

theorem Scans.unique {file : List UInt8} {ls ls' : List TraceLine} (scans : Scans file ls)
    (scans' : Scans file ls') : ls = ls' := by
  induction scans generalizing ls' with
  | stop stopped => cases scans' with
    | stop _ => rfl
    | line scanned later => simp [stopped] at scanned
  | line scanned later ih => cases scans' with
    | stop stopped => simp [stopped] at scanned
    | line scanned' later' =>
        rw [scanned] at scanned'
        cases scanned'
        rw [ih later']

/-- The loop over a file prints the transcript of its lines. -/
theorem Refines.traceLoop {file : List UInt8} {ls : List TraceLine}
    (refines : Refines s b E cache param r) (some_bit : 1 ≤ s.toNat)
    (width : s.toNat + b.toNat < 64) (some_line : 0 < E.toNat) (scans : Scans file ls)
    (few : r.nHit + r.nMiss + accesses (ls.map TraceLine.record) < 2 ^ 32) (verbose : Bool)
    {fuel : Nat} (enough : ls.length < fuel) (output : List Printed) :
    ∃ cache' param', Csim.traceLoop verbose fuel file cache param output =
        some ((cache', param'),
          output ++ if verbose then r.transcript s.toNat b.toNat ls else []) ∧
      Refines s b E cache' param' (r.run s.toNat b.toNat (ls.map TraceLine.record)) := by
  induction scans generalizing cache param r fuel output with
  | stop stopped =>
      obtain ⟨fuel, rfl⟩ := Nat.exists_eq_add_of_lt enough
      refine ⟨cache, param, ?_, refines⟩
      rw [Csim.traceLoop, stopped]
      cases verbose with
      | false => exact congrArg (fun o => some ((cache, param), o)) (List.append_nil output).symm
      | true => exact congrArg (fun o => some ((cache, param), o)) (List.append_nil output).symm
  | @line file rest l ls scanned later ih =>
      obtain ⟨fuel, rfl⟩ := Nat.exists_eq_add_of_lt enough
      have split : accesses ((l :: ls).map TraceLine.record) =
          l.record.accesses + accesses (ls.map TraceLine.record) := by
        simp [accesses]
      obtain ⟨cache', param', first, refines'⟩ := refines.lineSaying some_bit width some_line
        l.record (by omega) verbose (output ++ if verbose && l.shown then [.line l] else [])
      have total := r.record_total s.toNat b.toNat l.record.addr.toNat l.record.accesses
      have few' : (r.run s.toNat b.toNat [l.record]).nHit +
          (r.run s.toNat b.toNat [l.record]).nMiss + accesses (ls.map TraceLine.record) < 2 ^ 32 := by
        rw [Reference.run, List.foldl_cons, List.foldl_nil]
        omega
      have enough' : ls.length < (l :: ls).length + fuel := by
        rw [List.length_cons]
        omega
      obtain ⟨cache'', param'', looped, refines''⟩ := ih refines' few' enough' _
      refine ⟨cache'', param'', ?_, refines''⟩
      rw [Csim.traceLoop, scanned]
      dsimp only
      rw [bind_run_of_run (say_run _ _ _), bind_run_of_run first]
      dsimp only
      rw [bind_run_of_run (say_run _ _ _), looped]
      cases verbose with
      | false => simp
      | true => cases shown : l.shown with
        | false => simp [Reference.transcript, Reference.report, shown, accesses_hidden shown,
            Reference.outcomes]
        | true => simp [Reference.transcript, Reference.report, shown, TraceLine.record]

/-- The program prints the counters of the reference cache, and with `-v` the
transcript of the lines that are scanned before them. -/
theorem main_run (some_bit : 1 ≤ s) (bits : s ≤ 30) (width : s.toNat + b.toNat < 64)
    (some_line : 1 ≤ E) {memory : Nat → List LINE}
    (blank : ∀ i < 2 ^ s.toNat, (buildCache memory i).Blank E.toNat) {file : List UInt8}
    {ls : List TraceLine} (scans : Scans file ls)
    (few : accesses (ls.map TraceLine.record) < 2 ^ 32) (verbose : Bool) :
    ∃ hits misses evictions : UInt32,
      main verbose s b E memory file =
        some ((if verbose then (Reference.start : Reference E.toNat).transcript s.toNat b.toNat ls
          else []) ++ [.summary hits misses evictions]) ∧
      hits.toNat = ((Reference.start : Reference E.toNat).run s.toNat b.toNat
        (ls.map TraceLine.record)).nHit ∧
      misses.toNat = ((Reference.start : Reference E.toNat).run s.toNat b.toNat
        (ls.map TraceLine.record)).nMiss ∧
      evictions.toNat = ((Reference.start : Reference E.toNat).run s.toNat b.toNat
        (ls.map TraceLine.record)).nEvict := by
  have low : 1 ≤ s.toNat := UInt32.le_iff_toNat_le.mp some_bit
  have high : s.toNat ≤ 30 := UInt32.le_iff_toNat_le.mp bits
  obtain ⟨ls', scans', length⟩ := exists_scans file
  rw [← scans.unique scans'] at length
  obtain ⟨cache', param', looped, refines⟩ := (Refines.start high b blank).traceLoop low width
    (UInt32.le_iff_toNat_le.mp some_line) scans (by simpa [Reference.start] using few) verbose
    (Nat.lt_succ_of_le length) []
  refine ⟨param'.nHit, param'.nMiss, param'.nEvict, ?_, refines.nHit, refines.nMiss,
    refines.nEvict⟩
  unfold main
  rw [bind_run_of_run looped]
  rfl

end Run

end SysProg.Csim

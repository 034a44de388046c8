import SysProg.Csim.Uninitialised
import SysProg.Logic.Buffers
import SysProg.Logic.Numerals
import SysProg.Logic.StateOption

/-!
# The trace file and the output of `csim.c`

`main` scans the trace line by line, up to the first text that is no line, and
prints a summary.  With `-v` it repeats each line that is no instruction load and
writes the outcomes of its accesses behind it.  A line that the program prints is
scanned as the same line.
-/

namespace SysProg.Csim

open Logic

/-! ## Scanning -/

/-- `instr`, `addr` and `size`. -/
structure TraceLine where
  instr : UInt8
  addr : UInt64
  size : Int32

/-- The fields that the simulator uses. -/
def TraceLine.record (l : TraceLine) : Record := ⟨Char.ofNat l.instr.toNat, l.addr⟩

/-- `instr != 'I'`. -/
def TraceLine.shown (l : TraceLine) : Bool := l.instr ≠ 73

/-- The text of the format `"%c %lx,%d"`. -/
def TraceLine.text (l : TraceLine) : List UInt8 :=
  l.instr :: 32 :: (hexadecimal.numeral l.addr.toNat ++ 44 :: integerNumeral l.size.toInt)

/-- A comma of the format. -/
def scanComma : List UInt8 → Option (List UInt8)
  | [] => none
  | c :: file => if c = 44 then some file else none

/-- `fscanf(file, " %c %lx,%d", &instr, &addr, &size)`, where it stores all three. -/
def fscanf (file : List UInt8) : Option (TraceLine × List UInt8) := do
  let (instr, file) ← (file.dropWhile whiteSpace).head?.map fun c =>
    (c, (file.dropWhile whiteSpace).tail)
  let (addr, file) ← scanHex file
  let file ← scanComma file
  let (size, file) ← scanInteger file
  some (⟨instr, strtoul addr, Int32.ofInt (strtol size)⟩, file)

/-! ## Printing -/

/-- What the program prints. -/
inductive Printed where
  | line (l : TraceLine)
  | outcome (o : Outcome)
  | newline
  | summary (hits misses evictions : UInt32)

/-- A word that is printed for an access. -/
def outcomeWord : Outcome → List UInt8
  | .hit => ascii " hit"
  | .miss => ascii " miss"
  | .eviction => ascii " eviction"

/-- `%d` of an `unsigned`. -/
def printInt (n : UInt32) : List UInt8 := integerNumeral n.toInt32.toInt

/-- The text of `printSummary`. -/
def summaryText (hits misses evictions : UInt32) : List UInt8 :=
  ascii "hits:" ++ printInt hits ++ ascii " misses:" ++ printInt misses ++ ascii " evictions:" ++
    printInt evictions ++ [10]

def Printed.text : Printed → List UInt8
  | .line l => l.text
  | .outcome o => outcomeWord o
  | .newline => ascii " \n"
  | .summary hits misses evictions => summaryText hits misses evictions

/-- A program that prints. -/
abbrev Print := Prog (List Printed)

def printf (p : Printed) : Print Unit := fun output => some ((), output ++ [p])

/-- `if (param.verbose) printf(..)`. -/
def say (verbose : Bool) (p : Printed) : Print Unit := if verbose then printf p else pure ()

/-! ## The accesses -/

/-- The part of `accessCache` after a search without a hit, with what it prints. -/
def replaceLineSaying (verbose : Bool) (set : SET) (param : PARAM) (Tag : UInt64) (scan : Scan) :
    Print (SET × PARAM) := do
  let param := { param with nMiss := param.nMiss + 1 }
  say verbose (.outcome .miss)
  if scan.setFull then
    match set.lines with
    | [] => fun _ => none
    | first :: rest => do
        let victimLine := leastRecentLine rest 1 0 first.useTime
        say verbose (.outcome .eviction)
        pure (set.stamp victimLine fun line => { line with tag := Tag },
          { param with nEvict := param.nEvict + 1 })
  else
    pure (set.stamp scan.emptyLine fun line => { line with tag := Tag, valid := true }, param)

/-- `accessCache` in its set, with what it prints. -/
def accessSetSaying (verbose : Bool) (set : SET) (param : PARAM) (Tag : UInt64) :
    Print (SET × PARAM) := do
  let prevHit := param.nHit
  let scan := search Tag set.lines 0 param.E.toNat true
  let (set, param) ← match scan.hit with
    | some Ei => do
        say verbose (.outcome .hit)
        pure (set.stamp Ei id, { param with nHit := param.nHit + 1 })
    | none => pure (set, param)
  if prevHit < param.nHit then pure (set, param)
  else replaceLineSaying verbose set param Tag scan

/-- `accessCache`, with what it prints. -/
def accessCacheSaying (verbose : Bool) (cache : Nat → SET) (param : PARAM) (addr : UInt64) :
    Print ((Nat → SET) × PARAM) := do
  let (Tag, Set) ← decompose param.s param.b addr
  if Set.toNat < param.S.toNat then
    let (set, param) ← accessSetSaying verbose (cache Set.toNat) param Tag
    pure (Function.update cache Set.toNat set, param)
  else failure

/-! ## The program -/

/-- The `switch` of `main`, with what it prints. -/
def simulateLine (verbose : Bool) (cache : Nat → SET) (param : PARAM) (r : Record) :
    Print ((Nat → SET) × PARAM) :=
  match r.instr with
  | 'M' => do
      let (cache, param) ← accessCacheSaying verbose cache param r.addr
      accessCacheSaying verbose cache param r.addr
  | 'L' | 'S' => accessCacheSaying verbose cache param r.addr
  | _ => pure (cache, param)

/-- The loop of `main` over the file, cut off after `fuel` lines. -/
def traceLoop (verbose : Bool) :
    Nat → List UInt8 → (Nat → SET) → PARAM → Print ((Nat → SET) × PARAM)
  | 0, _, _, _ => failure
  | fuel + 1, file, cache, param =>
      match fscanf file with
      | none => pure (cache, param)
      | some (l, file) => do
          say (verbose && l.shown) (.line l)
          let (cache, param) ← simulateLine verbose cache param l.record
          say (verbose && l.shown) .newline
          traceLoop verbose fuel file cache param

/-- `main` behind the command line, on a trace that can be opened. -/
def main (verbose : Bool) (s b E : UInt32) (memory : Nat → List LINE) (file : List UInt8) :
    Option (List Printed) := do
  let (_, output) ← (do
    let (_, param) ← traceLoop verbose (file.length + 1) file (buildCache memory) (startParam s b E)
    printf (.summary param.nHit param.nMiss param.nEvict)) []
  some output

end SysProg.Csim

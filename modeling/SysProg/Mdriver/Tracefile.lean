import SysProg.Logic.Buffers
import SysProg.Logic.Numerals
import SysProg.Mdriver.Program

/-!
# The trace files of `mdriver.c`

`read_trace` reads a header of four numbers and then one request after the other.  A
conversion that fails stores nothing and leaves the text behind what it has taken, and the
request then has the numbers of an earlier one.
-/

namespace SysProg.Mdriver

open Logic Malloc

def MAXLINE : Nat := 1024

/-- `sizeof(traceop_t)` -/
def sizeofTraceop : Nat := 12

/-! ## Conversions -/

/-- `%d` and `%u`: the integer, unless there is none, and the text that is left. -/
def scanField (text : List UInt8) : Option Int × List UInt8 :=
  let (negative, text) := scanSign (text.dropWhile whiteSpace)
  match decimal.scan text with
  | some (n, rest) => (some (signed negative n), rest)
  | none => (none, text)

/-- The value of `strtol` for an integer, where a `long` has 32 bits. -/
def strtol32 (z : Int) : Int := max (-2 ^ 31) (min z (2 ^ 31 - 1))

/-- The value of `strtoul` for an integer, where a `long` has 32 bits. -/
def strtoul32 (z : Int) : Nat := if 2 ^ 32 ≤ z.natAbs then 2 ^ 32 - 1 else (z % 2 ^ 32).toNat

/-- `%s`: the first visible character and those behind it, unless the text ends before. -/
def scanWord (text : List UInt8) : Option (UInt8 × List UInt8 × List UInt8) :=
  match text.dropWhile whiteSpace with
  | [] => none
  | c :: text => some (c, text.span fun c => !whiteSpace c)

/-- A letter of the format; another character is left. -/
def scanLetter (letter : UInt8) : List UInt8 → List UInt8
  | [] => []
  | c :: text => if c = letter then text else c :: text

/-! ## Requests -/

/-- How `read_trace` may end without a trace.  Its behaviour is undefined where it reads
a variable that was never stored to, where a string or the array of the requests is too
small and where an `int` overflows. -/
inductive ReadError where
  | undefined
  | bogus (message : List UInt8)
  | assertion
  deriving DecidableEq

/-- `printf("Bogus type character (%c) in tracefile %s\n", type[0], path)` -/
def bogusType (path : List UInt8) (type : UInt8) : List UInt8 :=
  ascii "Bogus type character (" ++ [type] ++ ascii ") in tracefile " ++ path ++ [10]

/-- `index`, `size` and `max_index`, and the requests up to `op_index`. -/
structure Reading where
  index : Nat
  size : Option Nat
  maxIndex : Nat
  ops : List Traceop

/-- `fscanf(tracefile, "%u %u", &index, &size);` -/
def scanPair (text : List UInt8) (r : Reading) : Reading × List UInt8 :=
  match scanField text with
  | (none, text) => (r, text)
  | (some index, text) =>
      let r := { r with index := strtoul32 index }
      match scanField text with
      | (none, text) => (r, text)
      | (some size, text) => ({ r with size := some (strtoul32 size) }, text)

/-- `fscanf(tracefile, "%ud", &index);` -/
def scanIndex (text : List UInt8) (r : Reading) : Reading × List UInt8 :=
  match scanField text with
  | (none, text) => (r, text)
  | (some index, text) => ({ r with index := strtoul32 index }, scanLetter 100 text)

/-- The cases `'a'` and `'r'` of `read_trace`, where `room` requests fit the array. -/
def readSized (make : Nat → Int → Traceop) (room : Nat) (text : List UInt8) (r : Reading) :
    Except ReadError (Reading × List UInt8) :=
  let (r, text) := scanPair text r
  match r.size with
  | none => .error .undefined
  | some size =>
      if r.ops.length < room then
        .ok ({ r with
          maxIndex := if r.maxIndex < r.index then r.index else r.maxIndex
          ops := r.ops ++ [make r.index (toInt size)] }, text)
      else .error .undefined

/-- The case `'f'` of `read_trace`. -/
def readFree (room : Nat) (text : List UInt8) (r : Reading) :
    Except ReadError (Reading × List UInt8) :=
  let (r, text) := scanIndex text r
  if r.ops.length < room then .ok ({ r with ops := r.ops ++ [.free r.index] }, text)
  else .error .undefined

/-- The `switch` of `read_trace`. -/
def readOp (path : List UInt8) (room : Nat) (type : UInt8) (text : List UInt8) (r : Reading) :
    Except ReadError (Reading × List UInt8) :=
  if type = 97 then readSized .alloc room text r
  else if type = 114 then readSized .realloc room text r
  else if type = 102 then readFree room text r
  else .error (.bogus (bogusType path type))

/-- The loop of `read_trace`, cut off after `fuel` rounds. -/
def readOps (path : List UInt8) (room : Nat) :
    Nat → List UInt8 → Reading → Except ReadError Reading
  | 0, _, _ => .error .undefined
  | fuel + 1, text, r =>
      match scanWord text with
      | none => .ok r
      | some (type, more, text) =>
          if MAXLINE ≤ (type :: more).length then .error .undefined
          else
            match readOp path room type text r with
            | .error e => .error e
            | .ok (r, text) => readOps path room fuel text r

/-- The loop of `read_trace`; a round takes at least one character. -/
def readLoop (path : List UInt8) (room : Nat) (text : List UInt8) (r : Reading) :
    Except ReadError Reading :=
  readOps path room (text.length + 1) text r

/-! ## The whole file -/

/-- The two assertions behind the loop of `read_trace`. -/
def checkCounts (t : Trace) (maxIndex : Nat) : Except ReadError Trace :=
  if t.numIds = -2 ^ 31 then .error .undefined
  else if maxIndex ≠ sizeT (t.numIds - 1) then .error .assertion
  else if sizeT t.numOps ≠ t.ops.length then .error .assertion
  else .ok t

/-- `read_trace`, on a file that can be opened and with enough memory. -/
def readTrace (path file : List UInt8) : Except ReadError Trace :=
  let (suggHeapsize, text) := scanField file
  let (numIds, text) := scanField text
  let (numOps, text) := scanField text
  let (weight, text) := scanField text
  match numIds, numOps with
  | some numIds, some numOps =>
      let room := roomFor (strtol32 numOps) sizeofTraceop
      match readLoop path room text ⟨0, none, 0, []⟩ with
      | .error e => .error e
      | .ok r =>
          checkCounts ⟨suggHeapsize.map strtol32, strtol32 numIds, strtol32 numOps,
            weight.map strtol32, r.ops⟩ r.maxIndex
  | _, _ => .error .undefined

/-! ## The loop of `main` over the files -/

/-- The loop of `main` over the trace files, each with the number of calls that `fsecs`
makes; nothing is returned where the driver ends early. -/
def runFiles {σ : Type} (pkg : Package σ) :
    List (Nat × List UInt8 × List UInt8) → DM σ (Option (List Stats))
  | [] => pure (some [])
  | (calls, path, file) :: rest =>
      match readTrace path file with
      | .error .undefined => fun _ => none
      | .error _ => pure none
      | .ok trace => do
          match ← runTrace pkg calls trace with
          | none => pure none
          | some stats => do
              match ← runFiles pkg rest with
              | none => pure none
              | some later => pure (some (stats :: later))

end SysProg.Mdriver

import Mathlib.Logic.Function.Basic

/-!
# The cache simulator `csim.c`

The sets of a cache are arrays of lines with the time of their last use in an
access counter of the set.  `none` stands for a shift by 64 or more and for an
index outside the arrays that `main` allocates.  The simulator runs without
`-v`.
-/

namespace SysProg.Csim

/-- `PARAM`. -/
structure PARAM where
  s : UInt32
  b : UInt32
  E : UInt32
  S : UInt32
  nHit : UInt32
  nMiss : UInt32
  nEvict : UInt32

/-- `LINE`. -/
structure LINE where
  tag : UInt64
  valid : Bool
  useTime : UInt32

/-- `SET`, with the `param.E` lines of its array. -/
structure SET where
  lines : List LINE
  useCnt : UInt32

/-- `x << k` for a 64-bit `x`. -/
def shl (x : UInt64) (k : UInt32) : Option UInt64 :=
  if k < 64 then some (x <<< k.toUInt64) else none

/-- `x >> k` for a 64-bit `x`. -/
def shr (x : UInt64) (k : UInt32) : Option UInt64 :=
  if k < 64 then some (x >>> k.toUInt64) else none

/-- What the search loop of `accessCache` finds: the line at which it breaks on
a hit, the lowest empty line so far, and whether it has met none. -/
structure Scan where
  hit : Option Nat
  emptyLine : Nat
  setFull : Bool

/-- The search loop from line `Ei` on. -/
def search (Tag : UInt64) : List LINE → Nat → Nat → Bool → Scan
  | [], _, emptyLine, setFull => ⟨none, emptyLine, setFull⟩
  | line :: rest, Ei, emptyLine, setFull =>
      if line.valid then
        if line.tag = Tag then ⟨some Ei, emptyLine, setFull⟩
        else search Tag rest (Ei + 1) emptyLine setFull
      else search Tag rest (Ei + 1) (if emptyLine < Ei then emptyLine else Ei) false

/-- The loop from line `Ei` on for the smallest timestamp, with the smallest
one so far. -/
def leastRecentLine : List LINE → Nat → Nat → UInt32 → Nat
  | [], _, victimLine, _ => victimLine
  | line :: rest, Ei, victimLine, leastRecent =>
      if leastRecent > line.useTime then leastRecentLine rest (Ei + 1) Ei line.useTime
      else leastRecentLine rest (Ei + 1) victimLine leastRecent

/-- A change of a line together with `useTime = ++(set->useCnt)`. -/
def SET.stamp (set : SET) (Ei : Nat) (change : LINE → LINE) : SET where
  lines := set.lines.modify Ei fun line => { change line with useTime := set.useCnt + 1 }
  useCnt := set.useCnt + 1

/-- The part of `accessCache` after a search without a hit. -/
def replaceLine (set : SET) (param : PARAM) (Tag : UInt64) (scan : Scan) : Option (SET × PARAM) :=
  let param := { param with nMiss := param.nMiss + 1 }
  if scan.setFull then
    match set.lines with
    | [] => none
    | first :: rest =>
        let victimLine := leastRecentLine rest 1 0 first.useTime
        some (set.stamp victimLine fun line => { line with tag := Tag },
          { param with nEvict := param.nEvict + 1 })
  else
    some (set.stamp scan.emptyLine fun line => { line with tag := Tag, valid := true }, param)

/-- `accessCache` in its set. -/
def accessSet (set : SET) (param : PARAM) (Tag : UInt64) : Option (SET × PARAM) :=
  let prevHit := param.nHit
  let scan := search Tag set.lines 0 param.E.toNat true
  let (set, param) :=
    match scan.hit with
    | some Ei => (set.stamp Ei id, { param with nHit := param.nHit + 1 })
    | none => (set, param)
  if prevHit < param.nHit then some (set, param) else replaceLine set param Tag scan

/-- `accessCache`. -/
def accessCache (cache : Nat → SET) (param : PARAM) (addr : UInt64) :
    Option ((Nat → SET) × PARAM) := do
  let t := 64 - param.s - param.b
  let Tag ← shr addr (param.s + param.b)
  let cleared ← shl addr t
  let Set ← shr cleared (t + param.b)
  if Set.toNat < param.S.toNat then
    let (set, param) ← accessSet (cache Set.toNat) param Tag
    some (Function.update cache Set.toNat set, param)
  else none

/-- The fields of a line of the trace that the simulator uses. -/
structure Record where
  instr : Char
  addr : UInt64

/-- The `switch` of `main`: `M` falls through to the access of `L` and `S`. -/
def simulateRecord (cache : Nat → SET) (param : PARAM) (r : Record) :
    Option ((Nat → SET) × PARAM) :=
  match r.instr with
  | 'M' => do
      let (cache, param) ← accessCache cache param r.addr
      accessCache cache param r.addr
  | 'L' | 'S' => accessCache cache param r.addr
  | _ => some (cache, param)

/-- The loop of `main` over the trace. -/
def simulate (cache : Nat → SET) (param : PARAM) : List Record → Option ((Nat → SET) × PARAM)
  | [] => some (cache, param)
  | r :: rest => do
      let (cache, param) ← simulateRecord cache param r
      simulate cache param rest

/-- The parameters after the command line, with `S` shifted by `s` bits. -/
def startParam (s b E : UInt32) : PARAM := ⟨s, b, E, 1 <<< s, 0, 0, 0⟩

end SysProg.Csim

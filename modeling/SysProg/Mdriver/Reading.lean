import Mathlib.Data.List.TakeDrop
import SysProg.Mdriver.Tracefile

/-!
# What `read_trace` accepts

The loop of `read_trace` takes no more rounds than the file has characters.  A trace that
passes the assertions has as many requests as the header tells, they fit the array, and
their numbers fit the fields.
-/

namespace SysProg.Mdriver

open Logic Malloc

/-! ## Enough rounds -/

section Rounds

variable {path text rest more : List UInt8} {room fuel fuel' : Nat} {type : UInt8}
  {r r' : Reading}

theorem scanField_shorter (text : List UInt8) : (scanField text).2.length ≤ text.length := by
  have behind : (scanSign (text.dropWhile whiteSpace)).2.length ≤ text.length :=
    (scanSign_shorter _).trans (List.dropWhile_suffix _).length_le
  unfold scanField
  dsimp only
  split
  · rename_i n rest read
    exact (Nat.le_of_lt (Alphabet.scan_shorter read)).trans behind
  · exact behind

theorem scanWord_shorter (read : scanWord text = some (type, more, rest)) :
    rest.length < text.length := by
  unfold scanWord at read
  split at read
  · cases read
  · rename_i c visible shown
    rw [List.span_eq_takeWhile_dropWhile] at read
    cases read
    have first := (List.dropWhile_suffix (l := text) whiteSpace).length_le
    rw [shown] at first
    exact Nat.lt_of_le_of_lt (List.dropWhile_suffix _).length_le first

theorem scanLetter_shorter (letter : UInt8) (text : List UInt8) :
    (scanLetter letter text).length ≤ text.length := by
  cases text with
  | nil => exact Nat.le_refl _
  | cons c text =>
      rw [scanLetter]
      split
      · exact Nat.le_succ _
      · exact Nat.le_refl _

theorem scanPair_shorter (text : List UInt8) (r : Reading) :
    (scanPair text r).2.length ≤ text.length := by
  have first := scanField_shorter text
  unfold scanPair
  split
  · rename_i rest read
    rw [read] at first
    exact first
  · rename_i index rest read
    rw [read] at first
    have second := scanField_shorter rest
    dsimp only
    split
    · rename_i rest' read'
      rw [read'] at second
      exact second.trans first
    · rename_i size rest' read'
      rw [read'] at second
      exact second.trans first

theorem scanIndex_shorter (text : List UInt8) (r : Reading) :
    (scanIndex text r).2.length ≤ text.length := by
  have first := scanField_shorter text
  unfold scanIndex
  split
  · rename_i rest read
    rw [read] at first
    exact first
  · rename_i index rest read
    rw [read] at first
    exact (scanLetter_shorter 100 rest).trans first

/-- What a request stores where it is read. -/
inductive ReadsOp (room : Nat) (text : List UInt8) (r : Reading) :
    Reading → List UInt8 → Prop where
  | sized {make : Nat → Int → Traceop} {size : Nat} (kind : make = .alloc ∨ make = .realloc)
      (set : (scanPair text r).1.size = some size)
      (fits : (scanPair text r).1.ops.length < room) :
      ReadsOp room text r
        { (scanPair text r).1 with
          maxIndex := max (scanPair text r).1.maxIndex (scanPair text r).1.index
          ops := (scanPair text r).1.ops ++ [make (scanPair text r).1.index (toInt size)] }
        (scanPair text r).2
  | free (fits : (scanIndex text r).1.ops.length < room) :
      ReadsOp room text r
        { (scanIndex text r).1 with
          ops := (scanIndex text r).1.ops ++ [.free (scanIndex text r).1.index] }
        (scanIndex text r).2

theorem readSized_ok {make : Nat → Int → Traceop} (kind : make = .alloc ∨ make = .realloc)
    (read : readSized make room text r = .ok (r', rest)) : ReadsOp room text r r' rest := by
  unfold readSized at read
  dsimp only at read
  split at read
  · cases read
  · rename_i size set
    split at read
    · rename_i fits
      cases read
      have top : (if (scanPair text r).1.maxIndex < (scanPair text r).1.index then
          (scanPair text r).1.index else (scanPair text r).1.maxIndex) =
          max (scanPair text r).1.maxIndex (scanPair text r).1.index :=
        (max_def_lt _ _).symm
      rw [top]
      exact .sized kind set fits
    · cases read

theorem readOp_ok (read : readOp path room type text r = .ok (r', rest)) :
    ReadsOp room text r r' rest := by
  unfold readOp at read
  split_ifs at read
  · exact readSized_ok (.inl rfl) read
  · exact readSized_ok (.inr rfl) read
  · unfold readFree at read
    dsimp only at read
    split at read
    · rename_i fits
      cases read
      exact .free fits
    · cases read

theorem ReadsOp.shorter (reads : ReadsOp room text r r' rest) : rest.length ≤ text.length := by
  cases reads with
  | sized kind set fits => exact scanPair_shorter text r
  | free fits => exact scanIndex_shorter text r

/-- As many rounds as the text has characters are enough. -/
theorem readOps_fuel (enough : text.length < fuel) (enough' : text.length < fuel') :
    readOps path room fuel text r = readOps path room fuel' text r := by
  induction fuel generalizing fuel' text r with
  | zero => exact absurd enough (Nat.not_lt_zero _)
  | succ fuel ih =>
      cases fuel' with
      | zero => exact absurd enough' (Nat.not_lt_zero _)
      | succ fuel' =>
          rw [readOps, readOps]
          cases word : scanWord text with
          | none => rfl
          | some found =>
              obtain ⟨type, more, rest⟩ := found
              have shorter := scanWord_shorter word
              dsimp only
              split
              · rfl
              · cases read : readOp path room type rest r with
                | error e => rfl
                | ok result =>
                    obtain ⟨r', rest'⟩ := result
                    have behind := (readOp_ok read).shorter
                    exact ih (by omega) (by omega)

/-- A round of the loop. -/
theorem readLoop_eq : readLoop path room text r =
    match scanWord text with
    | none => .ok r
    | some (type, more, rest) =>
        if MAXLINE ≤ (type :: more).length then .error .undefined
        else
          match readOp path room type rest r with
          | .error e => .error e
          | .ok (r, rest) => readLoop path room rest r := by
  rw [readLoop, readOps]
  cases word : scanWord text with
  | none => rfl
  | some found =>
      obtain ⟨type, more, rest⟩ := found
      have shorter := scanWord_shorter word
      dsimp only
      split
      · rfl
      · cases read : readOp path room type rest r with
        | error e => rfl
        | ok result =>
            have behind := (readOp_ok read).shorter
            exact readOps_fuel (by omega) (Nat.lt_succ_self _)

end Rounds

/-! ## Accepted traces -/

/-- The numbers fit their fields. -/
def Traceop.Storable : Traceop → Prop
  | .alloc index size => index < 2 ^ 32 ∧ -2 ^ 31 ≤ size ∧ size < 2 ^ 31
  | .realloc index size => index < 2 ^ 32 ∧ -2 ^ 31 ≤ size ∧ size < 2 ^ 31
  | .free index => index < 2 ^ 32

/-- The largest index so far. -/
def Traceop.raise (top : Nat) : Traceop → Nat
  | .alloc index _ => max top index
  | .realloc index _ => max top index
  | .free _ => top

/-- The largest index of an allocation or reallocation. -/
def topIndex (ops : List Traceop) : Nat := ops.foldl Traceop.raise 0

/-- An `int`. -/
def IntRange (z : Int) : Prop := -2 ^ 31 ≤ z ∧ z < 2 ^ 31

/-- What the assertions and the types of the fields say about a trace. -/
structure Trace.WellFormed (t : Trace) : Prop where
  sugg : ∀ z ∈ t.suggHeapsize, IntRange z
  weight : ∀ z ∈ t.weight, IntRange z
  ids : IntRange t.numIds
  idsLow : t.numIds ≠ -2 ^ 31
  ops : ∀ op ∈ t.ops, op.Storable
  top : topIndex t.ops = sizeT (t.numIds - 1)
  count : t.numOps = t.ops.length
  room : t.ops.length * sizeofTraceop < 2 ^ 32

/-- The invariant of the loop of `read_trace`. -/
structure Held (room : Nat) (r : Reading) : Prop where
  index : r.index < 2 ^ 32
  size : ∀ n ∈ r.size, n < 2 ^ 32
  ops : ∀ op ∈ r.ops, op.Storable
  top : r.maxIndex = topIndex r.ops
  fits : r.ops.length ≤ room

section Accepted

variable {path text rest file : List UInt8} {room fuel : Nat} {r r' : Reading}
  {t : Trace} {n : Nat} {z : Int} {ops : List Traceop} {op : Traceop}

theorem strtoul32_lt (z : Int) : strtoul32 z < 2 ^ 32 := by
  unfold strtoul32
  split
  · decide
  · omega

theorem strtol32_range (z : Int) : IntRange (strtol32 z) := by
  unfold IntRange strtol32
  omega

theorem toInt_range (small : n < 2 ^ 32) : IntRange (toInt n) := by
  unfold IntRange toInt
  split
  all_goals omega

theorem topIndex_append (ops : List Traceop) (op : Traceop) :
    topIndex (ops ++ [op]) = op.raise (topIndex ops) := by
  rw [topIndex, List.foldl_append]
  rfl

/-- Scanning numbers keeps the requests. -/
theorem Held.scanPair (held : Held room r) (text : List UInt8) :
    Held room (scanPair text r).1 := by
  unfold Mdriver.scanPair
  split
  · exact held
  · rename_i index rest read
    have indexed : Held room { r with index := strtoul32 index } :=
      ⟨strtoul32_lt index, held.size, held.ops, held.top, held.fits⟩
    dsimp only
    split
    · exact indexed
    · rename_i size rest' read'
      refine ⟨indexed.index, ?_, held.ops, held.top, held.fits⟩
      rintro n ⟨⟩
      exact strtoul32_lt size

theorem Held.scanIndex (held : Held room r) (text : List UInt8) :
    Held room (scanIndex text r).1 := by
  unfold Mdriver.scanIndex
  split
  · exact held
  · exact ⟨strtoul32_lt _, held.size, held.ops, held.top, held.fits⟩

/-- A request is added. -/
theorem Held.add (held : Held room r) (storable : op.Storable) (fits : r.ops.length < room) :
    Held room { r with maxIndex := op.raise r.maxIndex, ops := r.ops ++ [op] } where
  index := held.index
  size := held.size
  ops := by
    intro op' member
    rcases List.mem_append.mp member with old | new
    · exact held.ops op' old
    · rw [List.mem_singleton.mp new]
      exact storable
  top := by rw [topIndex_append, ← held.top]
  fits := by
    rw [List.length_append]
    exact fits

/-- A step: a request keeps the invariant. -/
theorem ReadsOp.held (reads : ReadsOp room text r r' rest) (held : Held room r) :
    Held room r' := by
  cases reads with
  | @sized make size kind set fits =>
      have scanned := held.scanPair text
      have range := toInt_range (scanned.size size set)
      rcases kind with rfl | rfl
      · exact @Held.add _ _ (.alloc _ _) scanned ⟨scanned.index, range⟩ fits
      · exact @Held.add _ _ (.realloc _ _) scanned ⟨scanned.index, range⟩ fits
  | free fits =>
      have scanned := held.scanIndex text
      exact @Held.add _ _ (.free _) scanned scanned.index fits

/-- A run: the loop keeps the invariant. -/
theorem readOps_held (read : readOps path room fuel text r = .ok r') (held : Held room r) :
    Held room r' := by
  induction fuel generalizing text r with
  | zero => cases read
  | succ fuel ih =>
      rw [readOps] at read
      split at read
      · cases read
        exact held
      · split at read
        · cases read
        · split at read
          · cases read
          · rename_i accepted
            exact ih read ((readOp_ok accepted).held held)

theorem roomFor_lt (numOps : Int) : roomFor numOps sizeofTraceop * sizeofTraceop < 2 ^ 32 := by
  have small : sizeT (numOps * sizeofTraceop) < 2 ^ 32 := by
    unfold sizeT
    omega
  exact Nat.lt_of_le_of_lt (Nat.div_mul_le_self _ _) small

/-- What the assertions leave. -/
theorem checkCounts_ok {t t' : Trace} {top : Nat} (checked : checkCounts t top = .ok t') :
    t' = t ∧ t.numIds ≠ -2 ^ 31 ∧ top = sizeT (t.numIds - 1) ∧ sizeT t.numOps = t.ops.length := by
  unfold checkCounts at checked
  split_ifs at checked with low ids count
  · cases checked
    exact ⟨rfl, low, not_not.mp ids, not_not.mp count⟩

/-- A trace that is accepted is well formed. -/
theorem readTrace_wellFormed (read : readTrace path file = .ok t) : t.WellFormed := by
  unfold readTrace at read
  dsimp only at read
  split at read
  · rename_i ids ops _ _
    split at read
    · cases read
    · rename_i r accepted
      obtain ⟨rfl, low, top, count⟩ := checkCounts_ok read
      have held : Held (roomFor (strtol32 ops) sizeofTraceop) r := by
        refine readOps_held accepted ⟨by decide, ?_, ?_, rfl, Nat.zero_le _⟩
        · exact fun n member => absurd member (Option.not_mem_none n)
        · exact fun op member => absurd member List.not_mem_nil
      have room := roomFor_lt (strtol32 ops)
      have fits := Nat.mul_le_mul_right sizeofTraceop held.fits
      have range := strtol32_range ops
      refine ⟨?_, ?_, strtol32_range ids, low, held.ops, ?_, ?_,
        Nat.lt_of_le_of_lt fits room⟩
      · intro z member
        obtain ⟨y, -, rfl⟩ := Option.map_eq_some_iff.mp member
        exact strtol32_range y
      · intro z member
        obtain ⟨y, -, rfl⟩ := Option.map_eq_some_iff.mp member
        exact strtol32_range y
      · exact held.top.symm.trans top
      · unfold sizeofTraceop at room fits
        unfold IntRange at range
        unfold sizeT at count
        dsimp only at count ⊢
        omega
  · cases read

end Accepted

end SysProg.Mdriver

import SysProg.Logic.Runs
import Mathlib.Data.List.TakeDrop
import Mathlib.Tactic.Common

/-!
# Reading the process chain from `dbfs_ptree.c`

The file `ptree` gives out the buffer of the module.  A read computes its
length from the file position but copies from the start of the buffer, so the
pieces of a file are its contents only as far as these repeat themselves.
-/

namespace SysProg.Ptree

open Logic Machine

def MAXLEN : Nat := 512
def EFAULT : Int := 14

/-- What a call of a read operation returns, hands to the caller and leaves as
the file position. -/
structure ReadResult where
  returned : Int
  copied : List UInt8
  position : BitVec 64

/-- The number of bytes of a read: a `size_t` is compared with a `loff_t` of the
same width, so the comparison is unsigned. -/
def readLength (length position : BitVec 64) : BitVec 64 :=
  if length < BitVec.ofNat 64 MAXLEN - position then length
  else BitVec.ofNat 64 MAXLEN - position

/-- `read_trace_from_output`, for the contents `buf` of the buffer and the number
`uncopied` that `copy_to_user` returns; it fails where the copy would read past
the buffer. -/
def readTraceFromOutput (buf : Vector UInt8 MAXLEN) (length position : BitVec 64)
    (uncopied : Nat) : Option ReadResult :=
  let len := readLength length position
  if MAXLEN < len.toNat then none
  else if uncopied ≠ 0 then some ⟨-EFAULT, buf.toList.take (len.toNat - uncopied), position⟩
  else some ⟨len.toInt, buf.toList.take len.toNat, position + len⟩

/-- A reader of the file: its position and the bytes received so far. -/
structure Reader where
  position : BitVec 64
  received : List UInt8
  deriving DecidableEq

/-- A read of `length` bytes that `copy_to_user` carries out. -/
def Reader.read (buf : Vector UInt8 MAXLEN) (r : Reader) (length : BitVec 64) : Option Reader :=
  (readTraceFromOutput buf length r.position 0).map fun result =>
    ⟨result.position, r.received ++ result.copied⟩

/-- The sequences of reads from the start of the file. -/
def reading (buf : Vector UInt8 MAXLEN) : Machine Reader (BitVec 64) where
  init r := r = ⟨0, []⟩
  step r length r' := r.read buf length = some r'

/-- The reader has received the file up to its position, and at the end of the
file gets nothing more. -/
structure Faithful (buf : Vector UInt8 MAXLEN) (r : Reader) : Prop where
  contents : r.received = buf.toList.take r.position.toNat
  bounded : r.position.toNat ≤ MAXLEN
  atEnd : r.position.toNat = MAXLEN → ∀ length,
    readTraceFromOutput buf length r.position 0 = some ⟨0, [], r.position⟩

/-- What the next read covers of the buffer begins like the buffer itself. -/
def Repeats (buf : Vector UInt8 MAXLEN) (r : Reader) (length : BitVec 64) : Prop :=
  ∀ i, i < length.toNat → r.position.toNat + i < MAXLEN →
    buf.toList[r.position.toNat + i]? = buf.toList[i]?

section Reads

variable {buf : Vector UInt8 MAXLEN} {r r' : Reader} {length position : BitVec 64}

/-- Inside the file a read is cut at its end. -/
theorem readLength_toNat (inside : position.toNat ≤ MAXLEN) :
    (readLength length position).toNat = min length.toNat (MAXLEN - position.toNat) := by
  unfold MAXLEN at inside
  have rest : (BitVec.ofNat 64 MAXLEN - position).toNat = MAXLEN - position.toNat := by
    unfold MAXLEN
    bv_omega
  unfold readLength
  split
  · rename_i short
    rw [BitVec.lt_def, rest] at short
    omega
  · rename_i long
    rw [BitVec.lt_def, rest] at long
    rw [rest]
    omega

/-- A read inside the file ends. -/
theorem read_eq (inside : r.position.toNat ≤ MAXLEN) :
    r.read buf length = some ⟨r.position + readLength length r.position,
      r.received ++ buf.toList.take (readLength length r.position).toNat⟩ := by
  have cut : (readLength length r.position).toNat = _ := readLength_toNat inside
  have fits : ¬ MAXLEN < (readLength length r.position).toNat := by omega
  simp [Reader.read, readTraceFromOutput, fits]

/-- The position after a read inside the file. -/
theorem position_read (inside : position.toNat ≤ MAXLEN) :
    (position + readLength length position).toNat =
      position.toNat + min length.toNat (MAXLEN - position.toNat) := by
  have cut : (readLength length position).toNat = _ := readLength_toNat inside
  unfold MAXLEN at inside cut ⊢
  rw [BitVec.toNat_add, cut]
  omega

/-- At the end of the file a read returns nothing. -/
theorem read_atEnd (atEnd : position.toNat = MAXLEN) :
    readTraceFromOutput buf length position 0 = some ⟨0, [], position⟩ := by
  have cut : (readLength length position).toNat = _ := readLength_toNat (Nat.le_of_eq atEnd)
  have none : readLength length position = 0#64 := by
    apply BitVec.eq_of_toNat_eq
    rw [cut, atEnd]
    simp
  simp [readTraceFromOutput, none]

/-- A piece from the start of a list continues a prefix of it exactly where the
list repeats its start. -/
theorem take_append_take_iff {bytes : List UInt8} {p n : Nat} :
    bytes.take p ++ bytes.take n = bytes.take (p + n) ↔
      ∀ i, i < n → bytes[p + i]? = bytes[i]? := by
  rw [List.take_add, List.append_cancel_left_eq]
  constructor
  · intro same i inside
    have entry := congrArg (fun l => l[i]?) same
    simp only [List.getElem?_take, if_pos inside, List.getElem?_drop] at entry
    exact entry.symm
  · intro repeats
    apply List.ext_getElem?
    intro i
    by_cases inside : i < n
    · simp only [List.getElem?_take, if_pos inside, List.getElem?_drop]
      exact (repeats i inside).symm
    · simp only [List.getElem?_take, if_neg inside]

/-- A read keeps the received bytes a prefix of the file exactly when it covers
bytes that repeat the start of the buffer. -/
theorem Faithful.read_iff (faithful : Faithful buf r) (taken : r.read buf length = some r') :
    Faithful buf r' ↔ Repeats buf r length := by
  have inside := faithful.bounded
  rw [read_eq inside] at taken
  have same := Option.some.inj taken
  subst same
  have position : (r.position + readLength length r.position).toNat = _ := position_read inside
  have cut : (readLength length r.position).toNat = _ := readLength_toNat inside
  have prefix_ : (r.received ++ buf.toList.take (readLength length r.position).toNat =
      buf.toList.take (r.position + readLength length r.position).toNat) ↔
        Repeats buf r length := by
    rw [faithful.contents, position, cut, take_append_take_iff]
    unfold Repeats
    constructor
    · intro repeats i short within
      exact repeats i (by omega)
    · intro repeats i short
      exact repeats i (by omega) (by omega)
  constructor
  · intro done
    exact prefix_.mp done.contents
  · intro repeats
    refine ⟨prefix_.mpr repeats, ?_, fun atEnd length => read_atEnd atEnd⟩
    simp only [position]
    omega

end Reads

/-- In every sequence of reads the pieces received so far are the file up to the
position exactly when every read covers bytes that repeat the start of the
buffer. -/
theorem faithful_iff {buf : Vector UInt8 MAXLEN} {past : List (Reader × BitVec 64)} {r : Reader}
    (run : (reading buf).Run past r) :
    Throughout (Faithful buf) past r ↔ AllSteps (Repeats buf) past := by
  refine run.exact (I := Faithful buf) ?_ (fun _ faithful => faithful)
    (fun _ _ _ faithful repeats taken => (faithful.read_iff taken).mpr repeats)
    (fun _ _ _ faithful against taken broken => against ((faithful.read_iff taken).mp broken))
  rintro r rfl
  refine ⟨rfl, Nat.zero_le _, ?_⟩
  intro atEnd
  cases atEnd

/-- A buffer that starts with `A` and is zero behind it. -/
def shortBuf : Vector UInt8 MAXLEN := (Vector.replicate MAXLEN 0).set 0 65 (by decide)

/-- Two reads of one byte each, the latest first. -/
def splitRead : List (Reader × BitVec 64) := [(⟨1, [65]⟩, 1), (⟨0, []⟩, 1)]

theorem splitRead_run : (reading shortBuf).Run splitRead ⟨2, [65, 65]⟩ := by
  have first : (reading shortBuf).Run [(⟨0, []⟩, 1)] ⟨1, [65]⟩ := by
    refine .next (.start rfl) ?_
    exact (read_eq (by decide)).trans (by decide)
  refine .next first ?_
  exact (read_eq (by decide)).trans (by decide)

theorem faithful_iff_splitRead : (reading shortBuf).Run splitRead ⟨2, [65, 65]⟩ ∧
    (Throughout (Faithful shortBuf) splitRead ⟨2, [65, 65]⟩ ↔
      AllSteps (Repeats shortBuf) splitRead) :=
  ⟨splitRead_run, faithful_iff splitRead_run⟩

/-- The second of two reads of one byte returns the first byte again. -/
theorem second_read_restarts : ¬ ∀ buf past r, (reading buf).Run past r → Faithful buf r := by
  intro claimed
  have contents := (claimed _ _ _ splitRead_run).contents
  revert contents
  decide

end SysProg.Ptree

import Mathlib.Data.Finset.Basic
import SysProg.Logic.Runs
import SysProg.Memtrace.Memlist

/-!
# The interposed allocation functions of `memtrace.c`

Each of `malloc`, `calloc`, `realloc` and `free` makes at most one call of the
underlying allocator and updates the list, the statistics and the log.  A run
lets a client call them in any order with `NULL` or addresses that it owns,
over any answers of a conforming allocator.
-/

namespace SysProg.Memtrace

open Logic Machine

/-! ## The tracer -/

/-- A line of the log. -/
inductive LogLine where
  | malloc (size : UInt64) (res : Nat)
  | calloc (nmemb size : UInt64) (res : Nat)
  | realloc (ptr : Nat) (size : UInt64) (res : Nat)
  | free (ptr : Nat)
  | illegalFree
  | doubleFree
  deriving DecidableEq

/-- The list, the statistics and the log. -/
structure Tracer where
  items : List Item
  n_malloc : UInt64
  n_calloc : UInt64
  n_realloc : UInt64
  n_allocb : UInt64
  n_freeb : UInt64
  log : List LogLine

/-- A call of the underlying allocator. -/
inductive Request where
  | malloc (size : UInt64)
  | calloc (nmemb size : UInt64)
  | realloc (ptr : Nat) (size : UInt64)
  | free (ptr : Nat)
  deriving DecidableEq

/-- An intercepted call: the call of the underlying allocator, if it makes one,
and the tracer after the answer. -/
structure Traced where
  request : Option Request
  finish : Nat → Tracer

/-- `if(res != NULL) alloc(list, res, size)`. -/
def allocResult (items : List Item) (res : Nat) (size : UInt64) : List Item :=
  if res = 0 then items else alloc items res size

namespace Tracer

/-- `malloc`. -/
def malloc (t : Tracer) (size : UInt64) : Traced where
  request := some (.malloc size)
  finish res :=
    { t with
      n_malloc := t.n_malloc + 1
      n_allocb := t.n_allocb + size
      items := allocResult t.items res size
      log := t.log ++ [.malloc size res] }

/-- `calloc`. -/
def calloc (t : Tracer) (nmemb size : UInt64) : Traced where
  request := some (.calloc nmemb size)
  finish res :=
    { t with
      n_calloc := t.n_calloc + 1
      n_allocb := t.n_allocb + nmemb * size
      items := allocResult t.items res (nmemb * size)
      log := t.log ++ [.calloc nmemb size res] }

/-- `realloc` of `NULL`. -/
def reallocNull (t : Tracer) (size : UInt64) : Traced where
  request := some (.realloc 0 size)
  finish res :=
    { t with
      n_allocb := t.n_allocb + size
      n_realloc := if size > 0 then t.n_realloc + 1 else t.n_realloc
      items := if size > 0 then allocResult t.items res size else t.items
      log := t.log ++ [.realloc 0 size res] }

/-- `realloc` of an address that is not allocated. -/
def reallocUnknown (t : Tracer) (ptr : Nat) (size : UInt64) (fault : LogLine) : Traced where
  request := some (.realloc 0 size)
  finish res :=
    { t with
      n_allocb := t.n_allocb + size
      n_realloc := t.n_realloc + 1
      items := allocResult t.items res size
      log := t.log ++ [.realloc ptr size res, fault] }

/-- `realloc` to size 0. -/
def reallocZero (t : Tracer) (ptr : Nat) (i : Item) : Traced where
  request := some (.realloc ptr 0)
  finish res :=
    { t with
      n_freeb := t.n_freeb + i.size
      items := dealloc t.items ptr
      log := t.log ++ [.realloc ptr 0 res] }

/-- `realloc` to a size that is not larger. -/
def reallocShrink (t : Tracer) (ptr : Nat) (size : UInt64) : Traced where
  request := some (.realloc ptr size)
  finish res := { t with log := t.log ++ [.realloc ptr size res] }

/-- `realloc` to a larger size. -/
def reallocGrow (t : Tracer) (ptr : Nat) (size : UInt64) (i : Item) : Traced where
  request := some (.realloc ptr size)
  finish res :=
    { t with
      n_freeb := t.n_freeb + i.size
      n_allocb := t.n_allocb + size
      n_realloc := t.n_realloc + 1
      items := allocResult (dealloc t.items ptr) res size
      log := t.log ++ [.realloc ptr size res] }

/-- `realloc`. -/
def realloc (t : Tracer) (ptr : Nat) (size : UInt64) : Traced :=
  if ptr = 0 then t.reallocNull size
  else
    match find t.items ptr with
    | none => t.reallocUnknown ptr size .illegalFree
    | some i =>
        if i.cnt = 0 then t.reallocUnknown ptr size .doubleFree
        else if size = 0 then t.reallocZero ptr i
        else if size ≤ i.size then t.reallocShrink ptr size
        else t.reallocGrow ptr size i

/-- `free`: a fault is logged and the allocator is not called. -/
def free (t : Tracer) (ptr : Nat) : Traced :=
  let logged := { t with log := t.log ++ [.free ptr] }
  if ptr = 0 then ⟨none, fun _ => logged⟩
  else
    match find t.items ptr with
    | none => ⟨none, fun _ => { logged with log := logged.log ++ [.illegalFree] }⟩
    | some i =>
        if i.cnt = 0 then ⟨none, fun _ => { logged with log := logged.log ++ [.doubleFree] }⟩
        else
          ⟨some (.free ptr), fun _ =>
            { logged with
              items := dealloc t.items ptr
              n_freeb := t.n_freeb + i.size }⟩

end Tracer

/-! ## The allocator below and the client above -/

/-- The answers of a conforming allocator that holds the given blocks: fresh
addresses, `NULL` for `realloc(p, 0)`, and the old or a fresh address for
another `realloc`.  Calls with a size other than 0 succeed, but for a `calloc`
whose size overflows. -/
def Answers (held : Finset Nat) : Request → Nat → Prop
  | .malloc size, res => res ∉ held ∧ (size ≠ 0 → res ≠ 0)
  | .calloc nmemb size, res => res ∉ held ∧
      (nmemb.toNat * size.toNat ≠ 0 → nmemb.toNat * size.toNat < 2 ^ 64 → res ≠ 0)
  | .realloc ptr size, res =>
      if ptr = 0 then res ∉ held ∧ (size ≠ 0 → res ≠ 0)
      else if size = 0 then res = 0
      else res ≠ 0 ∧ (res = ptr ∨ res ∉ held)
  | .free _, res => res = 0

instance (held : Finset Nat) :
    (request : Request) → (res : Nat) → Decidable (Answers held request res)
  | .malloc _, _ => inferInstanceAs (Decidable (_ ∧ _))
  | .calloc _ _, _ => inferInstanceAs (Decidable (_ ∧ _))
  | .realloc ptr size, res =>
      inferInstanceAs (Decidable (if ptr = 0 then res ∉ held ∧ (size ≠ 0 → res ≠ 0)
        else if size = 0 then res = 0 else res ≠ 0 ∧ (res = ptr ∨ res ∉ held)))
  | .free _, _ => inferInstanceAs (Decidable (_ = _))

/-- An address other than `NULL` joins a set. -/
def gain (blocks : Finset Nat) (res : Nat) : Finset Nat :=
  if res = 0 then blocks else insert res blocks

/-- The blocks that the allocator holds after an answer. -/
def heldAfter (held : Finset Nat) : Request → Nat → Finset Nat
  | .malloc _, res | .calloc _ _, res => gain held res
  | .realloc ptr _, res => gain (held.erase ptr) res
  | .free ptr, _ => held.erase ptr

/-- A call of the client. -/
inductive Call where
  | malloc (size : UInt64)
  | calloc (nmemb size : UInt64)
  | realloc (ptr : Nat) (size : UInt64)
  | free (ptr : Nat)

/-- The tracer's function for a call. -/
def intercept (t : Tracer) : Call → Traced
  | .malloc size => t.malloc size
  | .calloc nmemb size => t.calloc nmemb size
  | .realloc ptr size => t.realloc ptr size
  | .free ptr => t.free ptr

/-- The client passes `NULL` or an address that it owns. -/
def Call.Permitted (owned : Finset Nat) : Call → Prop
  | .malloc _ | .calloc _ _ => True
  | .realloc ptr _ | .free ptr => ptr = 0 ∨ ptr ∈ owned

instance (owned : Finset Nat) : (call : Call) → Decidable (call.Permitted owned)
  | .malloc _ | .calloc _ _ => inferInstanceAs (Decidable True)
  | .realloc _ _ | .free _ => inferInstanceAs (Decidable (_ ∨ _))

/-- What the client owns after a call that returned an address. -/
def ownedAfter (owned : Finset Nat) : Call → Nat → Finset Nat
  | .malloc _, res | .calloc _ _, res => gain owned res
  | .realloc ptr _, res => gain (owned.erase ptr) res
  | .free ptr, _ => owned.erase ptr

/-- The tracer between the blocks that the allocator holds and those that the
client owns. -/
structure World where
  tracer : Tracer
  held : Finset Nat
  owned : Finset Nat

/-- The tracer as it is loaded. -/
def loaded : World := ⟨⟨[], 0, 0, 0, 0, 0, []⟩, ∅, ∅⟩

/-- A call of the client with the answer of the allocator; without a call of
the allocator the answer is 0. -/
def exec (w : World) : Call × Nat → Option World
  | (call, res) =>
      if call.Permitted w.owned then
        let traced := intercept w.tracer call
        match traced.request with
        | none =>
            if res = 0 then some ⟨traced.finish res, w.held, ownedAfter w.owned call res⟩ else none
        | some request =>
            if Answers w.held request res then
              some ⟨traced.finish res, heldAfter w.held request res, ownedAfter w.owned call res⟩
            else none
      else none

/-- A client over the tracer over an allocator. -/
def tracing : Machine World (Call × Nat) where
  init w := w = loaded
  step w e w' := exec w e = some w'

/-! ## The property and the condition -/

/-- The live entries of the list are the blocks that the client owns, none of
its calls has been logged as a fault, and the allocator holds just its
blocks. -/
structure LiveExact (w : World) : Prop where
  live : ∀ p, Live w.tracer.items p ↔ p ∈ w.owned
  accepted : .illegalFree ∉ w.tracer.log ∧ .doubleFree ∉ w.tracer.log
  given : w.held = w.owned

/-- `realloc(NULL, 0)` returns `NULL`, and a `realloc` to a size other than 0
that is not larger than the recorded one does not move the block. -/
def Unmoved (w : World) : Call × Nat → Prop
  | (.realloc ptr size, res) =>
      if ptr = 0 then size = 0 → res = 0
      else size ≠ 0 → ∀ i, find w.tracer.items ptr = some i → size ≤ i.size → res = ptr
  | _ => True

/-! ## The books -/

/-- The blocks of a set have count 1 and all other addresses count 0. -/
def Counts (items : List Item) (owned : Finset Nat) : Prop :=
  ∀ p, count items p = if p ∈ owned then 1 else 0

section Counts

variable {items : List Item} {owned : Finset Nat} {p : Nat} {i : Item}

theorem Counts.found (counts : Counts items owned) (own : p ∈ owned) :
    ∃ i, find items p = some i ∧ i.cnt = 1 := by
  have one := counts p
  rw [if_pos own, count] at one
  cases found : find items p with
  | none => simp [found] at one
  | some i => exact ⟨i, rfl, by simpa [found] using one⟩

theorem mem_gain {res : Nat} : p ∈ gain owned res ↔ p ∈ owned ∨ p = res ∧ res ≠ 0 := by
  unfold gain
  split
  · rename_i null
    simp [null]
  · rename_i block
    simp [block, or_comm]

/-- A fresh block is counted. -/
theorem Counts.gain {res : Nat} (counts : Counts items owned) (fresh : res ∉ owned)
    (size : UInt64) : Counts (allocResult items res size) (gain owned res) := by
  intro p
  unfold allocResult Memtrace.gain
  split
  · exact counts p
  · rw [count_alloc, counts p]
    by_cases here : p = res
    · subst here
      simp [fresh]
    · simp [here]

/-- A freed block is no longer counted. -/
theorem Counts.drop (counts : Counts items owned) (own : p ∈ owned) (found : find items p = some i) :
    Counts (dealloc items p) (owned.erase p) := by
  intro q
  rw [count_dealloc found, counts q]
  by_cases here : q = p
  · subst here
    simp [own]
  · simp [here]

end Counts

theorem Sorted.allocResult {items : List Item} (sorted : Sorted items) (res : Nat)
    (size : UInt64) : Sorted (allocResult items res size) := by
  unfold Memtrace.allocResult
  split
  · exact sorted
  · exact sorted.alloc res size

/-- A log without faults. -/
def Faultless (log : List LogLine) : Prop := .illegalFree ∉ log ∧ .doubleFree ∉ log

theorem Faultless.append {log : List LogLine} {line : LogLine} (faultless : Faultless log)
    (illegal : line ≠ .illegalFree) (double : line ≠ .doubleFree) : Faultless (log ++ [line]) := by
  constructor
  · simpa using ⟨faultless.1, illegal.symm⟩
  · simpa using ⟨faultless.2, double.symm⟩

/-- The invariant of the runs in which no block moves unrecorded. -/
structure Books (w : World) : Prop where
  sorted : Sorted w.tracer.items
  counts : Counts w.tracer.items w.owned
  given : w.held = w.owned
  null : 0 ∉ w.owned
  faultless : Faultless w.tracer.log

theorem Books.exact {w : World} (books : Books w) : LiveExact w where
  live p := by
    rw [books.sorted.live_iff, books.counts p]
    split
    · rename_i own
      simp [own]
    · rename_i other
      simp [other]
  accepted := books.faultless
  given := books.given

theorem not_mem_gain_zero {owned : Finset Nat} (null : 0 ∉ owned) (res : Nat) :
    0 ∉ gain owned res := by
  rw [mem_gain]
  rintro (own | ⟨rfl, block⟩)
  · exact null own
  · exact block rfl

section Exec

variable {w w' : World} {call : Call} {res : Nat} {traced : Traced}

theorem exec_permitted (taken : exec w (call, res) = some w') : call.Permitted w.owned := by
  simp only [exec] at taken
  split at taken
  · assumption
  · cases taken

/-- A call that the tracer passes on. -/
theorem exec_passed {request : Request} (taken : exec w (call, res) = some w')
    (branch : intercept w.tracer call = traced) (called : traced.request = some request) :
    Answers w.held request res ∧
      w' = ⟨traced.finish res, heldAfter w.held request res, ownedAfter w.owned call res⟩ := by
  simp only [exec, branch, called, if_pos (exec_permitted taken)] at taken
  split at taken
  · rename_i answers
    cases taken
    exact ⟨answers, rfl⟩
  · cases taken

/-- A call that the tracer keeps to itself. -/
theorem exec_kept (taken : exec w (call, res) = some w')
    (branch : intercept w.tracer call = traced) (called : traced.request = none) :
    w' = ⟨traced.finish res, w.held, ownedAfter w.owned call res⟩ := by
  simp only [exec, branch, called, if_pos (exec_permitted taken)] at taken
  split at taken
  · cases taken
    rfl
  · cases taken

end Exec

/-- Recording a fresh block keeps the books. -/
theorem Books.recorded {w : World} (books : Books w) {t : Tracer} {res : Nat} (size : UInt64)
    (fresh : res ∉ w.owned) (items : t.items = allocResult w.tracer.items res size)
    (faultless : Faultless t.log) : Books ⟨t, gain w.held res, gain w.owned res⟩ where
  sorted := by
    rw [items]
    exact books.sorted.allocResult res size
  counts := by
    rw [items]
    exact books.counts.gain fresh size
  given := congrArg (gain · res) books.given
  null := not_mem_gain_zero books.null res
  faultless := faultless

/-- Recording that a block is freed keeps the books. -/
theorem Books.released {w : World} (books : Books w) {t : Tracer} {ptr : Nat} {i : Item}
    (own : ptr ∈ w.owned) (found : find w.tracer.items ptr = some i)
    (items : t.items = dealloc w.tracer.items ptr) (faultless : Faultless t.log) :
    Books ⟨t, w.held.erase ptr, w.owned.erase ptr⟩ where
  sorted := by
    rw [items]
    exact books.sorted.dealloc ptr
  counts := by
    rw [items]
    exact books.counts.drop own found
  given := congrArg (Finset.erase · ptr) books.given
  null := fun member => books.null (Finset.mem_of_mem_erase member)
  faultless := faultless

/-- A call that leaves the list alone keeps the books. -/
theorem Books.unchanged {w : World} (books : Books w) {t : Tracer} (items : t.items = w.tracer.items)
    (faultless : Faultless t.log) : Books ⟨t, w.held, w.owned⟩ where
  sorted := by
    rw [items]
    exact books.sorted
  counts := by
    rw [items]
    exact books.counts
  given := books.given
  null := books.null
  faultless := faultless

theorem Books.malloc {w w' : World} {size : UInt64} {res : Nat} (books : Books w)
    (taken : exec w (.malloc size, res) = some w') : Books w' := by
  obtain ⟨answers, rfl⟩ := exec_passed taken rfl rfl
  have fresh : res ∉ w.owned := books.given ▸ answers.1
  exact books.recorded _ fresh rfl (books.faultless.append (by simp) (by simp))

theorem Books.calloc {w w' : World} {nmemb size : UInt64} {res : Nat} (books : Books w)
    (taken : exec w (.calloc nmemb size, res) = some w') : Books w' := by
  obtain ⟨answers, rfl⟩ := exec_passed taken rfl rfl
  have fresh : res ∉ w.owned := books.given ▸ answers.1
  exact books.recorded _ fresh rfl (books.faultless.append (by simp) (by simp))

/-- Giving `NULL` back changes nothing. -/
theorem Books.erase_null {w : World} (books : Books w) :
    w.held.erase 0 = w.held ∧ w.owned.erase 0 = w.owned := by
  have owned : w.owned.erase 0 = w.owned := Finset.erase_eq_of_notMem books.null
  exact ⟨by rw [books.given, owned], owned⟩

theorem Books.free {w w' : World} {ptr res : Nat} (books : Books w)
    (taken : exec w (.free ptr, res) = some w') : Books w' := by
  rcases exec_permitted taken with rfl | own
  · have untouched : w.tracer.free 0 =
        ⟨none, fun _ => { w.tracer with log := w.tracer.log ++ [.free 0] }⟩ := by
      simp [Tracer.free]
    obtain rfl := exec_kept taken untouched rfl
    rw [ownedAfter, books.erase_null.2]
    exact books.unchanged rfl (books.faultless.append (by simp) (by simp))
  · have block : ptr ≠ 0 := by
      rintro rfl
      exact books.null own
    obtain ⟨i, found, one⟩ := books.counts.found own
    have accepted : w.tracer.free ptr =
        ⟨some (.free ptr), fun _ =>
          { w.tracer with
            log := w.tracer.log ++ [.free ptr]
            items := dealloc w.tracer.items ptr
            n_freeb := w.tracer.n_freeb + i.size }⟩ := by
      simp [Tracer.free, block, found, one]
    obtain ⟨-, rfl⟩ := exec_passed taken accepted rfl
    exact books.released own found rfl (books.faultless.append (by simp) (by simp))

/-- `realloc` of an owned block: freed, resized where it is recorded, or freed
and recorded again. -/
theorem Books.realloc_owned {w : World} {ptr : Nat} (books : Books w) (own : ptr ∈ w.owned)
    (size : UInt64) : ∃ i, find w.tracer.items ptr = some i ∧
      w.tracer.realloc ptr size =
        if size = 0 then w.tracer.reallocZero ptr i
        else if size ≤ i.size then w.tracer.reallocShrink ptr size
        else w.tracer.reallocGrow ptr size i := by
  have block : ptr ≠ 0 := by
    rintro rfl
    exact books.null own
  obtain ⟨i, found, one⟩ := books.counts.found own
  exact ⟨i, found, by simp [Tracer.realloc, block, found, one]⟩

/-- `realloc` of `NULL` records a block, except that of `realloc(NULL, 0)`. -/
theorem Books.realloc_null {w w' : World} {res : Nat} {size : UInt64} (books : Books w)
    (unmoved : size = 0 → res = 0) (taken : exec w (.realloc 0 size, res) = some w') :
    Books w' := by
  have called : w.tracer.realloc 0 size = w.tracer.reallocNull size := if_pos rfl
  obtain ⟨answers, rfl⟩ := exec_passed taken called rfl
  simp only [Answers, if_true] at answers
  have fresh : res ∉ w.owned := books.given ▸ answers.1
  have faultless : Faultless (w.tracer.log ++ [.realloc 0 size res]) :=
    books.faultless.append (by simp) (by simp)
  rw [heldAfter, ownedAfter, books.erase_null.1, books.erase_null.2]
  refine books.recorded size fresh ?_ faultless
  simp only [Tracer.reallocNull]
  split
  · rfl
  · rename_i none
    have zero : size = 0 := by
      rw [← UInt64.toNat_inj]
      exact Nat.eq_zero_of_not_pos none
    rw [unmoved zero]
    rfl

/-- `realloc` of an owned block records what becomes of it, except a move to a
size that is not larger. -/
theorem Books.realloc_block {w w' : World} {ptr res : Nat} {size : UInt64} (books : Books w)
    (own : ptr ∈ w.owned)
    (unmoved : size ≠ 0 → ∀ i, find w.tracer.items ptr = some i → size ≤ i.size → res = ptr)
    (taken : exec w (.realloc ptr size, res) = some w') : Books w' := by
  have block : ptr ≠ 0 := by
    rintro rfl
    exact books.null own
  obtain ⟨i, found, called⟩ := books.realloc_owned own size
  have faultless : Faultless (w.tracer.log ++ [.realloc ptr size res]) :=
    books.faultless.append (by simp) (by simp)
  by_cases zero : size = 0
  · rw [if_pos zero] at called
    obtain ⟨answers, rfl⟩ := exec_passed taken called rfl
    subst zero
    simp only [Answers, if_neg block, if_true] at answers
    subst answers
    exact books.released own found rfl faultless
  rw [if_neg zero] at called
  by_cases fits : size ≤ i.size
  · rw [if_pos fits] at called
    obtain ⟨-, rfl⟩ := exec_passed taken called rfl
    obtain rfl := unmoved zero i found fits
    have kept : gain (w.owned.erase res) res = w.owned := by
      rw [gain, if_neg block, Finset.insert_erase own]
    have keptHeld : gain (w.held.erase res) res = w.held := by
      rw [books.given]
      exact kept
    rw [heldAfter, ownedAfter, kept, keptHeld]
    exact books.unchanged rfl faultless
  · rw [if_neg fits] at called
    obtain ⟨answers, rfl⟩ := exec_passed taken called rfl
    simp only [Answers, if_neg block, if_neg zero] at answers
    have fresh : res ∉ w.owned.erase ptr := by
      rw [Finset.mem_erase]
      rintro ⟨moved, member⟩
      rcases answers.2 with same | new
      · exact moved same
      · exact new (books.given ▸ member)
    have dropped := books.released (t := { w.tracer with items := dealloc w.tracer.items ptr })
      own found rfl books.faultless
    exact dropped.recorded size fresh rfl faultless

theorem Books.realloc {w w' : World} {ptr res : Nat} {size : UInt64} (books : Books w)
    (unmoved : Unmoved w (.realloc ptr size, res))
    (taken : exec w (.realloc ptr size, res) = some w') : Books w' := by
  simp only [Unmoved] at unmoved
  rcases exec_permitted taken with rfl | own
  · rw [if_pos rfl] at unmoved
    exact books.realloc_null unmoved taken
  · have block : ptr ≠ 0 := by
      rintro rfl
      exact books.null own
    rw [if_neg block] at unmoved
    exact books.realloc_block own unmoved taken

/-- Every call without an unrecorded move keeps the books. -/
theorem Books.keeps {w w' : World} {e : Call × Nat} (books : Books w) (unmoved : Unmoved w e)
    (taken : tracing.step w e w') : Books w' := by
  obtain ⟨call, res⟩ := e
  cases call with
  | malloc size => exact books.malloc taken
  | calloc nmemb size => exact books.calloc taken
  | realloc ptr size => exact books.realloc unmoved taken
  | free ptr => exact books.free taken

/-- After an unrecorded move the list is wrong. -/
theorem Books.breaks {w w' : World} {e : Call × Nat} (books : Books w) (against : ¬ Unmoved w e)
    (taken : tracing.step w e w') : ¬ LiveExact w' := by
  obtain ⟨call, res⟩ := e
  cases call with
  | malloc size => exact absurd trivial against
  | calloc nmemb size => exact absurd trivial against
  | free ptr => exact absurd trivial against
  | realloc ptr size =>
      simp only [Unmoved] at against
      intro exact
      have before := books.exact
      by_cases null : ptr = 0
      · subst null
        rw [if_pos rfl] at against
        obtain ⟨rfl, block⟩ := Classical.not_imp.mp against
        have called : w.tracer.realloc 0 0 = w.tracer.reallocNull 0 := if_pos rfl
        obtain ⟨answers, rfl⟩ := exec_passed taken called rfl
        simp only [Answers, if_true] at answers
        have gained : res ∈ gain (w.owned.erase 0) res := mem_gain.mpr (.inr ⟨rfl, block⟩)
        have listed : Live w.tracer.items res := (exact.live res).mpr gained
        exact answers.1 (books.given ▸ (before.live res).mp listed)
      · have own : ptr ∈ w.owned := (exec_permitted taken).resolve_left null
        obtain ⟨i, found, called⟩ := books.realloc_owned own size
        rw [if_neg null] at against
        obtain ⟨sized, moves⟩ := Classical.not_imp.mp against
        have fits : size ≤ i.size := by
          refine Classical.byContradiction fun larger => moves ?_
          intro j same small
          rw [found] at same
          cases same
          exact absurd small larger
        have moved : res ≠ ptr := by
          rintro rfl
          exact moves fun _ _ _ => rfl
        rw [if_neg sized, if_pos fits] at called
        obtain ⟨-, rfl⟩ := exec_passed taken called rfl
        have listed : Live w.tracer.items ptr := (before.live ptr).mpr own
        have kept : ptr ∈ gain (w.owned.erase ptr) res := (exact.live ptr).mp listed
        rcases mem_gain.mp kept with remains | ⟨same, -⟩
        · exact Finset.notMem_erase ptr w.owned remains
        · exact moved same.symm

/-- In a run the live entries of the list are throughout the blocks that the
client owns, and no call of it is taken for a fault, exactly when
`realloc(NULL, 0)` returns `NULL` and no `realloc` to a size that is not larger
moves its block. -/
theorem liveExact_iff {past : List (World × (Call × Nat))} {w : World}
    (run : tracing.Run past w) : Throughout LiveExact past w ↔ AllSteps Unmoved past := by
  refine run.exact (I := Books) ?_ (fun _ books => books.exact)
    (fun _ _ _ books unmoved taken => books.keeps unmoved taken)
    (fun _ _ _ books against taken => books.breaks against taken)
  rintro w rfl
  refine ⟨.nil, fun p => ?_, rfl, by simp [loaded], by simp [loaded, Faultless]⟩
  simp [loaded, count, find]

/-- A block grows, moves and is freed. -/
def growingCalls : List (Call × Nat) :=
  [(.malloc 100, 16), (.realloc 16 200, 48), (.realloc 48 150, 48), (.realloc 0 0, 0), (.free 48, 0)]

theorem liveExact_iff_growingCalls :
    Throughout LiveExact (record exec [] loaded growingCalls).1
        (record exec [] loaded growingCalls).2 ↔
      AllSteps Unmoved (record exec [] loaded growingCalls).1 :=
  liveExact_iff (Run.of_record (.start rfl) (fun _ _ _ taken => taken) _)

/-- A block moves as it shrinks, and is freed. -/
def shrinkingCalls : List (Call × Nat) :=
  [(.malloc 100, 16), (.realloc 16 50, 48), (.free 48, 0)]

/-- Freeing it is logged as an illegal free. -/
theorem owned_block_illegal : ¬ ∀ past w, tracing.Run past w → LiveExact w := by
  intro claimed
  have run : tracing.Run _ _ :=
    Run.of_record (.start rfl) (fun _ _ _ taken => taken) shrinkingCalls
  have accepted := (claimed _ _ run).accepted.1
  exact absurd accepted (by decide +kernel)

end SysProg.Memtrace

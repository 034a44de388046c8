import SysProg.Memtrace.Shield

/-!
# The three parts of the tracer

The first part only counts and logs, the second one keeps the list of the blocks, and the
third one looks for faults.  Whatever the client passes and the allocator answers, the log
of the third part is that of the others with the faults put in.  Until the first fault the
three make the same calls of the allocator, and the second and the third one until the first
fault of a `free`.
-/

namespace SysProg.Memtrace

/-! ## `part1/memtrace.c` -/

namespace First

/-- `malloc`. -/
def malloc (t : Tracer) (size : UInt64) : Traced where
  request := some (.malloc size)
  finish res :=
    { t with
      n_malloc := t.n_malloc + 1
      n_allocb := t.n_allocb + size
      log := t.log ++ [.malloc size res] }

/-- `calloc`. -/
def calloc (t : Tracer) (nmemb size : UInt64) : Traced where
  request := some (.calloc nmemb size)
  finish res :=
    { t with
      n_calloc := t.n_calloc + 1
      n_allocb := t.n_allocb + nmemb * size
      log := t.log ++ [.calloc nmemb size res] }

/-- `realloc`. -/
def realloc (t : Tracer) (ptr : Nat) (size : UInt64) : Traced where
  request := some (.realloc ptr size)
  finish res :=
    { t with
      n_realloc := t.n_realloc + 1
      n_allocb := t.n_allocb + size
      log := t.log ++ [.realloc ptr size res] }

/-- `free`. -/
def free (t : Tracer) (ptr : Nat) : Traced :=
  let logged := { t with log := t.log ++ [.free ptr] }
  if ptr = 0 then ⟨none, fun _ => logged⟩ else ⟨some (.free ptr), fun _ => logged⟩

/-- The function for a call. -/
def intercept (t : Tracer) : Call → Traced
  | .malloc size => malloc t size
  | .calloc nmemb size => calloc t nmemb size
  | .realloc ptr size => realloc t ptr size
  | .free ptr => free t ptr

end First

/-! ## `part2/memtrace.c` -/

namespace Second

/-- `realloc` of an address that is not allocated. -/
def reallocUnknown (t : Tracer) (ptr : Nat) (size : UInt64) : Traced where
  request := some (.realloc 0 size)
  finish res :=
    { t with
      n_allocb := t.n_allocb + size
      n_realloc := t.n_realloc + 1
      items := allocResult t.items res size
      log := t.log ++ [.realloc ptr size res] }

/-- `realloc`. -/
def realloc (t : Tracer) (ptr : Nat) (size : UInt64) : Traced :=
  if ptr = 0 then t.reallocNull size
  else
    match find t.items ptr with
    | none => reallocUnknown t ptr size
    | some i =>
        if i.cnt = 0 then reallocUnknown t ptr size
        else if size = 0 then t.reallocZero ptr i
        else if size ≤ i.size then t.reallocShrink ptr size
        else t.reallocGrow ptr size i

/-- What `free` adds to `n_freeb`. -/
def freedBytes (items : List Item) (ptr : Nat) : UInt64 :=
  match find items ptr with
  | none => 0
  | some i => if i.cnt > 0 then i.size else 0

/-- `free`. -/
def free (t : Tracer) (ptr : Nat) : Traced :=
  let logged := { t with log := t.log ++ [.free ptr] }
  if ptr = 0 then ⟨none, fun _ => logged⟩
  else
    ⟨some (.free ptr), fun _ =>
      { logged with
        n_freeb := t.n_freeb + freedBytes t.items ptr
        items := dealloc t.items ptr }⟩

/-- The function for a call; `malloc` and `calloc` are those of the third part. -/
def intercept (t : Tracer) : Call → Traced
  | .malloc size => t.malloc size
  | .calloc nmemb size => t.calloc nmemb size
  | .realloc ptr size => realloc t ptr size
  | .free ptr => free t ptr

end Second

/-! ## The three logs -/

/-- The calls of the allocator and the tracer after some calls of the client, each with the
answer that it is given. -/
def replay (part : Tracer → Call → Traced) : Tracer → List (Call × Nat) →
    List (Option Request) × Tracer
  | t, [] => ([], t)
  | t, (call, res) :: rest =>
      let traced := part t call
      let later := replay part (traced.finish res) rest
      (traced.request :: later.1, later.2)

instance : DecidablePred Fault := fun _ => inferInstanceAs (Decidable (_ ∨ _))

/-- A log without its faults. -/
def plainLog (log : List LogLine) : List LogLine := log.filter fun line => ¬ Fault line

/-- The third part takes the call for a fault. -/
def Faulty (t : Tracer) : Call → Prop
  | .malloc _ | .calloc _ _ => False
  | .realloc ptr _ | .free ptr => ptr ≠ 0 ∧ Inactive t.items ptr

/-- It takes a `free` for a fault. -/
def FaultyFree (t : Tracer) : Call → Prop
  | .free ptr => Faulty t (.free ptr)
  | _ => False

/-- It takes no `free` of the run for a fault. -/
def FreesAccepted : Tracer → List (Call × Nat) → Prop
  | _, [] => True
  | t, (call, res) :: rest =>
      ¬ FaultyFree t call ∧ FreesAccepted ((intercept t call).finish res) rest

/-- The block list and the statistics are the same. -/
def BooksAgree (t t' : Tracer) : Prop := { t with log := [] } = { t' with log := [] }

/-- The logs differ in the faults only.  The first part makes the calls of the third one
exactly when there are no faults, the second part exactly when no `free` is one, and then it
has the books of the third part. -/
structure PartsAgree (events : List (Call × Nat)) : Prop where
  first : (replay First.intercept loaded.tracer events).2.log =
    plainLog (replay intercept loaded.tracer events).2.log
  second : (replay Second.intercept loaded.tracer events).2.log =
    plainLog (replay intercept loaded.tracer events).2.log
  calls : (replay First.intercept loaded.tracer events).1 =
      (replay intercept loaded.tracer events).1 ↔
    Faultless (replay intercept loaded.tracer events).2.log
  laterCalls : (replay Second.intercept loaded.tracer events).1 =
      (replay intercept loaded.tracer events).1 ↔
    FreesAccepted loaded.tracer events
  books : FreesAccepted loaded.tracer events →
    BooksAgree (replay Second.intercept loaded.tracer events).2
      (replay intercept loaded.tracer events).2

/-! ## One call -/

/-- The line of a call. -/
def Call.line : Call → Nat → LogLine
  | .malloc size, res => .malloc size res
  | .calloc nmemb size, res => .calloc nmemb size res
  | .realloc ptr size, res => .realloc ptr size res
  | .free ptr, _ => .free ptr

/-- No count is negative. -/
def Counted (items : List Item) : Prop := ∀ ptr, 0 ≤ count items ptr

section Calls

variable {t t' : Tracer} {items : List Item} {call : Call} {i : Item} {res ptr : Nat}
  {size : UInt64} {log faults : List LogLine}

theorem Call.line_plain (call : Call) (res : Nat) : ¬ Fault (call.line res) := by
  cases call <;> simp [Call.line, Fault]

theorem first_log (t : Tracer) (call : Call) (res : Nat) :
    ((First.intercept t call).finish res).log = t.log ++ [call.line res] := by
  cases call with
  | malloc size => rfl
  | calloc nmemb size => rfl
  | realloc ptr size => rfl
  | free ptr =>
      simp only [First.intercept, First.free]
      split <;> rfl

theorem second_log (t : Tracer) (call : Call) (res : Nat) :
    ((Second.intercept t call).finish res).log = t.log ++ [call.line res] := by
  cases call with
  | malloc size => rfl
  | calloc nmemb size => rfl
  | realloc ptr size =>
      simp only [Second.intercept, Second.realloc]
      split
      · rename_i null
        subst null
        rfl
      · split
        · rfl
        · split
          · rfl
          · split
            · rename_i zero
              subst zero
              rfl
            · split <;> rfl
  | free ptr =>
      simp only [Second.intercept, Second.free]
      split <;> rfl

/-- The third part logs the call and, behind it, the fault that it takes it for. -/
theorem third_log (t : Tracer) (call : Call) (res : Nat) :
    ∃ faults, ((intercept t call).finish res).log = t.log ++ call.line res :: faults ∧
      (∀ line ∈ faults, Fault line) ∧ (faults = [] ↔ ¬ Faulty t call) := by
  cases call with
  | malloc size => exact ⟨[], rfl, by simp, by simp [Faulty]⟩
  | calloc nmemb size => exact ⟨[], rfl, by simp, by simp [Faulty]⟩
  | realloc ptr size =>
      simp only [intercept]
      rcases t.realloc_cases ptr size with ⟨null, branch⟩ |
        ⟨block, inactive, fault, isFault, branch⟩ |
        ⟨i, block, found, active, ⟨zero, branch⟩ | ⟨-, -, branch⟩ | ⟨-, branch⟩⟩
      · subst null
        exact ⟨[], by rw [branch]; rfl, by simp, by simp [Faulty]⟩
      · exact ⟨[fault], by rw [branch]; rfl, by simpa using isFault,
          by simp [Faulty, block, inactive]⟩
      · subst zero
        exact ⟨[], by rw [branch]; rfl, by simp, by simp [Faulty, Inactive, found, active]⟩
      · exact ⟨[], by rw [branch]; rfl, by simp, by simp [Faulty, Inactive, found, active]⟩
      · exact ⟨[], by rw [branch]; rfl, by simp, by simp [Faulty, Inactive, found, active]⟩
  | free ptr =>
      simp only [intercept]
      rcases t.free_cases ptr with ⟨null, branch⟩ | ⟨block, inactive, fault, isFault, branch⟩ |
        ⟨i, block, found, active, branch⟩
      · exact ⟨[], by rw [branch]; rfl, by simp, by simp [Faulty, null]⟩
      · exact ⟨[fault], by rw [branch]; rfl, by simpa using isFault,
          by simp [Faulty, block, inactive]⟩
      · exact ⟨[], by rw [branch]; rfl, by simp, by simp [Faulty, Inactive, found, active]⟩

/-- The first part asks the allocator for what the client asks; of a fault the third part
does not. -/
theorem request_eq_iff (t t' : Tracer) (call : Call) :
    (First.intercept t call).request = (intercept t' call).request ↔ ¬ Faulty t' call := by
  cases call with
  | malloc size => exact iff_of_true rfl id
  | calloc nmemb size => exact iff_of_true rfl id
  | realloc ptr size =>
      simp only [First.intercept, intercept]
      rcases t'.realloc_cases ptr size with ⟨null, branch⟩ |
        ⟨block, inactive, fault, -, branch⟩ |
        ⟨i, block, found, active, ⟨zero, branch⟩ | ⟨-, -, branch⟩ | ⟨-, branch⟩⟩
      · rw [branch]
        simp [First.realloc, Tracer.reallocNull, Faulty, null]
      · rw [branch]
        simp [First.realloc, Tracer.reallocUnknown, Faulty, block, inactive]
      · rw [branch]
        simp [First.realloc, Tracer.reallocZero, Faulty, Inactive, zero, found, active]
      · rw [branch]
        simp [First.realloc, Tracer.reallocShrink, Faulty, Inactive, found, active]
      · rw [branch]
        simp [First.realloc, Tracer.reallocGrow, Faulty, Inactive, found, active]
  | free ptr =>
      simp only [First.intercept, intercept]
      rcases t'.free_cases ptr with ⟨null, branch⟩ | ⟨block, inactive, fault, -, branch⟩ |
        ⟨i, block, found, active, branch⟩
      · rw [branch]
        simp [First.free, Faulty, null]
      · rw [branch]
        simp [First.free, Faulty, block, inactive]
      · rw [branch]
        simp [First.free, Faulty, Inactive, block, found, active]

theorem Counted.found (counted : Counted items) (found : find items ptr = some i) : 0 ≤ i.cnt := by
  have here := counted ptr
  rw [count, found] at here
  exact here

theorem Counted.allocResult (counted : Counted items) (res : Nat) (size : UInt64) :
    Counted (allocResult items res size) := by
  unfold Memtrace.allocResult
  split
  · exact counted
  · intro q
    have before := counted q
    rw [count_alloc]
    split <;> omega

theorem Counted.dealloc (counted : Counted items) (found : find items ptr = some i)
    (active : i.cnt ≠ 0) : Counted (dealloc items ptr) := by
  intro q
  rw [count_dealloc found]
  split
  · rename_i here
    subst here
    have positive := counted.found found
    rw [count, found]
    simp only
    omega
  · simpa using counted q

/-- The third part gives up a block only if it is active. -/
theorem Counted.intercept (counted : Counted t.items) (call : Call) (res : Nat) :
    Counted ((intercept t call).finish res).items := by
  cases call with
  | malloc size => exact counted.allocResult res size
  | calloc nmemb size => exact counted.allocResult res (nmemb * size)
  | realloc ptr size =>
      simp only [Memtrace.intercept]
      rcases t.realloc_cases ptr size with ⟨-, branch⟩ | ⟨-, -, fault, -, branch⟩ |
        ⟨i, -, found, active, ⟨-, branch⟩ | ⟨-, -, branch⟩ | ⟨-, branch⟩⟩
      · rw [branch]
        simp only [Tracer.reallocNull]
        split
        · exact counted.allocResult res size
        · exact counted
      · rw [branch]
        exact counted.allocResult res size
      · rw [branch]
        exact counted.dealloc found active
      · rw [branch]
        exact counted
      · rw [branch]
        exact (counted.dealloc found active).allocResult res size
  | free ptr =>
      simp only [Memtrace.intercept]
      rcases t.free_cases ptr with ⟨-, branch⟩ | ⟨-, -, fault, -, branch⟩ |
        ⟨i, -, found, active, branch⟩
      · rw [branch]
        exact counted
      · rw [branch]
        exact counted
      · rw [branch]
        exact counted.dealloc found active

theorem BooksAgree.log_only (same : BooksAgree t t') : ∃ lines, t = { t' with log := lines } := by
  have books : { t with log := [] } = { t' with log := [] } := same
  exact ⟨t.log, congrArg (fun books : Tracer => { books with log := t.log }) books⟩

/-- A `realloc` of the second part is that of the third one but for the log. -/
theorem second_realloc (same : BooksAgree t t') (ptr : Nat) (size : UInt64) (res : Nat) :
    (Second.realloc t ptr size).request = (t'.realloc ptr size).request ∧
      BooksAgree ((Second.realloc t ptr size).finish res) ((t'.realloc ptr size).finish res) := by
  obtain ⟨lines, rfl⟩ := same.log_only
  unfold Second.realloc Tracer.realloc
  by_cases null : ptr = 0
  · rw [if_pos null, if_pos null]
    exact ⟨rfl, rfl⟩
  · rw [if_neg null, if_neg null]
    cases found : find t'.items ptr with
    | none => exact ⟨rfl, rfl⟩
    | some i =>
        by_cases inactive : i.cnt = 0
        · simp only [inactive, if_true]
          exact ⟨rfl, rfl⟩
        · simp only [inactive, if_false]
          by_cases zero : size = 0
          · rw [if_pos zero, if_pos zero]
            exact ⟨rfl, rfl⟩
          · rw [if_neg zero, if_neg zero]
            split
            · exact ⟨rfl, rfl⟩
            · exact ⟨rfl, rfl⟩

/-- The second part calls the allocator where the third one does, and of a `free` that
is a fault as well. -/
theorem second_request_iff (same : BooksAgree t t') (call : Call) :
    (Second.intercept t call).request = (intercept t' call).request ↔ ¬ FaultyFree t' call := by
  cases call with
  | malloc size => exact iff_of_true rfl id
  | calloc nmemb size => exact iff_of_true rfl id
  | realloc ptr size => exact iff_of_true (second_realloc same ptr size 0).1 id
  | free ptr =>
      simp only [Second.intercept, intercept, Second.free]
      rcases t'.free_cases ptr with ⟨null, branch⟩ | ⟨block, inactive, fault, -, branch⟩ |
        ⟨i, block, found, active, branch⟩
      · rw [branch]
        simp [FaultyFree, Faulty, null]
      · rw [branch]
        simp [FaultyFree, Faulty, block, inactive]
      · rw [branch]
        simp [FaultyFree, Faulty, Inactive, block, found, active]

/-- It keeps the books of the third part but for a `free` that is a fault. -/
theorem second_books (same : BooksAgree t t') (counted : Counted t'.items)
    (accepted : ¬ FaultyFree t' call) (res : Nat) :
    BooksAgree ((Second.intercept t call).finish res) ((intercept t' call).finish res) := by
  cases call with
  | malloc size =>
      obtain ⟨lines, rfl⟩ := same.log_only
      rfl
  | calloc nmemb size =>
      obtain ⟨lines, rfl⟩ := same.log_only
      rfl
  | realloc ptr size => exact (second_realloc same ptr size res).2
  | free ptr =>
      obtain ⟨lines, rfl⟩ := same.log_only
      simp only [intercept]
      rcases t'.free_cases ptr with ⟨null, branch⟩ | ⟨block, inactive, fault, -, branch⟩ |
        ⟨i, block, found, active, branch⟩
      · rw [branch]
        simp [Second.intercept, Second.free, BooksAgree, null]
      · exact absurd ⟨block, inactive⟩ accepted
      · have natural := counted.found found
        have positive : i.cnt > 0 := by omega
        rw [branch]
        simp [Second.intercept, Second.free, BooksAgree, Second.freedBytes, block, found, positive]

end Calls

/-! ## Runs -/

section Replays

variable {t t' : Tracer} {call : Call} {res : Nat}

theorem faultless_iff (log : List LogLine) : Faultless log ↔ ∀ line ∈ log, ¬ Fault line := by
  constructor
  · rintro ⟨illegal, double⟩ line member (rfl | rfl)
    · exact illegal member
    · exact double member
  · intro plain
    exact ⟨fun member => plain _ member (.inl rfl), fun member => plain _ member (.inr rfl)⟩

theorem plainLog_step (t : Tracer) (call : Call) (res : Nat) :
    plainLog ((intercept t call).finish res).log = plainLog t.log ++ [call.line res] := by
  obtain ⟨faults, log, areFaults, -⟩ := third_log t call res
  have dropped : plainLog faults = [] := by
    apply List.filter_eq_nil_iff.mpr
    intro line member
    simpa using areFaults line member
  unfold plainLog at dropped ⊢
  rw [log, List.filter_append, List.filter_cons_of_pos (by simpa using call.line_plain res),
    dropped]

theorem faultless_step (t : Tracer) (call : Call) (res : Nat) :
    Faultless ((intercept t call).finish res).log ↔ Faultless t.log ∧ ¬ Faulty t call := by
  obtain ⟨faults, log, areFaults, none⟩ := third_log t call res
  rw [log, faultless_iff, faultless_iff, ← none]
  constructor
  · intro plain
    refine ⟨fun line member => plain line (List.mem_append_left _ member), ?_⟩
    cases faults with
    | nil => rfl
    | cons fault rest =>
        exact absurd (areFaults fault List.mem_cons_self) (plain fault (by simp))
  · rintro ⟨plain, rfl⟩ line member
    rcases List.mem_append.mp member with old | new
    · exact plain line old
    · rw [List.mem_singleton.mp new]
      exact call.line_plain res

/-- The logs of two parts that log the same of every call stay related. -/
theorem replay_logs {part : Tracer → Call → Traced}
    (logs : ∀ t call res, ((part t call).finish res).log = t.log ++ [call.line res])
    (events : List (Call × Nat)) (same : t.log = plainLog t'.log) :
    (replay part t events).2.log = plainLog (replay intercept t' events).2.log := by
  induction events generalizing t t' with
  | nil => exact same
  | cons event rest ih =>
      obtain ⟨call, res⟩ := event
      apply ih
      rw [logs, plainLog_step, same]

/-- A fault stays in the log. -/
theorem replay_faultless (events : List (Call × Nat))
    (faultless : Faultless (replay intercept t events).2.log) : Faultless t.log := by
  induction events generalizing t with
  | nil => exact faultless
  | cons event rest ih => exact ((faultless_step t event.1 event.2).mp (ih faultless)).1

theorem replay_requests (events : List (Call × Nat)) (faultless : Faultless t'.log) :
    (replay First.intercept t events).1 = (replay intercept t' events).1 ↔
      Faultless (replay intercept t' events).2.log := by
  induction events generalizing t t' with
  | nil => exact iff_of_true rfl faultless
  | cons event rest ih =>
      obtain ⟨call, res⟩ := event
      simp only [replay, List.cons.injEq, request_eq_iff]
      constructor
      · rintro ⟨accepted, later⟩
        exact (ih ((faultless_step t' call res).mpr ⟨faultless, accepted⟩)).mp later
      · intro plain
        have next := replay_faultless rest plain
        exact ⟨((faultless_step t' call res).mp next).2, (ih next).mpr plain⟩

theorem replay_second (events : List (Call × Nat)) (same : BooksAgree t t')
    (counted : Counted t'.items) :
    ((replay Second.intercept t events).1 = (replay intercept t' events).1 ↔
        FreesAccepted t' events) ∧
      (FreesAccepted t' events →
        BooksAgree (replay Second.intercept t events).2 (replay intercept t' events).2) := by
  induction events generalizing t t' with
  | nil => exact ⟨iff_of_true rfl trivial, fun _ => same⟩
  | cons event rest ih =>
      obtain ⟨call, res⟩ := event
      have later := counted.intercept call res
      simp only [replay, FreesAccepted, List.cons.injEq, second_request_iff same]
      constructor
      · refine and_congr_right fun accepted => ?_
        exact (ih (second_books same counted accepted res) later).1
      · rintro ⟨accepted, further⟩
        exact (ih (second_books same counted accepted res) later).2 further

end Replays

theorem counted_loaded : Counted loaded.tracer.items := fun _ => Int.le_refl 0

end SysProg.Memtrace

import Mathlib.Algebra.Group.Int.Defs
import Mathlib.Algebra.Group.Nat.Defs
import Mathlib.Data.List.FinRange
import Mathlib.Logic.Function.Basic
import SysProg.Logic.Runs

/-!
# The job table of `tsh.c`

A table of `MAXJOBS` slots with the counter `nextjid`.  Every loop over the
table stops at the first slot that fits.  `int` values are taken modulo
`2 ^ 32`.
-/

namespace SysProg.Shell

open Logic Machine

def MAXJOBS : Nat := 16

/-- The state of a job: undefined, foreground, background, stopped. -/
inductive JobState where
  | UNDEF
  | FG
  | BG
  | ST
  deriving DecidableEq

/-- `struct job_t`. -/
structure Job where
  pid : Int
  jid : Int
  state : JobState
  cmdline : String
  deriving DecidableEq

/-- The globals `jobs` and `nextjid`. -/
structure JobTable where
  jobs : Fin MAXJOBS → Job
  nextjid : Int

/-- The value an `int` takes for a mathematical integer. -/
def int32 (x : Int) : Int := (x + 2 ^ 31) % 2 ^ 32 - 2 ^ 31

/-- A cleared slot, as `clearjob` leaves it. -/
def clearjob : Job := ⟨0, 0, .UNDEF, ""⟩

/-- `initjobs`, with `nextjid` at its initial value. -/
def initjobs : JobTable := ⟨fun _ => clearjob, 1⟩

/-- The first slot with a property. -/
def firstSlot (jobs : Fin MAXJOBS → Job) (p : Job → Bool) : Option (Fin MAXJOBS) :=
  (List.finRange MAXJOBS).find? fun i => p (jobs i)

/-- `maxjid`. -/
def maxjid (jobs : Fin MAXJOBS → Job) : Int :=
  (List.finRange MAXJOBS).foldl (fun max i => if (jobs i).jid > max then (jobs i).jid else max) 0

/-- `addjob`: the new table and the returned value. -/
def addjob (t : JobTable) (pid : Int) (state : JobState) (cmdline : String) : JobTable × Int :=
  if pid < 1 then (t, 0)
  else
    match firstSlot t.jobs fun j => j.pid = 0 with
    | none => (t, 0)
    | some i =>
        let nextjid := int32 (t.nextjid + 1)
        ({ jobs := Function.update t.jobs i ⟨pid, t.nextjid, state, cmdline⟩
           nextjid := if nextjid > MAXJOBS then 1 else nextjid }, 1)

/-- `deletejob`: the new table and the returned value. -/
def deletejob (t : JobTable) (pid : Int) : JobTable × Int :=
  if pid < 1 then (t, 0)
  else
    match firstSlot t.jobs fun j => j.pid = pid with
    | none => (t, 0)
    | some i =>
        let jobs := Function.update t.jobs i clearjob
        ({ jobs := jobs, nextjid := int32 (maxjid jobs + 1) }, 1)

/-- `fgpid`. -/
def fgpid (t : JobTable) : Int :=
  match firstSlot t.jobs fun j => j.state = .FG with
  | none => 0
  | some i => (t.jobs i).pid

/-- `getjobpid`. -/
def getjobpid (t : JobTable) (pid : Int) : Option (Fin MAXJOBS) :=
  if pid < 1 then none else firstSlot t.jobs fun j => j.pid = pid

/-- `getjobjid`. -/
def getjobjid (t : JobTable) (jid : Int) : Option (Fin MAXJOBS) :=
  if jid < 1 then none else firstSlot t.jobs fun j => j.jid = jid

/-- `pid2jid`. -/
def pid2jid (t : JobTable) (pid : Int) : Int :=
  if pid < 1 then 0
  else
    match firstSlot t.jobs fun j => j.pid = pid with
    | none => 0
    | some i => (t.jobs i).jid

/-! ## The first slot -/

section FirstSlot

variable {jobs : Fin MAXJOBS → Job} {p : Job → Bool} {i : Fin MAXJOBS}

theorem firstSlot_some (found : firstSlot jobs p = some i) : p (jobs i) = true := by
  unfold firstSlot at found
  have holds := List.find?_some found
  exact holds

theorem firstSlot_none : firstSlot jobs p = none ↔ ∀ i, p (jobs i) = false := by
  simp [firstSlot]

theorem firstSlot_isSome (holds : p (jobs i) = true) : ∃ j, firstSlot jobs p = some j := by
  cases found : firstSlot jobs p with
  | none =>
      rw [firstSlot_none.mp found i] at holds
      cases holds
  | some j => exact ⟨j, rfl⟩

end FirstSlot

/-! ## The largest identifier -/

section Maximum

variable {jobs : Fin MAXJOBS → Job}

/-- The loop of `maxjid` over some of the slots. -/
theorem maxjid_loop (slots : List (Fin MAXJOBS)) (start : Int) :
    let result := slots.foldl (fun max i => if (jobs i).jid > max then (jobs i).jid else max) start
    start ≤ result ∧ (∀ i ∈ slots, (jobs i).jid ≤ result) ∧
      (result = start ∨ ∃ i ∈ slots, (jobs i).jid = result) := by
  induction slots generalizing start with
  | nil => exact ⟨Int.le_refl _, fun _ member => (nomatch member), .inl rfl⟩
  | cons i slots ih =>
      obtain ⟨above, all, attained⟩ := ih (if (jobs i).jid > start then (jobs i).jid else start)
      simp only [List.foldl_cons]
      refine ⟨by omega, ?_, ?_⟩
      · intro j member
        rcases List.mem_cons.mp member with rfl | later
        · omega
        · exact all j later
      · rcases attained with same | ⟨j, later, same⟩
        · by_cases more : (jobs i).jid > start
          · rw [if_pos more] at same ⊢
            exact .inr ⟨i, List.mem_cons_self, same.symm⟩
          · rw [if_neg more] at same ⊢
            exact .inl same
        · exact .inr ⟨j, List.mem_cons_of_mem _ later, same⟩

theorem le_maxjid (i : Fin MAXJOBS) : (jobs i).jid ≤ maxjid jobs :=
  (maxjid_loop _ 0).2.1 i (List.mem_finRange i)

theorem maxjid_attained : 0 ≤ maxjid jobs ∧ (maxjid jobs = 0 ∨ ∃ i, (jobs i).jid = maxjid jobs) := by
  obtain ⟨above, -, attained⟩ := @maxjid_loop jobs (List.finRange MAXJOBS) 0
  exact ⟨above, attained.imp_right fun ⟨i, _, same⟩ => ⟨i, same⟩⟩

end Maximum

/-! ## Job identifiers -/

/-- A call of `addjob` or `deletejob`. -/
inductive JobCall where
  | add (pid : Int) (state : JobState) (cmdline : String)
  | delete (pid : Int)

/-- A pid that is added is positive and not in the table. -/
def JobCall.Valid (t : JobTable) : JobCall → Prop
  | .add pid _ _ => 1 ≤ pid ∧ ∀ i, (t.jobs i).pid ≠ pid
  | .delete _ => True

/-- The table after a call. -/
def jobCall (t : JobTable) : JobCall → JobTable
  | .add pid state cmdline => (addjob t pid state cmdline).1
  | .delete pid => (deletejob t pid).1

/-- All sequences of calls from `initjobs` on. -/
def jobCalls : Machine JobTable JobCall where
  init t := t = initjobs
  step t e t' := e.Valid t ∧ jobCall t e = t'

/-- The jobs have distinct positive identifiers, so an identifier denotes at
most one job. -/
structure UniqueIds (t : JobTable) : Prop where
  distinct : ∀ i j, (t.jobs i).pid ≠ 0 → (t.jobs j).pid ≠ 0 → (t.jobs i).jid = (t.jobs j).jid → i = j
  positive : ∀ i, (t.jobs i).pid ≠ 0 → 1 ≤ (t.jobs i).jid
  denotes : ∀ jid i j, 1 ≤ jid → (t.jobs i).jid = jid → (t.jobs j).jid = jid → i = j

/-- The identifier that an accepted job would get is positive and unused. -/
def NextUnused (t : JobTable) : JobCall → Prop
  | .add _ _ _ => (∃ i, (t.jobs i).pid = 0) →
      1 ≤ t.nextjid ∧ ∀ i, (t.jobs i).pid ≠ 0 → (t.jobs i).jid ≠ t.nextjid
  | .delete _ => True

/-- Moreover free slots have no identifier. -/
structure Identified (t : JobTable) : Prop where
  distinct : ∀ i j, (t.jobs i).pid ≠ 0 → (t.jobs j).pid ≠ 0 → (t.jobs i).jid = (t.jobs j).jid → i = j
  positive : ∀ i, (t.jobs i).pid ≠ 0 → 1 ≤ (t.jobs i).jid
  free : ∀ i, (t.jobs i).pid = 0 → (t.jobs i).jid = 0

theorem Identified.unique {t : JobTable} (ids : Identified t) : UniqueIds t where
  distinct := ids.distinct
  positive := ids.positive
  denotes jid i j lower first second := by
    have occupied : ∀ k, (t.jobs k).jid = jid → (t.jobs k).pid ≠ 0 := by
      intro k same none
      have zero := ids.free k none
      omega
    exact ids.distinct i j (occupied i first) (occupied j second) (first.trans second.symm)

/-- `nextjid++`, and back to 1 above `MAXJOBS`. -/
def following (jid : Int) : Int := if int32 (jid + 1) > MAXJOBS then 1 else int32 (jid + 1)

/-- `addjob` of a positive pid takes the first free slot. -/
theorem addjob_slot {t : JobTable} {pid : Int} (state : JobState) (cmdline : String)
    (positive : 1 ≤ pid) :
    ((∀ i, (t.jobs i).pid ≠ 0) ∧ addjob t pid state cmdline = (t, 0)) ∨
      ∃ i, (t.jobs i).pid = 0 ∧ addjob t pid state cmdline =
        (⟨Function.update t.jobs i ⟨pid, t.nextjid, state, cmdline⟩, following t.nextjid⟩, 1) := by
  unfold addjob
  rw [if_neg (by omega)]
  cases found : firstSlot t.jobs fun j => j.pid = 0 with
  | none =>
      refine .inl ⟨fun i => ?_, rfl⟩
      simpa using firstSlot_none.mp found i
  | some i => exact .inr ⟨i, by simpa using firstSlot_some found, rfl⟩

/-- `deletejob` clears the slot of the pid. -/
theorem deletejob_slot (t : JobTable) (pid : Int) :
    (deletejob t pid = (t, 0) ∧ (1 ≤ pid → ∀ i, (t.jobs i).pid ≠ pid)) ∨
      ∃ i, 1 ≤ pid ∧ (t.jobs i).pid = pid ∧ deletejob t pid =
        (⟨Function.update t.jobs i clearjob,
          int32 (maxjid (Function.update t.jobs i clearjob) + 1)⟩, 1) := by
  unfold deletejob
  by_cases low : pid < 1
  · rw [if_pos low]
    exact .inl ⟨rfl, fun positive => absurd positive (by omega)⟩
  · rw [if_neg low]
    cases found : firstSlot t.jobs fun j => j.pid = pid with
    | none =>
        refine .inl ⟨rfl, fun _ i => ?_⟩
        simpa using firstSlot_none.mp found i
    | some i => exact .inr ⟨i, by omega, by simpa using firstSlot_some found, rfl⟩

/-- What `addjob` of a positive pid does. -/
theorem addjob_cases {t : JobTable} {pid : Int} (state : JobState) (cmdline : String)
    (positive : 1 ≤ pid) :
    ((∀ i, (t.jobs i).pid ≠ 0) ∧ addjob t pid state cmdline = (t, 0)) ∨
      ∃ i nextjid, (t.jobs i).pid = 0 ∧ addjob t pid state cmdline =
        (⟨Function.update t.jobs i ⟨pid, t.nextjid, state, cmdline⟩, nextjid⟩, 1) :=
  (addjob_slot state cmdline positive).imp_right fun ⟨i, added⟩ => ⟨i, _, added⟩

/-- What `deletejob` does. -/
theorem deletejob_cases (t : JobTable) (pid : Int) :
    (deletejob t pid = (t, 0) ∧ (1 ≤ pid → ∀ i, (t.jobs i).pid ≠ pid)) ∨
      ∃ i nextjid, 1 ≤ pid ∧ (t.jobs i).pid = pid ∧
        deletejob t pid = (⟨Function.update t.jobs i clearjob, nextjid⟩, 1) :=
  (deletejob_slot t pid).imp_right fun ⟨i, deleted⟩ => ⟨i, _, deleted⟩

/-- Clearing a slot keeps the identifiers of the others. -/
theorem Identified.clear {t : JobTable} (ids : Identified t) (i : Fin MAXJOBS) (nextjid : Int) :
    Identified ⟨Function.update t.jobs i clearjob, nextjid⟩ where
  distinct j k := by
    by_cases here : j = i
    · subst here
      simp [clearjob]
    · by_cases there : k = i
      · subst there
        simp [clearjob]
      · simp only [Function.update_of_ne here, Function.update_of_ne there]
        exact ids.distinct j k
  positive j := by
    by_cases here : j = i
    · subst here
      simp [clearjob]
    · simp only [Function.update_of_ne here]
      exact ids.positive j
  free j := by
    by_cases here : j = i
    · subst here
      simp [clearjob]
    · simp only [Function.update_of_ne here]
      exact ids.free j

/-- An unused positive identifier keeps the identifiers distinct. -/
theorem Identified.add {t : JobTable} (ids : Identified t) {pid : Int} {state : JobState}
    {cmdline : String} (i : Fin MAXJOBS) (nextjid : Int) (occupied : 1 ≤ pid)
    (positive : 1 ≤ t.nextjid) (unused : ∀ j, (t.jobs j).pid ≠ 0 → (t.jobs j).jid ≠ t.nextjid) :
    Identified ⟨Function.update t.jobs i ⟨pid, t.nextjid, state, cmdline⟩, nextjid⟩ where
  distinct j k := by
    by_cases here : j = i
    · subst here
      by_cases there : k = j
      · intro _ _ _
        exact there.symm
      · simp only [Function.update_self, Function.update_of_ne there]
        intro _ taken same
        exact absurd same.symm (unused k taken)
    · by_cases there : k = i
      · subst there
        simp only [Function.update_self, Function.update_of_ne here]
        intro taken _ same
        exact absurd same (unused j taken)
      · simp only [Function.update_of_ne here, Function.update_of_ne there]
        exact ids.distinct j k
  positive j := by
    by_cases here : j = i
    · subst here
      simp [positive]
    · simp only [Function.update_of_ne here]
      exact ids.positive j
  free j := by
    by_cases here : j = i
    · subst here
      simp only [Function.update_self]
      intro none
      omega
    · simp only [Function.update_of_ne here]
      exact ids.free j

theorem Identified.keeps {t t' : JobTable} {e : JobCall} (ids : Identified t)
    (condition : NextUnused t e) (step : jobCalls.step t e t') : Identified t' := by
  obtain ⟨valid, rfl⟩ := step
  cases e with
  | add pid state cmdline =>
      rcases addjob_cases state cmdline valid.1 with ⟨-, same⟩ | ⟨i, nextjid, free, added⟩
      · rw [jobCall, same]
        exact ids
      · obtain ⟨positive, unused⟩ := condition ⟨i, free⟩
        rw [jobCall, added]
        exact ids.add i nextjid valid.1 positive unused
  | delete pid =>
      rcases deletejob_cases t pid with ⟨same, -⟩ | ⟨i, nextjid, -, -, deleted⟩
      · rw [jobCall, same]
        exact ids
      · rw [jobCall, deleted]
        exact ids.clear i nextjid

/-- A job that gets a used or a nonpositive identifier breaks uniqueness. -/
theorem not_uniqueIds {t t' : JobTable} {e : JobCall} (against : ¬ NextUnused t e)
    (step : jobCalls.step t e t') : ¬ UniqueIds t' := by
  obtain ⟨valid, rfl⟩ := step
  intro unique
  cases e with
  | add pid state cmdline =>
      rcases addjob_cases state cmdline valid.1 with ⟨full, -⟩ | ⟨i, nextjid, free, added⟩
      · exact against fun ⟨i, free⟩ => absurd free (full i)
      · rw [jobCall, added] at unique
        have occupied : pid ≠ 0 := by
          have positive := valid.1
          omega
        refine against fun _ => ⟨?_, ?_⟩
        · have positive := unique.positive i
          simp only [Function.update_self] at positive
          exact positive occupied
        · intro j taken same
          have differ : j ≠ i := by
            rintro rfl
            exact taken free
          have equal := unique.distinct j i
          simp only [Function.update_self, Function.update_of_ne differ] at equal
          exact differ (equal taken occupied same)
  | delete pid => exact against trivial

/-! ## The next identifier -/

/-- The pid of the job that was added last, unless a job has been deleted since. -/
def lastAdded : List (JobTable × JobCall) → Option Int
  | [] => none
  | (t, .add pid _ _) :: past => if ∃ i, (t.jobs i).pid = 0 then some pid else lastAdded past
  | (t, .delete pid) :: past =>
      if 1 ≤ pid ∧ ∃ i, (t.jobs i).pid = pid then none else lastAdded past

/-- After a deletion no job has the largest `int` as its identifier.  After another
job was added, with the identifier `n`, no job has the identifier `n + 1`, or 1
where `n` is `MAXJOBS` or more. -/
def IdUnused (past : List (JobTable × JobCall)) (t : JobTable) : JobCall → Prop
  | .add _ _ _ => (∃ i, (t.jobs i).pid = 0) →
      match lastAdded past with
      | none => ∀ i, (t.jobs i).jid < 2 ^ 31 - 1
      | some pid => ∀ i, (t.jobs i).pid = pid → (t.jobs i).jid < 2 ^ 31 - 1 ∧
          ∀ j, (t.jobs j).pid ≠ 0 →
            (t.jobs j).jid ≠ if (t.jobs i).jid < MAXJOBS then (t.jobs i).jid + 1 else 1
  | .delete _ => True

/-- How `nextjid` comes from the jobs and the calls so far. -/
def NextFollows (past : List (JobTable × JobCall)) (t : JobTable) : Prop :=
  match lastAdded past with
  | none => t.nextjid = int32 (maxjid t.jobs + 1)
  | some pid => (∃ i, (t.jobs i).pid = pid) ∧
      ∀ i, (t.jobs i).pid = pid → t.nextjid = following (t.jobs i).jid

/-- The invariant of the calls that find an unused identifier. -/
structure Counted (past : List (JobTable × JobCall)) (t : JobTable) : Prop where
  ids : Identified t
  small : ∀ i, (t.jobs i).jid < 2 ^ 31
  next : NextFollows past t

theorem int32_small {x : Int} (lower : 0 ≤ x) (upper : x < 2 ^ 31 - 1) : int32 (x + 1) = x + 1 := by
  unfold int32
  omega

theorem int32_bound (x : Int) : int32 x < 2 ^ 31 := by
  unfold int32
  omega

theorem following_eq {jid : Int} (lower : 0 ≤ jid) (upper : jid < 2 ^ 31 - 1) :
    following jid = if jid < MAXJOBS then jid + 1 else 1 := by
  unfold following
  rw [int32_small lower upper]
  split <;> split <;> omega

namespace Counted

variable {past : List (JobTable × JobCall)} {t t' : JobTable} {e : JobCall}

/-- After a deletion. -/
theorem unused_deleted (counted : Counted past t) (deleted : lastAdded past = none) :
    (∀ i, (t.jobs i).jid < 2 ^ 31 - 1) ↔
      1 ≤ t.nextjid ∧ ∀ i, (t.jobs i).pid ≠ 0 → (t.jobs i).jid ≠ t.nextjid := by
  have next := counted.next
  rw [NextFollows, deleted] at next
  obtain ⟨lower, attained⟩ := @maxjid_attained t.jobs
  rw [show t.nextjid = int32 (maxjid t.jobs + 1) from next]
  constructor
  · intro small
    have upper : maxjid t.jobs < 2 ^ 31 - 1 := by
      rcases attained with zero | ⟨i, same⟩
      · omega
      · exact same ▸ small i
    rw [int32_small lower upper]
    refine ⟨by omega, fun i _ => ?_⟩
    have least := @le_maxjid t.jobs i
    omega
  · rintro ⟨positive, -⟩ i
    by_contra large
    have least := @le_maxjid t.jobs i
    have bounded : maxjid t.jobs < 2 ^ 31 := by
      rcases attained with zero | ⟨j, same⟩
      · omega
      · exact same ▸ counted.small j
    unfold int32 at positive
    omega

/-- After another job was added. -/
theorem unused_added (counted : Counted past t) {pid : Int} (added : lastAdded past = some pid) :
    (∀ i, (t.jobs i).pid = pid → (t.jobs i).jid < 2 ^ 31 - 1 ∧ ∀ j, (t.jobs j).pid ≠ 0 →
        (t.jobs j).jid ≠ if (t.jobs i).jid < MAXJOBS then (t.jobs i).jid + 1 else 1) ↔
      1 ≤ t.nextjid ∧ ∀ i, (t.jobs i).pid ≠ 0 → (t.jobs i).jid ≠ t.nextjid := by
  have next := counted.next
  rw [NextFollows, added] at next
  obtain ⟨⟨i, here⟩, next⟩ := next
  have lower : ∀ i, 0 ≤ (t.jobs i).jid := by
    intro i
    by_cases free : (t.jobs i).pid = 0
    · exact (counted.ids.free i free).ge
    · have positive := counted.ids.positive i free
      omega
  constructor
  · intro unused
    obtain ⟨upper, others⟩ := unused i here
    rw [next i here, following_eq (lower i) upper]
    have above := lower i
    exact ⟨by split <;> omega, others⟩
  · rintro ⟨positive, others⟩ j there
    rw [next j there] at positive others
    have upper : (t.jobs j).jid < 2 ^ 31 - 1 := by
      have small := counted.small j
      have above := lower j
      unfold following int32 at positive
      omega
    rw [following_eq (lower j) upper] at others
    exact ⟨upper, others⟩

/-- The conditions on the calls and on the counter are the same. -/
theorem unused_iff (counted : Counted past t) : IdUnused past t e ↔ NextUnused t e := by
  cases e with
  | delete pid => exact Iff.rfl
  | add pid state cmdline =>
      unfold IdUnused NextUnused
      apply forall_congr'
      intro _
      cases last : lastAdded past with
      | none => exact counted.unused_deleted last
      | some pid => exact counted.unused_added last

theorem nextjid_small (counted : Counted past t) : t.nextjid < 2 ^ 31 := by
  have next := counted.next
  unfold NextFollows at next
  split at next
  · rw [next]
    exact int32_bound _
  · obtain ⟨⟨i, here⟩, next⟩ := next
    rw [next i here, following]
    have bound := int32_bound ((t.jobs i).jid + 1)
    split <;> omega

/-- A call that leaves the table alone. -/
theorem idle (counted : Counted past t) (same : lastAdded ((t, e) :: past) = lastAdded past) :
    Counted ((t, e) :: past) t := by
  refine ⟨counted.ids, counted.small, ?_⟩
  rw [NextFollows, same]
  exact counted.next

/-- A job is added. -/
theorem add {i : Fin MAXJOBS} {pid : Int} {state : JobState} {cmdline : String}
    (counted : Counted past t) (valid : (JobCall.add pid state cmdline).Valid t)
    (free : (t.jobs i).pid = 0) (unused : NextUnused t (.add pid state cmdline)) :
    Counted ((t, .add pid state cmdline) :: past)
      ⟨Function.update t.jobs i ⟨pid, t.nextjid, state, cmdline⟩, following t.nextjid⟩ where
  ids := by
    obtain ⟨positive, others⟩ := unused ⟨i, free⟩
    exact counted.ids.add i _ valid.1 positive others
  small j := by
    by_cases here : j = i
    · subst here
      simp only [Function.update_self]
      exact counted.nextjid_small
    · simp only [Function.update_of_ne here]
      exact counted.small j
  next := by
    rw [NextFollows, lastAdded, if_pos ⟨i, free⟩]
    refine ⟨⟨i, by simp⟩, fun j there => ?_⟩
    have here : j = i := by
      by_contra other
      simp only [Function.update_of_ne other] at there
      exact valid.2 j there
    subst here
    simp

/-- A job is deleted. -/
theorem delete {i : Fin MAXJOBS} {pid : Int} (counted : Counted past t) (positive : 1 ≤ pid)
    (there : (t.jobs i).pid = pid) :
    Counted ((t, .delete pid) :: past) ⟨Function.update t.jobs i clearjob,
      int32 (maxjid (Function.update t.jobs i clearjob) + 1)⟩ where
  ids := counted.ids.clear i _
  small j := by
    by_cases here : j = i
    · subst here
      simp [clearjob]
    · simp only [Function.update_of_ne here]
      exact counted.small j
  next := by
    rw [NextFollows, lastAdded, if_pos ⟨positive, i, there⟩]

theorem keeps (counted : Counted past t) (condition : IdUnused past t e)
    (step : jobCalls.step t e t') : Counted ((t, e) :: past) t' := by
  have unused := counted.unused_iff.mp condition
  obtain ⟨valid, rfl⟩ := step
  cases e with
  | add pid state cmdline =>
      rcases addjob_slot state cmdline valid.1 with ⟨full, same⟩ | ⟨i, free, added⟩
      · rw [jobCall, same]
        apply counted.idle
        exact if_neg fun ⟨i, free⟩ => full i free
      · rw [jobCall, added]
        exact counted.add valid free unused
  | delete pid =>
      rcases deletejob_slot t pid with ⟨same, absent⟩ | ⟨i, positive, there, deleted⟩
      · rw [jobCall, same]
        apply counted.idle
        exact if_neg fun ⟨positive, i, there⟩ => absent positive i there
      · rw [jobCall, deleted]
        exact counted.delete positive there

theorem start : Counted [] initjobs where
  ids := ⟨fun i j taken => absurd rfl taken, fun i taken => absurd rfl taken, fun _ _ => rfl⟩
  small _ := by
    show (0 : Int) < _
    omega
  next := by
    show initjobs.nextjid = int32 (maxjid initjobs.jobs + 1)
    decide

end Counted

/-- In a run of calls the jobs have distinct positive identifiers throughout
exactly when no accepted job meets a live one with the identifier that follows
that of the job added last, or with the largest one after a deletion. -/
theorem uniqueIds_iff {past : List (JobTable × JobCall)} {t : JobTable}
    (run : jobCalls.Run past t) : Throughout UniqueIds past t ↔ AllAfter IdUnused past := by
  refine run.exactAfter (I := Counted) ?_ (fun _ _ counted => counted.ids.unique)
    (fun _ _ _ _ counted condition step => counted.keeps condition step) ?_
  · rintro t rfl
    exact .start
  · intro past s e t counted against step
    exact not_uniqueIds (fun unused => against (counted.unused_iff.mpr unused)) step

instance (t : JobTable) : (e : JobCall) → Decidable (e.Valid t)
  | .add _ _ _ => inferInstanceAs (Decidable (_ ∧ _))
  | .delete _ => inferInstanceAs (Decidable True)

/-- A call that is made only when it is valid. -/
def validCall (t : JobTable) (e : JobCall) : Option JobTable :=
  if e.Valid t then some (jobCall t e) else none

theorem step_of_validCall {t t' : JobTable} {e : JobCall} (taken : validCall t e = some t') :
    jobCalls.step t e t' := by
  unfold validCall at taken
  split at taken
  · rename_i valid
    cases taken
    exact ⟨valid, rfl⟩
  · cases taken

/-- Two jobs, of which the first one ends, and a third one. -/
def threeJobs : List JobCall :=
  [.add 100 .BG "sleep 1 &", .add 101 .BG "sleep 2 &", .delete 100, .add 102 .FG "ls"]

theorem uniqueIds_iff_threeJobs :
    Throughout UniqueIds (record validCall [] initjobs threeJobs).1
        (record validCall [] initjobs threeJobs).2 ↔
      AllAfter IdUnused (record validCall [] initjobs threeJobs).1 :=
  uniqueIds_iff (Run.of_record (.start rfl) (fun _ _ _ taken => step_of_validCall taken) _)

/-- Sixteen jobs, of which two end, and two more. -/
def wrappingCalls : List JobCall :=
  ((List.range 16).map fun k => .add (k + 1) .BG "") ++
    [.delete 5, .delete 6, .add 17 .BG "", .add 18 .BG ""]

/-- The last of these jobs gets the identifier 1 of the first one. -/
theorem ids_collide : ¬ ∀ past t, jobCalls.Run past t → UniqueIds t := by
  intro claimed
  have ends : (replay validCall initjobs wrappingCalls).map
      (fun t => (t.jobs ⟨0, by decide⟩, t.jobs ⟨5, by decide⟩)) =
      some (⟨1, 1, .BG, ""⟩, ⟨18, 1, .BG, ""⟩) := by decide +kernel
  obtain ⟨t, played, shape⟩ := Option.map_eq_some_iff.mp ends
  obtain ⟨past, run⟩ := Run.of_replay (M := jobCalls) (.start rfl)
    (fun _ _ _ _ taken => step_of_validCall taken) played
  obtain ⟨first, second⟩ := Prod.mk.inj shape
  have same := (claimed past t run).distinct ⟨0, by decide⟩ ⟨5, by decide⟩
  rw [first, second] at same
  exact absurd (same (by decide) (by decide) rfl) (by decide)

end SysProg.Shell

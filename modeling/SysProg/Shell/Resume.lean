import SysProg.Shell.Steps

/-!
# `fg` and `bg` act on the job they name

Between its lookup and the block, and between the unblock and the reading of
`job->pid` for `waitfg`, `do_bgfg` holds a slot while `sigchld_handler` may
run.  If no handler collects the end of the named process there, every
action goes to the named process and the shell never waits for nothing.
-/

namespace SysProg.Shell

open Logic Machine

/-! ## The property and the condition -/

/-- The argument of `waitfg` while it is inside its loop. -/
def Pc.waiting : Pc → Option Int
  | .waitLoop pid | .suspended pid => some pid
  | _ => none

/-- `SIGCONT`, the state and `waitfg` have gone to the named processes; a slot
without a pid is undefined; the loop guard of `waitfg` is true only while some
job is in the foreground. -/
structure ActsOnNamed (s : ShellState) : Prop where
  effects : ∀ e ∈ s.effects, e.target = e.named
  undefined : ∀ i, (s.table.jobs i).pid = 0 → (s.table.jobs i).state = .UNDEF
  waits : ∀ pid, s.pc.waiting = some pid → pid = fgpid s.table →
    ∃ i, (s.table.jobs i).pid ≠ 0 ∧ (s.table.jobs i).state = .FG

/-- The pid that an unprotected slot of `do_bgfg` belongs to. -/
def Pc.held : Pc → Option Int
  | .resolved _ _ named | .foregrounded _ named => some named
  | _ => none

/-- Whether a child with this status is gone. -/
def Status.ends : Status → Bool
  | .stopped _ => false
  | _ => true

/-- While `do_bgfg` holds an unprotected slot, `sigchld_handler` does not
collect the end of the process that the operand named. -/
def Undisturbed (s : ShellState) : Event → Prop
  | .sigchld order => ∀ report ∈ order, s.pc.held = some report.1 → report.2.ends = false
  | _ => True

instance (s : ShellState) : (e : Event) → Decidable (Undisturbed s e)
  | .sigchld order => inferInstanceAs (Decidable (∀ report ∈ order, _ → _))
  | .command _ | .fork _ | .forkFails | .step | .interrupt _ | .forward | .setpgid _ | .stops ..
  | .continues _ | .ends .. => inferInstanceAs (Decidable True)

/-! ## Facts about the table -/

/-- Free slots are cleared. -/
def Cleared (t : JobTable) : Prop :=
  ∀ i, (t.jobs i).pid = 0 → (t.jobs i).jid = 0 ∧ (t.jobs i).state = .UNDEF

section Table

variable {t : JobTable} {pid : Int} {i : Fin MAXJOBS}

theorem getjobpid_some (found : getjobpid t pid = some i) : 1 ≤ pid ∧ (t.jobs i).pid = pid := by
  unfold getjobpid at found
  split at found
  · cases found
  · exact ⟨by omega, by simpa using firstSlot_some found⟩

theorem getjobjid_some {jid : Int} (found : getjobjid t jid = some i) :
    1 ≤ jid ∧ (t.jobs i).jid = jid := by
  unfold getjobjid at found
  split at found
  · cases found
  · exact ⟨by omega, by simpa using firstSlot_some found⟩

/-- A pid other than 0 that `fgpid` returns is that of a foreground job. -/
theorem fgpid_foreground (occupied : fgpid t ≠ 0) :
    ∃ i, (t.jobs i).pid ≠ 0 ∧ (t.jobs i).state = .FG := by
  unfold fgpid at occupied
  cases found : firstSlot t.jobs fun j => j.state = .FG with
  | none => simp [found] at occupied
  | some i =>
      simp only [found] at occupied
      exact ⟨i, occupied, by simpa using firstSlot_some found⟩

/-- An operand that resolves names a job. -/
theorem lookupJob_ok (cleared : Cleared t) {name : String} {operand : Option (List Char)}
    (found : lookupJob t name operand = .ok i) : (t.jobs i).pid ≠ 0 := by
  have byJid : ∀ jid, getjobjid t jid = some i → (t.jobs i).pid ≠ 0 := by
    intro jid here none
    obtain ⟨positive, same⟩ := getjobjid_some here
    have zero := (cleared i none).1
    omega
  have byPid : ∀ pid, getjobpid t pid = some i → (t.jobs i).pid ≠ 0 := by
    intro pid here
    obtain ⟨positive, same⟩ := getjobpid_some here
    omega
  unfold lookupJob at found
  split at found
  · cases found
  · split at found
    · split at found
      · cases found
      · rename_i here
        cases found
        exact byJid _ here
    · cases found
  · split at found
    · split at found
      · cases found
      · rename_i here
        cases found
        exact byPid _ here
    · cases found

/-- Adding a job keeps the free slots cleared. -/
theorem Cleared.addjob (cleared : Cleared t) (positive : 1 ≤ pid) (state : JobState)
    (cmdline : String) : Cleared (addjob t pid state cmdline).1 := by
  rcases addjob_cases state cmdline positive with ⟨-, same⟩ | ⟨i, nextjid, free, added⟩
  · rw [same]
    exact cleared
  · rw [added]
    intro j
    by_cases here : j = i
    · subst here
      simp only [Function.update_self]
      intro none
      omega
    · simp only [Function.update_of_ne here]
      exact cleared j

/-- Deleting a job clears its slot. -/
theorem Cleared.deletejob (cleared : Cleared t) (pid : Int) : Cleared (deletejob t pid).1 := by
  rcases deletejob_cases t pid with ⟨same, -⟩ | ⟨i, nextjid, -, -, deleted⟩
  · rw [same]
    exact cleared
  · rw [deleted]
    intro j
    by_cases here : j = i
    · subst here
      simp [clearjob]
    · simp only [Function.update_of_ne here]
      exact cleared j

/-- Deleting one job keeps the pids of the others. -/
theorem deletejob_other {other : Int} (occupied : (t.jobs i).pid = pid) (differ : other ≠ pid) :
    ((deletejob t other).1.jobs i).pid = pid := by
  rcases deletejob_cases t other with ⟨same, -⟩ | ⟨j, nextjid, -, there, deleted⟩
  · rw [same]
    exact occupied
  · rw [deleted]
    have apart : i ≠ j := by
      rintro rfl
      exact differ (there.symm.trans occupied)
    simp only [Function.update_of_ne apart]
    exact occupied

@[simp] theorem setState_pid (t : JobTable) (job i : Fin MAXJOBS) (state : JobState) :
    ((setState t job state).jobs i).pid = (t.jobs i).pid := by
  unfold setState
  by_cases here : i = job
  · subst here
    simp
  · simp [here]

/-- Writing the state of a job keeps the free slots cleared. -/
theorem Cleared.setState (cleared : Cleared t) (occupied : (t.jobs i).pid ≠ 0) (state : JobState) :
    Cleared (setState t i state) := by
  intro j none
  rw [setState_pid] at none
  have differ : j ≠ i := by
    rintro rfl
    exact occupied none
  simp only [Shell.setState, Function.update_of_ne differ]
  exact cleared j none

end Table

/-! ## The loop of the handler -/

section Collect

variable {t : JobTable} {m : Messages}

theorem Cleared.collectTable (cleared : Cleared t) (report : Int × Status) :
    Cleared (collectTable t report) := by
  obtain ⟨pid, status⟩ := report
  cases status with
  | exited => exact cleared.deletejob pid
  | signaled sig => exact cleared.deletejob pid
  | stopped sig =>
      simp only [Shell.collectTable]
      cases found : getjobpid t pid with
      | none => exact cleared
      | some job =>
          obtain ⟨positive, same⟩ := getjobpid_some found
          exact cleared.setState (by omega) .ST

/-- A report that spares a process keeps its slot. -/
theorem collectTable_spares {pid : Int} {i : Fin MAXJOBS} {report : Int × Status}
    (occupied : (t.jobs i).pid = pid) (spares : pid = report.1 → report.2.ends = false) :
    ((collectTable t report).jobs i).pid = pid := by
  obtain ⟨other, status⟩ := report
  cases status with
  | exited => exact deletejob_other occupied fun same => nomatch spares same.symm
  | signaled sig => exact deletejob_other occupied fun same => nomatch spares same.symm
  | stopped sig =>
      simp only [collectTable]
      cases getjobpid t other with
      | none => exact occupied
      | some job => simpa using occupied

/-- The handler keeps the free slots cleared. -/
theorem Cleared.collect (cleared : Cleared t) (order : List (Int × Status)) :
    Cleared (collect t m order).1 := by
  induction order generalizing t m with
  | nil => exact cleared
  | cons report rest ih => exact ih (cleared.collectTable report)

/-- The handler keeps the slot of a process that its reports spare. -/
theorem collect_spares {pid : Int} {i : Fin MAXJOBS} {order : List (Int × Status)}
    (occupied : (t.jobs i).pid = pid)
    (spares : ∀ report ∈ order, pid = report.1 → report.2.ends = false) :
    ((collect t m order).1.jobs i).pid = pid := by
  induction order generalizing t m with
  | nil => exact occupied
  | cons report rest ih =>
      refine ih (collectTable_spares occupied (spares report List.mem_cons_self)) ?_
      intro report' member
      exact spares report' (List.mem_cons_of_mem _ member)

end Collect

/-! ## The invariant -/

/-- What holds at each statement: a slot that `do_bgfg` holds belongs to the
named process, and `addjob` and `waitfg` are called with pids of processes. -/
def Pc.Facts (t : JobTable) : Pc → Prop
  | .forked _ _ pid | .added _ _ pid => 1 ≤ pid
  | .resolved _ job named | .bgfgBlocked _ job named | .signalled _ job named
  | .edited _ job named | .foregrounded job named => (t.jobs job).pid = named ∧ named ≠ 0
  | .waitfg pid | .waitLoop pid | .suspended pid => pid ≠ 0
  | _ => True

/-- The invariant of undisturbed runs. -/
structure OnNamed (s : ShellState) : Prop where
  cleared : Cleared s.table
  facts : s.pc.Facts s.table
  effects : ∀ e ∈ s.effects, e.target = e.named

theorem OnNamed.acts {s : ShellState} (inv : OnNamed s) : ActsOnNamed s where
  effects := inv.effects
  undefined i none := (inv.cleared i none).2
  waits pid inside guard := by
    have occupied : pid ≠ 0 := by
      have facts := inv.facts
      revert facts inside
      cases s.pc <;> simp +contextual [Pc.waiting, Pc.Facts]
    rw [guard] at occupied
    exact fgpid_foreground occupied

/-- One more effect on a named process. -/
theorem effects_cons {effects : List Effect} {effect : Effect}
    (before : ∀ e ∈ effects, e.target = e.named) (here : effect.target = effect.named) :
    ∀ e ∈ effect :: effects, e.target = e.named := by
  intro e member
  rcases List.mem_cons.mp member with rfl | old
  · exact here
  · exact before e old

/-- The main program keeps the invariant. -/
theorem OnNamed.advance {s t : ShellState} (inv : OnNamed s) (taken : Advances s t) :
    OnNamed t := by
  obtain ⟨cleared, facts, effects⟩ := inv
  cases taken with
  | addjob here =>
      rw [here] at facts
      exact ⟨cleared.addjob facts _ _, facts, effects⟩
  | @foreground cmdline pid here =>
      rw [here] at facts
      refine ⟨cleared, ?_, effects⟩
      have positive : 1 ≤ pid := facts
      show pid ≠ 0
      omega
  | lookupFinds here found => exact ⟨cleared, ⟨rfl, lookupJob_ok cleared found⟩, effects⟩
  | blockNamed here | broughtForeground here | blockWait here | suspend here guard =>
      rw [here] at facts
      exact ⟨cleared, facts, effects⟩
  | continues here group =>
      rw [here] at facts
      exact ⟨cleared, facts, effects_cons effects facts.1⟩
  | continueFails here group =>
      rw [here] at facts
      exact ⟨cleared, trivial, effects_cons effects facts.1⟩
  | @edit bg job named here =>
      rw [here] at facts
      have occupied : (s.table.jobs job).pid ≠ 0 := by
        rw [facts.1]
        exact facts.2
      refine ⟨cleared.setState occupied _, ⟨?_, facts.2⟩, effects_cons effects facts.1⟩
      exact (setState_pid ..).trans facts.1
  | @readPid job named here =>
      rw [here] at facts
      refine ⟨cleared, ?_, effects_cons effects facts.1⟩
      show (s.table.jobs job).pid ≠ 0
      rw [facts.1]
      exact facts.2
  | _ => exact ⟨cleared, trivial, effects⟩

/-- Where `SIGCHLD` is not blocked, the facts speak of the table only for the
slot that `do_bgfg` holds. -/
theorem Pc.Facts.table {t t' : JobTable} {pc : Pc} (facts : pc.Facts t) (unblocked : ¬ pc.blocked)
    (kept : ∀ pid i, pc.held = some pid → (t.jobs i).pid = pid → (t'.jobs i).pid = pid) :
    pc.Facts t' := by
  cases pc with
  | resolved bg job named => exact ⟨kept named job rfl facts.1, facts.2⟩
  | foregrounded job named => exact ⟨kept named job rfl facts.1, facts.2⟩
  | bgfgBlocked | signalled | edited => exact absurd rfl unblocked
  | _ => exact facts

theorem Pc.Facts.resume {t : JobTable} {pc : Pc} (facts : pc.Facts t) : pc.resume.Facts t := by
  cases pc with
  | _ => exact facts

theorem OnNamed.leave {s : ShellState} (inv : OnNamed s) (frames : List Frame) :
    OnNamed (leave s frames) := by
  refine ⟨inv.cleared, ?_, inv.effects⟩
  unfold Shell.leave
  split
  · exact inv.facts.resume
  · exact inv.facts

/-- `sigchld_handler` keeps the invariant when it spares the held process. -/
theorem OnNamed.afterCollect {s : ShellState} {order : List (Int × Status)} (inv : OnNamed s)
    (unblocked : ¬ s.pc.blocked) (undisturbed : Undisturbed s (.sigchld order)) :
    OnNamed (afterCollect s order) := by
  refine ⟨inv.cleared.collect order, inv.facts.table unblocked ?_, inv.effects⟩
  intro pid i held occupied
  apply collect_spares occupied
  intro report member same
  apply undisturbed report member
  rw [held, same]

/-- Every undisturbed step keeps the invariant. -/
theorem OnNamed.step {s t : ShellState} {e : Event} (inv : OnNamed s)
    (undisturbed : Undisturbed s e) (taken : shell.step s e t) : OnNamed t := by
  cases takes_of_step taken with
  | @command c here returned =>
      cases c with
      | empty => exact inv
      | _ => exact ⟨inv.cleared, trivial, inv.effects⟩
  | fork here returned positive fresh => exact ⟨inv.cleared, positive, inv.effects⟩
  | forkFails here returned => exact ⟨inv.cleared, trivial, inv.effects⟩
  | step returned taken => exact inv.advance taken
  | sigchld pending unblocked all => exact (inv.afterCollect unblocked undisturbed).leave s.frames
  | noForeground running here found => exact inv.leave _
  | kill running here group => exact inv.leave _
  | killFails running here group => exact ⟨inv.cleared, trivial, inv.effects⟩
  | _ => exact ⟨inv.cleared, inv.facts, inv.effects⟩

/-- In every run in which `sigchld_handler` never collects the end of a process
whose slot `do_bgfg` holds unprotected, `fg` and `bg` act on the named job and
the shell never waits for nothing. -/
theorem bgfg_actsOnNamed {past : List (ShellState × Event)} {s : ShellState}
    (run : shell.Run past s) (undisturbed : AllSteps Undisturbed past) :
    Throughout ActsOnNamed past s := by
  refine run.throughout (I := OnNamed) ?_ (fun _ inv => inv.acts)
    (fun _ _ _ inv condition taken => inv.step condition taken) undisturbed
  rintro s rfl
  exact ⟨fun _ _ => ⟨rfl, rfl⟩, trivial, fun _ member => (nomatch member)⟩

/-- A background job is started and its shell prompts again. -/
def startJob : List Event :=
  [.command (.run true "sleep 1 &\n"), .step, .fork 100, .setpgid 100, .step, .step, .step, .step,
    .step]

/-- The job is continued in the foreground and killed while the shell waits. -/
def foregroundJob : List Event :=
  startJob ++ [.command (.bgfg "fg" (some ['%', '1'])), .step, .step, .step, .step, .step, .step,
    .step, .step, .ends 100 (.signaled 9), .sigchld [(100, .signaled 9)], .step, .step, .step, .step,
    .step, .step]

theorem bgfg_actsOnNamed_foregroundJob :
    Throughout ActsOnNamed (record exec [] boot foregroundJob).1
      (record exec [] boot foregroundJob).2 :=
  bgfg_actsOnNamed (Run.of_record (.start rfl) (fun _ _ _ taken => taken) _)
    (by unfold AllSteps; decide +kernel)

/-- The job ends after `fg` has found its slot. -/
def disturbedJob : List Event :=
  startJob ++ [.command (.bgfg "fg" (some ['%', '1'])), .step, .ends 100 .exited,
    .sigchld [(100, .exited)], .step, .step, .step, .step, .step, .step, .step]

/-- Then the shell sends `SIGCONT` to group 0 and suspends itself in
`waitfg(0)`, with no job in the foreground. -/
theorem fg_waits_for_nothing : ¬ ∀ past s, shell.Run past s → ActsOnNamed s := by
  intro claimed
  have run : shell.Run _ _ :=
    Run.of_record (.start rfl) (fun _ _ _ taken => taken) disturbedJob
  have waits := (claimed _ _ run).waits 0 (by decide +kernel) (by decide +kernel)
  exact absurd waits (by decide +kernel)

end SysProg.Shell

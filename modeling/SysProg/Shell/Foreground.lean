import SysProg.Shell.Resume

/-!
# The foreground job

`eval` and `fg` make a job the foreground job and then wait until it is not.
`sigchld_handler` only demotes jobs.  So there is at most one foreground job,
and none when the shell prompts.
-/

namespace SysProg.Shell

open Logic Machine

/-- At most one job is in the foreground, and none when a command line is about
to be read. -/
structure AtMostOneForeground (s : ShellState) : Prop where
  unique : ∀ i j, (s.table.jobs i).state = .FG → (s.table.jobs j).state = .FG → i = j
  prompts : s.pc = .prompt → ∀ i, (s.table.jobs i).state ≠ .FG

/-! ## What the handler does to a slot -/

/-- A slot keeps its pid or loses it, and is in the foreground only if it has
not changed. -/
structure Demoted (job after : Job) : Prop where
  pid : after.pid = job.pid ∨ after.pid = 0
  foreground : after.state = .FG → after = job

theorem Demoted.same (job : Job) : Demoted job job := ⟨.inl rfl, fun _ => rfl⟩

theorem Demoted.trans {job after later : Job} (first : Demoted job after)
    (second : Demoted after later) : Demoted job later where
  pid := by
    rcases second.pid with kept | lost
    · rw [kept]
      exact first.pid
    · exact .inr lost
  foreground front := by
    have kept := second.foreground front
    rw [kept] at front
    exact kept.trans (first.foreground front)

theorem deletejob_demoted (t : JobTable) (pid : Int) (i : Fin MAXJOBS) :
    Demoted (t.jobs i) ((deletejob t pid).1.jobs i) := by
  rcases deletejob_cases t pid with ⟨same, -⟩ | ⟨j, nextjid, -, -, deleted⟩
  · rw [same]
    exact .same _
  · rw [deleted]
    by_cases here : i = j
    · subst here
      simp only [Function.update_self]
      exact ⟨.inr rfl, fun front => nomatch front⟩
    · simp only [Function.update_of_ne here]
      exact .same _

theorem setState_demoted (t : JobTable) (job i : Fin MAXJOBS) :
    Demoted (t.jobs i) ((setState t job .ST).jobs i) := by
  refine ⟨.inl (setState_pid ..), ?_⟩
  unfold setState
  by_cases here : i = job
  · subst here
    simp
  · simp [here]

theorem collectTable_demoted (t : JobTable) (report : Int × Status) (i : Fin MAXJOBS) :
    Demoted (t.jobs i) ((collectTable t report).jobs i) := by
  obtain ⟨pid, status⟩ := report
  cases status with
  | exited => exact deletejob_demoted t pid i
  | signaled sig => exact deletejob_demoted t pid i
  | stopped sig =>
      simp only [collectTable]
      cases getjobpid t pid with
      | none => exact .same _
      | some job => exact setState_demoted t job i

/-- `sigchld_handler` leaves, clears or stops the job of each slot. -/
theorem collect_demoted {t : JobTable} {m : Messages} (order : List (Int × Status)) (i : Fin MAXJOBS) :
    Demoted (t.jobs i) ((collect t m order).1.jobs i) := by
  induction order generalizing t m with
  | nil => exact .same _
  | cons report rest ih => exact (collectTable_demoted t report i).trans ih

/-! ## The invariant -/

/-- Whether the job in a slot may be in the foreground at a statement. -/
def Pc.Fronts (i : Fin MAXJOBS) (job : Job) : Pc → Prop
  | .added false _ pid | .waitfg pid | .waitLoop pid | .suspended pid => job.pid = pid
  | .edited false slot _ | .foregrounded slot _ => i = slot
  | .exited => True
  | _ => False

/-- The invariant of all runs. -/
structure OneForeground (s : ShellState) : Prop where
  unique : ∀ i j, (s.table.jobs i).state = .FG → (s.table.jobs j).state = .FG → i = j
  fronts : ∀ i, (s.table.jobs i).state = .FG → s.pc.Fronts i (s.table.jobs i)

theorem Pc.Fronts.resume {i : Fin MAXJOBS} {job : Job} {pc : Pc} (fronts : pc.Fronts i job) :
    pc.resume.Fronts i job := by
  cases pc with
  | _ => exact fronts

namespace OneForeground

variable {s t : ShellState}

/-- At most one job is in the foreground, and none when the shell prompts. -/
theorem atMostOne (inv : OneForeground s) : AtMostOneForeground s where
  unique := inv.unique
  prompts here i front := by
    have fronts := inv.fronts i front
    rw [here] at fronts
    exact fronts

/-- No job is in the foreground at a statement that allows none. -/
theorem none (inv : OneForeground s) (idle : ∀ i job, ¬ s.pc.Fronts i job) (i : Fin MAXJOBS) :
    (s.table.jobs i).state ≠ .FG :=
  fun front => idle i _ (inv.fronts i front)

/-- A step that leaves the table alone while no job is in the foreground. -/
theorem idle (none : ∀ i, (t.table.jobs i).state ≠ .FG) : OneForeground t where
  unique i _ front := absurd front (none i)
  fronts i front := absurd front (none i)

/-- A step to a statement that allows the same foreground job. -/
theorem goto (inv : OneForeground s) (table : t.table = s.table)
    (pc : ∀ i job, s.pc.Fronts i job → t.pc.Fronts i job) : OneForeground t := by
  refine ⟨?_, ?_⟩
  · rw [table]
    exact inv.unique
  · rw [table]
    exact fun i front => pc i _ (inv.fronts i front)

theorem leave (inv : OneForeground s) (frames : List Frame) : OneForeground (leave s frames) := by
  refine inv.goto rfl fun i job fronts => ?_
  unfold Shell.leave
  split
  · exact fronts.resume
  · exact fronts

/-- `addjob` in `eval`: the new job is the only foreground job. -/
theorem addForked {bg : Bool} {cmdline : String} {pid : Int}
    (none : ∀ i, (s.table.jobs i).state ≠ .FG) :
    OneForeground (addForked s bg cmdline pid) := by
  have refused : ∀ done, addjob s.table pid (if bg then .BG else .FG) cmdline = (s.table, done) →
      OneForeground (Shell.addForked s bg cmdline pid) := by
    intro done same
    refine idle fun j => ?_
    simpa only [Shell.addForked, same] using none j
  by_cases positive : pid < 1
  · exact refused 0 (by rw [addjob, if_pos positive])
  rcases addjob_cases (t := s.table) (if bg then .BG else .FG) cmdline (by omega : 1 ≤ pid) with
    ⟨-, same⟩ | ⟨i, nextjid, free, added⟩
  · exact refused 0 same
  · have only : ∀ j, ((Shell.addForked s bg cmdline pid).table.jobs j).state = .FG →
        j = i ∧ bg = false := by
      intro j front
      simp only [Shell.addForked, added] at front
      by_cases here : j = i
      · subst here
        refine ⟨rfl, ?_⟩
        cases bg with
        | false => rfl
        | true => simp at front
      · rw [Function.update_of_ne here] at front
        exact absurd front (none j)
    refine ⟨fun j k first second => (only j first).1.trans (only k second).1.symm, ?_⟩
    intro j front
    obtain ⟨rfl, rfl⟩ := only j front
    show ((addjob s.table pid (if false then .BG else .FG) cmdline).1.jobs j).pid = pid
    rw [added]
    simp

/-- `fg` puts one job in the foreground. -/
theorem editNamed {bg : Bool} {job : Fin MAXJOBS} {named : Int}
    (none : ∀ i, (s.table.jobs i).state ≠ .FG) : OneForeground (editNamed s bg job named) := by
  have only : ∀ i, ((Shell.editNamed s bg job named).table.jobs i).state = .FG →
      i = job ∧ bg = false := by
    intro i front
    simp only [Shell.editNamed, setState] at front
    by_cases here : i = job
    · subst here
      refine ⟨rfl, ?_⟩
      cases bg with
      | false => rfl
      | true => simp at front
    · rw [Function.update_of_ne here] at front
      exact absurd front (none i)
  refine ⟨fun i j first second => (only i first).1.trans (only j second).1.symm, ?_⟩
  intro i front
  obtain ⟨same, rfl⟩ := only i front
  exact same

/-- `waitfg` returns when its job is not in the foreground. -/
theorem waitLoop {pid : Int} (inv : OneForeground s) (here : s.pc = .waitLoop pid)
    (left : pid ≠ fgpid s.table) (i : Fin MAXJOBS) : (s.table.jobs i).state ≠ .FG := by
  intro front
  have holds : (decide ((s.table.jobs i).state = .FG)) = true := by simpa using front
  obtain ⟨j, found⟩ := firstSlot_isSome (p := fun j => decide (j.state = .FG)) holds
  have first : (s.table.jobs j).state = .FG := by simpa using firstSlot_some found
  have fronts := inv.fronts j first
  rw [here] at fronts
  refine left ?_
  rw [fgpid, found]
  exact fronts.symm

/-- A step to a statement that allows the job which was in the foreground. -/
theorem keeps (inv : OneForeground s) {pc : Pc} (here : s.pc = pc) (table : t.table = s.table)
    (fronts : ∀ i job, pc.Fronts i job → t.pc.Fronts i job) : OneForeground t := by
  apply inv.goto table
  rw [here]
  exact fronts

/-- A step from a statement that allows no foreground job. -/
theorem quiet (inv : OneForeground s) {pc : Pc} (here : s.pc = pc) (table : t.table = s.table)
    (forbids : ∀ i job, ¬ pc.Fronts i job) : OneForeground t := by
  apply inv.keeps here table
  intro i job fronts
  exact absurd fronts (forbids i job)

/-- The main program keeps the invariant. -/
theorem advance (inv : OneForeground s) (taken : Advances s t) : OneForeground t := by
  cases taken with
  | addjob here => exact addForked (inv.none (by simp [here, Pc.Fronts]))
  | edit here => exact editNamed (inv.none (by simp [here, Pc.Fronts]))
  | foreground here | broughtForeground here | blockWait here | suspend here guard =>
      exact inv.keeps here rfl fun _ _ => id
  | @readPid job named here =>
      refine ⟨inv.unique, fun i front => ?_⟩
      have fronts := inv.fronts i front
      rw [here] at fronts
      show (s.table.jobs i).pid = (s.table.jobs job).pid
      rw [show i = job from fronts]
  | waited here guard => exact idle (inv.waitLoop here guard)
  | _ here => exact inv.quiet here rfl fun _ _ => id

/-- `sigchld_handler` only demotes jobs. -/
theorem afterCollect (inv : OneForeground s) (order : List (Int × Status)) :
    OneForeground (afterCollect s order) := by
  have demoted := fun i => collect_demoted (t := s.table) (m := s.messages) order i
  have kept : ∀ i, ((collect s.table s.messages order).1.jobs i).state = .FG →
      (s.table.jobs i).state = .FG := by
    intro i front
    rw [(demoted i).foreground front] at front
    exact front
  refine ⟨fun i j first second => inv.unique i j (kept i first) (kept j second), ?_⟩
  intro i front
  show s.pc.Fronts i ((collect s.table s.messages order).1.jobs i)
  rw [(demoted i).foreground front]
  exact inv.fronts i (kept i front)

/-- Every step keeps the invariant. -/
theorem step {e : Event} (inv : OneForeground s) (taken : shell.step s e t) :
    OneForeground t := by
  cases takes_of_step taken with
  | @command c here returned =>
      apply inv.quiet here
      · cases c with
        | _ => rfl
      · exact fun _ _ => id
  | fork here returned positive fresh => exact inv.quiet here rfl fun _ _ => id
  | forkFails here returned => exact inv.quiet here rfl fun _ _ => id
  | step returned taken => exact inv.advance taken
  | sigchld pending unblocked all => exact (inv.afterCollect _).leave s.frames
  | noForeground running here found => exact inv.leave _
  | kill running here group => exact inv.leave _
  | killFails running here group => exact inv.goto rfl fun _ _ _ => trivial
  | _ => exact inv.goto rfl fun _ _ => id

end OneForeground

/-- The invariant holds in every reachable state. -/
theorem oneForeground_reachable {s : ShellState} (reached : shell.Reachable s) :
    OneForeground s := by
  refine reached.invariant ?_ fun _ _ _ _ inv taken => inv.step taken
  rintro s rfl
  exact OneForeground.idle fun _ front => nomatch front

/-- In every reachable state at most one job is in the foreground, and none when
the shell prompts. -/
theorem atMostOneForeground {s : ShellState} (reached : shell.Reachable s) :
    AtMostOneForeground s :=
  (oneForeground_reachable reached).atMostOne

theorem atMostOneForeground_waiting :
    AtMostOneForeground (record exec [] boot (foregroundJob.take 18)).2 :=
  atMostOneForeground (Run.of_record (.start rfl) (fun _ _ _ taken => taken) _).reachable

end SysProg.Shell

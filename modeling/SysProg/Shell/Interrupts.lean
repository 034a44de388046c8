import SysProg.Shell.Children

/-!
# `sigchld_handler` statement by statement

`sigchld_handler` blocks the other signals only while it works off a report of
`waitpid`.  Before, between `waitpid` and `Sigprocmask`, and after,
`sigint_handler` and `sigtstp_handler` may run on top of it.  The runs in which
none does are those of the shell that takes the handler in one step.
-/

namespace SysProg.Shell

open Logic Machine

/-! ## The handler -/

/-- A running `sigchld_handler`: the number of the handlers that it has
interrupted, and the report of `waitpid` that it has not yet worked off. -/
structure Collector where
  depth : Nat
  report : Option (Int × Status)

/-- The shell with its running handlers.  Of the forwarding handlers in
`shell.frames` the last `collector.depth` are interrupted by `sigchld_handler`. -/
structure Interrupted where
  shell : ShellState
  collector : Option Collector

/-- What may happen next: an event other than a whole `sigchld_handler`, its start,
a report of `waitpid`, the section that blocks the signals, its return. -/
inductive Statement where
  | event (e : Event)
  | starts
  | waits (report : Int × Status)
  | records
  | returns

/-- Whether an event can happen next to a running `sigchld_handler`: the main
program waits, and so do the handlers below it. -/
def Interrupted.lets (s : Interrupted) : Event → Bool
  | .sigchld _ => false
  | .command _ | .fork _ | .forkFails | .step => s.collector.isNone
  | .forward => s.collector.all fun c => c.depth < s.shell.frames.length
  | .interrupt _ | .setpgid _ | .stops .. | .continues _ | .ends .. => true

/-- The children after the report of one of them is collected. -/
def reapOne (children : List Child) (pid : Int) : List Child :=
  children.flatMap fun c => if c.pid = pid then reap [c] else [c]

/-- `sigchld_handler` is the innermost handler. -/
def Interrupted.collecting (s : Interrupted) (c : Collector) : Bool :=
  s.shell.pc ≠ .exited && s.shell.frames.length = c.depth

/-- The start of `sigchld_handler`, during which `SIGCHLD` is blocked. -/
def starts (s : Interrupted) : Option Interrupted :=
  if s.shell.pending ∧ ¬ s.shell.pc.blocked ∧ s.collector.isNone then
    some
      { shell := { s.shell with pending := false }
        collector := some ⟨s.shell.frames.length, none⟩ }
  else none

/-- `waitpid` returns a report. -/
def waits (s : Interrupted) (report : Int × Status) : Option Interrupted :=
  match s.collector with
  | some ⟨depth, none⟩ =>
      if s.collecting ⟨depth, none⟩ ∧ report ∈ reports s.shell.children then
        some
          { shell := { s.shell with children := reapOne s.shell.children report.1 }
            collector := some ⟨depth, some report⟩ }
      else none
  | _ => none

/-- The section of the loop that blocks all signals. -/
def records (s : Interrupted) : Option Interrupted :=
  match s.collector with
  | some ⟨depth, some report⟩ =>
      if s.collecting ⟨depth, some report⟩ then
        some
          { shell := { s.shell with
              table := collectTable s.shell.table report
              messages := collectMessages s.shell.table s.shell.messages report }
            collector := some ⟨depth, none⟩ }
      else none
  | _ => none

/-- `waitpid` finds no report, and `sigchld_handler` returns. -/
def returns (s : Interrupted) : Option Interrupted :=
  match s.collector with
  | some ⟨depth, none⟩ =>
      if s.collecting ⟨depth, none⟩ ∧ reports s.shell.children = [] then
        some ⟨leave s.shell s.shell.frames, none⟩
      else none
  | _ => none

/-- The state after a statement, when it can happen. -/
def handle (s : Interrupted) : Statement → Option Interrupted
  | .event e => if s.lets e then (exec s.shell e).map fun t => { s with shell := t } else none
  | .starts => starts s
  | .waits report => waits s report
  | .records => records s
  | .returns => returns s

/-- The shell with handlers that interrupt each other. -/
def interruptible : Machine Interrupted Statement where
  init s := s = ⟨boot, none⟩
  step s e t := handle s e = some t

/-! ## One report -/

section ReapOne

variable {children : List Child} {c : Child} {pid : Int}

theorem mem_reapOne {d : Child} : d ∈ reapOne children pid ↔
    ∃ c ∈ children, (c.pid = pid ∧ d ∈ reap [c]) ∨ (c.pid ≠ pid ∧ d = c) := by
  simp only [reapOne, List.mem_flatMap]
  refine exists_congr fun c => and_congr_right fun _ => ?_
  by_cases here : c.pid = pid
  · simp [here]
  · simp [here]

theorem reapOne_other (member : c ∈ children) (other : c.pid ≠ pid) : c ∈ reapOne children pid :=
  mem_reapOne.mpr ⟨c, member, .inr ⟨other, rfl⟩⟩

theorem reap_singleton (c : Child) :
    ((reap [c]).map Child.pid).Sublist [c.pid] := reap_pids_sublist [c]

theorem reapOne_pids_sublist (children : List Child) (pid : Int) :
    ((reapOne children pid).map Child.pid).Sublist (children.map Child.pid) := by
  induction children with
  | nil => exact .slnil
  | cons c rest ih =>
      simp only [reapOne, List.flatMap_cons, List.map_append, List.map_cons]
      split
      · exact (reap_singleton c).append ih
      · exact List.Sublist.append (List.Sublist.refl [c.pid]) ih

/-- A child that has only stopped stays. -/
theorem reapOne_stopped {report : Int × Status}
    (found : report ∈ reports children) (lives : report.2.ends = false) :
    report.1 ∈ (reapOne children report.1).map Child.pid := by
  obtain ⟨c, member, here, has⟩ := reports_mem found
  obtain ⟨d, kept, same⟩ := reap_keeps (List.mem_singleton.mpr rfl) (c := c) fun status is => by
    cases has.symm.trans is
    exact lives
  exact List.mem_map.mpr ⟨d, mem_reapOne.mpr ⟨c, member, .inl ⟨here, kept⟩⟩, same.trans here⟩

end ReapOne

/-! ## The handler without interruptions -/

section Whole

variable {children : List Child} {pid : Int} {s t : ShellState} {e : Event}

theorem reports_append (first later : List Child) :
    reports (first ++ later) = reports first ++ reports later :=
  List.filterMap_append

theorem reap_append (first later : List Child) : reap (first ++ later) = reap first ++ reap later :=
  List.filterMap_append

/-- Nothing is reported twice. -/
theorem reports_reap (children : List Child) : reports (reap children) = [] := by
  refine List.filterMap_eq_nil_iff.mpr fun d member => ?_
  obtain ⟨c, -, kept⟩ := List.mem_filterMap.mp member
  cases has : c.status with
  | none =>
      simp only [has] at kept
      cases kept
      simp [has]
  | some status =>
      cases status with
      | stopped sig =>
          simp only [has] at kept
          cases kept
          rfl
      | exited | signaled sig => simp [has] at kept

theorem reap_reap (children : List Child) : reap (reap children) = reap children := by
  induction children with
  | nil => rfl
  | cons c rest ih =>
      have one : reap (reap [c]) = reap [c] := by
        cases has : c.status with
        | none => simp [reap, has]
        | some status =>
            cases status with
            | _ => simp [reap, has]
      rw [← List.singleton_append, reap_append, reap_append, one, ih]

/-- Without reports there is nothing to reap. -/
theorem reap_quiet (uncollected : Uncollected children) (quiet : reports children = []) :
    reap children = children := by
  induction children with
  | nil => rfl
  | cons c rest ih =>
      rw [← List.singleton_append, reports_append, List.append_eq_nil_iff] at quiet
      have later := ih (fun d member => uncollected d (List.mem_cons_of_mem _ member)) quiet.2
      have here : reap [c] = [c] := by
        have own := uncollected c List.mem_cons_self
        cases has : c.status with
        | none => simp [reap, has]
        | some status =>
            have reported : c.reported = true := by
              by_contra fresh
              simp [reports, has, fresh] at quiet
            cases status with
            | stopped sig =>
                rw [show reap [c] = [{ c with reported := true }] by simp [reap, has], ← reported]
            | exited => exact absurd (own .exited has rfl) (by simp [reported])
            | signaled sig => exact absurd (own (.signaled sig) has rfl) (by simp [reported])
      rw [← List.singleton_append, reap_append, here, later]

/-- After one report is collected the others are left. -/
theorem reports_reapOne (children : List Child) (pid : Int) :
    reports (reapOne children pid) = (reports children).filter fun report => report.1 ≠ pid := by
  induction children with
  | nil => rfl
  | cons c rest ih =>
      have own : ∀ report ∈ reports [c], report.1 = c.pid := by
        intro report member
        obtain ⟨d, inside, same, -⟩ := reports_mem member
        rw [← same, List.mem_singleton.mp inside]
      rw [← List.singleton_append (l := rest), reports_append, List.filter_append, ← ih]
      simp only [reapOne, List.flatMap_append, List.flatMap_singleton, reports_append]
      congr 1
      split
      · rename_i here
        rw [reports_reap]
        refine (List.filter_eq_nil_iff.mpr fun report member => ?_).symm
        simp [own report member, here]
      · rename_i other
        refine (List.filter_eq_self.mpr fun report member => ?_).symm
        simp [own report member, other]

theorem reap_reapOne (children : List Child) (pid : Int) :
    reap (reapOne children pid) = reap children := by
  induction children with
  | nil => rfl
  | cons c rest ih =>
      rw [← List.singleton_append (l := rest), reap_append, ← ih]
      simp only [reapOne, List.flatMap_append, List.flatMap_singleton, reap_append]
      congr 1
      split
      · exact reap_reap [c]
      · rfl

theorem Uncollected.reapOne (uncollected : Uncollected children) (pid : Int) :
    Uncollected (reapOne children pid) := by
  intro d member status has ended
  obtain ⟨c, old, ⟨here, kept⟩ | ⟨other, rfl⟩⟩ := mem_reapOne.mp member
  · exact Uncollected.reap [c] d kept status has ended
  · exact uncollected _ old status has ended

theorem reports_singleton (c : Child) : ((reports [c]).map Prod.fst).Sublist [c.pid] := by
  cases reported : c.reported with
  | true => simp [reports, reported]
  | false =>
      cases has : c.status with
      | none => simp [reports, has]
      | some status => simp [reports, reported, has]

/-- No two reports are of one child. -/
theorem reports_nodup (pids : (children.map Child.pid).Nodup) :
    ((reports children).map Prod.fst).Nodup := by
  refine pids.sublist ?_
  induction children with
  | nil => exact .slnil
  | cons c rest ih =>
      rw [← List.singleton_append (l := rest), reports_append, List.map_append, List.map_append]
      exact (reports_singleton c).append (ih (List.Nodup.of_cons pids))

/-- The loop over the reports in the kernel's order. -/
theorem collect_run (order : List (Int × Status)) (running : s.pc ≠ .exited)
    (uncollected : Uncollected s.children) (pids : (s.children.map Child.pid).Nodup)
    (all : order.Perm (reports s.children)) :
    replay handle ⟨s, some ⟨s.frames.length, none⟩⟩
        (order.flatMap fun report => [.waits report, .records]) =
      some ⟨{ s with
          table := (collect s.table s.messages order).1
          messages := (collect s.table s.messages order).2
          children := reap s.children }, some ⟨s.frames.length, none⟩⟩ := by
  induction order generalizing s with
  | nil =>
      rw [reap_quiet uncollected (List.nil_perm.mp all)]
      rfl
  | cons report rest ih =>
      have found : report ∈ reports s.children := all.mem_iff.mp List.mem_cons_self
      have distinct := (all.map Prod.fst).nodup_iff.mpr (reports_nodup pids)
      rw [List.map_cons, List.nodup_cons] at distinct
      have left : rest.Perm (reports (reapOne s.children report.1)) := by
        have kept := all.filter fun other => other.1 ≠ report.1
        rw [← reports_reapOne, List.filter_cons_of_neg (by simp), List.filter_eq_self.mpr] at kept
        · exact kept
        · intro other member
          have apart : other.1 ≠ report.1 := fun same =>
            distinct.1 (same ▸ List.mem_map_of_mem member)
          simpa using apart
      let waited : ShellState := { s with children := reapOne s.children report.1 }
      let recorded : ShellState := { waited with
        table := collectTable s.table report
        messages := collectMessages s.table s.messages report }
      have waits : handle ⟨s, some ⟨s.frames.length, none⟩⟩ (.waits report) =
          some ⟨waited, some ⟨s.frames.length, some report⟩⟩ := by
        simp [handle, Shell.waits, Interrupted.collecting, running, found, waited]
      have records : handle ⟨waited, some ⟨s.frames.length, some report⟩⟩ .records =
          some ⟨recorded, some ⟨s.frames.length, none⟩⟩ := by
        simp [handle, Shell.records, Interrupted.collecting, running, waited, recorded]
      have later := @ih recorded running (uncollected.reapOne report.1)
        (pids.sublist (reapOne_pids_sublist ..)) left
      rw [List.flatMap_cons]
      refine replay_next waits (replay_next records (later.trans ?_))
      rw [show reap recorded.children = reap s.children from reap_reapOne ..]
      rfl

/-- One step of the shell that takes `sigchld_handler` whole. -/
theorem interruptible_step (reached : shell.Reachable s) (taken : shell.step s e t) :
    ∃ statements, replay handle ⟨s, none⟩ statements = some ⟨t, none⟩ := by
  have other : ∀ e, Interrupted.lets ⟨s, none⟩ e = true → exec s e = some t →
      ∃ statements, replay handle ⟨s, none⟩ statements = some ⟨t, none⟩ := by
    intro e lets taken
    refine ⟨[.event e], replay_one ?_⟩
    rw [handle, if_pos lets, taken]
    rfl
  cases e with
  | sigchld order =>
      cases takes_of_step taken with
      | sigchld pending unblocked all =>
          have running : s.pc ≠ .exited := fun ended => unblocked (by rw [ended]; rfl)
          obtain ⟨past, run⟩ := reached.run
          have tracked := tracked_run run
          let begun : ShellState := { s with pending := false }
          have starts : handle ⟨s, none⟩ .starts =
              some ⟨begun, some ⟨s.frames.length, none⟩⟩ := by
            simp [handle, Shell.starts, pending, unblocked, begun]
          have loop := @collect_run begun order running tracked.uncollected tracked.pids all
          have returns : handle ⟨afterCollect s order, some ⟨s.frames.length, none⟩⟩ .returns =
              some ⟨leave (afterCollect s order) s.frames, none⟩ := by
            simp [handle, Shell.returns, Interrupted.collecting, afterCollect, running,
              reports_reap]
          exact ⟨_, replay_next starts (replay_trans loop (replay_one returns))⟩
  | forward => exact other .forward rfl taken
  | _ => exact other _ rfl taken

/-- The runs in which nothing interrupts `sigchld_handler` are those of the shell
that takes it whole. -/
theorem interruptible_reachable (reached : shell.Reachable s) :
    interruptible.Reachable ⟨s, none⟩ := by
  induction reached with
  | start initial => exact .start (congrArg (Interrupted.mk · none) initial)
  | next before taken ih =>
      obtain ⟨statements, played⟩ := interruptible_step before taken
      exact ih.of_replay (fun _ _ _ taken => taken) played

end Whole

end SysProg.Shell

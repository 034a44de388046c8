import SysProg.Shell.Program

/-!
# The steps of the shell

`advance` and `exec` as relations: one rule for each statement of the main
program, with both outcomes of a test, and one for each event.
-/

namespace SysProg.Shell

/-! ## The main program -/

/-- One statement of the main program. -/
inductive Advances (s : ShellState) : ShellState → Prop where
  | block {bg : Bool} {cmdline : String} (here : s.pc = .evalStart bg cmdline) :
      Advances s { s with pc := .evalBlocked bg cmdline }
  | addjob {bg : Bool} {cmdline : String} {pid : Int} (here : s.pc = .forked bg cmdline pid) :
      Advances s (addForked s bg cmdline pid)
  | background {cmdline : String} {pid : Int} (here : s.pc = .added true cmdline pid) :
      Advances s { s with pc := .started cmdline pid }
  | foreground {cmdline : String} {pid : Int} (here : s.pc = .added false cmdline pid) :
      Advances s { s with pc := .waitfg pid }
  | announce {cmdline : String} {pid : Int} (here : s.pc = .started cmdline pid) :
      Advances s { s with
        output := s.output ++ [.started (pid2jid s.table pid) pid cmdline], pc := .testStop }
  | lookupFails {name : String} {operand : Option (List Char)} {text : String}
      (here : s.pc = .lookup name operand) (found : lookupJob s.table name operand = .error text) :
      Advances s { s with output := s.output ++ [.message text], pc := .testStop }
  | lookupFinds {name : String} {operand : Option (List Char)} {job : Fin MAXJOBS}
      (here : s.pc = .lookup name operand) (found : lookupJob s.table name operand = .ok job) :
      Advances s { s with pc := .resolved (name = "bg") job (s.table.jobs job).pid }
  | blockNamed {bg : Bool} {job : Fin MAXJOBS} {named : Int}
      (here : s.pc = .resolved bg job named) :
      Advances s { s with pc := .bgfgBlocked bg job named }
  | continues {bg : Bool} {job : Fin MAXJOBS} {named : Int}
      (here : s.pc = .bgfgBlocked bg job named)
      (group : groupExists s.children (s.table.jobs job).pid = true) :
      Advances s { s with
        effects := ⟨.continued, named, (s.table.jobs job).pid⟩ :: s.effects
        pc := .signalled bg job named }
  | continueFails {bg : Bool} {job : Fin MAXJOBS} {named : Int}
      (here : s.pc = .bgfgBlocked bg job named)
      (group : groupExists s.children (s.table.jobs job).pid = false) :
      Advances s { s with
        effects := ⟨.continued, named, (s.table.jobs job).pid⟩ :: s.effects, pc := .exited }
  | edit {bg : Bool} {job : Fin MAXJOBS} {named : Int} (here : s.pc = .signalled bg job named) :
      Advances s (editNamed s bg job named)
  | leftBackground {job : Fin MAXJOBS} {named : Int} (here : s.pc = .edited true job named) :
      Advances s { s with pc := .testStop }
  | broughtForeground {job : Fin MAXJOBS} {named : Int} (here : s.pc = .edited false job named) :
      Advances s { s with pc := .foregrounded job named }
  | readPid {job : Fin MAXJOBS} {named : Int} (here : s.pc = .foregrounded job named) :
      Advances s (waitNamed s job named)
  | blockWait {pid : Int} (here : s.pc = .waitfg pid) : Advances s { s with pc := .waitLoop pid }
  | suspend {pid : Int} (here : s.pc = .waitLoop pid) (guard : pid = fgpid s.table) :
      Advances s { s with pc := .suspended pid }
  | waited {pid : Int} (here : s.pc = .waitLoop pid) (guard : pid ≠ fgpid s.table) :
      Advances s { s with pc := .waitDone }
  | unblock (here : s.pc = .waitDone) : Advances s { s with pc := .testStop }
  | stopSet (here : s.pc = .testStop) (flag : s.messages.stop_msg = true) :
      Advances s { s with pc := .printStop }
  | stopClear (here : s.pc = .testStop) (flag : s.messages.stop_msg = false) :
      Advances s { s with pc := .testTerm }
  | printStop (here : s.pc = .printStop) :
      Advances s { s with
        output := s.output ++
          [.stopped s.messages.msg_jid s.messages.msg_pid s.messages.msg_sig]
        pc := .clearStop }
  | clearStop (here : s.pc = .clearStop) :
      Advances s { s with messages := { s.messages with stop_msg := false }, pc := .testTerm }
  | termSet (here : s.pc = .testTerm) (flag : s.messages.term_msg = true) :
      Advances s { s with pc := .printTerm }
  | termClear (here : s.pc = .testTerm) (flag : s.messages.term_msg = false) :
      Advances s { s with pc := .prompt }
  | printTerm (here : s.pc = .printTerm) :
      Advances s { s with
        output := s.output ++
          [.terminated s.messages.msg_jid s.messages.msg_pid s.messages.msg_sig]
        pc := .clearTerm }
  | clearTerm (here : s.pc = .clearTerm) :
      Advances s { s with messages := { s.messages with term_msg := false }, pc := .prompt }

theorem advances_of_advance {s t : ShellState} (taken : advance s = some t) : Advances s t := by
  unfold advance at taken
  cases here : s.pc with
  | prompt | evalBlocked | suspended | exited => simp [here] at taken
  | evalStart =>
      simp only [here, Option.some.injEq] at taken
      cases taken
      exact .block here
  | forked =>
      simp only [here, Option.some.injEq] at taken
      cases taken
      exact .addjob here
  | added bg =>
      simp only [here, Option.some.injEq] at taken
      cases taken
      cases bg with
      | true => exact .background here
      | false => exact .foreground here
  | started =>
      simp only [here, Option.some.injEq] at taken
      cases taken
      exact .announce here
  | lookup name operand =>
      simp only [here, Option.some.injEq] at taken
      cases taken
      unfold lookupNamed
      cases found : lookupJob s.table name operand with
      | error text => exact .lookupFails here found
      | ok job => exact .lookupFinds here found
  | resolved =>
      simp only [here, Option.some.injEq] at taken
      cases taken
      exact .blockNamed here
  | bgfgBlocked bg job =>
      simp only [here, Option.some.injEq] at taken
      cases taken
      unfold continueNamed
      cases group : groupExists s.children (s.table.jobs job).pid with
      | true =>
          simp only [group, if_true]
          exact .continues here group
      | false =>
          simp only [group, Bool.false_eq_true, if_false]
          exact .continueFails here group
  | signalled =>
      simp only [here, Option.some.injEq] at taken
      cases taken
      exact .edit here
  | edited bg =>
      simp only [here, Option.some.injEq] at taken
      cases taken
      cases bg with
      | true => exact .leftBackground here
      | false => exact .broughtForeground here
  | foregrounded =>
      simp only [here, Option.some.injEq] at taken
      cases taken
      exact .readPid here
  | waitfg =>
      simp only [here, Option.some.injEq] at taken
      cases taken
      exact .blockWait here
  | waitLoop pid =>
      simp only [here, Option.some.injEq] at taken
      cases taken
      by_cases guard : pid = fgpid s.table
      · rw [if_pos guard]
        exact .suspend here guard
      · rw [if_neg guard]
        exact .waited here guard
  | waitDone =>
      simp only [here, Option.some.injEq] at taken
      cases taken
      exact .unblock here
  | testStop =>
      simp only [here, Option.some.injEq] at taken
      cases taken
      cases flag : s.messages.stop_msg with
      | true => exact .stopSet here flag
      | false => exact .stopClear here flag
  | printStop =>
      simp only [here, Option.some.injEq] at taken
      cases taken
      exact .printStop here
  | clearStop =>
      simp only [here, Option.some.injEq] at taken
      cases taken
      exact .clearStop here
  | testTerm =>
      simp only [here, Option.some.injEq] at taken
      cases taken
      cases flag : s.messages.term_msg with
      | true => exact .termSet here flag
      | false => exact .termClear here flag
  | printTerm =>
      simp only [here, Option.some.injEq] at taken
      cases taken
      exact .printTerm here
  | clearTerm =>
      simp only [here, Option.some.injEq] at taken
      cases taken
      exact .clearTerm here

/-! ## Events -/

/-- The state after the loop of `sigchld_handler`. -/
def afterCollect (s : ShellState) (order : List (Int × Status)) : ShellState :=
  { s with
    table := (collect s.table s.messages order).1
    messages := (collect s.table s.messages order).2
    children := reap s.children
    pending := false }

/-- One event, with what it needs. -/
inductive Takes (s : ShellState) : Event → ShellState → Prop where
  | command {c : Command} (here : s.pc = .prompt) (returned : s.frames = []) :
      Takes s (.command c) (dispatch s c)
  | fork {bg : Bool} {cmdline : String} {pid : Int} (here : s.pc = .evalBlocked bg cmdline)
      (returned : s.frames = []) (positive : 1 ≤ pid) (fresh : ∀ c ∈ s.children, c.pid ≠ pid) :
      Takes s (.fork pid) { s with
        children := ⟨pid, false, none, false⟩ :: s.children, pc := .forked bg cmdline pid }
  | forkFails {bg : Bool} {cmdline : String} (here : s.pc = .evalBlocked bg cmdline)
      (returned : s.frames = []) : Takes s .forkFails { s with pc := .exited }
  | step {t : ShellState} (returned : s.frames = []) (taken : Advances s t) : Takes s .step t
  | sigchld {order : List (Int × Status)} (pending : s.pending = true)
      (unblocked : ¬ s.pc.blocked) (all : order.Perm (reports s.children)) :
      Takes s (.sigchld order) (leave (afterCollect s order) s.frames)
  | interrupt {signal : Forwarded} (running : s.pc ≠ .exited)
      (idle : ∀ f ∈ s.frames, f.signal ≠ signal) :
      Takes s (.interrupt signal) { s with frames := ⟨signal, none⟩ :: s.frames }
  | noForeground {signal : Forwarded} {rest : List Frame} (running : s.pc ≠ .exited)
      (here : s.frames = ⟨signal, none⟩ :: rest) (found : fgpid s.table = 0) :
      Takes s .forward (leave s rest)
  | readForeground {signal : Forwarded} {rest : List Frame} (running : s.pc ≠ .exited)
      (here : s.frames = ⟨signal, none⟩ :: rest) (found : fgpid s.table ≠ 0) :
      Takes s .forward { s with frames := ⟨signal, some (fgpid s.table)⟩ :: rest }
  | kill {signal : Forwarded} {pid : Int} {rest : List Frame} (running : s.pc ≠ .exited)
      (here : s.frames = ⟨signal, some pid⟩ :: rest) (group : groupExists s.children pid = true) :
      Takes s .forward (leave s rest)
  | killFails {signal : Forwarded} {pid : Int} {rest : List Frame} (running : s.pc ≠ .exited)
      (here : s.frames = ⟨signal, some pid⟩ :: rest)
      (group : groupExists s.children pid = false) : Takes s .forward { s with pc := .exited }
  | setpgid {pid : Int} {children : List Child}
      (changed : changeChild s.children pid Child.setpgid = some children) :
      Takes s (.setpgid pid) { s with children := children }
  | stops {pid sig : Int} {children : List Child}
      (changed : changeChild s.children pid (Child.stop sig) = some children) :
      Takes s (.stops pid sig) { s with children := children, pending := true }
  | continues {pid : Int} {children : List Child}
      (changed : changeChild s.children pid Child.continue = some children) :
      Takes s (.continues pid) { s with children := children, pending := true }
  | ends {pid : Int} {status : Status} {children : List Child}
      (changed : changeChild s.children pid (Child.finish status) = some children) :
      Takes s (.ends pid status) { s with children := children, pending := true }

section Events

variable {s t : ShellState} {e : Event}

theorem takes_sigchld {order : List (Int × Status)} (taken : sigchld_handler s order = some t) :
    Takes s (.sigchld order) t := by
  unfold sigchld_handler at taken
  split at taken
  · rename_i enabled
    obtain ⟨pending, unblocked, all⟩ := enabled
    cases taken
    exact .sigchld pending unblocked (List.isPerm_iff.mp all)
  · cases taken

theorem takes_forward (taken : forward s = some t) : Takes s .forward t := by
  unfold forward at taken
  split at taken
  · cases taken
  · rename_i running
    split at taken
    · cases taken
    · rename_i signal rest here
      cases taken
      by_cases found : fgpid s.table = 0
      · simp only [if_pos found]
        exact .noForeground running here found
      · simp only [if_neg found]
        exact .readForeground running here found
    · rename_i signal pid rest here
      cases taken
      cases group : groupExists s.children pid with
      | true => exact .kill running here group
      | false => exact .killFails running here group

/-- What a step of the shell can do. -/
theorem takes_of_step (taken : shell.step s e t) : Takes s e t := by
  change exec s e = some t at taken
  cases e with
  | command c =>
      simp only [exec] at taken
      split at taken
      · rename_i enabled
        cases taken
        exact .command enabled.1 (List.isEmpty_iff.mp enabled.2)
      · cases taken
  | fork pid =>
      simp only [exec, forkChild] at taken
      split at taken
      · rename_i here
        split at taken
        · rename_i returned
          split at taken
          · rename_i new
            cases taken
            exact .fork here (List.isEmpty_iff.mp returned) new.1 new.2
          · cases taken
        · cases taken
      · cases taken
  | forkFails =>
      simp only [exec] at taken
      split at taken
      · rename_i here
        split at taken
        · rename_i returned
          cases taken
          exact .forkFails here (List.isEmpty_iff.mp returned)
        · cases taken
      · cases taken
  | step =>
      simp only [exec] at taken
      split at taken
      · rename_i returned
        exact .step (List.isEmpty_iff.mp returned) (advances_of_advance taken)
      · cases taken
  | sigchld order => exact takes_sigchld taken
  | interrupt signal =>
      simp only [exec, interrupt] at taken
      split at taken
      · rename_i enabled
        cases taken
        exact .interrupt enabled.1 enabled.2
      · cases taken
  | forward => exact takes_forward taken
  | setpgid pid =>
      obtain ⟨children, changed, rfl⟩ := Option.map_eq_some_iff.mp taken
      exact .setpgid changed
  | stops pid sig =>
      obtain ⟨children, changed, rfl⟩ := Option.map_eq_some_iff.mp taken
      exact .stops changed
  | continues pid =>
      obtain ⟨children, changed, rfl⟩ := Option.map_eq_some_iff.mp taken
      exact .continues changed
  | ends pid status =>
      obtain ⟨children, changed, rfl⟩ := Option.map_eq_some_iff.mp taken
      exact .ends changed

end Events

end SysProg.Shell

import SysProg.Shell.Jobs

/-!
# The shell and its children

The shell of `tsh.c` as a state machine.  The main program takes one statement
at a time; `sigint_handler` and `sigtstp_handler` take their statements on top
of the main program and may themselves be interrupted by `sigchld_handler`.
The latter runs as one step wherever `SIGCHLD` is not blocked, that is, no
forwarding handler interrupts it; `Interrupts` takes it statement by statement.
The kernel keeps the children that have not been reaped.  A state names the
next statement of the main program.  The shell runs without `-v`.
-/

namespace SysProg.Shell

open Logic Machine

/-! ## The kernel's part -/

/-- What `waitpid` reports of a child: `WIFEXITED`, `WIFSTOPPED` or
`WIFSIGNALED`, with the signal. -/
inductive Status where
  | exited
  | stopped (sig : Int)
  | signaled (sig : Int)
  deriving DecidableEq

/-- A child that has not been reaped.  It has its own process group after its
`setpgid`; without a status it is running; a stop is reported once. -/
structure Child where
  pid : Int
  grouped : Bool
  status : Option Status
  reported : Bool
  deriving DecidableEq

/-- What `waitpid(-1, &status, WNOHANG|WUNTRACED)` finds, call after call. -/
def reports (children : List Child) : List (Int × Status) :=
  children.filterMap fun c => if c.reported then none else c.status.map fun status => (c.pid, status)

/-- The children after all reports are collected. -/
def reap (children : List Child) : List Child :=
  children.filterMap fun c =>
    match c.status with
    | none => some c
    | some (.stopped _) => some { c with reported := true }
    | some _ => none

/-- A change of one child, if there is such a child in a fitting state. -/
def changeChild (children : List Child) (pid : Int) (change : Child → Option Child) :
    Option (List Child) :=
  ((children.find? fun c => c.pid = pid).bind change).map fun changed =>
    children.map fun c => if c.pid = pid then changed else c

/-- `setpgid(0, 0)` of a running child. -/
def Child.setpgid (c : Child) : Option Child :=
  if c.status = none then some { c with grouped := true } else none

/-- A running child stops. -/
def Child.stop (sig : Int) (c : Child) : Option Child :=
  if c.status = none then some { c with status := some (.stopped sig), reported := false } else none

/-- A stopped child goes on. -/
def Child.continue (c : Child) : Option Child :=
  match c.status with
  | some (.stopped _) => some { c with status := none, reported := false }
  | _ => none

/-- A child that has not ended exits, or is killed by a signal. -/
def Child.finish (status : Status) (c : Child) : Option Child :=
  match status, c.status with
  | .stopped _, _ | _, some .exited | _, some (.signaled _) => none
  | _, _ => some { c with status := some status, reported := false }

/-- Whether `kill(-pid, sig)` finds a process group; group 0 is the shell's. -/
def groupExists (children : List Child) (pid : Int) : Bool :=
  pid = 0 || children.any fun c => c.pid = pid && c.grouped

/-! ## The operand of `fg` and `bg` -/

/-- `isnumber`. -/
def isnumber : List Char → Bool
  | [] => false
  | c :: rest => c.isDigit && (rest.isEmpty || isnumber rest)

/-- `atoi` of digits: the `long` that `strtol` finds, as an `int`. -/
def atoi (digits : List Char) : Int :=
  int32 (min (digits.foldl (fun n c => 10 * n + (c.toNat - '0'.toNat)) 0) (2 ^ 63 - 1) : Nat)

/-- The lookup of `do_bgfg`: the slot of the job, or the printed text. -/
def lookupJob (t : JobTable) (name : String) : Option (List Char) → Except String (Fin MAXJOBS)
  | none => .error s!"{name} command requires PID or %jobid argument\n"
  | some ('%' :: jidptr) =>
      if isnumber jidptr then
        match getjobjid t (atoi jidptr) with
        | none => .error s!"%{atoi jidptr}: No such job\n"
        | some job => .ok job
      else .error s!"{name}: argument must be a PID or %jobid\n"
  | some pidptr =>
      if isnumber pidptr then
        match getjobpid t (atoi pidptr) with
        | none => .error s!"({atoi pidptr}): No such process\n"
        | some job => .ok job
      else .error s!"{name}: argument must be a PID or %jobid\n"

/-! ## The state -/

/-- A command line as `parseline` and `builtin_cmd` read it. -/
inductive Command where
  | empty
  | quit
  | jobs
  | ampersand
  | bgfg (name : String) (operand : Option (List Char))
  | run (bg : Bool) (cmdline : String)

/-- The next statement of the main program.  From the lookup on, `do_bgfg` has
a slot; `named` is the pid that the slot had then. -/
inductive Pc where
  /-- `fgets` in `main`. -/
  | prompt
  /-- `eval`: blocking `SIGCHLD`, `Fork`, `addjob`, unblocking, `printf`. -/
  | evalStart (bg : Bool) (cmdline : String)
  | evalBlocked (bg : Bool) (cmdline : String)
  | forked (bg : Bool) (cmdline : String) (pid : Int)
  | added (bg : Bool) (cmdline : String) (pid : Int)
  | started (cmdline : String) (pid : Int)
  /-- `do_bgfg`: the lookup, blocking `SIGCHLD`, `Kill`, editing the state,
  unblocking, `waitfg(job->pid)`. -/
  | lookup (name : String) (operand : Option (List Char))
  | resolved (bg : Bool) (job : Fin MAXJOBS) (named : Int)
  | bgfgBlocked (bg : Bool) (job : Fin MAXJOBS) (named : Int)
  | signalled (bg : Bool) (job : Fin MAXJOBS) (named : Int)
  | edited (bg : Bool) (job : Fin MAXJOBS) (named : Int)
  | foregrounded (job : Fin MAXJOBS) (named : Int)
  /-- `waitfg`: blocking `SIGCHLD`, the loop guard, `sigsuspend`, unblocking. -/
  | waitfg (pid : Int)
  | waitLoop (pid : Int)
  | suspended (pid : Int)
  | waitDone
  /-- The message section of `eval`. -/
  | testStop
  | printStop
  | clearStop
  | testTerm
  | printTerm
  | clearTerm
  | exited
  deriving DecidableEq

/-- Whether `SIGCHLD` is blocked at a statement. -/
def Pc.blocked : Pc → Bool
  | .evalBlocked .. | .forked .. | .added .. | .bgfgBlocked .. | .signalled .. | .edited ..
  | .waitLoop _ | .waitDone | .exited => true
  | _ => false

/-- The signals that the shell forwards to the foreground job. -/
inductive Forwarded where
  | SIGINT
  | SIGTSTP
  deriving DecidableEq

/-- A running `sigint_handler` or `sigtstp_handler`, with the result of `fgpid`
once it has been called. -/
structure Frame where
  signal : Forwarded
  pid : Option Int

/-- The message flags and data. -/
structure Messages where
  stop_msg : Bool
  term_msg : Bool
  msg_jid : Int
  msg_pid : Int
  msg_sig : Int

/-- A printed line: a message of `do_bgfg` or `addjob`, `[%d] (%d) %s`, a line
of `listjobs`, `Job [%d] (%d) stopped by signal %d` and
`Job [%d] (%d) terminated by signal %d`. -/
inductive Line where
  | message (text : String)
  | started (jid pid : Int) (cmdline : String)
  | listed (jid pid : Int) (state : JobState) (cmdline : String)
  | stopped (jid pid sig : Int)
  | terminated (jid pid sig : Int)

/-- What `do_bgfg` does to a process: `SIGCONT` to its group, writing the state
of its job, waiting for it. -/
inductive Action where
  | continued
  | edited
  | waited
  deriving DecidableEq

/-- An action with the pid that the operand named and the pid it was done to. -/
structure Effect where
  action : Action
  named : Int
  target : Int

/-- The shell with its children.  `pending` says that a `SIGCHLD` is pending;
`frames` are the running forwarding handlers, the innermost first; `effects`
and `output` are what has been done and printed. -/
structure ShellState where
  table : JobTable
  children : List Child
  pending : Bool
  pc : Pc
  frames : List Frame
  messages : Messages
  effects : List Effect
  output : List Line

/-- The shell as it first prompts. -/
def boot : ShellState where
  table := initjobs
  children := []
  pending := false
  pc := .prompt
  frames := []
  messages := ⟨false, false, 0, 0, 0⟩
  effects := []
  output := []

/-! ## The statements of the main program -/

/-- `job->state = state`. -/
def setState (t : JobTable) (job : Fin MAXJOBS) (state : JobState) : JobTable :=
  { t with jobs := Function.update t.jobs job { t.jobs job with state := state } }

/-- `listjobs`. -/
def listjobs (t : JobTable) : List Line :=
  ((List.finRange MAXJOBS).filter fun i => (t.jobs i).pid ≠ 0).map fun i =>
    .listed (t.jobs i).jid (t.jobs i).pid (t.jobs i).state (t.jobs i).cmdline

/-- `eval` up to its first statement that touches signals, on a new command
line. -/
def dispatch (s : ShellState) : Command → ShellState
  | .empty => s
  | .quit => { s with pc := .exited }
  | .jobs => { s with output := s.output ++ listjobs s.table, pc := .testStop }
  | .ampersand => { s with pc := .testStop }
  | .bgfg name operand => { s with pc := .lookup name operand }
  | .run bg cmdline => { s with pc := .evalStart bg cmdline }

/-- `Fork` in `eval`, as the parent sees it. -/
def forkChild (s : ShellState) (bg : Bool) (cmdline : String) (pid : Int) : Option ShellState :=
  if 1 ≤ pid ∧ ∀ c ∈ s.children, c.pid ≠ pid then
    some { s with children := ⟨pid, false, none, false⟩ :: s.children, pc := .forked bg cmdline pid }
  else none

/-- `addjob` in `eval`. -/
def addForked (s : ShellState) (bg : Bool) (cmdline : String) (pid : Int) : ShellState :=
  let (table, done) := addjob s.table pid (if bg then .BG else .FG) cmdline
  { s with
    table := table
    output := if done = 0 then s.output ++ [.message "Tried to create too many jobs\n"] else s.output
    pc := .added bg cmdline pid }

/-- The lookup of `do_bgfg`. -/
def lookupNamed (s : ShellState) (name : String) (operand : Option (List Char)) : ShellState :=
  match lookupJob s.table name operand with
  | .error text => { s with output := s.output ++ [.message text], pc := .testStop }
  | .ok job => { s with pc := .resolved (name = "bg") job (s.table.jobs job).pid }

/-- `Kill((-1)*(job->pid), SIGCONT)`: a failing `Kill` ends the shell. -/
def continueNamed (s : ShellState) (bg : Bool) (job : Fin MAXJOBS) (named : Int) : ShellState :=
  let pid := (s.table.jobs job).pid
  { s with
    effects := ⟨.continued, named, pid⟩ :: s.effects
    pc := if groupExists s.children pid then .signalled bg job named else .exited }

/-- `do_bgfg` edits the state of the job, after printing it for `bg`. -/
def editNamed (s : ShellState) (bg : Bool) (job : Fin MAXJOBS) (named : Int) : ShellState :=
  let slot := s.table.jobs job
  { s with
    output := if bg then s.output ++ [.started (pid2jid s.table slot.pid) slot.pid slot.cmdline]
      else s.output
    effects := ⟨.edited, named, slot.pid⟩ :: s.effects
    table := setState s.table job (if bg then .BG else .FG)
    pc := .edited bg job named }

/-- `waitfg(job->pid)`: the argument is read. -/
def waitNamed (s : ShellState) (job : Fin MAXJOBS) (named : Int) : ShellState :=
  let pid := (s.table.jobs job).pid
  { s with effects := ⟨.waited, named, pid⟩ :: s.effects, pc := .waitfg pid }

/-- The next statement of the main program, where it does not depend on the
outside. -/
def advance (s : ShellState) : Option ShellState :=
  match s.pc with
  | .prompt | .evalBlocked .. | .suspended _ | .exited => none
  | .evalStart bg cmdline => some { s with pc := .evalBlocked bg cmdline }
  | .forked bg cmdline pid => some (addForked s bg cmdline pid)
  | .added bg cmdline pid => some { s with pc := if bg then .started cmdline pid else .waitfg pid }
  | .started cmdline pid =>
      some { s with output := s.output ++ [.started (pid2jid s.table pid) pid cmdline], pc := .testStop }
  | .lookup name operand => some (lookupNamed s name operand)
  | .resolved bg job named => some { s with pc := .bgfgBlocked bg job named }
  | .bgfgBlocked bg job named => some (continueNamed s bg job named)
  | .signalled bg job named => some (editNamed s bg job named)
  | .edited bg job named => some { s with pc := if bg then .testStop else .foregrounded job named }
  | .foregrounded job named => some (waitNamed s job named)
  | .waitfg pid => some { s with pc := .waitLoop pid }
  | .waitLoop pid => some { s with pc := if pid = fgpid s.table then .suspended pid else .waitDone }
  | .waitDone => some { s with pc := .testStop }
  | .testStop => some { s with pc := if s.messages.stop_msg then .printStop else .testTerm }
  | .printStop =>
      let m := s.messages
      some { s with output := s.output ++ [.stopped m.msg_jid m.msg_pid m.msg_sig], pc := .clearStop }
  | .clearStop => some { s with messages := { s.messages with stop_msg := false }, pc := .testTerm }
  | .testTerm => some { s with pc := if s.messages.term_msg then .printTerm else .prompt }
  | .printTerm =>
      let m := s.messages
      some { s with
        output := s.output ++ [.terminated m.msg_jid m.msg_pid m.msg_sig], pc := .clearTerm }
  | .clearTerm => some { s with messages := { s.messages with term_msg := false }, pc := .prompt }

/-! ## The signal handlers -/

/-- What `sigchld_handler` does to the table for a report. -/
def collectTable (t : JobTable) : Int × Status → JobTable
  | (pid, .exited) | (pid, .signaled _) => (deletejob t pid).1
  | (pid, .stopped _) =>
      match getjobpid t pid with
      | none => t
      | some job => setState t job .ST

/-- What `sigchld_handler` does to the message data for a report. -/
def collectMessages (t : JobTable) (m : Messages) : Int × Status → Messages
  | (_, .exited) => m
  | (pid, .stopped sig) =>
      { m with stop_msg := true, msg_jid := pid2jid t pid, msg_pid := pid, msg_sig := sig }
  | (pid, .signaled sig) =>
      { m with term_msg := true, msg_jid := pid2jid t pid, msg_pid := pid, msg_sig := sig }

/-- The loop of `sigchld_handler`. -/
def collect (t : JobTable) (m : Messages) : List (Int × Status) → JobTable × Messages
  | [] => (t, m)
  | report :: rest => collect (collectTable t report) (collectMessages t m report) rest

/-- Where the main program goes on after a handler: `sigsuspend` returns. -/
def Pc.resume : Pc → Pc
  | .suspended pid => .waitLoop pid
  | pc => pc

/-- The innermost handler returns, to another handler or to the main program. -/
def leave (s : ShellState) (frames : List Frame) : ShellState :=
  { s with frames := frames, pc := if frames.isEmpty then s.pc.resume else s.pc }

/-- `sigchld_handler` without interruptions, which collects the reports in the
kernel's order. -/
def sigchld_handler (s : ShellState) (order : List (Int × Status)) : Option ShellState :=
  if s.pending ∧ ¬ s.pc.blocked ∧ order.isPerm (reports s.children) then
    let (table, messages) := collect s.table s.messages order
    some (leave
      { s with table := table, messages := messages, children := reap s.children, pending := false }
      s.frames)
  else none

/-- A signal to forward arrives, unless its handler is running. -/
def interrupt (s : ShellState) (signal : Forwarded) : Option ShellState :=
  if s.pc ≠ .exited ∧ ∀ f ∈ s.frames, f.signal ≠ signal then
    some { s with frames := ⟨signal, none⟩ :: s.frames }
  else none

/-- The next statement of the innermost `sigint_handler` or `sigtstp_handler`:
`fgpid`, then `Kill(-pid, sig)`. -/
def forward (s : ShellState) : Option ShellState :=
  if s.pc = .exited then none
  else
    match s.frames with
    | [] => none
    | ⟨signal, none⟩ :: rest =>
        let pid := fgpid s.table
        some (if pid = 0 then leave s rest else { s with frames := ⟨signal, some pid⟩ :: rest })
    | ⟨_, some pid⟩ :: rest =>
        some (if groupExists s.children pid then leave s rest else { s with pc := .exited })

/-! ## Runs -/

/-- What may happen next: a command line, the result of `fork`, the next
statement of the main program, `sigchld_handler`, a signal to forward, the
next statement of its handler, and what the children do. -/
inductive Event where
  | command (c : Command)
  | fork (pid : Int)
  | forkFails
  | step
  | sigchld (order : List (Int × Status))
  | interrupt (signal : Forwarded)
  | forward
  | setpgid (pid : Int)
  | stops (pid sig : Int)
  | continues (pid : Int)
  | ends (pid : Int) (status : Status)

/-- The children after a change that raises `SIGCHLD`. -/
def childChanges (s : ShellState) (pid : Int) (change : Child → Option Child) : Option ShellState :=
  (changeChild s.children pid change).map fun children =>
    { s with children := children, pending := true }

/-- The state after an event, when it can happen. -/
def exec (s : ShellState) : Event → Option ShellState
  | .command c => if s.pc = .prompt ∧ s.frames.isEmpty then some (dispatch s c) else none
  | .fork pid =>
      match s.pc with
      | .evalBlocked bg cmdline => if s.frames.isEmpty then forkChild s bg cmdline pid else none
      | _ => none
  | .forkFails =>
      match s.pc with
      | .evalBlocked _ _ => if s.frames.isEmpty then some { s with pc := .exited } else none
      | _ => none
  | .step => if s.frames.isEmpty then advance s else none
  | .sigchld order => sigchld_handler s order
  | .interrupt signal => interrupt s signal
  | .forward => forward s
  | .setpgid pid =>
      (changeChild s.children pid Child.setpgid).map fun children => { s with children := children }
  | .stops pid sig => childChanges s pid (Child.stop sig)
  | .continues pid => childChanges s pid Child.continue
  | .ends pid status => childChanges s pid (Child.finish status)

/-- The shell with everything that may happen to it. -/
def shell : Machine ShellState Event where
  init s := s = boot
  step s e t := exec s e = some t

end SysProg.Shell

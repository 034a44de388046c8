import Mathlib.Data.List.Perm.Subperm
import SysProg.Shell.Resume

/-!
# The status reports

`sigchld_handler` hands an event to `eval` in two flags and one set of data
variables.  If an event never comes while another one is unprinted, every
event is printed once, as it was collected, and no later than by the first
message section that starts after it.
-/

namespace SysProg.Shell

open Logic Machine

/-! ## The property -/

/-- The line that a report calls for, with the table that it finds. -/
def reportLine (t : JobTable) : Int × Status → List Line
  | (_, .exited) => []
  | (pid, .stopped sig) => [.stopped (pid2jid t pid) pid sig]
  | (pid, .signaled sig) => [.terminated (pid2jid t pid) pid sig]

/-- The lines that the reports of one run of the handler call for. -/
def reportLines (t : JobTable) : List (Int × Status) → List Line
  | [] => []
  | report :: rest => reportLine t report ++ reportLines (collectTable t report) rest

/-- The events that `sigchld_handler` has collected, the first one first. -/
def collected : List (ShellState × Event) → List Line
  | [] => []
  | (s, .sigchld order) :: past => collected past ++ reportLines s.table order
  | _ :: past => collected past

/-- The events that were collected before the last message section started. -/
def due : List (ShellState × Event) → List Line
  | [] => []
  | (s, .step) :: past => if s.pc = .testStop then collected past else due past
  | _ :: past => due past

/-- Whether a line reports a stopped or terminated job. -/
def Line.reports : Line → Bool
  | .stopped .. | .terminated .. => true
  | _ => false

/-- The reports that have been printed. -/
def printed (s : ShellState) : List Line := s.output.filter Line.reports

/-- Every printed report is an event of its own, and at a prompt all events
that were due have been printed. -/
structure Reported (past : List (ShellState × Event)) (s : ShellState) : Prop where
  own : (printed s).Subperm (collected past)
  inTime : s.pc = .prompt → (due past).Subperm (printed s)

/-! ## The condition -/

/-- A message that has not been printed. -/
def Unprinted (s : ShellState) : Prop :=
  (s.messages.stop_msg = true ∧ s.pc ≠ .clearStop) ∨
    (s.messages.term_msg = true ∧ s.pc ≠ .clearTerm)

/-- A report that `sigchld_handler` hands to `eval`. -/
def Status.handed : Status → Bool
  | .exited => false
  | _ => true

/-- `eval` is about to clear the flag of this kind. -/
def Pc.clears : Pc → Status → Bool
  | .clearStop, .stopped _ => true
  | .clearTerm, .signaled _ => true
  | _, _ => false

/-- One run of `sigchld_handler` hands over at most one event, and only when no
message is unprinted and its flag is not about to be cleared. -/
def Unmixed (s : ShellState) : Event → Prop
  | .sigchld order => (order.filter fun report => report.2.handed).length ≤ 1 ∧
      ∀ report ∈ order, report.2.handed → ¬ Unprinted s ∧ ¬ s.pc.clears report.2
  | _ => True

instance (s : ShellState) : Decidable (Unprinted s) :=
  inferInstanceAs (Decidable ((_ ∧ _) ∨ (_ ∧ _)))

instance (s : ShellState) : (e : Event) → Decidable (Unmixed s e)
  | .sigchld order => inferInstanceAs (Decidable (_ ∧ ∀ report ∈ order, _ → _))
  | .command _ | .fork _ | .forkFails | .step | .interrupt _ | .forward | .setpgid _ | .stops ..
  | .continues _ | .ends .. => inferInstanceAs (Decidable True)

/-! ## One run of the handler -/

section Collect

variable {t : JobTable} {m : Messages} {order : List (Int × Status)}

theorem collect_silent (silent : (order.filter fun report => report.2.handed) = []) :
    (collect t m order).2 = m ∧ reportLines t order = [] := by
  induction order generalizing t m with
  | nil => exact ⟨rfl, rfl⟩
  | cons report rest ih =>
      obtain ⟨pid, status⟩ := report
      cases status with
      | exited => exact ih (by simpa [Status.handed] using silent)
      | stopped sig => simp [Status.handed] at silent
      | signaled sig => simp [Status.handed] at silent

/-- A run of the handler that hands over one event does what the handler does
for that event, with the table that it finds. -/
theorem collect_one {report : Int × Status}
    (one : (order.filter fun report => report.2.handed) = [report]) :
    ∃ found, (collect t m order).2 = collectMessages found m report ∧
      reportLines t order = reportLine found report := by
  induction order generalizing t m with
  | nil => cases one
  | cons first rest ih =>
      obtain ⟨pid, status⟩ := first
      cases status with
      | exited => exact ih (by simpa [Status.handed] using one)
      | stopped sig =>
          simp only [List.filter_cons, Status.handed] at one
          obtain ⟨rfl, silent⟩ := List.cons.inj one
          obtain ⟨messages, lines⟩ := collect_silent (t := collectTable t (pid, .stopped sig))
            (m := collectMessages t m (pid, .stopped sig)) silent
          exact ⟨t, messages, by rw [reportLines, lines, List.append_nil]⟩
      | signaled sig =>
          simp only [List.filter_cons, Status.handed] at one
          obtain ⟨rfl, silent⟩ := List.cons.inj one
          obtain ⟨messages, lines⟩ := collect_silent (t := collectTable t (pid, .signaled sig))
            (m := collectMessages t m (pid, .signaled sig)) silent
          exact ⟨t, messages, by rw [reportLines, lines, List.append_nil]⟩

end Collect

/-! ## The invariant -/

/-- The line for a message that has not been printed. -/
def unprinted (m : Messages) (pc : Pc) : List Line :=
  if m.stop_msg ∧ pc ≠ .clearStop then [.stopped m.msg_jid m.msg_pid m.msg_sig]
  else if m.term_msg ∧ pc ≠ .clearTerm then [.terminated m.msg_jid m.msg_pid m.msg_sig]
  else []

/-- The line that the message section is still to print of those that were due
when it started. -/
def owed (m : Messages) : Pc → List Line
  | .printStop => [.stopped m.msg_jid m.msg_pid m.msg_sig]
  | .testTerm => if m.term_msg then [.terminated m.msg_jid m.msg_pid m.msg_sig] else []
  | .printTerm => [.terminated m.msg_jid m.msg_pid m.msg_sig]
  | _ => []

/-- The flags at the statements that print and clear. -/
def Pc.Flags (m : Messages) : Pc → Prop
  | .printStop | .clearStop => m.stop_msg = true
  | .printTerm | .clearTerm => m.term_msg = true
  | _ => True

/-- The statements of the message section after its first one. -/
def Pc.inSection : Pc → Bool
  | .printStop | .clearStop | .testTerm | .printTerm | .clearTerm => true
  | _ => false

/-- The invariant of unmixed runs while the shell runs: at most one event is
unprinted, and the message data are its own. -/
structure Handed (past : List (ShellState × Event)) (s : ShellState) : Prop where
  collected : collected past = printed s ++ unprinted s.messages s.pc
  due : due past <+: printed s ++ owed s.messages s.pc
  single : ¬ ((s.messages.stop_msg = true ∧ s.pc ≠ .clearStop) ∧
    (s.messages.term_msg = true ∧ s.pc ≠ .clearTerm))
  flags : s.pc.Flags s.messages

section Outside

variable {m : Messages} {pc pc' : Pc}

theorem owed_outside (outside : pc.inSection = false) : owed m pc = [] := by
  cases pc with
  | printStop | testTerm | printTerm => cases outside
  | _ => rfl

theorem flags_outside (outside : pc.inSection = false) : pc.Flags m := by
  cases pc with
  | printStop | clearStop | printTerm | clearTerm => cases outside
  | _ => trivial

theorem not_clear (outside : pc.inSection = false) : pc ≠ .clearStop ∧ pc ≠ .clearTerm := by
  refine ⟨?_, ?_⟩
  · rintro rfl
    cases outside
  · rintro rfl
    cases outside

theorem unprinted_outside (outside : pc.inSection = false) (outside' : pc'.inSection = false) :
    unprinted m pc = unprinted m pc' := by
  obtain ⟨stop, term⟩ := not_clear outside
  obtain ⟨stop', term'⟩ := not_clear outside'
  simp [unprinted, stop, term, stop', term']

end Outside

namespace Handed

variable {past past' : List (ShellState × Event)} {s t : ShellState}

theorem reports (inv : Handed past s) : Reported past s where
  own := by
    rw [inv.collected]
    exact (List.sublist_append_left ..).subperm
  inTime here := by
    have due := inv.due
    rw [here] at due
    simpa [owed] using due.sublist.subperm

/-- A step outside the message section that neither collects nor prints. -/
theorem quiet (inv : Handed past s) (before : s.pc.inSection = false)
    (after : t.pc.inSection = false) (messages : t.messages = s.messages)
    (lines : printed t = printed s) (same : Shell.collected past' = Shell.collected past)
    (old : Shell.due past' = Shell.due past) : Handed past' t where
  collected := by
    rw [same, inv.collected, lines, messages, unprinted_outside before after]
  due := by
    rw [old, lines, owed_outside after]
    simpa [owed_outside before] using inv.due
  single := by
    rw [messages]
    rintro ⟨⟨stop, -⟩, term, -⟩
    obtain ⟨first, second⟩ := not_clear before
    exact inv.single ⟨⟨stop, first⟩, term, second⟩
  flags := flags_outside after

/-- A step that leaves the statement, the messages and the printed lines. -/
theorem still (inv : Handed past s) (pc : t.pc = s.pc) (messages : t.messages = s.messages)
    (lines : printed t = printed s) (same : Shell.collected past' = Shell.collected past)
    (old : Shell.due past' = Shell.due past) : Handed past' t := by
  obtain ⟨collected, due, single, flags⟩ := inv
  refine ⟨?_, ?_, ?_, ?_⟩
  · rw [same, collected, lines, messages, pc]
  · rw [old, lines, messages, pc]
    exact due
  · rw [messages, pc]
    exact single
  · rw [messages, pc]
    exact flags

end Handed

/-- Outside the message section the main program prints no report. -/
theorem advance_outside {s t : ShellState} (taken : Advances s t)
    (outside : s.pc.inSection = false) (elsewhere : s.pc ≠ .testStop) :
    t.messages = s.messages ∧ printed t = printed s ∧ t.pc.inSection = false := by
  have more : ∀ line : Line, line.reports = false →
      (s.output ++ [line]).filter Line.reports = printed s := by
    intro line silent
    simp [printed, silent]
  have optional : ∀ (shown : Prop) [Decidable shown] (line : Line), line.reports = false →
      (if shown then s.output ++ [line] else s.output).filter Line.reports = printed s := by
    intro shown _ line silent
    split
    · exact more line silent
    · rfl
  cases taken with
  | addjob here => exact ⟨rfl, optional _ _ rfl, rfl⟩
  | announce here => exact ⟨rfl, more _ rfl, rfl⟩
  | lookupFails here found => exact ⟨rfl, more _ rfl, rfl⟩
  | @edit bg job named here => exact ⟨rfl, optional (bg = true) _ rfl, rfl⟩
  | stopSet here | stopClear here => exact absurd here elsewhere
  | printStop here | clearStop here | termSet here | termClear here | printTerm here
  | clearTerm here =>
      rw [here] at outside
      cases outside
  | _ => exact ⟨rfl, rfl, rfl⟩

namespace Handed

variable {past : List (ShellState × Event)} {s t : ShellState}

section Statements

variable (past) in
/-- What the run owes changes only when the first test of the message section is taken. -/
theorem due_step (elsewhere : s.pc ≠ .testStop) :
    Shell.due ((s, .step) :: past) = Shell.due past :=
  if_neg elsewhere

theorem stopSet (inv : Handed past s) (here : s.pc = .testStop)
    (stop : s.messages.stop_msg = true) :
    Handed ((s, .step) :: past) { s with pc := .printStop } := by
  obtain ⟨collected, due, single, flags⟩ := inv
  have new : Shell.due ((s, .step) :: past) = Shell.collected past := if_pos here
  rw [here] at collected single
  have quiet : s.messages.term_msg = false := by simpa [stop] using single
  refine ⟨collected.trans ?_, ?_, ?_, stop⟩
  · simp [printed, unprinted, stop]
  · rw [new, collected]
    simp [printed, unprinted, owed, stop]
  · simp [quiet]

theorem stopClear (inv : Handed past s) (here : s.pc = .testStop)
    (stop : s.messages.stop_msg = false) :
    Handed ((s, .step) :: past) { s with pc := .testTerm } := by
  obtain ⟨collected, due, single, flags⟩ := inv
  have new : Shell.due ((s, .step) :: past) = Shell.collected past := if_pos here
  rw [here] at collected
  refine ⟨collected.trans ?_, ?_, ?_, trivial⟩
  · simp [printed, unprinted]
  · rw [new, collected]
    simp [printed, unprinted, owed, stop]
  · simp [stop]

theorem printStop (inv : Handed past s) (here : s.pc = .printStop) :
    Handed ((s, .step) :: past) { s with
      output := s.output ++ [.stopped s.messages.msg_jid s.messages.msg_pid s.messages.msg_sig]
      pc := .clearStop } := by
  obtain ⟨collected, due, single, flags⟩ := inv
  have old := due_step past (s := s) (by simp [here])
  rw [here] at collected due single flags
  have stop : s.messages.stop_msg = true := flags
  have quiet : s.messages.term_msg = false := by simpa [stop] using single
  refine ⟨collected.trans ?_, ?_, ?_, stop⟩
  · simp [printed, unprinted, stop, quiet, List.filter_cons, Line.reports]
  · rw [old]
    simpa [printed, owed, List.filter_cons, Line.reports] using due
  · simp [quiet]

theorem clearStop (inv : Handed past s) (here : s.pc = .clearStop) :
    Handed ((s, .step) :: past) { s with
      messages := { s.messages with stop_msg := false }, pc := .testTerm } := by
  obtain ⟨collected, due, single, flags⟩ := inv
  have old := due_step past (s := s) (by simp [here])
  rw [here] at collected due
  refine ⟨collected.trans ?_, ?_, ?_, trivial⟩
  · simp [printed, unprinted]
  · rw [old]
    exact due.trans (by simp [printed, owed])
  · simp

theorem termSet (inv : Handed past s) (here : s.pc = .testTerm)
    (term : s.messages.term_msg = true) :
    Handed ((s, .step) :: past) { s with pc := .printTerm } := by
  obtain ⟨collected, due, single, flags⟩ := inv
  have old := due_step past (s := s) (by simp [here])
  rw [here] at collected due single
  refine ⟨collected.trans ?_, ?_, ?_, term⟩
  · simp [printed, unprinted]
  · rw [old]
    simpa [printed, owed, term] using due
  · simpa using single

theorem termClear (inv : Handed past s) (here : s.pc = .testTerm)
    (term : s.messages.term_msg = false) :
    Handed ((s, .step) :: past) { s with pc := .prompt } := by
  obtain ⟨collected, due, single, flags⟩ := inv
  have old := due_step past (s := s) (by simp [here])
  rw [here] at collected due
  refine ⟨collected.trans ?_, ?_, ?_, trivial⟩
  · simp [printed, unprinted]
  · rw [old]
    simpa [printed, owed, term] using due
  · simp [term]

theorem printTerm (inv : Handed past s) (here : s.pc = .printTerm) :
    Handed ((s, .step) :: past) { s with
      output := s.output ++ [.terminated s.messages.msg_jid s.messages.msg_pid s.messages.msg_sig]
      pc := .clearTerm } := by
  obtain ⟨collected, due, single, flags⟩ := inv
  have old := due_step past (s := s) (by simp [here])
  rw [here] at collected due single flags
  have term : s.messages.term_msg = true := flags
  have quiet : s.messages.stop_msg = false := by simpa [term] using single
  refine ⟨collected.trans ?_, ?_, ?_, term⟩
  · simp [printed, unprinted, term, quiet, List.filter_cons, Line.reports]
  · rw [old]
    simpa [printed, owed, List.filter_cons, Line.reports] using due
  · simp [quiet]

theorem clearTerm (inv : Handed past s) (here : s.pc = .clearTerm) :
    Handed ((s, .step) :: past) { s with
      messages := { s.messages with term_msg := false }, pc := .prompt } := by
  obtain ⟨collected, due, single, flags⟩ := inv
  have old := due_step past (s := s) (by simp [here])
  rw [here] at collected due
  refine ⟨collected.trans ?_, ?_, ?_, trivial⟩
  · simp [printed, unprinted]
  · rw [old]
    exact due.trans (by simp [printed, owed])
  · simp

end Statements

/-- The main program prints what it owes. -/
theorem advance (inv : Handed past s) (taken : Advances s t) : Handed ((s, .step) :: past) t := by
  by_cases outside : s.pc.inSection = false ∧ s.pc ≠ .testStop
  · obtain ⟨messages, lines, after⟩ := advance_outside taken outside.1 outside.2
    exact inv.quiet outside.1 after messages lines rfl (due_step past outside.2)
  · cases taken with
    | stopSet here flag => exact inv.stopSet here flag
    | stopClear here flag => exact inv.stopClear here flag
    | printStop here => exact inv.printStop here
    | clearStop here => exact inv.clearStop here
    | termSet here flag => exact inv.termSet here flag
    | termClear here flag => exact inv.termClear here flag
    | printTerm here => exact inv.printTerm here
    | clearTerm here => exact inv.clearTerm here
    | _ here => exact absurd (by simp [here, Pc.inSection]) outside

/-- With every event printed, nothing is owed. -/
theorem owed_none (inv : Handed past s) (free : ¬ Unprinted s) :
    owed s.messages s.pc = [] := by
  have flags := inv.flags
  simp only [Unprinted, not_or] at free
  cases here : s.pc with
  | printStop =>
      rw [here] at flags free
      exact absurd ⟨flags, by simp⟩ free.1
  | printTerm =>
      rw [here] at flags free
      exact absurd ⟨flags, by simp⟩ free.2
  | testTerm =>
      have quiet : s.messages.term_msg = false := by simpa [here] using free.2
      simp [owed, quiet]
  | _ => rfl

/-- An event that comes while none is unprinted is the one to print. -/
theorem receive (inv : Handed past s) (found : JobTable) {report : Int × Status}
    (free : ¬ Unprinted s) (kept : ¬ s.pc.clears report.2) :
    printed s ++ reportLine found report =
        printed s ++ unprinted (collectMessages found s.messages report) s.pc ∧
      ¬ (((collectMessages found s.messages report).stop_msg = true ∧ s.pc ≠ .clearStop) ∧
        ((collectMessages found s.messages report).term_msg = true ∧ s.pc ≠ .clearTerm)) ∧
      s.pc.Flags (collectMessages found s.messages report) := by
  have flags := inv.flags
  simp only [Unprinted, not_or] at free
  obtain ⟨pid, status⟩ := report
  cases status with
  | exited =>
      refine ⟨?_, fun both => free.1 both.1, flags⟩
      simp [reportLine, collectMessages, unprinted, free]
  | stopped sig =>
      have pc : s.pc ≠ .clearStop := by
        intro here
        rw [here] at kept
        exact kept rfl
      refine ⟨?_, fun both => free.2 both.2, ?_⟩
      · simp [reportLine, collectMessages, unprinted, pc]
      · cases here : s.pc with
        | printStop | clearStop => rfl
        | printTerm | clearTerm =>
            rw [here] at flags
            exact flags
        | _ => trivial
  | signaled sig =>
      have pc : s.pc ≠ .clearTerm := by
        intro here
        rw [here] at kept
        exact kept rfl
      refine ⟨?_, fun both => free.1 both.1, ?_⟩
      · have quiet := free.1
        simp only [collectMessages, reportLine, unprinted, if_neg quiet]
        simp [pc]
      · cases here : s.pc with
        | printTerm | clearTerm => rfl
        | printStop | clearStop =>
            rw [here] at flags
            exact flags
        | _ => trivial

/-- An unmixed run of the handler hands over one event while none is unprinted. -/
theorem handle (inv : Handed past s) {order : List (Int × Status)}
    (unmixed : Unmixed s (.sigchld order)) :
    Handed ((s, .sigchld order) :: past) (afterCollect s order) := by
  have ⟨collected, due, single, flags⟩ := inv
  have grown : Shell.collected ((s, .sigchld order) :: past) =
      Shell.collected past ++ reportLines s.table order := rfl
  obtain ⟨few, apart⟩ := unmixed
  rcases handed : order.filter fun report => report.2.handed with _ | ⟨report, _ | ⟨second, more⟩⟩
  · obtain ⟨messages, lines⟩ := collect_silent (t := s.table) (m := s.messages) handed
    refine ⟨?_, ?_, ?_, ?_⟩
    · rw [grown, lines, List.append_nil]
      simp only [afterCollect, messages]
      exact collected
    · simp only [afterCollect, messages]
      exact due
    · simp only [afterCollect, messages]
      exact single
    · simp only [afterCollect, messages]
      exact flags
  · obtain ⟨member, kind⟩ := List.mem_filter.mp (handed ▸ List.mem_cons_self : report ∈ _)
    obtain ⟨free, kept⟩ := apart report member kind
    obtain ⟨found, messages, lines⟩ := collect_one (t := s.table) (m := s.messages) handed
    obtain ⟨line, single', flags'⟩ := inv.receive found free kept
    have none : unprinted s.messages s.pc = [] := by
      simp only [Unprinted, not_or] at free
      simp [unprinted, free]
    refine ⟨?_, ?_, ?_, ?_⟩
    · rw [grown, lines, collected, none, List.append_nil]
      simp only [afterCollect, messages]
      exact line
    · rw [inv.owed_none free, List.append_nil] at due
      exact due.trans (List.prefix_append ..)
    · simp only [afterCollect, messages]
      exact single'
    · simp only [afterCollect, messages]
      exact flags'
  · simp [handed] at few

theorem leave (inv : Handed past s) (frames : List Frame) : Handed past (leave s frames) := by
  unfold Shell.leave
  cases here : s.pc with
  | suspended pid =>
      refine inv.quiet (by rw [here]; rfl) ?_ rfl rfl rfl rfl
      simp only [Pc.resume]
      split <;> rfl
  | _ =>
      refine inv.still ?_ rfl rfl rfl rfl
      rw [here]
      split <;> rfl

end Handed

/-- The shell has ended: what it printed, it had collected. -/
structure Ended (past : List (ShellState × Event)) (s : ShellState) : Prop where
  exited : s.pc = .exited
  own : printed s <+: collected past

theorem Ended.reports {past : List (ShellState × Event)} {s : ShellState}
    (ended : Ended past s) : Reported past s where
  own := ended.own.sublist.subperm
  inTime here := by
    rw [ended.exited] at here
    cases here

/-- The invariant of unmixed runs. -/
def Reporting (past : List (ShellState × Event)) (s : ShellState) : Prop :=
  Handed past s ∨ Ended past s

namespace Reporting

variable {past : List (ShellState × Event)} {s t : ShellState} {e : Event}

/-- The shell ends without printing. -/
theorem exit (inv : Reporting past s) {past' : List (ShellState × Event)}
    (lines : printed t = printed s) (same : collected past' = collected past)
    (exited : t.pc = .exited) : Reporting past' t := by
  refine .inr ⟨exited, ?_⟩
  rw [lines, same]
  rcases inv with handed | ended
  · rw [handed.collected]
    exact List.prefix_append ..
  · exact ended.own

/-- A step that leaves the statement, the messages and the printed lines. -/
theorem still (inv : Reporting past s) {past' : List (ShellState × Event)} (pc : t.pc = s.pc)
    (messages : t.messages = s.messages) (lines : printed t = printed s)
    (same : collected past' = collected past) (old : due past' = due past) :
    Reporting past' t := by
  rcases inv with handed | ended
  · exact .inl (handed.still pc messages lines same old)
  · exact Reporting.exit (.inr ended) lines same (pc.trans ended.exited)

theorem leave (inv : Reporting past s) (frames : List Frame) :
    Reporting past (leave s frames) := by
  rcases inv with handed | ended
  · exact .inl (handed.leave frames)
  · refine Reporting.exit (.inr ended) rfl rfl ?_
    unfold Shell.leave
    rw [ended.exited]
    split <;> rfl

/-- A new command line. -/
theorem command (handed : Handed past s) (here : s.pc = .prompt) (c : Command) :
    Reporting ((s, .command c) :: past) (dispatch s c) := by
  have outside : s.pc.inSection = false := by
    rw [here]
    rfl
  have listed : (listjobs s.table).filter Line.reports = [] := by
    simp [listjobs, List.filter_map, Function.comp_def, Line.reports]
  cases c with
  | empty => exact .inl (handed.still rfl rfl rfl rfl rfl)
  | quit => exact Reporting.exit (.inl handed) rfl rfl rfl
  | jobs =>
      refine .inl (handed.quiet outside rfl rfl ?_ rfl rfl)
      show (s.output ++ listjobs s.table).filter Line.reports = _
      rw [List.filter_append, listed, List.append_nil]
      rfl
  | ampersand => exact .inl (handed.quiet outside rfl rfl rfl rfl rfl)
  | bgfg name operand => exact .inl (handed.quiet outside rfl rfl rfl rfl rfl)
  | run bg cmdline => exact .inl (handed.quiet outside rfl rfl rfl rfl rfl)

/-- Every unmixed step keeps the invariant. -/
theorem step (inv : Reporting past s) (unmixed : Unmixed s e) (taken : shell.step s e t) :
    Reporting ((s, e) :: past) t := by
  have running : s.pc ≠ .exited → Handed past s := by
    intro differ
    rcases inv with handed | ended
    · exact handed
    · exact absurd ended.exited differ
  have forwarding : e = .forward → Reporting ((s, e) :: past) s := by
    rintro rfl
    exact inv.still rfl rfl rfl rfl rfl
  cases takes_of_step taken with
  | command here returned => exact command (running (by simp [here])) here _
  | fork here returned positive fresh =>
      exact .inl ((running (by simp [here])).quiet (by rw [here]; rfl) rfl rfl rfl rfl rfl)
  | forkFails here returned => exact inv.exit rfl rfl rfl
  | step returned taken =>
      have lives : s.pc ≠ .exited := by
        cases taken with
        | _ here => simp [here]
      exact .inl ((running lives).advance taken)
  | sigchld pending unblocked all =>
      have lives : s.pc ≠ .exited := by
        intro here
        rw [here] at unblocked
        exact unblocked rfl
      exact .inl (((running lives).handle unmixed).leave s.frames)
  | noForeground => exact (forwarding rfl).leave _
  | kill => exact (forwarding rfl).leave _
  | killFails => exact (forwarding rfl).exit rfl rfl rfl
  | _ => exact inv.still rfl rfl rfl rfl rfl

end Reporting

/-- In every run in which `sigchld_handler` hands over events one at a time,
every event is printed once, as it was collected, and in time. -/
theorem reported {past : List (ShellState × Event)} {s : ShellState} (run : shell.Run past s)
    (unmixed : AllSteps Unmixed past) : Reported past s := by
  have inv : Reporting past s := by
    induction run with
    | start initial =>
        cases initial
        exact .inl ⟨rfl, List.prefix_rfl, by simp [boot], trivial⟩
    | next before taken ih =>
        have earlier := ih fun b member => unmixed b (List.mem_cons_of_mem _ member)
        exact earlier.step (unmixed _ List.mem_cons_self) taken
  rcases inv with handed | ended
  · exact handed.reports
  · exact ended.reports

theorem reported_foregroundJob :
    Reported (record exec [] boot foregroundJob).1 (record exec [] boot foregroundJob).2 :=
  reported (Run.of_record (.start rfl) (fun _ _ _ taken => taken) _)
    (by unfold AllSteps; decide +kernel)

/-- Two background jobs are killed, the handler collects both, and a command
reaches the message section. -/
def twoJobsKilled : List Event :=
  startJob ++ [.command (.run true "sleep 2 &\n"), .step, .fork 101, .setpgid 101, .step, .step,
    .step, .step, .step, .ends 100 (.signaled 9), .ends 101 (.signaled 15),
    .sigchld [(100, .signaled 9), (101, .signaled 15)], .command .ampersand, .step, .step, .step,
    .step]

/-- Only one of the two events is printed. -/
theorem event_lost : ¬ ∀ past s, shell.Run past s → Reported past s := by
  intro claimed
  have run : shell.Run _ _ :=
    Run.of_record (.start rfl) (fun _ _ _ taken => taken) twoJobsKilled
  have events : (due (record exec [] boot twoJobsKilled).1).length = 2 := by decide +kernel
  have lines : (printed (record exec [] boot twoJobsKilled).2).length = 1 := by decide +kernel
  have inTime := ((claimed _ _ run).inTime (by decide +kernel)).length_le
  omega

end SysProg.Shell

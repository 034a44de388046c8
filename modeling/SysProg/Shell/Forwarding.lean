import SysProg.Shell.Interrupts

/-!
# Forwarding signals

A `Kill` that finds no process group ends the shell.  A pid in the table is
that of a child that has not been reaped, or of the one that `sigchld_handler`
has just reaped.  So `Kill` finds its group if the child has made it, if
`waitpid` reaps no child between the `fgpid` and the `Kill` of a forwarding
handler, and if none of these reads the pid of a child that has been reaped.
-/

namespace SysProg.Shell

open Logic Machine

/-! ## The property and the condition -/

/-- The pid whose group a statement signals. -/
def killed (s : ShellState) : Statement → Option Int
  | .event .step =>
      match s.pc with
      | .bgfgBlocked _ job _ => some (s.table.jobs job).pid
      | _ => none
  | .event .forward =>
      match s.frames with
      | ⟨_, some pid⟩ :: _ => some pid
      | _ => none
  | _ => none

/-- A `Kill` finds the process group. -/
def KillSucceeds (s : Interrupted) (e : Statement) : Prop :=
  ∀ pid ∈ killed s.shell e, groupExists s.shell.children pid = true

/-- The pid of the child that `waitpid` has reaped and whose job is still in the
table. -/
def Interrupted.reaped (s : Interrupted) : Option Int :=
  (s.collector.bind Collector.report).bind fun report =>
    if report.2.ends then some report.1 else none

/-- The foreground pid that a forwarding handler is about to read. -/
def reads (s : ShellState) : Statement → Option Int
  | .event .forward =>
      match s.frames with
      | ⟨_, none⟩ :: _ => some (fgpid s.table)
      | _ => none
  | _ => none

/-- `waitpid` does not reap a child that a forwarding handler is about to signal. -/
def Spares (s : ShellState) : Statement → Prop
  | .waits report => report.2.ends = true → ∀ f ∈ s.frames, f.pid ≠ some report.1
  | _ => True

/-- The condition on a statement. -/
structure Settled (s : Interrupted) (e : Statement) : Prop where
  spares : Spares s.shell e
  living : ∀ pid ∈ reads s.shell e, s.reaped ≠ some pid
  grouped : ∀ pid ∈ killed s.shell e, ∀ c ∈ s.shell.children, c.pid = pid → c.grouped = true

instance (s : ShellState) : (e : Statement) → Decidable (Spares s e)
  | .waits _ => inferInstanceAs (Decidable (_ → _))
  | .event _ | .starts | .records | .returns => inferInstanceAs (Decidable True)

instance (s : Interrupted) (e : Statement) : Decidable (Settled s e) :=
  decidable_of_iff (Spares s.shell e ∧ (∀ pid ∈ reads s.shell e, s.reaped ≠ some pid) ∧
      ∀ pid ∈ killed s.shell e, ∀ c ∈ s.shell.children, c.pid = pid → c.grouped = true)
    ⟨fun ⟨spares, living, grouped⟩ => ⟨spares, living, grouped⟩,
      fun settled => ⟨settled.spares, settled.living, settled.grouped⟩⟩

/-! ## The table -/

/-- The pids of the children, and of the one that has just been reaped. -/
def Interrupted.living (s : Interrupted) : List Int :=
  s.shell.children.map Child.pid ++ s.reaped.toList

/-- The invariant of all runs.  `sigchld_handler` does not run while a child is
being added. -/
structure Lists (s : Interrupted) : Prop where
  pids : (s.shell.children.map Child.pid).Nodup
  tracks : Tracks (fun _ => False) (slots s.shell.table) s.living s.shell.pc.newborn
  apart : s.collector ≠ none → s.shell.pc.newborn = none

/-- Other lists of the same pids. -/
theorem Tracks.congr {room : Int → Prop} {slots : Fin MAXJOBS → Int} {living living' : List Int}
    {newborn : Option Int} (tracks : Tracks room slots living newborn)
    (same : ∀ pid, pid ∈ living' ↔ pid ∈ living) : Tracks room slots living' newborn where
  positive pid member := tracks.positive pid ((same pid).mp member)
  distinct := tracks.distinct
  alive i occupied := (same _).mpr (tracks.alive i occupied)
  listed pid member := tracks.listed pid ((same pid).mp member)
  window pid adding := by
    obtain ⟨member, free⟩ := tracks.window pid adding
    exact ⟨(same pid).mpr member, free⟩

/-- Tracking without regard to the free slots at the forks. -/
theorem Tracks.forget {room : Int → Prop} {slots : Fin MAXJOBS → Int} {living : List Int}
    {newborn : Option Int} (tracks : Tracks room slots living newborn) :
    Tracks (fun _ => False) slots living newborn where
  positive := tracks.positive
  distinct := tracks.distinct
  alive := tracks.alive
  listed _ _ roomy := roomy.elim
  window pid adding := by
    obtain ⟨member, free, -⟩ := tracks.window pid adding
    exact ⟨member, free, False.elim⟩

/-- The shell ends. -/
theorem Tracks.exit {slots : Fin MAXJOBS → Int} {living : List Int} {newborn : Option Int}
    (tracks : Tracks (fun _ => False) slots living newborn) :
    Tracks (fun _ => False) slots living none where
  positive := tracks.positive
  distinct := tracks.distinct
  alive := tracks.alive
  listed _ _ roomy := roomy.elim
  window _ adding := nomatch adding

section Living

variable {shell : ShellState} {depth : Nat} {report : Int × Status} {pid : Int}

@[simp] theorem living_idle :
    Interrupted.living ⟨shell, none⟩ = shell.children.map Child.pid := List.append_nil _

@[simp] theorem living_waiting :
    Interrupted.living ⟨shell, some ⟨depth, none⟩⟩ = shell.children.map Child.pid :=
  List.append_nil _

theorem mem_living_recording :
    pid ∈ Interrupted.living ⟨shell, some ⟨depth, some report⟩⟩ ↔
      pid ∈ shell.children.map Child.pid ∨ report.2.ends = true ∧ report.1 = pid := by
  rw [Interrupted.living, List.mem_append, Option.mem_toList]
  refine or_congr_right ?_
  show (if report.2.ends then some report.1 else none) = some pid ↔ _
  cases report.2.ends <;> simp

end Living

namespace Lists

variable {s t : Interrupted} {shell : ShellState} {depth : Nat} {report : Int × Status}

/-- A job in the table whose child has not just been reaped is that of a child. -/
theorem alive (lists : Lists s) {i : Fin MAXJOBS} (occupied : (s.shell.table.jobs i).pid ≠ 0)
    (living : s.reaped ≠ some (s.shell.table.jobs i).pid) :
    (s.shell.table.jobs i).pid ∈ s.shell.children.map Child.pid := by
  rcases List.mem_append.mp (lists.tracks.alive i occupied) with child | reaped
  · exact child
  · exact absurd (Option.mem_toList.mp reaped) living

/-- A step that changes neither the pids nor the newborn child. -/
theorem same (lists : Lists s) (children : t.shell.children.map Child.pid =
    s.shell.children.map Child.pid) (table : slots t.shell.table = slots s.shell.table)
    (newborn : t.shell.pc.newborn = s.shell.pc.newborn) (reaped : t.reaped = s.reaped)
    (collector : t.collector ≠ none → s.shell.pc.newborn = none) : Lists t where
  pids := children ▸ lists.pids
  tracks := by
    rw [Interrupted.living, children, table, newborn, reaped]
    exact lists.tracks
  apart running := newborn.trans (collector running)

/-- `waitpid` moves a pid from the children to the reaped one. -/
theorem waits (lists : Lists ⟨shell, some ⟨depth, none⟩⟩) (found : report ∈ reports shell.children) :
    Lists ⟨{ shell with children := reapOne shell.children report.1 },
      some ⟨depth, some report⟩⟩ where
  pids := lists.pids.sublist (reapOne_pids_sublist ..)
  apart _ := lists.apart (by simp)
  tracks := by
    refine lists.tracks.congr fun pid => ?_
    rw [mem_living_recording, living_waiting]
    obtain ⟨c, member, same, -⟩ := reports_mem found
    constructor
    · rintro (kept | ⟨-, rfl⟩)
      · exact (reapOne_pids_sublist ..).subset kept
      · exact List.mem_map.mpr ⟨c, member, same⟩
    · intro child
      obtain ⟨d, old, rfl⟩ := List.mem_map.mp child
      by_cases other : d.pid = report.1
      · cases ended : report.2.ends with
        | true => exact .inr ⟨rfl, other.symm⟩
        | false => exact .inl (other ▸ reapOne_stopped found ended)
      · exact .inl (List.mem_map_of_mem (reapOne_other old other))

/-- The section that records a report clears the slot of a child that was reaped. -/
theorem records (lists : Lists ⟨shell, some ⟨depth, some report⟩⟩) (messages : Messages) :
    Lists ⟨{ shell with table := collectTable shell.table report, messages := messages },
      some ⟨depth, none⟩⟩ where
  pids := lists.pids
  apart _ := lists.apart (by simp)
  tracks := by
    have newborn : shell.pc.newborn = none := lists.apart (by simp)
    have tracks := lists.tracks
    have cleared := collectTable_demoted shell.table report
    rw [living_waiting]
    show Tracks _ _ _ shell.pc.newborn
    rw [show (Interrupted.mk shell _).shell.pc.newborn = shell.pc.newborn from rfl] at tracks
    rw [newborn] at tracks ⊢
    refine ⟨?_, DistinctPids.demoted tracks.distinct cleared, ?_, fun _ _ roomy => roomy.elim,
      fun _ adding => nomatch adding⟩
    · intro pid member
      exact tracks.positive pid (mem_living_recording.mpr (.inl member))
    · intro i occupied
      have former : ((collectTable shell.table report).jobs i).pid = (shell.table.jobs i).pid :=
        (cleared i).pid.resolve_right occupied
      have before : slots shell.table i ≠ 0 := fun free => occupied (former.trans free)
      have listed := tracks.alive i before
      show ((collectTable shell.table report).jobs i).pid ∈ _
      rw [former]
      rcases mem_living_recording.mp listed with child | ⟨ended, pid⟩
      · exact child
      · have positive := tracks.positive _ listed
        exact absurd (former.trans pid.symm)
          (collectTable_removes tracks.distinct ended (pid.trans_ge positive) i)

/-- `Fork` in `eval`. -/
theorem fork {bg : Bool} {cmdline : String} {pid : Int} (lists : Lists ⟨shell, none⟩)
    (none : shell.pc.newborn = none) (positive : 1 ≤ pid)
    (new : ∀ c ∈ shell.children, c.pid ≠ pid) :
    Lists ⟨{ shell with
      children := ⟨pid, false, .none, false⟩ :: shell.children, pc := .forked bg cmdline pid },
      .none⟩ := by
  have fresh : pid ∉ shell.children.map Child.pid := by
    intro member
    obtain ⟨c, old, same⟩ := List.mem_map.mp member
    exact new c old same
  have tracks := lists.tracks
  rw [living_idle, show (Interrupted.mk shell Option.none).shell.pc.newborn = _ from none] at tracks
  refine ⟨List.nodup_cons.mpr ⟨fresh, lists.pids⟩, ?_, fun running => absurd rfl running⟩
  rw [living_idle]
  let roomy : Int → Prop := fun other => other = pid ∧ ∃ i, slots shell.table i = 0
  have forked : Tracks roomy (slots shell.table) (pid :: shell.children.map Child.pid) (some pid) :=
    tracks.fork positive fresh (and_iff_right rfl) fun other differ =>
      iff_of_false (fun here => differ here.1) False.elim
  exact forked.forget

/-- A statement of the main program. -/
theorem advance {after : ShellState} (lists : Lists ⟨shell, none⟩) (taken : Advances shell after) :
    Lists ⟨after, none⟩ := by
  have tracks := lists.tracks
  rw [living_idle] at tracks
  obtain ⟨children, -, newborn, ⟨before, table⟩ | ⟨bg, cmdline, pid, here, rfl⟩⟩ :=
    advance_slots taken
  · exact lists.same (congrArg _ children) table (newborn.trans before.symm) rfl
      fun running => absurd rfl running
  · have adding : (Interrupted.mk shell none).shell.pc.newborn = some pid := by
      rw [here]
      rfl
    rw [adding] at tracks
    refine ⟨lists.pids, ?_, fun running => absurd rfl running⟩
    rw [living_idle]
    exact tracks.addForked

/-- An event that can happen next to a running `sigchld_handler`. -/
theorem event {e : Event} {after : ShellState} (lists : Lists s) (lets : s.lets e = true)
    (taken : Takes s.shell e after) : Lists { s with shell := after } := by
  obtain ⟨shell, collector⟩ := s
  have changed : ∀ {pid : Int} {change : Child → Option Child} {children : List Child}
      (pending : Bool), (∀ c d, change c = some d → Follows c d) →
      changeChild shell.children pid change = some children →
      Lists ⟨{ shell with children := children, pending := pending }, collector⟩ :=
    fun pending follows changed => lists.same (changeChild_pids follows changed) rfl rfl rfl
      lists.apart
  have returned : ∀ frames, Lists ⟨leave shell frames, collector⟩ := by
    intro frames
    refine lists.same rfl rfl ?_ rfl lists.apart
    unfold leave
    split
    · exact resume_newborn shell.pc
    · rfl
  have exits : Lists ⟨{ shell with pc := .exited }, collector⟩ :=
    ⟨lists.pids, lists.tracks.exit, fun _ => rfl⟩
  cases taken with
  | @command c here alone =>
      obtain rfl := Option.isNone_iff_eq_none.mp lets
      have none : shell.pc.newborn = none := by
        rw [here]
        rfl
      cases c with
      | empty => exact lists
      | _ => exact lists.same rfl rfl none.symm rfl fun running => absurd rfl running
  | fork here alone positive fresh =>
      obtain rfl := Option.isNone_iff_eq_none.mp lets
      refine lists.fork ?_ positive fresh
      rw [here]
      rfl
  | forkFails here alone => exact exits
  | step alone taken =>
      obtain rfl := Option.isNone_iff_eq_none.mp lets
      exact lists.advance taken
  | sigchld pending unblocked all => cases lets
  | interrupt running idle => exact lists.same rfl rfl rfl rfl lists.apart
  | noForeground running here found => exact returned _
  | readForeground running here found => exact lists.same rfl rfl rfl rfl lists.apart
  | kill running here group => exact returned _
  | killFails running here group => exact exits
  | setpgid there => exact changed shell.pending (fun _ _ => setpgid_follows) there
  | stops there => exact changed true (fun _ _ => stop_follows) there
  | continues there => exact changed true (fun _ _ => continue_follows) there
  | ends there => exact changed true (fun _ _ => finish_follows) there

end Lists

/-! ## The statements -/

/-- What a statement does. -/
inductive Handles (s : Interrupted) : Statement → Interrupted → Prop where
  | event {e : Event} {after : ShellState} (lets : s.lets e = true) (taken : Takes s.shell e after) :
      Handles s (.event e) { s with shell := after }
  | starts (unblocked : ¬ s.shell.pc.blocked) (alone : s.collector = none) :
      Handles s .starts
        ⟨{ s.shell with pending := false }, some ⟨s.shell.frames.length, none⟩⟩
  | waits {depth : Nat} {report : Int × Status} (here : s.collector = some ⟨depth, none⟩)
      (found : report ∈ reports s.shell.children) :
      Handles s (.waits report)
        ⟨{ s.shell with children := reapOne s.shell.children report.1 }, some ⟨depth, some report⟩⟩
  | records {depth : Nat} {report : Int × Status}
      (here : s.collector = some ⟨depth, some report⟩) :
      Handles s .records
        ⟨{ s.shell with
            table := collectTable s.shell.table report
            messages := collectMessages s.shell.table s.shell.messages report },
          some ⟨depth, none⟩⟩
  | returns {depth : Nat} (here : s.collector = some ⟨depth, none⟩) :
      Handles s .returns ⟨leave s.shell s.shell.frames, none⟩

theorem handles_of_step {s t : Interrupted} {e : Statement} (taken : interruptible.step s e t) :
    Handles s e t := by
  change handle s e = some t at taken
  cases e with
  | event e =>
      simp only [handle] at taken
      split at taken
      · rename_i lets
        obtain ⟨after, done, rfl⟩ := Option.map_eq_some_iff.mp taken
        exact .event lets (takes_of_step done)
      · cases taken
  | starts =>
      simp only [handle, starts] at taken
      split at taken
      · rename_i enabled
        cases taken
        exact .starts enabled.2.1 (Option.isNone_iff_eq_none.mp enabled.2.2)
      · cases taken
  | waits report =>
      simp only [handle, waits] at taken
      split at taken
      · rename_i depth here
        split at taken
        · rename_i enabled
          cases taken
          exact .waits here enabled.2
        · cases taken
      · cases taken
  | records =>
      simp only [handle, records] at taken
      split at taken
      · rename_i depth report here
        split at taken
        · cases taken
          exact .records here
        · cases taken
      · cases taken
  | returns =>
      simp only [handle, returns] at taken
      split at taken
      · rename_i depth here
        split at taken
        · cases taken
          exact .returns here
        · cases taken
      · cases taken

/-- Every statement keeps the table. -/
theorem Lists.step {s t : Interrupted} {e : Statement} (lists : Lists s)
    (taken : interruptible.step s e t) : Lists t := by
  have handles := handles_of_step taken
  obtain ⟨shell, collector⟩ := s
  cases handles with
  | event lets does => exact lists.event lets does
  | starts unblocked alone =>
      obtain rfl : collector = none := alone
      refine lists.same rfl rfl rfl rfl fun _ => ?_
      cases here : shell.pc with
      | forked => exact absurd (by rw [here]; rfl) unblocked
      | _ => rfl
  | waits here found =>
      obtain rfl : collector = _ := here
      exact lists.waits found
  | records here =>
      obtain rfl : collector = _ := here
      exact lists.records _
  | returns here =>
      obtain rfl : collector = _ := here
      refine lists.same rfl rfl ?_ rfl fun running => absurd rfl running
      show (leave shell shell.frames).pc.newborn = _
      unfold leave
      split
      · exact resume_newborn shell.pc
      · rfl

/-! ## The forwarding handlers -/

/-- The pids that the forwarding handlers hold are those of children. -/
def HeldAlive (s : ShellState) : Prop :=
  ∀ f ∈ s.frames, ∀ pid, f.pid = some pid → pid ∈ s.children.map Child.pid

/-- A pid other than 0 that `fgpid` returns is in the table. -/
theorem fgpid_listed {t : JobTable} (found : fgpid t ≠ 0) : ∃ i, (t.jobs i).pid = fgpid t := by
  unfold fgpid at found ⊢
  cases first : firstSlot t.jobs fun j => j.state = .FG with
  | none => simp [first] at found
  | some i => exact ⟨i, rfl⟩

/-- The group of a child that has made it exists. -/
theorem groupExists_alive {children : List Child} {pid : Int}
    (alive : pid ∈ children.map Child.pid)
    (grouped : ∀ c ∈ children, c.pid = pid → c.grouped = true) :
    groupExists children pid = true := by
  obtain ⟨c, member, same⟩ := List.mem_map.mp alive
  have made := grouped c member same
  simp only [groupExists, Bool.or_eq_true, List.any_eq_true]
  exact .inr ⟨c, member, by simp [same, made]⟩

namespace HeldAlive

variable {s t : ShellState}

/-- A step that starts no handler and keeps the children. -/
theorem mono (held : HeldAlive s) (frames : ∀ f ∈ t.frames, f ∈ s.frames)
    (children : ∀ pid ∈ s.children.map Child.pid, pid ∈ t.children.map Child.pid) :
    HeldAlive t := by
  intro f member pid same
  apply children
  exact held f (frames f member) pid same

theorem changed (held : HeldAlive s) {pid : Int} {change : Child → Option Child}
    {after : List Child} (follows : ∀ c d, change c = some d → Follows c d)
    (changed : changeChild s.children pid change = some after) (pending : Bool) :
    HeldAlive { s with children := after, pending := pending } := by
  apply held.mono
  · exact fun _ => id
  · intro pid alive
    show pid ∈ after.map Child.pid
    rw [changeChild_pids follows changed]
    exact alive

/-- `fgpid` returns a pid of a child. -/
theorem readForeground {signal : Forwarded} {rest : List Frame} (held : HeldAlive s)
    (fewer : ∀ f ∈ rest, f ∈ s.frames) (alive : fgpid s.table ∈ s.children.map Child.pid) :
    HeldAlive { s with frames := ⟨signal, some (fgpid s.table)⟩ :: rest } := by
  intro f member pid same
  rcases List.mem_cons.mp member with rfl | old
  · cases same
    exact alive
  · exact held f (fewer f old) pid same

/-- `waitpid` keeps the children that no handler is about to signal. -/
theorem waits {report : Int × Status} (held : HeldAlive s)
    (spares : Spares s (.waits report)) (found : report ∈ reports s.children) :
    HeldAlive { s with children := reapOne s.children report.1 } := by
  intro f member pid same
  have alive := held f member pid same
  by_cases here : pid = report.1
  · cases ended : report.2.ends with
    | true => exact absurd (here ▸ same) (spares ended f member)
    | false => exact here ▸ reapOne_stopped found ended
  · obtain ⟨c, old, rfl⟩ := List.mem_map.mp alive
    exact List.mem_map_of_mem (reapOne_other old here)

/-- Every settled event keeps the invariant. -/
theorem event {collector : Option Collector} {e : Event} (held : HeldAlive s)
    (lists : Lists ⟨s, collector⟩) (lets : Interrupted.lets ⟨s, collector⟩ e = true)
    (settled : Settled ⟨s, collector⟩ (.event e)) (taken : Takes s e t) : HeldAlive t := by
  have fewer : ∀ {f rest}, s.frames = f :: rest → ∀ g ∈ rest, g ∈ s.frames :=
    fun here g member => here ▸ List.mem_cons_of_mem _ member
  cases taken with
  | @command c here returned =>
      cases c with
      | _ => exact held
  | fork here returned positive fresh =>
      exact held.mono (fun _ => id) fun _ => List.mem_cons_of_mem _
  | forkFails here returned => exact held
  | step returned taken =>
      obtain ⟨children, frames, -⟩ := advance_slots taken
      apply held.mono
      · rw [frames]
        exact fun _ => id
      · rw [children]
        exact fun _ => id
  | sigchld pending unblocked all => cases lets
  | interrupt running idle =>
      intro f member pid same
      rcases List.mem_cons.mp member with rfl | old
      · cases same
      · exact held f old pid same
  | noForeground running here found => exact held.mono (fewer here) fun _ => id
  | readForeground running here found =>
      obtain ⟨i, listed⟩ := fgpid_listed found
      apply held.readForeground (fewer here)
      rw [← listed]
      apply lists.alive (listed ▸ found)
      apply settled.living
      simp [reads, here, listed]
  | kill running here group => exact held.mono (fewer here) fun _ => id
  | killFails running here group => exact held
  | setpgid there => exact held.changed (fun _ _ => setpgid_follows) there s.pending
  | stops there => exact held.changed (fun _ _ => stop_follows) there true
  | continues there => exact held.changed (fun _ _ => continue_follows) there true
  | ends there => exact held.changed (fun _ _ => finish_follows) there true

/-- Every settled statement keeps the invariant. -/
theorem step {s t : Interrupted} {e : Statement} (held : HeldAlive s.shell) (lists : Lists s)
    (settled : Settled s e) (taken : interruptible.step s e t) : HeldAlive t.shell := by
  cases handles_of_step taken with
  | event lets does => exact held.event lists lets settled does
  | starts unblocked alone => exact held.mono (fun _ => id) fun _ => id
  | waits here found => exact held.waits settled.spares found
  | records here => exact held.mono (fun _ => id) fun _ => id
  | returns here => exact held.mono (fun _ => id) fun _ => id

/-- A `Kill` finds the group of a child that has made it. -/
theorem kills {s t : Interrupted} {e : Statement} (held : HeldAlive s.shell) (lists : Lists s)
    (settled : Settled s e) (taken : interruptible.step s e t) : KillSucceeds s e := by
  intro pid signalled
  have grouped := settled.grouped pid signalled
  cases handles_of_step taken with
  | @event e after lets taken =>
      cases e with
      | step =>
          simp only [killed] at signalled
          split at signalled
          · rename_i job named here
            cases signalled
            by_cases none : (s.shell.table.jobs job).pid = 0
            · simp [groupExists, none]
            · -- the main program runs, so no `sigchld_handler` does
              have alone : s.collector = Option.none := Option.isNone_iff_eq_none.mp lets
              refine groupExists_alive (lists.alive none ?_) grouped
              simp [Interrupted.reaped, alone]
          · cases signalled
      | forward =>
          simp only [killed] at signalled
          split at signalled
          · rename_i signal pid' rest here
            cases signalled
            apply groupExists_alive _ grouped
            exact held ⟨signal, some pid⟩ (here ▸ List.mem_cons_self) pid rfl
          · cases signalled
      | _ => cases signalled
  | _ => cases signalled

end HeldAlive

/-- In every run in which no group is signalled before its child has made it, no
child is reaped between the `fgpid` and the `Kill` of a handler, and no handler
reads the pid of a child that has been reaped, every `Kill` succeeds. -/
theorem kill_succeeds {past : List (Interrupted × Statement)} {s : Interrupted}
    (run : interruptible.Run past s) (settled : AllSteps Settled past) :
    AllSteps KillSucceeds past := by
  suffices inv : Lists s ∧ HeldAlive s.shell ∧ AllSteps KillSucceeds past from inv.2.2
  induction run with
  | start initial =>
      cases initial
      refine ⟨⟨.nil, ?_, fun running => absurd rfl running⟩, fun _ member => (nomatch member),
        fun _ member => (nomatch member)⟩
      exact ⟨fun _ member => (nomatch member), fun _ _ occupied => absurd rfl occupied,
        fun _ occupied => absurd rfl occupied, fun _ member => (nomatch member),
        fun _ same => (nomatch same)⟩
  | next before taken ih =>
      obtain ⟨lists, held, earlier⟩ := ih fun b member => settled b (List.mem_cons_of_mem _ member)
      have here := settled _ List.mem_cons_self
      refine ⟨lists.step taken, held.step lists here taken, ?_⟩
      intro b member
      rcases List.mem_cons.mp member with rfl | old
      · exact held.kills lists here taken
      · exact earlier b old

/-- A foreground job that has made its group is interrupted; it ends, and its end
is collected. -/
def interruptedJob : List Statement :=
  [.event (.command (.run false "sleep 1\n")), .event .step, .event (.fork 100),
    .event (.setpgid 100), .event .step, .event .step, .event .step,
    .event (.interrupt .SIGINT), .event .forward, .event .forward, .event .step, .event .step,
    .event (.ends 100 (.signaled 2)), .starts, .waits (100, .signaled 2), .records,
    .event (.interrupt .SIGINT), .event .forward, .returns]

theorem kill_succeeds_interruptedJob :
    AllSteps KillSucceeds (record handle [] ⟨boot, none⟩ interruptedJob).1 :=
  kill_succeeds (Run.of_record (.start rfl) (fun _ _ _ taken => taken) _)
    (by unfold AllSteps; decide +kernel)

/-- The job is interrupted before the child has called `setpgid`. -/
def earlyInterrupt : List Statement :=
  [.event (.command (.run false "sleep 1\n")), .event .step, .event (.fork 100), .event .step,
    .event (.interrupt .SIGINT), .event .forward, .event .forward]

/-- The job ends, and its pid is read between `waitpid` and `deletejob`. -/
def lateInterrupt : List Statement :=
  [.event (.command (.run false "sleep 1\n")), .event .step, .event (.fork 100),
    .event (.setpgid 100), .event .step, .event .step, .event .step, .event .step,
    .event (.ends 100 .exited), .starts, .waits (100, .exited), .event (.interrupt .SIGINT),
    .event .forward, .event .forward]

example : (record handle [] ⟨boot, none⟩ lateInterrupt).2.shell.pc = .exited := by decide +kernel

/-- The `Kill` fails and ends the shell. -/
theorem kill_fails : ¬ ∀ past s, interruptible.Run past s → AllSteps KillSucceeds past := by
  intro claimed
  have run : interruptible.Run _ _ :=
    Run.of_record (.start rfl) (fun _ _ _ taken => taken) earlyInterrupt
  have fails : ¬ AllSteps KillSucceeds (record handle [] ⟨boot, none⟩ earlyInterrupt).1 := by
    unfold AllSteps KillSucceeds
    decide +kernel
  exact fails (claimed _ _ run)

end SysProg.Shell

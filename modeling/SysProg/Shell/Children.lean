import SysProg.Shell.Foreground

/-!
# The job table and the children

`eval` keeps `SIGCHLD` blocked from before `Fork` to after `addjob`, and
`sigchld_handler` deletes the job of every child that it reaps.  So the table
lists exactly the children that have not been reaped, except those that were
forked while the table was full and the one that is about to be added.
-/

namespace SysProg.Shell

open Logic Machine

/-! ## The property -/

/-- The child that an event forks. -/
def Event.forks : Event → Option Int
  | .fork pid => some pid
  | _ => none

/-- The last child with this pid was forked while the table had a free slot. -/
def ForkedWithRoom (pid : Int) : List (ShellState × Event) → Prop
  | [] => False
  | (s, e) :: past =>
      if e.forks = some pid then ∃ i, (s.table.jobs i).pid = 0 else ForkedWithRoom pid past

/-- The pids in the table are distinct, they are those of children that have
not been reaped, and such a child is in one slot if the table had room for it. -/
structure ListsChildren (past : List (ShellState × Event)) (s : ShellState) : Prop where
  distinct : ∀ i j, (s.table.jobs i).pid ≠ 0 → (s.table.jobs i).pid = (s.table.jobs j).pid → i = j
  alive : ∀ i, (s.table.jobs i).pid ≠ 0 → ∃ c ∈ s.children, c.pid = (s.table.jobs i).pid
  listed : ∀ c ∈ s.children, ForkedWithRoom c.pid past → ∃! i, (s.table.jobs i).pid = c.pid

/-- The child between `Fork` and `addjob`. -/
def Pc.newborn : Pc → Option Int
  | .forked _ _ pid => some pid
  | _ => none

/-! ## What the handler does to the pids -/

section Collect

variable {t : JobTable} {m : Messages}

/-- The pids in the table are distinct. -/
def DistinctPids (t : JobTable) : Prop :=
  ∀ i j, (t.jobs i).pid ≠ 0 → (t.jobs i).pid = (t.jobs j).pid → i = j

theorem DistinctPids.demoted {t' : JobTable} (distinct : DistinctPids t)
    (demoted : ∀ i, Demoted (t.jobs i) (t'.jobs i)) : DistinctPids t' := by
  intro i j occupied same
  have former : (t'.jobs i).pid = (t.jobs i).pid := (demoted i).pid.resolve_right occupied
  have other : (t'.jobs j).pid = (t.jobs j).pid :=
    (demoted j).pid.resolve_right (same ▸ occupied)
  exact distinct i j (former ▸ occupied) (by rw [← former, same, other])

/-- A deleted pid is no longer in the table. -/
theorem deletejob_removes (distinct : DistinctPids t) {pid : Int} (positive : 1 ≤ pid)
    (i : Fin MAXJOBS) : ((deletejob t pid).1.jobs i).pid ≠ pid := by
  rcases deletejob_cases t pid with ⟨same, absent⟩ | ⟨j, nextjid, -, there, deleted⟩
  · rw [same]
    exact absent positive i
  · rw [deleted]
    by_cases here : i = j
    · subst here
      simp only [Function.update_self]
      show (0 : Int) ≠ pid
      omega
    · simp only [Function.update_of_ne here]
      intro same
      exact here (distinct i j (by omega) (same.trans there.symm))

/-- The pid of a job whose end is recorded is no longer in the table. -/
theorem collectTable_removes (distinct : DistinctPids t) {report : Int × Status}
    (ended : report.2.ends = true) (positive : 1 ≤ report.1) (i : Fin MAXJOBS) :
    ((collectTable t report).jobs i).pid ≠ report.1 := by
  obtain ⟨pid, status⟩ := report
  cases status with
  | exited => exact deletejob_removes distinct positive i
  | signaled sig => exact deletejob_removes distinct positive i
  | stopped sig => cases ended

/-- The pid of a child whose end is collected is no longer in the table. -/
theorem collect_removes (distinct : DistinctPids t) {order : List (Int × Status)}
    {pid : Int} {status : Status} (collected : (pid, status) ∈ order) (gone : status.ends = true)
    (positive : 1 ≤ pid) (i : Fin MAXJOBS) : ((collect t m order).1.jobs i).pid ≠ pid := by
  induction order generalizing t m with
  | nil => cases collected
  | cons report rest ih =>
      rcases List.mem_cons.mp collected with rfl | later
      · intro still
        have kept : ((collectTable t (pid, status)).jobs i).pid = pid := by
          have demoted := collect_demoted (t := collectTable t (pid, status))
            (m := collectMessages t m (pid, status)) rest i
          rw [← demoted.pid.resolve_right (by rw [collect] at still; omega)]
          exact still
        exact collectTable_removes distinct gone positive i kept
      · exact ih (distinct.demoted (collectTable_demoted t report)) later

end Collect

/-! ## What happens to the children -/

/-- What a child keeps when it changes: its pid, its process group, and that it
was collected, unless its status is new. -/
structure Follows (c d : Child) : Prop where
  pid : d.pid = c.pid
  grouped : c.grouped = true → d.grouped = true
  reported : d.reported = false ∨ d.status = c.status ∧ d.reported = c.reported

section Change

variable {c d : Child}

theorem setpgid_follows (changed : c.setpgid = some d) : Follows c d := by
  unfold Child.setpgid at changed
  split at changed <;> cases changed
  exact ⟨rfl, fun _ => rfl, .inr ⟨rfl, rfl⟩⟩

theorem stop_follows {sig : Int} (changed : c.stop sig = some d) : Follows c d := by
  unfold Child.stop at changed
  split at changed <;> cases changed
  exact ⟨rfl, id, .inl rfl⟩

theorem continue_follows (changed : c.continue = some d) : Follows c d := by
  unfold Child.continue at changed
  split at changed <;> cases changed
  exact ⟨rfl, id, .inl rfl⟩

theorem finish_follows {status : Status} (changed : c.finish status = some d) : Follows c d := by
  unfold Child.finish at changed
  split at changed <;> cases changed
  exact ⟨rfl, id, .inl rfl⟩

end Change

section Children

variable {children after : List Child} {c d : Child} {pid : Int} {change : Child → Option Child}

/-- No child that has ended has been collected. -/
def Uncollected (children : List Child) : Prop :=
  ∀ c ∈ children, ∀ status, c.status = some status → status.ends = true → c.reported = false

/-- A changed child follows a child. -/
theorem changeChild_mem (follows : ∀ c d, change c = some d → Follows c d)
    (changed : changeChild children pid change = some after) (member : d ∈ after) :
    ∃ c ∈ children, Follows c d := by
  obtain ⟨c', found, rfl⟩ := Option.map_eq_some_iff.mp changed
  obtain ⟨c, first, same⟩ := Option.bind_eq_some_iff.mp found
  obtain ⟨e, before, rfl⟩ := List.mem_map.mp member
  split
  · exact ⟨c, List.mem_of_find?_eq_some first, follows c c' same⟩
  · exact ⟨e, before, rfl, id, .inr ⟨rfl, rfl⟩⟩

/-- A change of a child keeps the list of pids. -/
theorem changeChild_pids (follows : ∀ c d, change c = some d → Follows c d)
    (changed : changeChild children pid change = some after) :
    after.map Child.pid = children.map Child.pid := by
  obtain ⟨c', found, rfl⟩ := Option.map_eq_some_iff.mp changed
  obtain ⟨c, first, same⟩ := Option.bind_eq_some_iff.mp found
  have here : c.pid = pid := by simpa using List.find?_some first
  rw [List.map_map]
  refine List.map_congr_left fun e _ => ?_
  show (if e.pid = pid then c' else e).pid = e.pid
  split
  · rename_i there
    rw [(follows c c' same).pid, here, there]
  · rfl

theorem Uncollected.changeChild (uncollected : Uncollected children)
    (follows : ∀ c d, change c = some d → Follows c d)
    (changed : changeChild children pid change = some after) : Uncollected after := by
  intro d member status has ended
  obtain ⟨c, before, same⟩ := changeChild_mem follows changed member
  rcases same.reported with fresh | ⟨status', reported'⟩
  · exact fresh
  · rw [reported']
    exact uncollected c before status (status' ▸ has) ended

/-- A child that survives the handler has not ended. -/
theorem mem_reap (member : d ∈ reap children) :
    ∃ c ∈ children, d.pid = c.pid ∧ d.grouped = c.grouped ∧ d.status = c.status ∧
      ∀ status, c.status = some status → status.ends = false := by
  obtain ⟨c, before, kept⟩ := List.mem_filterMap.mp member
  refine ⟨c, before, ?_⟩
  cases has : c.status with
  | none =>
      simp only [has] at kept
      cases kept
      exact ⟨rfl, rfl, has, fun _ some => nomatch some⟩
  | some status =>
      cases status with
      | stopped sig =>
          simp only [has] at kept
          cases kept
          refine ⟨rfl, rfl, rfl, fun status same => ?_⟩
          cases same
          rfl
      | exited | signaled sig =>
          simp only [has] at kept
          cases kept

theorem Uncollected.reap (children : List Child) : Uncollected (reap children) := by
  intro d member status has ended
  obtain ⟨c, -, -, -, same, lives⟩ := mem_reap member
  have alive := lives status (same ▸ has)
  rw [ended] at alive
  cases alive

/-- A child that has not ended survives the handler. -/
theorem reap_keeps (member : c ∈ children)
    (lives : ∀ status, c.status = some status → status.ends = false) :
    ∃ d ∈ reap children, d.pid = c.pid := by
  cases has : c.status with
  | none => exact ⟨c, List.mem_filterMap.mpr ⟨c, member, by simp [has]⟩, rfl⟩
  | some status =>
      cases status with
      | stopped sig =>
          refine ⟨{ c with reported := true }, List.mem_filterMap.mpr ⟨c, member, ?_⟩, rfl⟩
          simp [has]
      | exited => cases lives _ has
      | signaled sig => cases lives _ has

/-- The handler finds a child that has ended. -/
theorem mem_reports {status : Status} (uncollected : Uncollected children) (member : c ∈ children)
    (has : c.status = some status) (ended : status.ends = true) :
    (c.pid, status) ∈ reports children := by
  refine List.mem_filterMap.mpr ⟨c, member, ?_⟩
  simp [uncollected c member status has ended, has]

/-- A child that no report ends lives. -/
theorem lives_of_reports (uncollected : Uncollected children) (member : c ∈ children)
    (spared : ∀ status, (c.pid, status) ∈ reports children → status.ends = false) :
    ∀ status, c.status = some status → status.ends = false := by
  intro status has
  cases ended : status.ends with
  | false => rfl
  | true => exact ended.symm.trans (spared status (mem_reports uncollected member has ended))

/-- What the handler finds is the status of a child. -/
theorem reports_mem {report : Int × Status} (member : report ∈ reports children) :
    ∃ c ∈ children, c.pid = report.1 ∧ c.status = some report.2 := by
  obtain ⟨c, before, found⟩ := List.mem_filterMap.mp member
  split at found
  · cases found
  · obtain ⟨status, has, rfl⟩ := Option.map_eq_some_iff.mp found
    exact ⟨c, before, rfl, has⟩

theorem reap_pids_sublist (children : List Child) :
    ((reap children).map Child.pid).Sublist (children.map Child.pid) := by
  induction children with
  | nil => exact .slnil
  | cons c rest ih =>
      unfold Shell.reap
      rw [List.filterMap_cons]
      cases c.status with
      | none => exact ih.cons_cons _
      | some status =>
          cases status with
          | stopped sig => exact ih.cons_cons _
          | exited | signaled sig => exact ih.cons _

end Children

/-! ## The invariant -/

/-- The table, as its slots of pids, tracks the pids of the children: `room`
says which of them were forked while a slot was free. -/
structure Tracks (room : Int → Prop) (slots : Fin MAXJOBS → Int) (living : List Int)
    (newborn : Option Int) : Prop where
  positive : ∀ pid ∈ living, 1 ≤ pid
  distinct : ∀ i j, slots i ≠ 0 → slots i = slots j → i = j
  alive : ∀ i, slots i ≠ 0 → slots i ∈ living
  listed : ∀ pid ∈ living, room pid → newborn ≠ some pid → ∃ i, slots i = pid
  window : ∀ pid, newborn = some pid →
    pid ∈ living ∧ (∀ i, slots i ≠ pid) ∧ (room pid → ∃ i, slots i = 0)

namespace Tracks

variable {room : Int → Prop} {slots slots' : Fin MAXJOBS → Int} {living living' : List Int}
  {pid : Int}

/-- `Fork`. -/
theorem fork (tracks : Tracks room slots living none) (positive : 1 ≤ pid) (fresh : pid ∉ living)
    {room' : Int → Prop} (here : room' pid ↔ ∃ i, slots i = 0)
    (others : ∀ other, other ≠ pid → (room' other ↔ room other)) :
    Tracks room' slots (pid :: living) (some pid) where
  positive other member := by
    rcases List.mem_cons.mp member with rfl | old
    · exact positive
    · exact tracks.positive other old
  distinct := tracks.distinct
  alive i occupied := List.mem_cons_of_mem _ (tracks.alive i occupied)
  listed other member roomy differ := by
    have apart : other ≠ pid := fun same => differ (congrArg some same.symm)
    rcases List.mem_cons.mp member with same | old
    · exact absurd same apart
    · exact tracks.listed other old ((others other apart).mp roomy) (by simp)
  window other same := by
    cases same
    refine ⟨List.mem_cons_self, fun i there => ?_, here.mp⟩
    have occupied : slots i ≠ 0 := by omega
    exact fresh (there ▸ tracks.alive i occupied)

/-- `addjob` of the new child into a free slot. -/
theorem add (tracks : Tracks room slots living (some pid)) {i : Fin MAXJOBS} (free : slots i = 0) :
    Tracks room (Function.update slots i pid) living none := by
  obtain ⟨member, absent, -⟩ := tracks.window pid rfl
  refine ⟨tracks.positive, ?_, ?_, ?_, fun _ same => nomatch same⟩
  · intro j k
    by_cases here : j = i
    · subst here
      by_cases there : k = j
      · exact fun _ _ => there.symm
      · simp only [Function.update_self, Function.update_of_ne there]
        exact fun _ same => absurd same.symm (absent k)
    · by_cases there : k = i
      · subst there
        simp only [Function.update_self, Function.update_of_ne here]
        exact fun _ same => absurd same (absent j)
      · simp only [Function.update_of_ne here, Function.update_of_ne there]
        exact tracks.distinct j k
  · intro j
    by_cases here : j = i
    · subst here
      simpa using fun _ => member
    · simp only [Function.update_of_ne here]
      exact tracks.alive j
  · intro other lives roomy _
    by_cases same : other = pid
    · exact ⟨i, by simp [same]⟩
    · obtain ⟨j, there⟩ := tracks.listed other lives roomy fun new => same (Option.some.inj new).symm
      have positive := tracks.positive other lives
      have differ : j ≠ i := by
        rintro rfl
        omega
      exact ⟨j, by simpa [differ] using there⟩

/-- `addjob` of the new child into a full table. -/
theorem full (tracks : Tracks room slots living (some pid)) (occupied : ∀ i, slots i ≠ 0) :
    Tracks room slots living none where
  positive := tracks.positive
  distinct := tracks.distinct
  alive := tracks.alive
  listed other lives roomy _ := by
    refine tracks.listed other lives roomy fun same => ?_
    cases same
    obtain ⟨i, free⟩ := (tracks.window pid rfl).2.2 roomy
    exact occupied i free
  window _ same := nomatch same

/-- The handler: the slots of the children that it reaps are cleared. -/
theorem collect (tracks : Tracks room slots living none) (fewer : ∀ pid ∈ living', pid ∈ living)
    (cleared : ∀ i, slots' i = slots i ∨ slots' i = 0)
    (removed : ∀ i, slots' i ≠ 0 → slots' i ∈ living')
    (kept : ∀ i, slots i ∈ living' → slots' i = slots i) : Tracks room slots' living' none where
  positive pid member := tracks.positive pid (fewer pid member)
  distinct i j occupied same := by
    have here := (cleared i).resolve_right occupied
    have there := (cleared j).resolve_right (same ▸ occupied)
    exact tracks.distinct i j (here ▸ occupied) (by rw [← here, same, there])
  alive := removed
  listed pid member roomy _ := by
    obtain ⟨i, there⟩ := tracks.listed pid (fewer pid member) roomy (by simp)
    exact ⟨i, (kept i (there ▸ member)).trans there⟩
  window _ same := nomatch same

end Tracks

/-- The pids in the slots of the table. -/
def slots (t : JobTable) : Fin MAXJOBS → Int := fun i => (t.jobs i).pid

/-- `addjob` in `eval`, into a free slot or a full table. -/
theorem Tracks.addForked {room : Int → Prop} {s : ShellState} {living : List Int} {bg : Bool}
    {cmdline : String} {pid : Int} (tracks : Tracks room (slots s.table) living (some pid)) :
    Tracks room (slots (addForked s bg cmdline pid).table) living none := by
  have positive := tracks.positive pid (tracks.window pid rfl).1
  rcases addjob_cases (if bg then .BG else .FG) cmdline positive with
    ⟨full, same⟩ | ⟨i, nextjid, free, added⟩
  · have after := tracks.full full
    simpa only [Shell.addForked, same] using after
  · have slot : slots (addjob s.table pid (if bg then .BG else .FG) cmdline).1 =
        Function.update (slots s.table) i pid := by
      rw [added]
      funext j
      by_cases here : j = i
      · subst here
        simp [slots]
      · simp [slots, here]
    have after := tracks.add free
    simpa only [Shell.addForked, slot] using after

/-- The invariant of all runs.  No handler forwards a signal while a child is
being added. -/
structure Tracked (room : Int → Prop) (s : ShellState) : Prop where
  pids : (s.children.map Child.pid).Nodup
  uncollected : Uncollected s.children
  tracks : Tracks room (slots s.table) (s.children.map Child.pid) s.pc.newborn
  calm : s.pc.newborn ≠ none → ∀ f ∈ s.frames, f.pid = none

theorem resume_newborn (pc : Pc) : pc.resume.newborn = pc.newborn := by
  cases pc with
  | _ => rfl

/-- The main program leaves the children and the handlers alone; only `addjob`
changes the pids in the table. -/
theorem advance_slots {s t : ShellState} (taken : Advances s t) :
    t.children = s.children ∧ t.frames = s.frames ∧ t.pc.newborn = none ∧
      ((s.pc.newborn = none ∧ slots t.table = slots s.table) ∨
        ∃ bg cmdline pid, s.pc = .forked bg cmdline pid ∧ t = addForked s bg cmdline pid) := by
  cases taken with
  | @addjob bg cmdline pid here => exact ⟨rfl, rfl, rfl, .inr ⟨bg, cmdline, pid, here, rfl⟩⟩
  | edit here =>
      refine ⟨rfl, rfl, rfl, .inl ⟨by rw [here]; rfl, ?_⟩⟩
      funext i
      exact setState_pid ..
  | _ here => exact ⟨rfl, rfl, rfl, .inl ⟨by rw [here]; rfl, rfl⟩⟩

namespace Tracked

variable {room : Int → Prop} {s t : ShellState}

/-- A step that changes neither the pids nor the newborn child. -/
theorem same (tracked : Tracked room s) (children : t.children.map Child.pid =
    s.children.map Child.pid) (uncollected : Uncollected t.children)
    (table : slots t.table = slots s.table) (newborn : t.pc.newborn = s.pc.newborn)
    (calm : ∀ f ∈ t.frames, f ∈ s.frames ∨ f.pid = none) : Tracked room t where
  pids := children ▸ tracked.pids
  uncollected := uncollected
  calm adding f member := by
    rw [newborn] at adding
    exact (calm f member).elim (tracked.calm adding f) id
  tracks := by
    rw [children, table, newborn]
    exact tracked.tracks

theorem leave (tracked : Tracked room s) {frames : List Frame}
    (calm : ∀ f ∈ frames, f ∈ s.frames) : Tracked room (leave s frames) := by
  refine tracked.same rfl tracked.uncollected rfl ?_ fun f member => .inl (calm f member)
  unfold Shell.leave
  split
  · exact resume_newborn s.pc
  · rfl

/-- `addjob` in `eval`. -/
theorem addForked {bg : Bool} {cmdline : String} {pid : Int} (tracked : Tracked room s)
    (here : s.pc = .forked bg cmdline pid) : Tracked room (addForked s bg cmdline pid) := by
  have tracks := tracked.tracks
  rw [here] at tracks
  exact ⟨tracked.pids, tracked.uncollected, tracks.addForked, fun adding => absurd rfl adding⟩

theorem advance (tracked : Tracked room s) (taken : Advances s t) : Tracked room t := by
  obtain ⟨children, -, newborn, ⟨before, table⟩ | ⟨bg, cmdline, pid, here, rfl⟩⟩ :=
    advance_slots taken
  · refine ⟨children ▸ tracked.pids, children ▸ tracked.uncollected, ?_,
      fun adding => absurd newborn adding⟩
    rw [children, table, newborn, ← before]
    exact tracked.tracks
  · exact tracked.addForked here

/-- `Fork` in `eval`. -/
theorem fork {past : List (ShellState × Event)} {bg : Bool} {cmdline : String} {pid : Int}
    (tracked : Tracked (ForkedWithRoom · past) s) (none : s.pc.newborn = none)
    (returned : s.frames = []) (positive : 1 ≤ pid) (new : ∀ c ∈ s.children, c.pid ≠ pid) :
    Tracked (ForkedWithRoom · ((s, .fork pid) :: past)) { s with
      children := ⟨pid, false, .none, false⟩ :: s.children, pc := .forked bg cmdline pid } := by
  have fresh : pid ∉ s.children.map Child.pid := by
    intro member
    obtain ⟨c, old, same⟩ := List.mem_map.mp member
    exact new c old same
  have tracks := tracked.tracks
  rw [none] at tracks
  refine ⟨List.nodup_cons.mpr ⟨fresh, tracked.pids⟩, ?_, tracks.fork positive fresh ?_ ?_, ?_⟩
  · intro c member status has ended
    rcases List.mem_cons.mp member with rfl | old
    · cases has
    · exact tracked.uncollected c old status has ended
  · show (if _ then _ else _) ↔ _
    rw [if_pos (by rfl)]
    exact Iff.rfl
  · intro other differ
    show (if _ then _ else _) ↔ _
    rw [if_neg (by simpa [Event.forks] using fun same => differ same.symm)]
  · intro _ f member
    rw [returned] at member
    cases member

/-- `sigchld_handler` deletes the jobs of the children that it reaps. -/
theorem afterCollect {order : List (Int × Status)} (tracked : Tracked room s)
    (unblocked : ¬ s.pc.blocked) (all : order.Perm (reports s.children)) :
    Tracked room (afterCollect s order) := by
  have newborn : s.pc.newborn = none := by
    cases here : s.pc with
    | forked => exact absurd (by rw [here]; rfl) unblocked
    | _ => rfl
  have tracks := tracked.tracks
  rw [newborn] at tracks
  refine ⟨tracked.pids.sublist (reap_pids_sublist _), .reap _, ?_, tracked.calm⟩
  show Tracks room _ _ s.pc.newborn
  rw [newborn]
  refine tracks.collect (fun _ member => (reap_pids_sublist _).subset member)
    (fun i => (collect_demoted order i).pid) ?_ ?_
  · intro i occupied
    have former : slots (collect s.table s.messages order).1 i = slots s.table i :=
      (collect_demoted order i).pid.resolve_right occupied
    have member := tracks.alive i (former ▸ occupied)
    obtain ⟨c, old, same⟩ := List.mem_map.mp member
    have spared : ∀ status, (c.pid, status) ∈ reports s.children → status.ends = false := by
      intro status report
      cases ended : status.ends with
      | false => rfl
      | true =>
          have positive := tracks.positive c.pid (same ▸ member)
          exact absurd (former.trans same.symm)
            (collect_removes tracks.distinct (all.mem_iff.mpr report) ended positive i)
    obtain ⟨d, kept, pid⟩ := reap_keeps old (lives_of_reports tracked.uncollected old spared)
    exact List.mem_map.mpr ⟨d, kept, (pid.trans same).trans former.symm⟩
  · intro i member
    obtain ⟨d, kept, same⟩ := List.mem_map.mp member
    obtain ⟨c, old, pid, -, -, lives⟩ := mem_reap kept
    refine collect_spares rfl fun report collected there => ?_
    obtain ⟨c', old', pid', has⟩ := reports_mem (all.mem_iff.mp collected)
    have equal : c' = c := List.inj_on_of_nodup_map tracked.pids old' old (by omega)
    exact lives report.2 (equal ▸ has)

/-- A handler that has read the foreground pid. -/
theorem readForeground {frames : List Frame} (tracked : Tracked room s) (front : OneForeground s)
    (found : fgpid s.table ≠ 0) : Tracked room { s with frames := frames } := by
  refine ⟨tracked.pids, tracked.uncollected, tracked.tracks, fun adding => ?_⟩
  obtain ⟨i, -, foreground⟩ := fgpid_foreground found
  have fronts := front.fronts i foreground
  cases pc : s.pc with
  | forked bg cmdline pid =>
      rw [pc] at fronts
      exact fronts.elim
  | _ => exact absurd (by rw [pc]; rfl) adding

/-- While a handler is about to signal a pid, no child is being added. -/
theorem settled {f : Frame} {pid : Int} (tracked : Tracked room s) (member : f ∈ s.frames)
    (holds : f.pid = some pid) : s.pc.newborn = none := by
  by_contra adding
  have none := tracked.calm adding f member
  rw [holds] at none
  cases none

/-- A change of one child. -/
theorem changed {pid : Int} {change : Child → Option Child} {after : List Child}
    (tracked : Tracked room s) (follows : ∀ c d, change c = some d → Follows c d)
    (changed : changeChild s.children pid change = some after) (pending : Bool) :
    Tracked room { s with children := after, pending := pending } :=
  tracked.same (changeChild_pids follows changed) (tracked.uncollected.changeChild follows changed)
    rfl rfl fun _ => .inl

/-- An event other than `Fork` adds no child with room. -/
theorem aged {past : List (ShellState × Event)} {e : Event} (quiet : e.forks = none)
    (tracked : Tracked (ForkedWithRoom · past) t) :
    Tracked (ForkedWithRoom · ((s, e) :: past)) t := by
  have older : (ForkedWithRoom · ((s, e) :: past)) = (ForkedWithRoom · past) := by
    funext pid
    show (if _ then _ else _) = _
    rw [quiet, if_neg (by simp)]
  rw [older]
  exact tracked

/-- Every step keeps the invariant. -/
theorem step {past : List (ShellState × Event)} {e : Event}
    (tracked : Tracked (ForkedWithRoom · past) s) (front : OneForeground s)
    (taken : shell.step s e t) :
    Tracked (ForkedWithRoom · ((s, e) :: past)) t := by
  cases takes_of_step taken with
  | @command c here returned =>
      apply aged rfl
      cases c with
      | empty => exact tracked
      | _ => exact tracked.same rfl tracked.uncollected rfl (by rw [here]; rfl) fun _ => .inl
  | fork here returned positive fresh =>
      exact tracked.fork (by rw [here]; rfl) returned positive fresh
  | forkFails here returned =>
      exact aged rfl (tracked.same rfl tracked.uncollected rfl (by rw [here]; rfl) fun _ => .inl)
  | step returned taken => exact aged rfl (tracked.advance taken)
  | sigchld pending unblocked all =>
      exact aged rfl ((tracked.afterCollect unblocked all).leave fun _ => id)
  | interrupt running idle =>
      refine aged rfl ⟨tracked.pids, tracked.uncollected, tracked.tracks, ?_⟩
      intro adding f member
      rcases List.mem_cons.mp member with rfl | old
      · rfl
      · exact tracked.calm adding f old
  | noForeground running here found =>
      exact aged rfl (tracked.leave fun f member => here ▸ List.mem_cons_of_mem _ member)
  | readForeground running here found => exact aged rfl (tracked.readForeground front found)
  | kill running here group =>
      exact aged rfl (tracked.leave fun f member => here ▸ List.mem_cons_of_mem _ member)
  | killFails running here group =>
      have newborn := tracked.settled (here ▸ List.mem_cons_self) rfl
      exact aged rfl (tracked.same rfl tracked.uncollected rfl newborn.symm fun _ => .inl)
  | setpgid there => exact aged rfl (tracked.changed (fun _ _ => setpgid_follows) there s.pending)
  | stops there => exact aged rfl (tracked.changed (fun _ _ => stop_follows) there true)
  | continues there => exact aged rfl (tracked.changed (fun _ _ => continue_follows) there true)
  | ends there => exact aged rfl (tracked.changed (fun _ _ => finish_follows) there true)

end Tracked

/-- The invariant holds in every run. -/
theorem tracked_run {past : List (ShellState × Event)} {s : ShellState}
    (run : shell.Run past s) : Tracked (ForkedWithRoom · past) s := by
  induction run with
  | start initial =>
      cases initial
      exact ⟨.nil, fun _ member => (nomatch member), ⟨fun _ member => (nomatch member),
        fun _ _ occupied => absurd rfl occupied, fun _ occupied => absurd rfl occupied,
        fun _ member => (nomatch member), fun _ same => (nomatch same)⟩,
        fun adding => absurd rfl adding⟩
  | next before taken ih => exact ih.step (oneForeground_reachable before.reachable) taken

/-- In every run, outside the window between `Fork` and `addjob`, the table
lists the children. -/
theorem listsChildren {past : List (ShellState × Event)} {s : ShellState}
    (run : shell.Run past s) (outside : s.pc.newborn = none) : ListsChildren past s := by
  have tracks := (tracked_run run).tracks
  rw [outside] at tracks
  refine ⟨tracks.distinct, fun i occupied => ?_, fun c member roomy => ?_⟩
  · exact List.mem_map.mp (tracks.alive i occupied)
  · have lives := List.mem_map_of_mem (f := Child.pid) member
    obtain ⟨i, there⟩ := tracks.listed c.pid lives roomy (by simp)
    have positive := tracks.positive c.pid lives
    refine ⟨i, there, fun j other => ?_⟩
    have occupied : (s.table.jobs j).pid ≠ 0 := by omega
    exact tracks.distinct j i occupied (Eq.trans other there.symm)

theorem listsChildren_waiting :
    ListsChildren (record exec [] boot (foregroundJob.take 18)).1
      (record exec [] boot (foregroundJob.take 18)).2 :=
  listsChildren (Run.of_record (.start rfl) (fun _ _ _ taken => taken) _) (by decide +kernel)

end SysProg.Shell

import Mathlib.Init

/-!
# Runs of a labelled transition system

A state is reachable when a run from an initial state ends in it.  An
invariant holds initially and is preserved by every step from a reachable
state.  A property that some steps break is characterised by the condition
under which they do not: a run shows the property throughout exactly when
all of its steps meet the condition.
-/

namespace SysProg.Logic

/-- A labelled transition system. -/
structure Machine (σ ε : Type) where
  init : σ → Prop
  step : σ → ε → σ → Prop

namespace Machine

variable {σ ε : Type}

/-- The states in which the runs of a system end. -/
inductive Reachable (M : Machine σ ε) : σ → Prop where
  | start {s : σ} (initial : M.init s) : Reachable M s
  | next {s t : σ} {e : ε} (before : Reachable M s) (taken : M.step s e t) : Reachable M t

/-- What holds initially and is preserved by each step holds of every
reachable state. -/
theorem Reachable.invariant {M : Machine σ ε} {P : σ → Prop} (initial : ∀ s, M.init s → P s)
    (preserved : ∀ s e t, M.Reachable s → P s → M.step s e t → P t) {s : σ}
    (reached : M.Reachable s) : P s := by
  induction reached with
  | start here => exact initial _ here
  | next before taken holds => exact preserved _ _ _ before holds taken

/-! ## Histories -/

/-- A run with its history: every step taken, with the state before it and its
label, the last one first. -/
inductive Run (M : Machine σ ε) : List (σ × ε) → σ → Prop where
  | start {s : σ} (initial : M.init s) : Run M [] s
  | next {s t : σ} {e : ε} {past : List (σ × ε)} (before : Run M past s)
      (taken : M.step s e t) : Run M ((s, e) :: past) t

/-- A run ends in a reachable state. -/
theorem Run.reachable {M : Machine σ ε} {past : List (σ × ε)} {s : σ} (run : M.Run past s) :
    M.Reachable s := by
  induction run with
  | start here => exact .start here
  | next before taken ih => exact ih.next taken

/-- A reachable state is the end of a run. -/
theorem Reachable.run {M : Machine σ ε} {s : σ} (reached : M.Reachable s) :
    ∃ past, M.Run past s := by
  induction reached with
  | start here => exact ⟨[], .start here⟩
  | next before taken ih =>
      obtain ⟨past, run⟩ := ih
      exact ⟨_, run.next taken⟩

/-- Every step of a run has been taken. -/
theorem Run.taken {M : Machine σ ε} {past : List (σ × ε)} {s : σ} (run : M.Run past s) :
    ∀ b ∈ past, ∃ t, M.step b.1 b.2 t := by
  induction run with
  | start initial => exact fun _ member => nomatch member
  | next before taken ih =>
      intro b member
      rcases List.mem_cons.mp member with rfl | old
      · exact ⟨_, taken⟩
      · exact ih b old

/-- The property holds in every state of the run. -/
def Throughout (P : σ → Prop) (past : List (σ × ε)) (s : σ) : Prop :=
  P s ∧ ∀ before ∈ past, P before.1

/-- Every step of the run meets the condition. -/
def AllSteps (condition : σ → ε → Prop) (past : List (σ × ε)) : Prop :=
  ∀ before ∈ past, condition before.1 before.2

/-- Every step of the run meets a condition on it and the steps before it. -/
def AllAfter (condition : List (σ × ε) → σ → ε → Prop) : List (σ × ε) → Prop
  | [] => True
  | (s, e) :: past => condition past s e ∧ AllAfter condition past

theorem allAfter_iff {condition : σ → ε → Prop} {past : List (σ × ε)} :
    AllAfter (fun _ => condition) past ↔ AllSteps condition past := by
  induction past with
  | nil => exact ⟨fun _ _ member => (nomatch member), fun _ => trivial⟩
  | cons b past ih =>
      rw [AllAfter, ih, AllSteps, AllSteps, List.forall_mem_cons]

section After

variable {M : Machine σ ε} {I : List (σ × ε) → σ → Prop} {P : σ → Prop}
  {condition : List (σ × ε) → σ → ε → Prop}

/-- An invariant of the steps that meet the condition holds at the end of a
run of such steps. -/
theorem Run.invariantAfter (initial : ∀ s, M.init s → I [] s)
    (keeps : ∀ past s e t, I past s → condition past s e → M.step s e t → I ((s, e) :: past) t)
    {past : List (σ × ε)} {s : σ} (run : M.Run past s) (good : AllAfter condition past) :
    I past s := by
  induction run with
  | start here => exact initial _ here
  | next before taken holds => exact keeps _ _ _ _ (holds good.2) good.1 taken

/-- In a run of steps that meet the condition, what the invariant implies holds
throughout. -/
theorem Run.throughoutAfter (initial : ∀ s, M.init s → I [] s)
    (implies : ∀ past s, I past s → P s)
    (keeps : ∀ past s e t, I past s → condition past s e → M.step s e t → I ((s, e) :: past) t)
    {past : List (σ × ε)} {s : σ} (run : M.Run past s) (good : AllAfter condition past) :
    Throughout P past s := by
  induction run with
  | start here => exact ⟨implies _ _ (initial _ here), fun _ member => (nomatch member)⟩
  | @next s t e past before taken ih =>
      obtain ⟨here, earlier⟩ := ih good.2
      refine ⟨implies _ _ ((before.next taken).invariantAfter initial keeps good), ?_⟩
      intro b member
      rcases List.mem_cons.mp member with rfl | old
      · exact here
      · exact earlier b old

/-- A run shows the property throughout exactly when all of its steps meet the
condition, provided that the condition keeps an invariant which implies the
property and that a step against the condition breaks the property. -/
theorem Run.exactAfter (initial : ∀ s, M.init s → I [] s) (implies : ∀ past s, I past s → P s)
    (keeps : ∀ past s e t, I past s → condition past s e → M.step s e t → I ((s, e) :: past) t)
    (breaks : ∀ past s e t, I past s → ¬ condition past s e → M.step s e t → ¬ P t)
    {past : List (σ × ε)} {s : σ} (run : M.Run past s) :
    Throughout P past s ↔ AllAfter condition past := by
  refine ⟨fun holds => ?_, run.throughoutAfter initial implies keeps⟩
  induction run with
  | start here => trivial
  | @next s t e past before taken ih =>
      obtain ⟨now, earlier⟩ := holds
      have good := ih ⟨earlier _ List.mem_cons_self,
        fun b member => earlier b (List.mem_cons_of_mem _ member)⟩
      have here := before.invariantAfter initial keeps good
      exact ⟨Classical.byContradiction fun against => breaks _ _ _ _ here against taken now, good⟩

end After

section Exact

variable {M : Machine σ ε} {I P : σ → Prop} {condition : σ → ε → Prop}

theorem Run.invariant (initial : ∀ s, M.init s → I s)
    (keeps : ∀ s e t, I s → condition s e → M.step s e t → I t)
    {past : List (σ × ε)} {s : σ} (run : M.Run past s) (good : AllSteps condition past) : I s :=
  run.invariantAfter initial (fun _ => keeps) (allAfter_iff.mpr good)

theorem Run.throughout (initial : ∀ s, M.init s → I s) (implies : ∀ s, I s → P s)
    (keeps : ∀ s e t, I s → condition s e → M.step s e t → I t)
    {past : List (σ × ε)} {s : σ} (run : M.Run past s) (good : AllSteps condition past) :
    Throughout P past s :=
  run.throughoutAfter initial (fun _ => implies) (fun _ => keeps) (allAfter_iff.mpr good)

/-- The same for a condition on the step alone. -/
theorem Run.exact (initial : ∀ s, M.init s → I s) (implies : ∀ s, I s → P s)
    (keeps : ∀ s e t, I s → condition s e → M.step s e t → I t)
    (breaks : ∀ s e t, I s → ¬ condition s e → M.step s e t → ¬ P t)
    {past : List (σ × ε)} {s : σ} (run : M.Run past s) :
    Throughout P past s ↔ AllSteps condition past :=
  (run.exactAfter initial (fun _ => implies) (fun _ => keeps) (fun _ => breaks)).trans allAfter_iff

end Exact

/-! ## Replaying a list of labels -/

/-- The state after a list of labels, each carried out by a partial function. -/
def replay (exec : σ → ε → Option σ) : σ → List ε → Option σ
  | s, [] => some s
  | s, e :: rest => (exec s e).bind fun t => replay exec t rest

/-- A replayed list of labels is a run, as far as the function takes steps. -/
theorem Run.of_replay {M : Machine σ ε} {exec : σ → ε → Option σ} {s t : σ} {labels : List ε}
    {past : List (σ × ε)} (run : M.Run past s)
    (steps : ∀ e ∈ labels, ∀ s t, exec s e = some t → M.step s e t)
    (played : replay exec s labels = some t) : ∃ past', M.Run past' t := by
  induction labels generalizing s past with
  | nil =>
      cases played
      exact ⟨past, run⟩
  | cons e rest ih =>
      obtain ⟨next, taken, later⟩ := Option.bind_eq_some_iff.mp played
      refine ih (.next run (steps e List.mem_cons_self _ _ taken)) ?_ later
      intro e' member
      exact steps e' (List.mem_cons_of_mem _ member)

theorem Reachable.of_replay {M : Machine σ ε} {exec : σ → ε → Option σ} {s t : σ}
    {labels : List ε} (reached : M.Reachable s)
    (steps : ∀ s e t, exec s e = some t → M.step s e t)
    (played : replay exec s labels = some t) : M.Reachable t := by
  obtain ⟨past, run⟩ := reached.run
  obtain ⟨later, run⟩ := run.of_replay (fun e _ s t => steps s e t) played
  exact run.reachable

/-- The run that carries out a list of labels, up to the first one that is
refused: its history and its end. -/
def record (exec : σ → ε → Option σ) : List (σ × ε) → σ → List ε → List (σ × ε) × σ
  | past, s, [] => (past, s)
  | past, s, e :: rest =>
      match exec s e with
      | none => (past, s)
      | some t => record exec ((s, e) :: past) t rest

/-- What is recorded is a run. -/
theorem Run.of_record {M : Machine σ ε} {exec : σ → ε → Option σ} {s : σ} {past : List (σ × ε)}
    (run : M.Run past s) (steps : ∀ s e t, exec s e = some t → M.step s e t) (labels : List ε) :
    M.Run (record exec past s labels).1 (record exec past s labels).2 := by
  induction labels generalizing s past with
  | nil => exact run
  | cons e rest ih =>
      unfold record
      cases taken : exec s e with
      | none => exact run
      | some t => exact ih (run.next (steps s e t taken))

/-! ## Observations -/

section Observations

variable {ω : Type} {exec : σ → ε → Option σ} {out : σ → ω} {s s' t t' : σ}

theorem replay_append (s : σ) (first later : List ε) :
    replay exec s (first ++ later) = (replay exec s first).bind fun t => replay exec t later := by
  induction first generalizing s with
  | nil => rfl
  | cons e rest ih =>
      simp only [List.cons_append, replay]
      cases exec s e with
      | none => rfl
      | some t => exact ih t

theorem replay_trans {u : σ} {first later : List ε} (left : replay exec s first = some t)
    (right : replay exec t later = some u) : replay exec s (first ++ later) = some u := by
  rw [replay_append, left]
  exact right

/-- A first label in front of the others. -/
theorem replay_next {e : ε} {rest : List ε} {result : Option σ} (taken : exec s e = some t)
    (later : replay exec t rest = result) : replay exec s (e :: rest) = result := by
  rw [replay, taken]
  exact later

theorem replay_one {e : ε} (taken : exec s e = some t) : replay exec s [e] = some t := by
  rw [replay, taken]
  rfl

/-- Every list of labels leads from the two states to the same observation. -/
def Alike (exec : σ → ε → Option σ) (out : σ → ω) (s t : σ) : Prop :=
  ∀ labels, (replay exec s labels).map out = (replay exec t labels).map out

theorem Alike.out_eq (alike : Alike exec out s t) : out s = out t :=
  Option.some.inj (alike [])

/-- States that look alike still do so after the same labels. -/
theorem Alike.after (alike : Alike exec out s t) {labels : List ε}
    (left : replay exec s labels = some s') (right : replay exec t labels = some t') :
    Alike exec out s' t' := by
  intro later
  have all := alike (labels ++ later)
  rw [replay_append, replay_append, left, right] at all
  exact all

/-- A relation that every label keeps holds after the same labels. -/
theorem replay_related {R : σ → σ → Prop}
    (keeps : ∀ s t e, R s t → ∃ s' t', exec s e = some s' ∧ exec t e = some t' ∧ R s' t')
    (related : R s t) (labels : List ε) :
    ∃ s' t', replay exec s labels = some s' ∧ replay exec t labels = some t' ∧ R s' t' := by
  induction labels generalizing s t with
  | nil => exact ⟨s, t, rfl, rfl, related⟩
  | cons e rest ih =>
      obtain ⟨s1, t1, left, right, after⟩ := keeps s t e related
      obtain ⟨s', t', left', right', last⟩ := ih after
      refine ⟨s', t', ?_, ?_, last⟩
      · rw [replay, left]
        exact left'
      · rw [replay, right]
        exact right'

end Observations

end Machine

end SysProg.Logic

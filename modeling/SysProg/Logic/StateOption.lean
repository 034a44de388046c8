import Mathlib.Init

/-!
# Weakest preconditions of failing state programs

A program reads and rewrites one state and may fail.  Its weakest
precondition asks for a successful end, so every rule below speaks about
total correctness: a failing access and a loop that is cut off both falsify
it.
-/

namespace SysProg.Logic

/-- A program over the state `σ` that returns an `α` or fails. -/
abbrev Prog (σ α : Type) := StateT σ Option α

/-- The program `x` ends successfully from `s`, in a result satisfying `post`. -/
def wp {σ α : Type} (x : Prog σ α) (post : α → σ → Prop) (s : σ) : Prop :=
  ∃ result, x s = some result ∧ post result.1 result.2

section Rules

variable {σ α β : Type} {s : σ}

@[simp] theorem wp_pure (a : α) (post : α → σ → Prop) :
    wp (pure a : Prog σ α) post s ↔ post a s := by
  constructor
  · rintro ⟨result, run, holds⟩
    cases run
    exact holds
  · intro holds
    exact ⟨(a, s), rfl, holds⟩

/-- Sequential composition runs the second program from the first one's end. -/
@[simp] theorem wp_bind (x : Prog σ α) (f : α → Prog σ β) (post : β → σ → Prop) :
    wp (x >>= f) post s ↔ wp x (fun a s' => wp (f a) post s') s := by
  have unfolded : (x >>= f) s = (x s).bind (fun result => f result.1 result.2) := rfl
  unfold wp
  rw [unfolded]
  cases run : x s with
  | none => simp
  | some middle => simp

@[simp] theorem wp_ite (c : Prop) [Decidable c] (x y : Prog σ α) (post : α → σ → Prop) :
    wp (if c then x else y) post s ↔ if c then wp x post s else wp y post s := by
  by_cases holds : c
  · simp [holds]
  · simp [holds]

/-- A weaker postcondition is easier to reach. -/
theorem wp_mono {x : Prog σ α} {post post' : α → σ → Prop}
    (reached : wp x post s) (weaken : ∀ a s', post a s' → post' a s') : wp x post' s := by
  obtain ⟨result, run, holds⟩ := reached
  exact ⟨result, run, weaken _ _ holds⟩

/-- A successful run that meets its weakest precondition ends in the postcondition. -/
theorem wp_elim {x : Prog σ α} {post : α → σ → Prop} {result : α × σ}
    (reached : wp x post s) (run : x s = some result) : post result.1 result.2 := by
  obtain ⟨found, foundRun, holds⟩ := reached
  rw [run] at foundRun
  cases foundRun
  exact holds

/-- Two postconditions of one program hold together. -/
theorem wp_and {x : Prog σ α} {post post' : α → σ → Prop} (first : wp x post s)
    (second : wp x post' s) : wp x (fun a t => post a t ∧ post' a t) s := by
  obtain ⟨result, run, holds⟩ := first
  exact ⟨result, run, holds, wp_elim second run⟩

/-- A run known to return `a` ends in the state it can be read back from. -/
theorem run_of_map_fst {run : Option (α × σ)} {a : α} (returned : run.map Prod.fst = some a)
    (default : α × σ) : run = some (a, (run.getD default).2) := by
  obtain ⟨⟨b, t⟩, rfl, rfl⟩ := Option.map_eq_some_iff.mp returned
  rfl

/-- A program that ends at all. -/
theorem wp_true_iff (x : Prog σ α) : wp x (fun _ _ => True) s ↔ (x s).isSome = true := by
  rw [Option.isSome_iff_exists]
  constructor
  · rintro ⟨result, run, -⟩
    exact ⟨result, run⟩
  · rintro ⟨result, run⟩
    exact ⟨result, run, trivial⟩

/-- A weakest precondition that names the end of the run. -/
theorem run_of_wp {x : Prog σ α} {a : α} {t : σ}
    (reached : wp x (fun b s' => b = a ∧ s' = t) s) : x s = some (a, t) := by
  obtain ⟨⟨b, s'⟩, run, rfl, rfl⟩ := reached
  exact run

/-- Programs with the same weakest preconditions have the same runs. -/
theorem run_eq_of_wp {x y : Prog σ α} (same : ∀ post, wp x post s ↔ wp y post s) :
    x s = y s := by
  cases run : x s with
  | none =>
      cases other : y s with
      | none => rfl
      | some result =>
          obtain ⟨found, foundRun, -⟩ := (same fun _ _ => True).mpr ⟨result, other, trivial⟩
          rw [run] at foundRun
          cases foundRun
  | some result =>
      obtain ⟨a, t⟩ := result
      exact (run_of_wp ((same _).mp ⟨(a, t), run, rfl, rfl⟩)).symm

theorem wp_congr_run {x y : Prog σ α} {t : σ} (same : x s = y t) (post : α → σ → Prop) :
    wp x post s ↔ wp y post t := by
  unfold wp
  rw [same]

/-- The first of two programs may be exchanged for one with the same run. -/
theorem run_bind_congr {x y : Prog σ α} (same : x s = y s) (f : α → Prog σ β) :
    (x >>= f) s = (y >>= f) s := by
  change (x s).bind (fun result => f result.1 result.2) =
    (y s).bind (fun result => f result.1 result.2)
  rw [same]

/-- A bind goes on from the end of its first program. -/
theorem bind_run_of_run {x : Prog σ α} {a : α} {t : σ} (run : x s = some (a, t))
    (f : α → Prog σ β) : (x >>= f) s = f a t := by
  change (x s).bind (fun result => f result.1 result.2) = f a t
  rw [run]
  rfl

/-- Past a first program whose end is known. -/
theorem wp_bind_of_run {x : Prog σ α} {a : α} {t : σ} (run : x s = some (a, t)) (f : α → Prog σ β)
    (post : β → σ → Prop) : wp (x >>= f) post s ↔ wp (f a) post t :=
  wp_congr_run (bind_run_of_run run f) post

/-- Two continuations that agree at every end of a program may be exchanged. -/
theorem bind_run_congr {x : Prog σ α} {f g : α → Prog σ β}
    (same : wp x (fun a t => f a t = g a t) s) : (x >>= f) s = (x >>= g) s := by
  obtain ⟨⟨a, t⟩, run, agree⟩ := same
  rw [bind_run_of_run run, bind_run_of_run run]
  exact agree

end Rules

/-! ## Cut-off loops -/

/-- A program whose loops are cut off ends in the same way when they are cut off
later. -/
def Settled {σ α : Type} (x : Nat → Prog σ α) : Prop :=
  ∀ fuel fuel' s result, fuel ≤ fuel' → x fuel s = some result → x fuel' s = some result

namespace Settled

variable {σ α β : Type}

theorem const (x : Prog σ α) : Settled fun _ => x := fun _ _ _ _ _ run => run

theorem bind {x : Nat → Prog σ α} {f : Nat → α → Prog σ β} (first : Settled x)
    (later : ∀ a, Settled fun fuel => f fuel a) : Settled fun fuel => x fuel >>= f fuel := by
  intro fuel fuel' s result more run
  obtain ⟨⟨a, t⟩, ended, rest⟩ := Option.bind_eq_some_iff.mp run
  exact (bind_run_of_run (first fuel fuel' s _ more ended) _).trans
    (later a fuel fuel' t result more rest)

theorem ite {c : Prop} [Decidable c] {x y : Nat → Prog σ α} (left : Settled x)
    (right : Settled y) : Settled fun fuel => if c then x fuel else y fuel := by
  by_cases holds : c
  · simpa only [if_pos holds] using left
  · simpa only [if_neg holds] using right

end Settled

end SysProg.Logic

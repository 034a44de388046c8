import Mathlib.Order.Defs.Unbundled
import SysProg.Logic.StateOption

/-!
# What a program may do to a state

A program stays within a preorder of the states when every end of it is related
to its start.  Composed programs do if their parts do, whatever they compute.
-/

namespace SysProg.Logic

/-- Every end of the program is related to its start. -/
def Within {σ α : Type} (R : σ → σ → Prop) (x : Prog σ α) : Prop :=
  ∀ s a t, x s = some (a, t) → R s t

/-- What holds before holds afterwards. -/
def Keeping {σ : Type} (P : σ → Prop) (s t : σ) : Prop := P s → P t

instance {σ : Type} (P : σ → Prop) : IsPreorder σ (Keeping P) where
  refl _ := id
  trans _ _ _ first second := second ∘ first

namespace Within

variable {σ α β : Type} {R : σ → σ → Prop}

/-- A program that leaves the state alone. -/
theorem reading [Std.Refl R] {x : Prog σ α} (same : ∀ s a t, x s = some (a, t) → t = s) :
    Within R x := by
  intro s a t run
  rw [same s a t run]
  exact Std.Refl.refl s

theorem pure [Std.Refl R] (a : α) : Within R (Pure.pure a : Prog σ α) := by
  refine reading fun s b t run => ?_
  cases run
  rfl

theorem fails : Within R (fun _ => none : Prog σ α) := by
  intro s a t run
  cases run

theorem bind [IsTrans σ R] {x : Prog σ α} {f : α → Prog σ β} (first : Within R x)
    (later : ∀ a, Within R (f a)) : Within R (x >>= f) := by
  intro s b u run
  obtain ⟨⟨a, t⟩, ended, rest⟩ := Option.bind_eq_some_iff.mp run
  exact IsTrans.trans s t u (first s a t ended) (later a t b u rest)

theorem ite {c : Prop} [Decidable c] {x y : Prog σ α} (left : Within R x) (right : Within R y) :
    Within R (if c then x else y) := by
  split
  · exact left
  · exact right

end Within

end SysProg.Logic

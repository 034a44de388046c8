import SysProg.Logic.StateOption

/-!
# Programs on a part of a state

A program on one part of a state reads and rewrites this part only.
-/

namespace SysProg.Logic

/-- A part of a state, and how it is replaced. -/
structure Part (σ τ : Type) where
  get : σ → τ
  set : τ → σ → σ

namespace Part

variable {σ τ α : Type}

/-- The program on the part. -/
def run (p : Part σ τ) (x : Prog τ α) : Prog σ α := fun s =>
  (x (p.get s)).map fun result => (result.1, p.set result.2 s)

@[simp] theorem wp_run (p : Part σ τ) (x : Prog τ α) (post : α → σ → Prop) {s : σ} :
    wp (p.run x) post s ↔ wp x (fun a t => post a (p.set t s)) (p.get s) := by
  unfold wp run
  constructor
  · rintro ⟨result, ended, holds⟩
    obtain ⟨inner, ended', rfl⟩ := Option.map_eq_some_iff.mp ended
    exact ⟨inner, ended', holds⟩
  · rintro ⟨inner, ended, holds⟩
    exact ⟨_, Option.map_eq_some_iff.mpr ⟨inner, ended, rfl⟩, holds⟩

theorem run_eq_some {p : Part σ τ} {x : Prog τ α} {s : σ} {result : α × σ}
    (ends : p.run x s = some result) :
    ∃ t, x (p.get s) = some (result.1, t) ∧ result.2 = p.set t s := by
  obtain ⟨inner, ended, rfl⟩ := Option.map_eq_some_iff.mp ends
  exact ⟨inner.2, ended, rfl⟩

theorem run_of_run {p : Part σ τ} {x : Prog τ α} {s : σ} {a : α} {t : τ}
    (run : x (p.get s) = some (a, t)) : p.run x s = some (a, p.set t s) := by
  rw [Part.run, run]
  rfl

theorem run_congr {p : Part σ τ} {x y : Prog τ α} {s : σ} (same : x (p.get s) = y (p.get s)) :
    p.run x s = p.run y s := by
  rw [Part.run, Part.run, same]

end Part

end SysProg.Logic

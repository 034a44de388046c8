import Mathlib.Data.List.Basic
import Mathlib.Data.List.Nodup

/-!
# Doubly linked runs of nodes

A run of nodes is linked by two functions when every node's successor is the
next node of the run and that node's predecessor is the first one.  The
successor of the last node and the predecessor of the first are not
constrained.  The edits below are the splices of a doubly linked list.
-/

namespace SysProg.Logic

/-- Consecutive nodes of the run point at each other. -/
def Linked {P : Type} (next prev : P → P) : List P → Prop
  | x :: y :: rest => next x = y ∧ prev y = x ∧ Linked next prev (y :: rest)
  | _ => True

section Linked

variable {P : Type} {next prev next' prev' : P → P}

@[simp] theorem linked_nil : Linked next prev [] := trivial

@[simp] theorem linked_singleton (x : P) : Linked next prev [x] := trivial

@[simp] theorem linked_cons_cons (x y : P) (rest : List P) :
    Linked next prev (x :: y :: rest) ↔
      next x = y ∧ prev y = x ∧ Linked next prev (y :: rest) :=
  Iff.rfl

/-- A run that is cut at a shared node is linked exactly when both halves are. -/
theorem linked_append (front : List P) (x : P) (back : List P) :
    Linked next prev (front ++ x :: back) ↔
      Linked next prev (front ++ [x]) ∧ Linked next prev (x :: back) := by
  induction front with
  | nil => simp
  | cons first rest ih =>
      cases rest with
      | nil => simp [and_assoc]
      | cons second tail =>
          simp only [List.cons_append, linked_cons_cons] at ih ⊢
          rw [ih]
          simp only [and_assoc]

namespace Linked

/-- The successor of the first node, where `z` ends the list. -/
theorem next_eq {x z : P} {rest : List P} (linked : Linked next prev (x :: rest ++ [z])) :
    next x = rest.headD z := by
  cases rest with
  | nil => exact linked.1
  | cons y rest => exact linked.1

/-- The tail of a linked run is linked. -/
theorem tail {x : P} {rest : List P} (linked : Linked next prev (x :: rest)) :
    Linked next prev rest := by
  cases rest with
  | nil => trivial
  | cons y rest => exact linked.2.2

/-- Only the successors before the last node and the predecessors after the
first one matter. -/
theorem congr {nodes : List P} (linked : Linked next prev nodes)
    (sameNext : ∀ z ∈ nodes.dropLast, next' z = next z)
    (samePrev : ∀ z ∈ nodes.tail, prev' z = prev z) : Linked next' prev' nodes := by
  induction nodes with
  | nil => trivial
  | cons x rest ih =>
      cases rest with
      | nil => trivial
      | cons y rest =>
          have here := sameNext x (by simp)
          have there := samePrev y (by simp)
          refine ⟨here.trans linked.1, there.trans linked.2.1, ih linked.2.2 ?_ ?_⟩
          · intro z member
            exact sameNext z (by simp only [List.dropLast_cons_cons, List.mem_cons]; exact .inr member)
          · intro z member
            exact samePrev z (List.mem_of_mem_tail member)

/-- The same link functions on all nodes of a run keep it linked. -/
theorem congr_all {nodes : List P} (linked : Linked next prev nodes)
    (same : ∀ z ∈ nodes, next' z = next z ∧ prev' z = prev z) : Linked next' prev' nodes :=
  linked.congr (fun z member => (same z ((List.dropLast_subset _) member)).1)
    (fun z member => (same z (List.mem_of_mem_tail member)).2)

/-- Dropping the first node frees the predecessor link of the second. -/
theorem dropFirst {x y : P} {rest : List P} (linked : Linked next prev (x :: y :: rest))
    (sameNext : ∀ z ∈ y :: rest, next' z = next z)
    (samePrev : ∀ z ∈ rest, prev' z = prev z) : Linked next' prev' (y :: rest) :=
  linked.2.2.congr (fun z member => sameNext z ((List.dropLast_subset _) member))
    (fun z member => samePrev z member)

/-- Linking a fresh node in front of the first one. -/
theorem pushFront {x y : P} {rest : List P} (linked : Linked next prev (y :: rest))
    (forward : next' x = y) (backward : prev' y = x)
    (sameNext : ∀ z ∈ y :: rest, next' z = next z)
    (samePrev : ∀ z ∈ rest, prev' z = prev z) : Linked next' prev' (x :: y :: rest) :=
  ⟨forward, backward,
    linked.congr (fun z member => sameNext z ((List.dropLast_subset _) member))
      (fun z member => samePrev z member)⟩

/-- Unlinking an inner node by joining its two neighbours. -/
theorem unlink {front back : List P} {x b y : P}
    (linked : Linked next prev (front ++ x :: b :: y :: back))
    (nodup : (front ++ x :: b :: y :: back).Nodup)
    (forward : next' x = y) (backward : prev' y = x)
    (sameNext : ∀ z ∈ front ++ x :: b :: y :: back, z ≠ x → next' z = next z)
    (samePrev : ∀ z ∈ front ++ x :: b :: y :: back, z ≠ y → prev' z = prev z) :
    Linked next' prev' (front ++ x :: y :: back) := by
  rw [linked_append] at linked ⊢
  obtain ⟨before, after⟩ := linked
  simp only [List.nodup_append, List.nodup_cons, List.mem_cons, not_or] at nodup
  obtain ⟨-, ⟨⟨-, xy, xBack⟩, -, yBack, -⟩, apart⟩ := nodup
  refine ⟨before.congr ?_ ?_, forward, backward, after.2.2.2.2.congr ?_ ?_⟩
  · intro z member
    rw [List.dropLast_concat] at member
    refine sameNext z (by simp [member]) ?_
    rintro rfl
    exact apart z member z (.inl rfl) rfl
  · intro z member
    have inside : z ∈ front ∨ z = x := by simpa using List.mem_of_mem_tail member
    refine samePrev z (by rcases inside with inside | inside <;> simp [inside]) ?_
    rintro rfl
    rcases inside with inside | same
    · exact apart z inside z (.inr (.inr (.inl rfl))) rfl
    · exact xy same.symm
  · intro z member
    have inside := (List.dropLast_subset _) member
    refine sameNext z (by simp only [List.mem_append, List.mem_cons] at inside ⊢; tauto) ?_
    rintro rfl
    rcases List.mem_cons.mp inside with same | inBack
    · exact xy same
    · exact xBack inBack
  · intro z member
    refine samePrev z (by simp only [List.mem_append, List.mem_cons]; tauto) ?_
    rintro rfl
    exact yBack member

end Linked

end Linked

end SysProg.Logic

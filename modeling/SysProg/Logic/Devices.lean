import Mathlib.Data.List.Infix

/-!
# Devices that transfer in pieces

A source hands out its elements in pieces, a sink takes them in pieces.  A
request transfers at least one element and at most as many as are asked for;
it may also be interrupted or fail.  The plan of a device says how it answers
the next requests, and every later request is answered in full.
-/

namespace SysProg.Logic

/-- The answer to a request for a transfer. -/
inductive Answer where
  | upTo (more : Nat)
  | interrupted
  | failed
  deriving DecidableEq

/-- The number of elements transferred when at most `n` are asked for. -/
def Answer.amount (n more : Nat) : Nat := min n (more + 1)

/-- How often a plan fails. -/
def failures (plan : List Answer) : Nat := plan.count .failed

/-! ## Sources -/

/-- The elements still to be read and the answers to the next requests. -/
structure Source (β : Type) where
  rest : List β
  plan : List Answer

/-- What a request to read brings. -/
inductive Delivery (β : Type) where
  | got (piece : List β)
  | interrupted
  | failed

namespace Source

variable {β : Type}

/-- A request for at most `n` elements. -/
def read (n : Nat) (s : Source β) : Delivery β × Source β :=
  match s.plan with
  | [] => (.got (s.rest.take n), ⟨s.rest.drop n, []⟩)
  | .upTo more :: plan =>
      (.got (s.rest.take (Answer.amount n more)), ⟨s.rest.drop (Answer.amount n more), plan⟩)
  | .interrupted :: plan => (.interrupted, ⟨s.rest, plan⟩)
  | .failed :: plan => (.failed, ⟨s.rest, plan⟩)

/-- What a request for at most `n` elements can do: a piece comes from the
front, and only an exhausted source hands out an empty one. -/
inductive Reads (n : Nat) (s : Source β) : Delivery β → Source β → Prop where
  | got {k : Nat} {plan : List Answer} (positive : 0 < k) (bound : k ≤ n)
      (steady : failures plan = failures s.plan) (shorter : plan.length ≤ s.plan.length) :
      Reads n s (.got (s.rest.take k)) ⟨s.rest.drop k, plan⟩
  | interrupted {plan : List Answer} (steady : failures plan = failures s.plan)
      (shorter : plan.length < s.plan.length) : Reads n s .interrupted ⟨s.rest, plan⟩
  | failed {plan : List Answer} (fewer : failures plan + 1 = failures s.plan)
      (shorter : plan.length < s.plan.length) : Reads n s .failed ⟨s.rest, plan⟩

theorem reads_read {n : Nat} (positive : 0 < n) (s : Source β) :
    Reads n s (s.read n).1 (s.read n).2 := by
  obtain ⟨rest, plan⟩ := s
  cases plan with
  | nil => exact .got positive le_rfl rfl le_rfl
  | cons answer plan =>
      cases answer with
      | upTo more =>
          exact .got (by unfold Answer.amount; omega) (Nat.min_le_left _ _)
            (by simp [failures]) (Nat.le_succ _)
      | interrupted => exact .interrupted (by simp [failures]) (Nat.lt_succ_self _)
      | failed => exact .failed (by simp [failures]) (Nat.lt_succ_self _)

end Source

/-! ## Sinks -/

/-- The elements taken so far and the answers to the next requests. -/
structure Sink (β : Type) where
  taken : List β
  plan : List Answer

/-- What a request to write brings. -/
inductive Writing where
  | accepted (count : Nat)
  | interrupted
  | failed

namespace Sink

variable {β : Type}

/-- A request to take some elements. -/
def write (piece : List β) (s : Sink β) : Writing × Sink β :=
  match s.plan with
  | [] => (.accepted piece.length, ⟨s.taken ++ piece, []⟩)
  | .upTo more :: plan =>
      (.accepted (Answer.amount piece.length more),
        ⟨s.taken ++ piece.take (Answer.amount piece.length more), plan⟩)
  | .interrupted :: plan => (.interrupted, ⟨s.taken, plan⟩)
  | .failed :: plan => (.failed, ⟨s.taken, plan⟩)

/-- What a request to take some elements can do. -/
inductive Writes (piece : List β) (s : Sink β) : Writing → Sink β → Prop where
  | accepted {k : Nat} {plan : List Answer} (positive : 0 < k) (bound : k ≤ piece.length)
      (steady : failures plan = failures s.plan) (shorter : plan.length ≤ s.plan.length) :
      Writes piece s (.accepted k) ⟨s.taken ++ piece.take k, plan⟩
  | interrupted {plan : List Answer} (steady : failures plan = failures s.plan)
      (shorter : plan.length < s.plan.length) : Writes piece s .interrupted ⟨s.taken, plan⟩
  | failed {plan : List Answer} (fewer : failures plan + 1 = failures s.plan)
      (shorter : plan.length < s.plan.length) : Writes piece s .failed ⟨s.taken, plan⟩

theorem writes_write {piece : List β} (some_piece : piece ≠ []) (s : Sink β) :
    Writes piece s (s.write piece).1 (s.write piece).2 := by
  have positive : 0 < piece.length := List.length_pos_of_ne_nil some_piece
  obtain ⟨taken, plan⟩ := s
  cases plan with
  | nil =>
      have all := Writes.accepted (s := ⟨taken, []⟩) positive le_rfl rfl le_rfl
      rw [List.take_length] at all
      exact all
  | cons answer plan =>
      cases answer with
      | upTo more =>
          exact .accepted (by unfold Answer.amount; omega) (Nat.min_le_left _ _)
            (by simp [failures]) (Nat.le_succ _)
      | interrupted => exact .interrupted (by simp [failures]) (Nat.lt_succ_self _)
      | failed => exact .failed (by simp [failures]) (Nat.lt_succ_self _)

end Sink

end SysProg.Logic

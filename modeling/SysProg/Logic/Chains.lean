import Mathlib.Data.List.Nodup
import SysProg.Logic.StateOption

/-!
# Singly linked chains

A node of a store holds a value and the address of the next node; 0 is the null
address.  A chain is the run of nodes that a pointer leads to.
-/

namespace SysProg.Logic

structure Node (α : Type) where
  value : α
  next : Nat

/-- The allocated nodes by their addresses. -/
abbrev Nodes (α : Type) := Nat → Option (Node α)

section Access

variable {α : Type}

def readNode (a : Nat) : Prog (Nodes α) (Node α) := fun h => (h a).map fun node => (node, h)

def writeNode (a : Nat) (node : Node α) : Prog (Nodes α) Unit := fun h =>
  if (h a).isSome then some ((), Function.update h a (some node)) else none

/-- Allocate the node at `a`, which must be free. -/
def allocNode (a : Nat) (node : Node α) : Prog (Nodes α) Unit := fun h =>
  if a ≠ 0 ∧ h a = none then some ((), Function.update h a (some node)) else none

def freeNode (a : Nat) : Prog (Nodes α) Unit := fun h =>
  if (h a).isSome then some ((), Function.update h a none) else none

/-- Replace the value of a node. -/
def modifyNode (a : Nat) (f : α → α) : Prog (Nodes α) Unit := do
  let node ← readNode a
  writeNode a { node with value := f node.value }

/-- Replace the link of a node. -/
def linkNode (a next : Nat) : Prog (Nodes α) Unit := do
  let node ← readNode a
  writeNode a { node with next := next }

/-- Walk from `cur` on while the values pass, cut off after `fuel` rounds: the
node before the end and the node there. -/
def walk (go : α → Bool) : Nat → Nat → Nat → Prog (Nodes α) (Nat × Nat)
  | 0, _, _ => fun _ => none
  | fuel + 1, prev, cur =>
      if cur = 0 then pure (prev, cur)
      else do
        let node ← readNode cur
        if go node.value then walk go fuel cur node.next else pure (prev, cur)

theorem walk_settled (go : α → Bool) (prev cur : Nat) :
    Settled fun fuel => walk go fuel prev cur := by
  intro fuel
  induction fuel generalizing prev cur with
  | zero => exact fun _ _ _ _ run => nomatch run
  | succ fuel ih =>
      intro fuel' h result more run
      cases fuel' with
      | zero => exact absurd more (Nat.not_succ_le_zero fuel)
      | succ fuel' =>
          dsimp only at run ⊢
          rw [walk] at run ⊢
          by_cases null : cur = 0
          · rw [if_pos null] at run ⊢
            exact run
          · rw [if_neg null] at run ⊢
            obtain ⟨⟨node, h'⟩, here, rest⟩ := Option.bind_eq_some_iff.mp run
            rw [bind_run_of_run here]
            by_cases passes : go node.value = true
            · simp only [if_pos passes] at rest ⊢
              exact ih cur node.next fuel' h' result (Nat.le_of_succ_le_succ more) rest
            · simp only [if_neg passes] at rest ⊢
              exact rest

variable {h : Nodes α} {a : Nat}

theorem wp_readNode {node : Node α} (here : h a = some node)
    (post : Node α → Nodes α → Prop) : wp (readNode a) post h ↔ post node h := by
  simp [wp, readNode, here]

theorem wp_writeNode {old : Node α} (here : h a = some old) (node : Node α)
    (post : Unit → Nodes α → Prop) :
    wp (writeNode a node) post h ↔ post () (Function.update h a (some node)) := by
  simp [wp, writeNode, here]

theorem wp_allocNode (free : h a = none) (notNull : a ≠ 0) (node : Node α)
    (post : Unit → Nodes α → Prop) :
    wp (allocNode a node) post h ↔ post () (Function.update h a (some node)) := by
  simp [wp, allocNode, free, notNull]

theorem wp_freeNode {old : Node α} (here : h a = some old) (post : Unit → Nodes α → Prop) :
    wp (freeNode a) post h ↔ post () (Function.update h a none) := by
  simp [wp, freeNode, here]

theorem wp_modifyNode {node : Node α} (here : h a = some node) (f : α → α)
    (post : Unit → Nodes α → Prop) : wp (modifyNode a f) post h ↔
      post () (Function.update h a (some ⟨f node.value, node.next⟩)) := by
  rw [modifyNode, wp_bind, wp_readNode here, wp_writeNode here]

theorem wp_linkNode {node : Node α} (here : h a = some node) (next : Nat)
    (post : Unit → Nodes α → Prop) : wp (linkNode a next) post h ↔
      post () (Function.update h a (some ⟨node.value, next⟩)) := by
  rw [linkNode, wp_bind, wp_readNode here, wp_writeNode here]

end Access

/-- A node that is allocated and freed around a write elsewhere leaves no trace. -/
theorem update_freed {α : Type} {h : Nodes α} {a i : Nat} (free : h i = none) (other : a ≠ i)
    (new node : Option (Node α)) :
    Function.update (Function.update (Function.update h i new) a node) i none =
      Function.update h a node := by
  have clear : Function.update h a node i = none := by
    rw [Function.update_of_ne other.symm, free]
  rw [Function.update_comm other.symm, Function.update_idem, ← clear, Function.update_eq_self]

/-! ## Chains -/

/-- The nodes from `p` up to the pointer `q`, with their values. -/
def Chain {α : Type} (h : Nodes α) : Nat → List (Nat × α) → Nat → Prop
  | p, [], q => p = q
  | p, e :: rest, q => p = e.1 ∧ e.1 ≠ 0 ∧ ∃ next, h e.1 = some ⟨e.2, next⟩ ∧ Chain h next rest q

/-- The address of the first node, or null. -/
def firstOf {α : Type} (entries : List (Nat × α)) : Nat := (entries.head?.map Prod.fst).getD 0

@[simp] theorem firstOf_nil {α : Type} : firstOf ([] : List (Nat × α)) = 0 := rfl

@[simp] theorem firstOf_cons {α : Type} (e : Nat × α) (rest : List (Nat × α)) :
    firstOf (e :: rest) = e.1 := rfl

section Chains

variable {α : Type} {h h' : Nodes α} {p q i : Nat} {x : Nat × α}
  {entries before after : List (Nat × α)}

theorem chain_append : Chain h p (before ++ after) q ↔
    ∃ m, Chain h p before m ∧ Chain h m after q := by
  induction before generalizing p with
  | nil => simp [Chain]
  | cons e rest ih =>
      simp only [List.cons_append, Chain, ih]
      constructor
      · rintro ⟨here, notNull, next, node, m, left, right⟩
        exact ⟨m, ⟨here, notNull, next, node, left⟩, right⟩
      · rintro ⟨m, ⟨here, notNull, next, node, left⟩, right⟩
        exact ⟨here, notNull, next, node, m, left, right⟩

/-- Only the nodes of a chain matter. -/
theorem Chain.congr (chain : Chain h p entries q)
    (same : ∀ e ∈ entries, h' e.1 = h e.1) : Chain h' p entries q := by
  induction entries generalizing p with
  | nil => exact chain
  | cons e rest ih =>
      obtain ⟨here, notNull, next, node, later⟩ := chain
      refine ⟨here, notNull, next, (same e List.mem_cons_self).trans node, ?_⟩
      exact ih later fun e member => same e (List.mem_cons_of_mem _ member)

theorem Chain.firstOf_eq (chain : Chain h p entries 0) : p = firstOf entries := by
  cases entries with
  | nil => exact chain
  | cons e rest => exact chain.1

/-- Every node of a chain is allocated. -/
theorem Chain.allocated (chain : Chain h p entries q) (member : x ∈ entries) :
    x.1 ≠ 0 ∧ ∃ next, h x.1 = some ⟨x.2, next⟩ := by
  induction entries generalizing p with
  | nil => cases member
  | cons e rest ih =>
      obtain ⟨-, notNull, next, node, later⟩ := chain
      rcases List.mem_cons.mp member with rfl | inside
      · exact ⟨notNull, next, node⟩
      · exact ih later inside

/-- The node in the middle of a chain. -/
theorem Chain.middle (chain : Chain h p (before ++ x :: after) 0) :
    Chain h p before x.1 ∧ x.1 ≠ 0 ∧ h x.1 = some ⟨x.2, firstOf after⟩ ∧
      Chain h (firstOf after) after 0 := by
  obtain ⟨m, left, rfl, notNull, next, node, right⟩ := chain_append.mp chain
  obtain rfl := right.firstOf_eq
  exact ⟨left, notNull, node, right⟩

/-- The last of some nodes behind a first one, or this one. -/
theorem exists_last (first : Nat × α) (entries : List (Nat × α)) : ∃ front last,
    first :: entries = front ++ [last] ∧ (entries.map Prod.fst).getLastD first.1 = last.1 := by
  induction entries generalizing first with
  | nil => exact ⟨[], first, rfl, rfl⟩
  | cons e rest ih =>
      obtain ⟨front, last, split, address⟩ := ih e
      refine ⟨first :: front, last, by rw [split, List.cons_append], ?_⟩
      rw [List.map_cons, List.getLastD_cons]
      exact address

/-- A walk along a chain stops at the first value that does not pass. -/
theorem wp_walk (go : α → Bool) {fuel prev : Nat} (chain : Chain h p entries 0)
    (enough : entries.length < fuel) : wp (walk go fuel prev p) (fun r h' => h' = h ∧
      ∃ front back, entries = front ++ back ∧ (∀ e ∈ front, go e.2 = true) ∧
        (∀ e ∈ back.head?, ¬ go e.2 = true) ∧
        r.1 = (front.map Prod.fst).getLastD prev ∧ r.2 = firstOf back) h := by
  induction entries generalizing p prev fuel with
  | nil =>
      cases fuel with
      | zero => exact absurd enough (Nat.not_lt_zero _)
      | succ fuel =>
          obtain rfl : p = 0 := chain
          rw [walk, if_pos rfl, wp_pure]
          exact ⟨rfl, [], [], rfl, (fun _ member => nomatch member),
            (fun _ first => nomatch first), rfl, rfl⟩
  | cons e rest ih =>
      cases fuel with
      | zero => exact absurd enough (Nat.not_lt_zero _)
      | succ fuel =>
          obtain ⟨rfl, notNull, next, node, later⟩ := chain
          rw [walk, if_neg notNull, wp_bind, wp_readNode node, wp_ite]
          by_cases passes : go e.2 = true
          · rw [if_pos passes]
            refine wp_mono (ih later (Nat.lt_of_succ_lt_succ enough)) fun r h' found => ?_
            obtain ⟨same, front, back, rfl, passed, stopped, last, here⟩ := found
            refine ⟨same, e :: front, back, rfl, ?_, stopped, ?_, here⟩
            · intro x member
              rcases List.mem_cons.mp member with rfl | inside
              · exact passes
              · exact passed x inside
            · rw [List.map_cons, List.getLastD_cons]
              exact last
          · rw [if_neg passes, wp_pure]
            refine ⟨rfl, [], e :: rest, rfl, (fun _ member => nomatch member), ?_, rfl, rfl⟩
            intro x first
            obtain rfl := Option.some.inj first
            exact passes

/-- A new node behind the node `x`. -/
theorem Chain.insert {value : α} (chain : Chain h p (before ++ x :: after) 0)
    (notNull : i ≠ 0) (node : h' x.1 = some ⟨x.2, i⟩) (new : h' i = some ⟨value, firstOf after⟩)
    (same : ∀ e ∈ before ++ after, h' e.1 = h e.1) :
    Chain h' p (before ++ x :: (i, value) :: after) 0 := by
  obtain ⟨left, xNotNull, -, right⟩ := chain.middle
  refine chain_append.mpr ⟨x.1, ?_, rfl, xNotNull, i, node, rfl, notNull, _, new, ?_⟩
  · exact left.congr fun e member => same e (List.mem_append_left _ member)
  · exact right.congr fun e member => same e (List.mem_append_right _ member)

/-- A new value in the node `x`. -/
theorem Chain.modify {value : α} (chain : Chain h p (before ++ x :: after) 0)
    (node : h' x.1 = some ⟨value, firstOf after⟩)
    (same : ∀ e ∈ before ++ after, h' e.1 = h e.1) :
    Chain h' p (before ++ (x.1, value) :: after) 0 := by
  obtain ⟨left, xNotNull, -, right⟩ := chain.middle
  refine chain_append.mpr ⟨x.1, ?_, rfl, xNotNull, _, node, ?_⟩
  · exact left.congr fun e member => same e (List.mem_append_left _ member)
  · exact right.congr fun e member => same e (List.mem_append_right _ member)

end Chains

end SysProg.Logic

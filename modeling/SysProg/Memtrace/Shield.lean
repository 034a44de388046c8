import Mathlib.Logic.Function.Basic
import SysProg.Memtrace.Tracer

/-!
# What the tracer passes on

Clients may hand the tracer any address.  The allocator below holds blocks of
known sizes: it may fail, it answers with no address that it still holds, and
only a `realloc` beyond the size of a block may move it.  What it is asked to
free or to resize is a block that it holds, as long as the tracer hears of every
move.
-/

namespace SysProg.Memtrace

open Logic Machine

/-! ## An allocator that may fail, and any client -/

/-- The tracer and the sizes of the blocks that the allocator holds. -/
structure Shielded where
  tracer : Tracer
  blocks : Nat → Option Nat

/-- The answers of the allocator: `NULL` or a fresh address for a new block,
`NULL` for `realloc(p, 0)`, and for another `realloc` `NULL`, the old address or,
beyond the size of the block, a fresh one.  A `realloc` of an address that is
not held may do anything. -/
def Conforms (blocks : Nat → Option Nat) : Request → Nat → Prop
  | .malloc _, res | .calloc _ _, res => res = 0 ∨ blocks res = none
  | .realloc ptr size, res =>
      if ptr = 0 then res = 0 ∨ blocks res = none
      else ∀ held ∈ blocks ptr,
        if size = 0 then res = 0
        else res = 0 ∨ res = ptr ∨ held < size.toNat ∧ blocks res = none
  | .free _, res => res = 0

instance (blocks : Nat → Option Nat) :
    (request : Request) → (res : Nat) → Decidable (Conforms blocks request res)
  | .malloc _, _ | .calloc _ _, _ => inferInstanceAs (Decidable (_ ∨ _))
  | .realloc ptr size, res =>
      inferInstanceAs (Decidable (if ptr = 0 then res = 0 ∨ blocks res = none
        else ∀ held ∈ blocks ptr, if size = 0 then res = 0
          else res = 0 ∨ res = ptr ∨ held < size.toNat ∧ blocks res = none))
  | .free _, _ => inferInstanceAs (Decidable (_ = _))

/-- A block at an address other than `NULL`. -/
def settle (blocks : Nat → Option Nat) (res size : Nat) : Nat → Option Nat :=
  if res = 0 then blocks else Function.update blocks res (some size)

/-- The blocks after an answer. -/
def blocksAfter (blocks : Nat → Option Nat) : Request → Nat → Nat → Option Nat
  | .malloc size, res => settle blocks res size.toNat
  | .calloc nmemb size, res => settle blocks res (nmemb.toNat * size.toNat)
  | .realloc ptr size, res =>
      if ptr = 0 then settle blocks res size.toNat
      else if size = 0 then Function.update blocks ptr none
      else if res = 0 then blocks
      else Function.update (Function.update blocks ptr none) res (some size.toNat)
  | .free ptr, _ => Function.update blocks ptr none

/-- A call of the client, with any arguments, and the answer of the allocator;
without a call of the allocator the answer is 0. -/
def pass (w : Shielded) : Call × Nat → Option Shielded
  | (call, res) =>
      let traced := intercept w.tracer call
      match traced.request with
      | none => if res = 0 then some ⟨traced.finish res, w.blocks⟩ else none
      | some request =>
          if Conforms w.blocks request res then
            some ⟨traced.finish res, blocksAfter w.blocks request res⟩
          else none

/-- Any client over the tracer, which is loaded over any blocks. -/
def shielding : Machine Shielded (Call × Nat) where
  init w := w.tracer = loaded.tracer
  step w e w' := pass w e = some w'

/-! ## The property and the condition -/

/-- The address that a request hands to the underlying `free` or `realloc`. -/
def Request.handed : Request → Option Nat
  | .malloc _ | .calloc _ _ => none
  | .realloc ptr _ | .free ptr => some ptr

/-- The address that the client hands to a call. -/
def Call.handed : Call → Option Nat
  | .malloc _ | .calloc _ _ => none
  | .realloc ptr _ | .free ptr => some ptr

/-- A fault of the log. -/
def Fault (line : LogLine) : Prop := line = .illegalFree ∨ line = .doubleFree

/-- An address is passed on only if the allocator holds it, and a fault is
logged for an address that is not an active entry. -/
structure Shields (w : Shielded) (e : Call × Nat) : Prop where
  passed : ∀ request ∈ (intercept w.tracer e.1).request, ∀ ptr ∈ request.handed,
    ptr ≠ 0 → w.blocks ptr ≠ none
  logged : ∀ ptr ∈ e.1.handed, ptr ≠ 0 → ¬ Live w.tracer.items ptr →
    ∃ line fault, Fault fault ∧
      ((intercept w.tracer e.1).finish e.2).log = w.tracer.log ++ [line, fault]

/-- A `realloc` of an active entry to a size other than 0 that is not larger
than the recorded one, but larger than the block, does not move it. -/
def StaysPut (w : Shielded) : Call × Nat → Prop
  | (.realloc ptr size, res) => ptr ≠ 0 → size ≠ 0 → ∀ i ∈ find w.tracer.items ptr, i.cnt ≠ 0 →
      size ≤ i.size → ∀ held ∈ w.blocks ptr, held < size.toNat → res = 0 ∨ res = ptr
  | _ => True

instance (w : Shielded) : (e : Call × Nat) → Decidable (StaysPut w e)
  | (.realloc _ _, _) => inferInstanceAs (Decidable (_ → _))
  | (.malloc _, _) | (.calloc _ _, _) | (.free _, _) => inferInstanceAs (Decidable True)

/-! ## The branches of the tracer -/

/-- No entry of an address is active. -/
def Inactive (items : List Item) (ptr : Nat) : Prop := ∀ i ∈ find items ptr, i.cnt = 0

namespace Tracer

/-- The branches of `realloc`. -/
theorem realloc_cases (t : Tracer) (ptr : Nat) (size : UInt64) :
    (ptr = 0 ∧ t.realloc ptr size = t.reallocNull size) ∨
      (ptr ≠ 0 ∧ Inactive t.items ptr ∧
        ∃ fault, Fault fault ∧ t.realloc ptr size = t.reallocUnknown ptr size fault) ∨
      ∃ i, ptr ≠ 0 ∧ find t.items ptr = some i ∧ i.cnt ≠ 0 ∧
        (size = 0 ∧ t.realloc ptr size = t.reallocZero ptr i ∨
          size ≠ 0 ∧ size ≤ i.size ∧ t.realloc ptr size = t.reallocShrink ptr size ∨
          size ≠ 0 ∧ t.realloc ptr size = t.reallocGrow ptr size i) := by
  by_cases null : ptr = 0
  · exact .inl ⟨null, if_pos null⟩
  · right
    cases found : find t.items ptr with
    | none =>
        refine .inl ⟨null, ?_, .illegalFree, .inl rfl, by simp [realloc, null, found]⟩
        simp [Inactive, found]
    | some i =>
        by_cases inactive : i.cnt = 0
        · refine .inl ⟨null, ?_, .doubleFree, .inr rfl, by simp [realloc, null, found, inactive]⟩
          simp [Inactive, found, inactive]
        · refine .inr ⟨i, null, rfl, inactive, ?_⟩
          by_cases zero : size = 0
          · exact .inl ⟨zero, by simp [realloc, null, found, inactive, zero]⟩
          · by_cases fits : size ≤ i.size
            · exact .inr (.inl ⟨zero, fits, by simp [realloc, null, found, inactive, zero, fits]⟩)
            · exact .inr (.inr ⟨zero, by simp [realloc, null, found, inactive, zero, fits]⟩)

/-- The branches of `free`. -/
theorem free_cases (t : Tracer) (ptr : Nat) :
    (ptr = 0 ∧ t.free ptr = ⟨none, fun _ => { t with log := t.log ++ [.free ptr] }⟩) ∨
      (ptr ≠ 0 ∧ Inactive t.items ptr ∧
        ∃ fault, Fault fault ∧
          t.free ptr = ⟨none, fun _ => { t with log := t.log ++ [.free ptr, fault] }⟩) ∨
      ∃ i, ptr ≠ 0 ∧ find t.items ptr = some i ∧ i.cnt ≠ 0 ∧
        t.free ptr = ⟨some (.free ptr), fun _ =>
          { t with
            log := t.log ++ [.free ptr]
            items := dealloc t.items ptr
            n_freeb := t.n_freeb + i.size }⟩ := by
  by_cases null : ptr = 0
  · exact .inl ⟨null, if_pos null⟩
  · right
    cases found : find t.items ptr with
    | none =>
        refine .inl ⟨null, ?_, .illegalFree, .inl rfl, by simp [free, null, found]⟩
        simp [Inactive, found]
    | some i =>
        by_cases inactive : i.cnt = 0
        · refine .inl ⟨null, ?_, .doubleFree, .inr rfl, by simp [free, null, found, inactive]⟩
          simp [Inactive, found, inactive]
        · exact .inr ⟨i, null, rfl, inactive, by simp [free, null, found, inactive]⟩

end Tracer

/-! ## What a call does -/

/-- The bytes that a call asks for. -/
def Call.bytes : Call → UInt64
  | .malloc size | .realloc _ size => size
  | .calloc nmemb size => nmemb * size
  | .free _ => 0

/-- What a call does to the list, the totals and the blocks. -/
inductive Outcome (w w' : Shielded) (call : Call) (res : Nat) : Prop where
  | kept (items : w'.tracer.items = w.tracer.items)
      (allocated : w'.tracer.n_allocb = w.tracer.n_allocb)
      (freed : w'.tracer.n_freeb = w.tracer.n_freeb)
      (held : ∀ p, w.blocks p ≠ none → w'.blocks p ≠ none)
  | recorded (items : w'.tracer.items = allocResult w.tracer.items res call.bytes)
      (allocated : w'.tracer.n_allocb = w.tracer.n_allocb + call.bytes)
      (freed : w'.tracer.n_freeb = w.tracer.n_freeb)
      (fresh : res = 0 ∨ w.blocks res = none)
      (held : ∀ p, w.blocks p ≠ none → w'.blocks p ≠ none)
      (given : res ≠ 0 → w'.blocks res ≠ none)
  | released (ptr : Nat) (i : Item) (found : find w.tracer.items ptr = some i)
      (active : i.cnt ≠ 0)
      (items : w'.tracer.items = dealloc w.tracer.items ptr)
      (allocated : w'.tracer.n_allocb = w.tracer.n_allocb)
      (freed : w'.tracer.n_freeb = w.tracer.n_freeb + i.size)
      (held : ∀ p, p ≠ ptr → w.blocks p ≠ none → w'.blocks p ≠ none)
  | regrown (ptr : Nat) (i : Item) (found : find w.tracer.items ptr = some i)
      (active : i.cnt ≠ 0)
      (items : w'.tracer.items = allocResult (dealloc w.tracer.items ptr) res call.bytes)
      (allocated : w'.tracer.n_allocb = w.tracer.n_allocb + call.bytes)
      (freed : w'.tracer.n_freeb = w.tracer.n_freeb + i.size)
      (fresh : res = 0 ∨ res = ptr ∨ w.blocks res = none)
      (held : ∀ p, p ≠ ptr → w.blocks p ≠ none → w'.blocks p ≠ none)
      (given : res ≠ 0 → w'.blocks res ≠ none)

section Blocks

variable {blocks : Nat → Option Nat} {p ptr res size : Nat}

theorem settle_held (held : blocks p ≠ none) : settle blocks res size p ≠ none := by
  unfold settle
  split
  · exact held
  · by_cases here : p = res
    · subst here
      simp
    · rwa [Function.update_of_ne here]

theorem settle_given (block : res ≠ 0) : settle blocks res size res ≠ none := by
  simp [settle, block]

theorem update_none_held (other : p ≠ ptr) (held : blocks p ≠ none) :
    Function.update blocks ptr none p ≠ none := by
  rwa [Function.update_of_ne other]

theorem update_some_held (held : blocks p ≠ none) :
    Function.update blocks res (some size) p ≠ none := by
  by_cases here : p = res
  · subst here
    simp
  · rwa [Function.update_of_ne here]

end Blocks

section Pass

variable {w w' : Shielded} {call : Call} {res : Nat} {traced : Traced}

/-- A call that the tracer passes on. -/
theorem pass_passed {request : Request} (taken : pass w (call, res) = some w')
    (branch : intercept w.tracer call = traced) (called : traced.request = some request) :
    Conforms w.blocks request res ∧ w' = ⟨traced.finish res, blocksAfter w.blocks request res⟩ := by
  simp only [pass, branch, called] at taken
  split at taken
  · rename_i answers
    cases taken
    exact ⟨answers, rfl⟩
  · cases taken

/-- A call that the tracer keeps to itself. -/
theorem pass_kept (taken : pass w (call, res) = some w')
    (branch : intercept w.tracer call = traced) (called : traced.request = none) :
    w' = ⟨traced.finish res, w.blocks⟩ := by
  simp only [pass, branch, called] at taken
  split at taken
  · cases taken
    rfl
  · cases taken

end Pass

/-! ## Active entries are held -/

/-- Counts are 0 or 1, and the allocator holds the active entries. -/
structure Guarded (items : List Item) (blocks : Nat → Option Nat) : Prop where
  sorted : Sorted items
  counts : ∀ p, count items p = 0 ∨ count items p = 1
  held : ∀ p, count items p = 1 → blocks p ≠ none

theorem count_found {items : List Item} {p : Nat} {i : Item} (found : find items p = some i) :
    count items p = i.cnt := by
  rw [count, found]

namespace Guarded

section Entries

variable {items : List Item} {blocks blocks' : Nat → Option Nat} {p ptr res : Nat} {i : Item}

/-- Nothing is active in the empty list. -/
theorem empty (blocks : Nat → Option Nat) : Guarded [] blocks where
  sorted := .nil
  counts _ := .inl rfl
  held _ one := by simp [count, find] at one

theorem not_live (guarded : Guarded items blocks) : ¬ Live items p ↔ Inactive items p := by
  rw [guarded.sorted.live_iff]
  constructor
  · intro dead i found
    rw [← count_found found]
    rcases guarded.counts p with none | one
    · exact none
    · exact absurd (by omega) dead
  · intro inactive live
    cases found : find items p with
    | none => simp [count, found] at live
    | some i =>
        have none := inactive i found
        rw [count_found found] at live
        omega

theorem active_one (guarded : Guarded items blocks) (found : find items ptr = some i)
    (active : i.cnt ≠ 0) : count items ptr = 1 := by
  rcases guarded.counts ptr with none | one
  · exact absurd ((count_found found).symm.trans none) active
  · exact one

/-- The allocator holds the block of an active entry. -/
theorem block (guarded : Guarded items blocks) (found : find items ptr = some i)
    (active : i.cnt ≠ 0) : ∃ held, blocks ptr = some held :=
  Option.ne_none_iff_exists'.mp (guarded.held ptr (guarded.active_one found active))

/-- A fresh block is not an active entry. -/
theorem fresh_zero (guarded : Guarded items blocks) (fresh : blocks res = none) :
    count items res = 0 := by
  rcases guarded.counts res with none | one
  · exact none
  · exact absurd fresh (guarded.held res one)

/-- The allocator may hold more blocks. -/
theorem widen (guarded : Guarded items blocks)
    (held : ∀ p, blocks p ≠ none → blocks' p ≠ none) : Guarded items blocks' where
  sorted := guarded.sorted
  counts := guarded.counts
  held p one := held p (guarded.held p one)

/-- A fresh block is recorded. -/
theorem record (guarded : Guarded items blocks) (size : UInt64)
    (fresh : res = 0 ∨ blocks res = none) (held : ∀ p, blocks p ≠ none → blocks' p ≠ none)
    (given : res ≠ 0 → blocks' res ≠ none) :
    Guarded (allocResult items res size) blocks' := by
  by_cases failed : res = 0
  · rw [allocResult, if_pos failed]
    exact guarded.widen held
  · rw [allocResult, if_neg failed]
    have zero := guarded.fresh_zero (fresh.resolve_left failed)
    constructor
    · exact guarded.sorted.alloc res size
    · intro p
      rw [count_alloc]
      by_cases here : p = res
      · subst here
        simp [zero]
      · simpa [here] using guarded.counts p
    · intro p one
      rw [count_alloc] at one
      by_cases here : p = res
      · exact here ▸ given failed
      · exact held p (guarded.held p (by simpa [here] using one))

/-- An active entry is given up. -/
theorem release (guarded : Guarded items blocks) (found : find items ptr = some i)
    (active : i.cnt ≠ 0) (held : ∀ p, p ≠ ptr → blocks p ≠ none → blocks' p ≠ none) :
    Guarded (dealloc items ptr) blocks' := by
  have one := guarded.active_one found active
  constructor
  · exact guarded.sorted.dealloc ptr
  · intro p
    rw [count_dealloc found]
    by_cases here : p = ptr
    · subst here
      simp [one]
    · simpa [here] using guarded.counts p
  · intro p still
    rw [count_dealloc found] at still
    by_cases here : p = ptr
    · subst here
      simp [one] at still
    · exact held p here (guarded.held p (by simpa [here] using still))

/-- An active entry and its block are given up. -/
theorem drop (guarded : Guarded items blocks) (found : find items ptr = some i)
    (active : i.cnt ≠ 0) : Guarded (dealloc items ptr) (Function.update blocks ptr none) :=
  guarded.release found active fun _ other held => update_none_held other held

/-- The old address and fresh ones are fresh once the block is given up. -/
theorem fresh_drop (fresh : res = 0 ∨ res = ptr ∨ blocks res = none) :
    res = 0 ∨ Function.update blocks ptr none res = none := by
  by_cases same : res = ptr
  · subst same
    exact .inr (Function.update_self ..)
  · rcases fresh with failed | here | new
    · exact .inl failed
    · exact absurd here same
    · exact .inr ((Function.update_of_ne same ..).trans new)

end Entries

section Calls

variable {w w' : Shielded} {call : Call} {ptr res : Nat} {size : UInt64} {i : Item}

theorem malloc (taken : pass w (.malloc size, res) = some w') :
    Outcome w w' (.malloc size) res := by
  obtain ⟨answers, rfl⟩ := pass_passed taken rfl rfl
  exact .recorded rfl rfl rfl answers (fun _ held => settle_held held) settle_given

theorem calloc {nmemb : UInt64} (taken : pass w (.calloc nmemb size, res) = some w') :
    Outcome w w' (.calloc nmemb size) res := by
  obtain ⟨answers, rfl⟩ := pass_passed taken rfl rfl
  exact .recorded rfl rfl rfl answers (fun _ held => settle_held held) settle_given

/-- A fault changes only the log. -/
theorem free (taken : pass w (.free ptr, res) = some w') : Outcome w w' (.free ptr) res := by
  rcases w.tracer.free_cases ptr with ⟨-, branch⟩ | ⟨-, -, fault, -, branch⟩ |
    ⟨i, -, found, active, branch⟩
  · obtain rfl := pass_kept taken branch rfl
    exact .kept rfl rfl rfl fun _ held => held
  · obtain rfl := pass_kept taken branch rfl
    exact .kept rfl rfl rfl fun _ held => held
  · obtain ⟨-, rfl⟩ := pass_passed taken branch rfl
    exact .released ptr i found active rfl rfl rfl fun _ other held => update_none_held other held

/-- `realloc` of `NULL` or of an address that is not active asks for a new
block. -/
theorem realloc_new (taken : pass w (.realloc ptr size, res) = some w')
    (branch : w.tracer.realloc ptr size = w.tracer.reallocNull size ∨
      ∃ fault, w.tracer.realloc ptr size = w.tracer.reallocUnknown ptr size fault) :
    Outcome w w' (.realloc ptr size) res := by
  rcases branch with branch | ⟨fault, branch⟩
  · obtain ⟨answers, rfl⟩ := pass_passed taken branch rfl
    simp only [Conforms, if_true] at answers
    by_cases positive : size > 0
    · exact .recorded (if_pos positive) rfl rfl answers (fun _ held => settle_held held)
        settle_given
    · have zero : size = 0 := by
        rw [← UInt64.toNat_inj]
        exact Nat.eq_zero_of_not_pos positive
      subst zero
      exact .kept (by simp [Tracer.reallocNull]) (by simp [Tracer.reallocNull]) rfl
        fun _ held => settle_held held
  · obtain ⟨answers, rfl⟩ := pass_passed taken branch rfl
    simp only [Conforms, if_true] at answers
    exact .recorded rfl rfl rfl answers (fun _ held => settle_held held) settle_given

/-- `realloc` of an active entry. -/
theorem realloc_active (guarded : Guarded w.tracer.items w.blocks)
    (stays : StaysPut w (.realloc ptr size, res))
    (block : ptr ≠ 0) (found : find w.tracer.items ptr = some i) (active : i.cnt ≠ 0)
    (branch : size = 0 ∧ w.tracer.realloc ptr size = w.tracer.reallocZero ptr i ∨
      size ≠ 0 ∧ size ≤ i.size ∧ w.tracer.realloc ptr size = w.tracer.reallocShrink ptr size ∨
      size ≠ 0 ∧ w.tracer.realloc ptr size = w.tracer.reallocGrow ptr size i)
    (taken : pass w (.realloc ptr size, res) = some w') :
    Outcome w w' (.realloc ptr size) res := by
  obtain ⟨held, holds⟩ := guarded.block found active
  rcases branch with ⟨rfl, branch⟩ | ⟨sized, fits, branch⟩ | ⟨sized, branch⟩
  · obtain ⟨-, rfl⟩ := pass_passed taken branch rfl
    refine .released ptr i found active rfl rfl rfl fun p other kept => ?_
    simp only [blocksAfter, if_neg block, if_true]
    exact update_none_held other kept
  · obtain ⟨answers, rfl⟩ := pass_passed taken branch rfl
    simp only [Conforms, if_neg block, if_neg sized] at answers
    have unmoved : res = 0 ∨ res = ptr := by
      rcases answers held holds with failed | same | ⟨small, -⟩
      · exact .inl failed
      · exact .inr same
      · exact stays block sized i found active fits held holds small
    refine .kept rfl rfl rfl fun p kept => ?_
    simp only [blocksAfter, if_neg block, if_neg sized]
    rcases unmoved with rfl | rfl
    · exact kept
    · rw [if_neg block, Function.update_idem]
      exact update_some_held kept
  · obtain ⟨answers, rfl⟩ := pass_passed taken branch rfl
    simp only [Conforms, if_neg block, if_neg sized] at answers
    have fresh : res = 0 ∨ res = ptr ∨ w.blocks res = none := by
      rcases answers held holds with failed | same | ⟨-, new⟩
      · exact .inl failed
      · exact .inr (.inl same)
      · exact .inr (.inr new)
    refine .regrown ptr i found active rfl rfl rfl fresh (fun p other kept => ?_) fun given => ?_
    · simp only [blocksAfter, if_neg block, if_neg sized]
      split
      · exact kept
      · exact update_some_held (update_none_held other kept)
    · simp [blocksAfter, block, sized, given]

/-- What a call does while the active entries are held. -/
theorem outcome (guarded : Guarded w.tracer.items w.blocks)
    (stays : StaysPut w (call, res)) (taken : pass w (call, res) = some w') :
    Outcome w w' call res := by
  cases call with
  | malloc size => exact malloc taken
  | calloc nmemb size => exact calloc taken
  | free ptr => exact free taken
  | realloc ptr size =>
      rcases w.tracer.realloc_cases ptr size with ⟨-, branch⟩ | ⟨-, -, fault, -, branch⟩ |
        ⟨i, block, found, active, branch⟩
      · exact realloc_new taken (.inl branch)
      · exact realloc_new taken (.inr ⟨fault, branch⟩)
      · exact guarded.realloc_active stays block found active branch taken

/-- After a call the counts are 0 or 1, and the active entries are held. -/
theorem after (guarded : Guarded w.tracer.items w.blocks) (outcome : Outcome w w' call res) :
    Guarded w'.tracer.items w'.blocks := by
  cases outcome with
  | kept items allocated freed held =>
      rw [items]
      exact guarded.widen held
  | recorded items allocated freed fresh held given =>
      rw [items]
      exact guarded.record _ fresh held given
  | released ptr i found active items allocated freed held =>
      rw [items]
      exact guarded.release found active held
  | regrown ptr i found active items allocated freed fresh held given =>
      rw [items]
      refine (guarded.drop found active).record _ (fresh_drop fresh) ?_ given
      intro p kept
      by_cases here : p = ptr
      · subst here
        exact absurd (Function.update_self ..) kept
      · rw [Function.update_of_ne here] at kept
        exact held p here kept

/-- Every call keeps the active entries held, while moves are recorded. -/
theorem keeps {e : Call × Nat} (guarded : Guarded w.tracer.items w.blocks) (stays : StaysPut w e)
    (taken : shielding.step w e w') : Guarded w'.tracer.items w'.blocks :=
  guarded.after (guarded.outcome stays taken)

/-! ## Requests and faults -/

/-- What is handed to the underlying `free` or `realloc` is held. -/
theorem passed (guarded : Guarded w.tracer.items w.blocks) (call : Call) {request : Request}
    (called : (intercept w.tracer call).request = some request) (handed : request.handed = some ptr)
    (block : ptr ≠ 0) : w.blocks ptr ≠ none := by
  cases call with
  | malloc size =>
      cases called
      cases handed
  | calloc nmemb size =>
      cases called
      cases handed
  | free p =>
      rcases w.tracer.free_cases p with ⟨-, branch⟩ | ⟨-, -, fault, -, branch⟩ |
        ⟨i, -, found, positive, branch⟩
      · simp [intercept, branch] at called
      · simp [intercept, branch] at called
      · simp only [intercept, branch] at called
        cases called
        cases handed
        exact guarded.held ptr (guarded.active_one found positive)
  | realloc p size =>
      rcases w.tracer.realloc_cases p size with ⟨-, branch⟩ | ⟨-, -, fault, -, branch⟩ |
        ⟨i, -, found, positive, ⟨-, branch⟩ | ⟨-, -, branch⟩ | ⟨-, branch⟩⟩
      · simp only [intercept, branch] at called
        cases called
        cases handed
        exact absurd rfl block
      · simp only [intercept, branch] at called
        cases called
        cases handed
        exact absurd rfl block
      all_goals
        simp only [intercept, branch] at called
        cases called
        cases handed
        exact guarded.held ptr (guarded.active_one found positive)

/-- A fault is logged for an address without an active entry. -/
theorem logged (guarded : Guarded w.tracer.items w.blocks) (call : Call)
    (handed : call.handed = some ptr) (block : ptr ≠ 0) (dead : ¬ Live w.tracer.items ptr) :
    ∃ line fault, Fault fault ∧
      ((intercept w.tracer call).finish res).log = w.tracer.log ++ [line, fault] := by
  have inactive := guarded.not_live.mp dead
  cases call with
  | malloc size => cases handed
  | calloc nmemb size => cases handed
  | free p =>
      cases handed
      rcases w.tracer.free_cases ptr with ⟨null, -⟩ | ⟨-, -, fault, isFault, branch⟩ |
        ⟨i, -, found, active, -⟩
      · exact absurd null block
      · exact ⟨.free ptr, fault, isFault, by simp [intercept, branch]⟩
      · exact absurd (inactive i found) active
  | realloc p size =>
      cases handed
      rcases w.tracer.realloc_cases ptr size with ⟨null, -⟩ | ⟨-, -, fault, isFault, branch⟩ |
        ⟨i, -, found, active, -⟩
      · exact absurd null block
      · refine ⟨.realloc ptr size res, fault, isFault, ?_⟩
        simp [intercept, branch, Tracer.reallocUnknown]
      · exact absurd (inactive i found) active

theorem shields {e : Call × Nat} (guarded : Guarded w.tracer.items w.blocks) : Shields w e where
  passed _ called _ handed block := guarded.passed e.1 called handed block
  logged _ handed block dead := guarded.logged e.1 handed block dead

end Calls

end Guarded

/-- In every run in which no `realloc` that the tracer takes for a shrink moves
its block, the allocator holds what it is handed, and a fault is logged for
every address that is not an active entry. -/
theorem shields_run {past : List (Shielded × (Call × Nat))} {w : Shielded}
    (run : shielding.Run past w) (stays : AllSteps StaysPut past) : AllSteps Shields past := by
  suffices inv : Guarded w.tracer.items w.blocks ∧ AllSteps Shields past from inv.2
  induction run with
  | start initial =>
      constructor
      · rw [initial]
        exact .empty _
      · exact fun _ member => nomatch member
  | next before taken ih =>
      obtain ⟨guarded, earlier⟩ := ih fun b member => stays b (List.mem_cons_of_mem _ member)
      constructor
      · exact guarded.keeps (stays _ List.mem_cons_self) taken
      · intro b member
        rcases List.mem_cons.mp member with rfl | old
        · exact guarded.shields
        · exact earlier b old

/-- The tracer over an allocator that holds nothing. -/
def unshielded : Shielded := ⟨loaded.tracer, fun _ => none⟩

/-- A block shrinks in place, moves as it grows, is freed twice and resized at
its old address. -/
def freedTwice : List (Call × Nat) :=
  [(.malloc 100, 16), (.realloc 16 50, 16), (.realloc 16 200, 48), (.free 48, 0), (.free 48, 0),
    (.realloc 16 8, 64)]

theorem shields_run_freedTwice :
    AllSteps Shields (record pass [] unshielded freedTwice).1 :=
  shields_run (Run.of_record (.start rfl) (fun _ _ _ taken => taken) _)
    (by unfold AllSteps; decide +kernel)

/-- A block shrinks in place, grows within the recorded size, moves, and is
freed at its old address. -/
def movedWithinSize : List (Call × Nat) :=
  [(.malloc 100, 16), (.realloc 16 50, 16), (.realloc 16 80, 48), (.free 16, 0)]

/-- The allocator is handed an address that it does not hold. -/
theorem dead_block_freed : ¬ ∀ past w, shielding.Run past w → AllSteps Shields past := by
  intro claimed
  have run : shielding.Run _ _ :=
    Run.of_record (.start (s := unshielded) rfl) (fun _ _ _ taken => taken) movedWithinSize
  have first := claimed _ _ run _ List.mem_cons_self
  exact first.passed (.free 16) rfl 16 rfl (by decide) (by decide +kernel)

end SysProg.Memtrace

import Mathlib.Tactic.ByContra
import SysProg.Logic.Buffers

/-!
# C strings in arrays

A string of an array is the text from an address up to the first terminator.
Every access outside the array fails.
-/

namespace SysProg.Logic

/-! ## Accesses -/

section Accesses

variable {α : Type} {n : Nat}

def store (v : Vector α n) (p : Nat) (x : α) : Option (Vector α n) :=
  if inside : p < n then some (v.set p x) else none

/-- `while (go(*p)) p++;`, cut off after `fuel` rounds. -/
def advance (v : Vector α n) (go : α → Bool) : Nat → Nat → Option Nat
  | 0, _ => none
  | fuel + 1, p =>
      match v[p]? with
      | none => none
      | some x => if go x then advance v go fuel (p + 1) else some p

/-- `while (go(*p)) p++;`, which leaves the array after `n` rounds at the latest. -/
def scanFrom (v : Vector α n) (go : α → Bool) (p : Nat) : Option Nat := advance v go n p

def strlen (v : Vector UInt8 n) (p : Nat) : Option Nat :=
  (scanFrom v (fun c => c ≠ 0) p).map (· - p)

/-- `strchr`, for a character that is not the terminator. -/
def strchr (v : Vector UInt8 n) (p : Nat) (c : UInt8) : Option (Option Nat) :=
  (scanFrom v (fun d => d ≠ c && d ≠ 0) p).map fun q => if v[q]? = some c then some q else none

/-- `strcpy` of a string to the start of an array. -/
def strcpy (v : Vector UInt8 n) (text : List UInt8) : Option (Vector UInt8 n) :=
  memcpy v 0 (filled (text.length + 1) text) (text.length + 1)

variable {v v' : Vector α n} {p q : Nat} {x : α}

theorem store_eq (inside : p < n) : store v p x = some (v.set p x inside) := dif_pos inside

theorem store_getElem? (stored : store v p x = some v') (q : Nat) :
    v'[q]? = if q = p then some x else v[q]? := by
  unfold store at stored
  split at stored
  · rename_i inside
    obtain rfl := Option.some.inj stored
    rw [Vector.getElem?_set]
    simp only [eq_comm]
  · cases stored

end Accesses

/-- The text is the string of the array at `p`. -/
structure StringAt {n : Nat} (v : Vector UInt8 n) (p : Nat) (text : List UInt8) : Prop where
  clear : 0 ∉ text
  bytes : ∀ i, i ≤ text.length → v[p + i]? = some (text.getD i 0)

section Strings

variable {n : Nat} {v v' : Vector UInt8 n} {p q : Nat} {c : UInt8}
  {text front back : List UInt8}

/-- A string ends inside the array. -/
theorem StringAt.inside (string : StringAt v p text) : p + text.length < n := by
  have terminator := string.bytes text.length (Nat.le_refl _)
  by_contra outside
  rw [Vector.getElem?_eq_none (Nat.le_of_not_lt outside)] at terminator
  cases terminator

/-- The end of a string is a string. -/
theorem StringAt.drop (string : StringAt v p (front ++ back)) :
    StringAt v (p + front.length) back := by
  refine ⟨fun member => string.clear (List.mem_append_right _ member), fun i inside => ?_⟩
  have byte := string.bytes (front.length + i) (by rw [List.length_append]; omega)
  rw [List.getD_append_right _ _ _ _ (Nat.le_add_right _ _), Nat.add_sub_cancel_left,
    ← Nat.add_assoc] at byte
  exact byte

/-- A terminator behind some characters of a string splits it. -/
theorem StringAt.split (string : StringAt v p (front ++ c :: back))
    (stored : store v (p + front.length) 0 = some v') :
    StringAt v' p front ∧ StringAt v' (p + front.length + 1) back := by
  have later : StringAt v (p + front.length + 1) back := by
    have whole : StringAt v p ((front ++ [c]) ++ back) := by simpa using string
    have rest := whole.drop
    rwa [List.length_append, List.length_singleton, ← Nat.add_assoc] at rest
  refine ⟨⟨fun member => string.clear (List.mem_append_left _ member), ?_⟩, later.clear, ?_⟩
  · intro i inside
    rw [store_getElem? stored]
    rcases Nat.lt_or_eq_of_le inside with before | rfl
    · rw [if_neg (by omega), string.bytes i (by rw [List.length_append]; omega),
        List.getD_append _ _ _ _ before]
    · rw [if_pos rfl, List.getD_eq_default _ _ (Nat.le_refl _)]
  · intro i inside
    rw [store_getElem? stored, if_neg (by omega)]
    exact later.bytes i inside

/-- Another character in a string. -/
theorem StringAt.replace {d : UInt8} (string : StringAt v p (front ++ c :: back))
    (stored : store v (p + front.length) d = some v') (notNul : d ≠ 0) :
    StringAt v' p (front ++ d :: back) := by
  refine ⟨?_, fun i inside => ?_⟩
  · intro member
    rcases List.mem_append.mp member with left | right
    · exact string.clear (List.mem_append_left _ left)
    · rcases List.mem_cons.mp right with same | later
      · exact notNul same.symm
      · exact string.clear (List.mem_append_right _ (List.mem_cons_of_mem _ later))
  · have old := string.bytes i (by simpa using inside)
    rw [store_getElem? stored]
    rcases Nat.lt_trichotomy i front.length with before | rfl | behind
    · rw [if_neg (by omega), old, List.getD_append _ _ _ _ before,
        List.getD_append _ _ _ _ before]
    · rw [if_pos rfl, List.getD_append_right _ _ _ _ (Nat.le_refl _), Nat.sub_self,
        List.getD_cons_zero]
    · obtain ⟨k, rfl⟩ := Nat.exists_eq_add_of_lt behind
      rw [if_neg (by omega), old, List.getD_append_right _ _ _ _ (by omega),
        List.getD_append_right _ _ _ _ (by omega)]
      simp [Nat.add_assoc]

/-- A character stored behind a string leaves the string. -/
theorem StringAt.frame (string : StringAt v p text) (stored : store v q c = some v')
    (behind : p + text.length < q) : StringAt v' p text := by
  refine ⟨string.clear, fun i inside => ?_⟩
  rw [store_getElem? stored, if_neg (by omega)]
  exact string.bytes i inside

theorem StringAt.advance_eq {go : UInt8 → Bool} {fuel : Nat}
    (string : StringAt v p (front ++ back)) (passes : ∀ d ∈ front, go d = true)
    (stops : go (back.getD 0 0) = false) (enough : front.length < fuel) :
    advance v go fuel p = some (p + front.length) := by
  induction front generalizing p fuel with
  | nil =>
      cases fuel with
      | zero => exact absurd enough (Nat.not_lt_zero _)
      | succ fuel =>
          have first := string.bytes 0 (Nat.zero_le _)
          rw [List.nil_append, Nat.add_zero] at first
          simp only [advance, first, stops, Bool.false_eq_true, if_false, List.length_nil,
            Nat.add_zero]
  | cons d front ih =>
      cases fuel with
      | zero => exact absurd enough (Nat.not_lt_zero _)
      | succ fuel =>
          have first := string.bytes 0 (Nat.zero_le _)
          have whole : StringAt v p ([d] ++ (front ++ back)) := string
          have next : StringAt v (p + 1) (front ++ back) := whole.drop
          rw [List.cons_append, List.getD_cons_zero, Nat.add_zero] at first
          have rest := ih next (fun e member => passes e (List.mem_cons_of_mem _ member))
            (Nat.lt_of_succ_lt_succ enough)
          simp only [advance, first, passes d List.mem_cons_self, if_true, rest,
            List.length_cons]
          congr 1
          omega

/-- A scan stops at the first character of a string that does not pass. -/
theorem StringAt.scanFrom_eq {go : UInt8 → Bool} (string : StringAt v p (front ++ back))
    (passes : ∀ d ∈ front, go d = true) (stops : go (back.getD 0 0) = false) :
    scanFrom v go p = some (p + front.length) := by
  have inside := string.inside
  rw [List.length_append] at inside
  exact string.advance_eq passes stops (by omega)

theorem StringAt.strlen_eq (string : StringAt v p text) : strlen v p = some text.length := by
  have whole : StringAt v p (text ++ []) := by rwa [List.append_nil]
  have found : scanFrom v (fun c => c ≠ 0) p = some (p + text.length) := by
    refine whole.scanFrom_eq ?_ rfl
    intro d member
    have notNul : d ≠ 0 := by
      rintro rfl
      exact string.clear member
    simpa using notNul
  rw [strlen, found, Option.map_some, Nat.add_sub_cancel_left]

theorem passes_of_absent (clear : 0 ∉ text) (absent : c ∉ text) :
    ∀ d ∈ text, (d ≠ c && d ≠ 0) = true := by
  intro d member
  have notNul : d ≠ 0 := fun same => clear (same ▸ member)
  have other : d ≠ c := fun same => absent (same ▸ member)
  simp [notNul, other]

theorem StringAt.strchr_eq (string : StringAt v p (front ++ c :: back)) (absent : c ∉ front) :
    strchr v p c = some (some (p + front.length)) := by
  have found : scanFrom v (fun d => d ≠ c && d ≠ 0) p = some (p + front.length) := by
    refine string.scanFrom_eq (passes_of_absent ?_ absent) (by simp)
    exact fun member => string.clear (List.mem_append_left _ member)
  have here := string.drop.bytes 0 (Nat.zero_le _)
  rw [Nat.add_zero, List.getD_cons_zero] at here
  rw [strchr, found, Option.map_some, if_pos here]

theorem StringAt.strchr_null (string : StringAt v p text) (absent : c ∉ text) (notNul : c ≠ 0) :
    strchr v p c = some none := by
  have whole : StringAt v p (text ++ []) := by rwa [List.append_nil]
  have found : scanFrom v (fun d => d ≠ c && d ≠ 0) p = some (p + text.length) :=
    whole.scanFrom_eq (passes_of_absent string.clear absent) (by simp)
  have terminator := string.bytes text.length (Nat.le_refl _)
  rw [List.getD_eq_default _ _ (Nat.le_refl _)] at terminator
  rw [strchr, found, Option.map_some, terminator, if_neg (by simpa using notNul.symm)]

theorem strcpy_string (v : Vector UInt8 n) (clear : 0 ∉ text) (fits : text.length < n) :
    ∃ v', strcpy v text = some v' ∧ StringAt v' 0 text := by
  refine ⟨_, if_pos ⟨by omega, Nat.le_refl _⟩, clear, fun i inside => ?_⟩
  rw [Nat.zero_add i, Vector.getElem?_eq_getElem (by omega), Vector.getElem_ofFn,
    if_pos ⟨Nat.zero_le _, by dsimp only; omega⟩, Nat.sub_zero, filled_getD (by dsimp only; omega)]

end Strings

end SysProg.Logic

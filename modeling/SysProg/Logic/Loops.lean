import Mathlib.Data.List.Nodup
import Mathlib.Data.List.Range
import SysProg.Logic.StateOption

/-!
# Counting loops over a store

A counting loop runs its body once for each value of its counter.  Where every
round writes the same values into the cells it owns and reads only cells that
no other round writes, the loop writes them all, and the order of the rounds
does not matter.
-/

namespace SysProg.Logic

/-- The values of the counter in `for (i = lo; i < hi; i += step)`. -/
def counters (lo hi step : Nat) : List Nat := List.range' lo ((hi - lo + step - 1) / step) step

theorem mem_counters {lo hi step i : Nat} (positive : 0 < step) :
    i ∈ counters lo hi step ↔ lo ≤ i ∧ i < hi ∧ step ∣ i - lo := by
  rw [counters, List.mem_range']
  constructor
  · rintro ⟨k, below, rfl⟩
    have bound : k * step < hi - lo + step - 1 := by
      have whole := Nat.mul_le_of_le_div _ _ _ (Nat.le_of_lt_succ (Nat.lt_succ_of_lt below))
      have next := (Nat.le_div_iff_mul_le positive).mp (Nat.succ_le_of_lt below)
      rw [Nat.succ_mul] at next
      omega
    have next := (Nat.le_div_iff_mul_le positive).mp (Nat.succ_le_of_lt below)
    rw [Nat.succ_mul, Nat.mul_comm k step] at next
    refine ⟨Nat.le_add_right _ _, by omega, ?_⟩
    rw [Nat.add_sub_cancel_left]
    exact Nat.dvd_mul_right _ _
  · rintro ⟨lower, upper, k, multiple⟩
    refine ⟨k, ?_, by omega⟩
    rw [Nat.lt_iff_add_one_le, Nat.le_div_iff_mul_le positive, Nat.succ_mul, Nat.mul_comm k step]
    omega

@[simp] theorem mem_counters_one {lo hi i : Nat} : i ∈ counters lo hi 1 ↔ lo ≤ i ∧ i < hi := by
  rw [mem_counters Nat.one_pos]
  simp

theorem counters_nodup {lo hi step : Nat} (positive : 0 < step) : (counters lo hi step).Nodup :=
  List.nodup_range' step positive

/-- In a sorted list, taking while a condition that fails from some point on
holds, filters. -/
theorem mem_takeWhile_sorted {l : List Nat} (sorted : l.Pairwise (· < ·)) {p : Nat → Bool}
    (down : ∀ i j, i < j → p j = true → p i = true) {i : Nat} :
    i ∈ l.takeWhile p ↔ i ∈ l ∧ p i = true := by
  induction l with
  | nil => simp
  | cons j l ih =>
      obtain ⟨least, sorted⟩ := List.pairwise_cons.mp sorted
      rw [List.takeWhile_cons, List.mem_cons]
      by_cases holds : p j = true
      · rw [if_pos holds, List.mem_cons, ih sorted]
        constructor
        · rintro (rfl | ⟨member, later⟩)
          · exact ⟨.inl rfl, holds⟩
          · exact ⟨.inr member, later⟩
        · rintro ⟨rfl | member, later⟩
          · exact .inl rfl
          · exact .inr ⟨member, later⟩
      · rw [if_neg holds]
        constructor
        · exact fun member => nomatch member
        · rintro ⟨rfl | member, later⟩
          · exact absurd later holds
          · exact absurd (down j i (least i member) later) holds

theorem counters_sorted {lo hi step : Nat} (positive : 0 < step) :
    (counters lo hi step).Pairwise (· < ·) :=
  List.pairwise_lt_range' step positive

/-- A loop whose rounds hand on the store only. -/
def forEach {σ ι : Type} (l : List ι) (body : ι → Prog σ Unit) : Prog σ Unit :=
  l.foldlM (fun _ i => body i) ()

section Fold

variable {σ β ι : Type} {f : β → ι → Prog σ β} {l : List ι} {b : β} {s : σ}

/-- What holds before the first round, and after a round with the counters up to
its own, holds after the loop. -/
theorem wp_foldlM {I : List ι → β → σ → Prop} (start : I [] b s)
    (round : ∀ before i after, l = before ++ i :: after → ∀ b s, I before b s →
      wp (f b i) (I (before ++ [i])) s) : wp (l.foldlM f b) (I l) s := by
  suffices rest : ∀ after before b s, l = before ++ after → I before b s →
      wp (after.foldlM f b) (I l) s from rest l [] b s rfl start
  intro after
  induction after with
  | nil =>
      intro before b s split holds
      rw [List.append_nil] at split
      simpa [split] using holds
  | cons i after ih =>
      intro before b s split holds
      rw [List.foldlM_cons, wp_bind]
      refine wp_mono (round before i after split b s holds) fun b' s' kept => ?_
      exact ih (before ++ [i]) b' s' (by simp [split]) kept

/-- In a loop that ends every round ends. -/
theorem exists_round {post : β → σ → Prop} {i : ι} (ends : wp (l.foldlM f b) post s)
    (member : i ∈ l) : ∃ b' s', wp (f b' i) (fun _ _ => True) s' := by
  induction l generalizing b s with
  | nil => cases member
  | cons j l ih =>
      rw [List.foldlM_cons, wp_bind] at ends
      obtain ⟨⟨b', s'⟩, run, later⟩ := ends
      rcases List.mem_cons.mp member with rfl | inside
      · exact ⟨b, s, _, run, trivial⟩
      · exact ih later inside

end Fold

/-! ## Overwritten cells -/

/-- The cells of the part hold the values, the others are as before. -/
structure Overwrites {X V : Type} (part : X → Prop) (value : X → V) (s s' : X → V) : Prop where
  inside : ∀ x, part x → s' x = value x
  outside : ∀ x, ¬ part x → s' x = s x

namespace Overwrites

variable {X V : Type} {part part' : X → Prop} {value value' : X → V} {s s' s'' : X → V}

theorem nothing (none : ∀ x, ¬ part x) : Overwrites part value s s :=
  ⟨fun x member => absurd member (none x), fun _ _ => rfl⟩

theorem update [DecidableEq X] (s : X → V) {x : X} {v : V} (same : v = value x) :
    Overwrites (· = x) value s (Function.update s x v) where
  inside := by
    rintro _ rfl
    rw [Function.update_self, same]
  outside y other := Function.update_of_ne other _ _

/-- Two cells that exchange their contents. -/
theorem exchange [DecidableEq X] (s : X → V) {x y : X} (left : value x = s y)
    (right : value y = s x) : Overwrites (fun z => z = x ∨ z = y) value s
      (Function.update (Function.update s x (s y)) y (s x)) where
  inside := by
    rintro z (rfl | rfl)
    · rw [left, Function.update_apply, Function.update_self]
      split
      · rename_i same
        rw [same]
      · rfl
    · rw [Function.update_self, right]
  outside z other := by
    rw [not_or] at other
    rw [Function.update_of_ne other.2, Function.update_of_ne other.1]

theorem congr (written : Overwrites part value s s') (same : ∀ x, part' x ↔ part x)
    (values : ∀ x, part x → value' x = value x) : Overwrites part' value' s s' where
  inside x member :=
    (written.inside x ((same x).mp member)).trans (values x ((same x).mp member)).symm
  outside x other := written.outside x (mt (same x).mpr other)

/-- One after the other. -/
theorem trans (first : Overwrites part value s s') (second : Overwrites part' value s' s'') :
    Overwrites (fun x => part x ∨ part' x) value s s'' where
  inside x member := by
    by_cases later : part' x
    · exact second.inside x later
    · rw [second.outside x later]
      exact first.inside x (member.resolve_right later)
  outside x other := by
    rw [second.outside x fun later => other (.inr later)]
    exact first.outside x fun earlier => other (.inl earlier)

/-- One more of some numbered cells. -/
theorem next [DecidableEq X] {cell : Nat → X} {n : Nat} {v : V}
    (written : Overwrites (fun x => ∃ k < n, x = cell k) value s s') (same : v = value (cell n)) :
    Overwrites (fun x => ∃ k < n + 1, x = cell k) value s (Function.update s' (cell n) v) := by
  refine (written.trans (.update s' same)).congr (fun x => ?_) fun _ _ => rfl
  constructor
  · rintro ⟨k, below, rfl⟩
    rcases Nat.lt_or_eq_of_le (Nat.le_of_lt_succ below) with earlier | rfl
    · exact .inl ⟨k, earlier, rfl⟩
    · exact .inr rfl
  · rintro (⟨k, below, rfl⟩ | rfl)
    · exact ⟨k, Nat.lt_succ_of_lt below, rfl⟩
    · exact ⟨n, Nat.lt_succ_self n, rfl⟩

theorem unique (written : Overwrites part value s s') (written' : Overwrites part value s s'') :
    s' = s'' := by
  funext x
  by_cases member : part x
  · rw [written.inside x member, written'.inside x member]
  · rw [written.outside x member, written'.outside x member]

end Overwrites

/-- A loop in which every round overwrites its own cells, as long as the cells
that no other round owns are as before the loop. -/
theorem wp_foldlM_overwrites {X V β ι : Type} {f : β → ι → Prog (X → V) β} {l : List ι} {b : β}
    {s : X → V} {part : ι → X → Prop} {value : X → V} (nodup : l.Nodup)
    (round : ∀ i ∈ l, ∀ b s', (∀ x, (∀ j ∈ l, j ≠ i → ¬ part j x) → s' x = s x) →
      wp (f b i) (fun _ s'' => Overwrites (part i) value s' s'') s') :
    wp (l.foldlM f b) (fun _ s' => Overwrites (fun x => ∃ i ∈ l, part i x) value s s') s := by
  refine wp_foldlM (I := fun before _ s' =>
    Overwrites (fun x => ∃ i ∈ before, part i x) value s s') ?_ ?_
  · exact .nothing fun x => by simp
  · intro before i after split b s' written
    have fresh : i ∉ before := by
      rw [split] at nodup
      intro member
      exact (List.nodup_append.mp nodup).2.2 i member i List.mem_cons_self rfl
    refine wp_mono (round i (by simp [split]) b s' ?_) fun _ s'' more => ?_
    · intro x others
      refine written.outside x ?_
      rintro ⟨j, member, owned⟩
      exact others j (by simp [split, member]) (fun same => fresh (same ▸ member)) owned
    · refine (written.trans more).congr (fun x => ?_) fun _ _ => rfl
      simp [or_and_right, exists_or]

/-- In a loop that ends every round ends. -/
theorem exists_forEach_round {σ ι : Type} {body : ι → Prog σ Unit} {l : List ι} {s : σ}
    {post : Unit → σ → Prop} {i : ι} (ends : wp (forEach l body) post s) (member : i ∈ l) :
    ∃ s', wp (body i) (fun _ _ => True) s' := by
  obtain ⟨-, s', round⟩ := exists_round ends member
  exact ⟨s', round⟩

section Nests

variable {X V ι κ : Type} {s : X → V} {value : X → V} {rows : List ι} {cols : ι → List κ}

theorem wp_forEach_overwrites {body : ι → Prog (X → V) Unit} {part : ι → X → Prop}
    (nodup : rows.Nodup)
    (round : ∀ i ∈ rows, ∀ s', (∀ x, (∀ j ∈ rows, j ≠ i → ¬ part j x) → s' x = s x) →
      wp (body i) (fun _ s'' => Overwrites (part i) value s' s'') s') :
    wp (forEach rows body) (fun _ s' => Overwrites (fun x => ∃ i ∈ rows, part i x) value s s') s :=
  wp_foldlM_overwrites nodup fun i member _ s' same => round i member s' same

/-- Two nested loops, in which each round of the inner one owns its cells. -/
theorem wp_nest_overwrites {body : ι → κ → Prog (X → V) Unit} {part : ι → κ → X → Prop}
    (nodup : rows.Nodup) (nodups : ∀ i ∈ rows, (cols i).Nodup)
    (round : ∀ i ∈ rows, ∀ j ∈ cols i, ∀ s',
      (∀ x, (∀ i' ∈ rows, ∀ j' ∈ cols i', part i' j' x → i' = i ∧ j' = j) → s' x = s x) →
      wp (body i j) (fun _ s'' => Overwrites (part i j) value s' s'') s') :
    wp (forEach rows fun i => forEach (cols i) (body i))
      (fun _ s' => Overwrites (fun x => ∃ i ∈ rows, ∃ j ∈ cols i, part i j x) value s s') s := by
  refine wp_forEach_overwrites nodup fun i member s' outer => ?_
  refine wp_forEach_overwrites (nodups i member) fun j inner s'' others => ?_
  refine round i member j inner s'' fun x owned => ?_
  rw [others x fun j' inside other part => other (owned i member j' inside part).2]
  refine outer x ?_
  rintro i' inside other ⟨j', inner', part⟩
  exact other (owned i' inside j' inner' part).1

end Nests

end SysProg.Logic

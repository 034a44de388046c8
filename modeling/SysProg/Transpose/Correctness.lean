import SysProg.Transpose.Blocks

/-!
# `transpose_submit` transposes

Every branch fills `B` block by block.  In the branch for 64 columns a block may
also write into the block to its right, which is filled later.
-/

namespace SysProg.Transpose

open Logic

/-! ## The branch for 64 columns -/

/-- The part of `B` is filled, and apart from it nothing has changed in front of
column `col`. -/
structure Fills {α : Type} (M N : Nat) (part : Cell → Prop) (col : Nat) (s s' : Matrices α) :
    Prop where
  own : ∀ x, part x → s' x = transposed s x
  rest : ∀ x, ¬ part x → ¬ Tile 0 col M (N - col) x → s' x = s x

section Strips

variable {M N nn mm col : Nat} {α : Type} {s s' s'' : Matrices α} {part part' : Cell → Prop}

theorem Fills.of_overwrites (written : Overwrites part (transposed s) s s') :
    Fills M N part col s s' :=
  ⟨written.inside, fun x other _ => written.outside x other⟩

theorem Fills.sameA (fills : Fills M N part col s s') (onlyB : ∀ row col, ¬ part (.A row col))
    (row c : Nat) : s' (.A row c) = s (.A row c) :=
  fills.rest _ (onlyB row c) id

/-- Only `A` counts for the transpose. -/
theorem transposed_congr (sameA : ∀ row col, s' (.A row col) = s (.A row col)) (x : Cell) :
    transposed s' x = transposed s x := by
  cases x with
  | A row col => exact sameA row col
  | B row col => exact sameA col row

/-- A part is filled after others, which it leaves alone. -/
theorem Fills.trans {col' : Nat} (first : Fills M N part col s s')
    (second : Fills M N part' col' s' s'')
    (onlyB : ∀ row c, ¬ part (.A row c))
    (before : ∀ x, part x → ¬ Tile 0 col' M (N - col') x)
    (behind : ∀ x, Tile 0 col' M (N - col') x → Tile 0 col M (N - col) x) :
    Fills M N (fun x => part x ∨ part' x) col s s'' where
  own x member := by
    by_cases later : part' x
    · rw [second.own x later, transposed_congr (first.sameA onlyB)]
    · have earlier := member.resolve_right later
      rw [second.rest x later (before x earlier), first.own x earlier]
  rest x other ahead := by
    rw [not_or] at other
    rw [second.rest x other.2 (mt (behind x) ahead), first.rest x other.1 ahead]

theorem Fills.congr (fills : Fills M N part col s s') (same : ∀ x, part' x ↔ part x) :
    Fills M N part' col s s' where
  own x member := fills.own x ((same x).mp member)
  rest x other := fills.rest x (mt (same x).mpr other)

/-- One block. -/
theorem wp_block64 (rowsIn : mm + 8 ≤ M) (colsIn : nn + 8 ≤ N) (whole : 8 ∣ nn) (wholeN : 8 ∣ N) :
    wp (block64 M N nn mm) (fun _ s' => Fills M N (Tile mm nn 8 8) (nn + 8) s s') s := by
  rw [block64, wp_ite]
  by_cases apart : nn ≠ mm
  · rw [if_pos apart]
    exact wp_mono (wp_offDiagonal rowsIn colsIn) fun _ _ written => .of_overwrites written
  · rw [if_neg apart, wp_ite]
    obtain rfl : nn = mm := not_not.mp apart
    by_cases inner : nn + 8 < N
    · rw [if_pos inner]
      refine wp_mono (wp_throughNext rowsIn (by omega)) ?_
      rintro _ s' ⟨s₁, next, written⟩
      refine ⟨written.inside, fun x other ahead => ?_⟩
      rw [written.outside x other, next.outside x]
      cases x with
      | A row col => exact id
      | B row col =>
          simp only [Tile] at ahead ⊢
          omega
    · rw [if_neg inner]
      exact wp_mono (wp_lastBlock rowsIn colsIn) fun _ _ written => .of_overwrites written

/-- The blocks of one strip of columns. -/
theorem wp_strip (wholeM : 8 ∣ M) (colsIn : nn + 8 ≤ N) (whole : 8 ∣ nn) (wholeN : 8 ∣ N) :
    wp (forEach (counters 0 M 8) fun mm => block64 M N nn mm)
      (fun _ s' => Fills M N (Tile 0 nn M 8) (nn + 8) s s') s := by
  have blocks : wp (forEach (counters 0 M 8) fun mm => block64 M N nn mm)
      (fun _ s' => Fills M N (fun x => ∃ mm ∈ counters 0 M 8, Tile mm nn 8 8 x) (nn + 8) s s')
      s := by
    refine wp_foldlM (I := fun before _ s' =>
      Fills M N (fun x => ∃ mm ∈ before, Tile mm nn 8 8 x) (nn + 8) s s') ?_ ?_
    · exact ⟨fun x member => by simp at member, fun _ _ _ => rfl⟩
    · intro before mm after split _ s' filled
      have member : mm ∈ counters 0 M 8 := by simp [split]
      rw [mem_counters (by decide)] at member
      refine wp_mono (wp_block64 (by omega) colsIn whole wholeN) fun _ s'' block => ?_
      refine (filled.trans block ?_ ?_ fun x => id).congr fun x => ?_
      · rintro row col ⟨_, -, tile⟩
        exact tile
      · rintro x ⟨_, -, tile⟩ ahead
        cases x with
        | A row col => exact tile
        | B row col =>
            simp only [Tile] at tile ahead
            omega
      · simp [or_and_right, exists_or]
  refine wp_mono blocks fun _ s' filled => filled.congr fun x => ?_
  cases x with
  | A row col => simp [Tile]
  | B row col =>
      simp only [Tile, mem_counters (show 0 < 8 by decide)]
      constructor
      · rintro ⟨-, below, lower, upper⟩
        exact ⟨row / 8 * 8, by omega, by omega⟩
      · rintro ⟨mm, ⟨-, inside, multiple⟩, tile⟩
        omega

/-- The strips from left to right. -/
theorem wp_transpose64 (wholeM : 8 ∣ M) (wholeN : 8 ∣ N) :
    wp (transpose64 M N) (fun _ s' => Overwrites (Tile 0 0 M N) (transposed s) s s') s := by
  have strips : wp (transpose64 M N)
      (fun _ s' => Fills M N (fun x => ∃ nn ∈ counters 0 N 8, Tile 0 nn M 8 x) 0 s s') s := by
    refine wp_foldlM (I := fun before _ s' =>
      Fills M N (fun x => ∃ nn ∈ before, Tile 0 nn M 8 x) 0 s s') ?_ ?_
    · exact ⟨fun x member => by simp at member, fun _ _ _ => rfl⟩
    · intro before nn after split _ s' filled
      have member : nn ∈ counters 0 N 8 := by simp [split]
      have sorted : (counters 0 N 8).Pairwise (· < ·) := counters_sorted (by decide)
      rw [split, List.pairwise_append] at sorted
      rw [mem_counters (by decide)] at member
      refine wp_mono (wp_strip wholeM (by omega) (by omega) wholeN) fun _ s'' strip => ?_
      refine (filled.trans strip ?_ ?_ ?_).congr fun x => ?_
      · rintro row col ⟨_, -, tile⟩
        exact tile
      · rintro x ⟨nn', earlier, tile⟩ ahead
        have less : nn' < nn := sorted.2.2 nn' earlier nn List.mem_cons_self
        cases x with
        | A row col => exact tile
        | B row col =>
            simp only [Tile] at tile ahead
            omega
      · intro x ahead
        cases x with
        | A row col => exact ahead
        | B row col =>
            simp only [Tile] at ahead ⊢
            omega
      · simp [or_and_right, exists_or]
  refine wp_mono strips fun _ s' filled => ?_
  have all : ∀ x, Tile 0 0 M N x ↔ ∃ nn ∈ counters 0 N 8, Tile 0 nn M 8 x := by
    intro x
    cases x with
    | A row col => simp [Tile]
    | B row col =>
        simp only [Tile, mem_counters (show 0 < 8 by decide)]
        constructor
        · rintro ⟨lower, upper, -, below⟩
          exact ⟨col / 8 * 8, by omega, by omega⟩
        · rintro ⟨nn, ⟨-, inside, multiple⟩, tile⟩
          omega
  refine ⟨fun x tile => filled.own x ((all x).mp tile), fun x other => ?_⟩
  exact filled.rest x (mt (all x).mpr other) (by simpa using other)

end Strips

/-! ## The branch for 32 columns -/

section Rows

variable {M N nn mm n : Nat} {α : Type} {s s' : Matrices α}

/-- A row of a block, with the entry on the diagonal stored last. -/
theorem wp_blockRow32 (rowsIn : mm + 8 ≤ M) (colsIn : nn + 8 ≤ N) (wholeM : 8 ∣ mm)
    (wholeN : 8 ∣ nn) (small : n < 8) (sameA : ∀ row col, s' (.A row col) = s (.A row col))
    (t : Diagonal α) :
    wp (blockRow32 M N nn mm t n) (fun _ s'' =>
      Overwrites (fun x => ∃ m ∈ counters 0 8 1, x = .B (mm + m) (nn + n)) (transposed s) s' s'')
      s' := by
  -- the entries off the diagonal are stored, the one on it is in the temporaries
  have row : wp ((counters 0 8 1).foldlM (copyOrKeep M N nn mm n) t) (fun t s'' =>
      Overwrites (fun x => ∃ m ∈ counters 0 8 1, nn + n ≠ mm + m ∧ x = .B (mm + m) (nn + n))
        (transposed s) s' s'' ∧
      ((∃ m ∈ counters 0 8 1, nn + n = mm + m) →
        t = some (nn + n, s (.A (nn + n) (nn + n))))) s' := by
    refine wp_foldlM (I := fun before t s'' =>
      Overwrites (fun x => ∃ m ∈ before, nn + n ≠ mm + m ∧ x = .B (mm + m) (nn + n))
        (transposed s) s' s'' ∧
      ((∃ m ∈ before, nn + n = mm + m) → t = some (nn + n, s (.A (nn + n) (nn + n))))) ?_ ?_
    · exact ⟨.nothing fun x => by simp, fun kept => by simp at kept⟩
    · rintro before m after split t s'' ⟨written, kept⟩
      have member : m ∈ counters 0 8 1 := by simp [split]
      have unchanged : ∀ row col, s'' (.A row col) = s (.A row col) := fun row col => by
        rw [written.outside _ (by simp), sameA]
      rw [mem_counters_one] at member
      rw [copyOrKeep, wp_ite]
      by_cases off : nn + n ≠ mm + m
      · rw [if_pos off, wp_bind, wp_assign, wp_pure]
        refine ⟨⟨by omega, by omega⟩, ⟨by omega, by omega⟩, ?_, ?_⟩
        · refine (written.trans (.update s'' (unchanged _ _))).congr (fun x => ?_) fun _ _ => rfl
          simp [or_and_right, exists_or, off]
        · rintro ⟨k, inside, on⟩
          rcases List.mem_append.mp inside with earlier | here
          · exact kept ⟨k, earlier, on⟩
          · exact absurd on (List.mem_singleton.mp here ▸ off)
      · rw [if_neg off, wp_bind, wp_load, wp_pure]
        refine ⟨⟨by omega, by omega⟩, ?_, fun _ => by rw [unchanged]⟩
        refine written.congr (fun x => ?_) fun _ _ => rfl
        simp [or_and_right, exists_or, off]
  rw [blockRow32, wp_bind]
  refine wp_mono row fun t s'' ⟨written, kept⟩ => ?_
  rw [wp_ite]
  by_cases diagonal : nn = mm
  · subst diagonal
    have on : n ∈ counters 0 8 1 := mem_counters_one.mpr ⟨Nat.zero_le _, small⟩
    rw [if_pos rfl, kept ⟨n, on, rfl⟩, wp_bind, storeDiagonal, wp_store, wp_pure]
    refine ⟨⟨by omega, by omega⟩, ?_⟩
    refine (written.trans (.update s'' rfl)).congr (fun x => ?_) fun _ _ => rfl
    constructor
    · rintro ⟨m, member, rfl⟩
      by_cases same : n = m
      · exact .inr (by rw [same])
      · exact .inl ⟨m, member, by omega, rfl⟩
    · rintro (⟨m, member, -, rfl⟩ | rfl)
      · exact ⟨m, member, rfl⟩
      · exact ⟨n, on, rfl⟩
  · rw [if_neg diagonal, wp_pure]
    refine written.congr (fun x => ?_) fun _ _ => rfl
    constructor
    · rintro ⟨m, member, rfl⟩
      rw [mem_counters_one] at member
      exact ⟨m, mem_counters_one.mpr member, by omega, rfl⟩
    · rintro ⟨m, member, -, rfl⟩
      exact ⟨m, member, rfl⟩

/-- All blocks, in any order. -/
theorem wp_transpose32 (wholeM : 8 ∣ M) (wholeN : 8 ∣ N) :
    wp (transpose32 M N) (fun _ s' => Overwrites (Tile 0 0 M N) (transposed s) s s') s := by
  rw [transpose32, wp_bind]
  have blocks : wp ((counters 0 N 8).foldlM (fun t nn => (counters 0 M 8).foldlM (fun t mm =>
        (counters 0 8 1).foldlM (blockRow32 M N nn mm) t) t) (none : Diagonal α))
      (fun _ s' => Overwrites (fun x => ∃ nn ∈ counters 0 N 8, ∃ mm ∈ counters 0 M 8,
        ∃ n ∈ counters 0 8 1, ∃ m ∈ counters 0 8 1, x = .B (mm + m) (nn + n))
        (transposed s) s s') s := by
    refine wp_foldlM_overwrites (counters_nodup (by decide)) fun nn col t s₁ outer => ?_
    refine wp_foldlM_overwrites (counters_nodup (by decide)) fun mm row t s₂ middle => ?_
    refine wp_foldlM_overwrites (counters_nodup (by decide)) fun n small t s₃ inner => ?_
    rw [mem_counters (by decide)] at row col
    refine wp_blockRow32 (by omega) (by omega) (by omega) (by omega)
      (mem_counters_one.mp small).2 (fun r c => ?_) t
    rw [inner _ fun _ _ _ => by simp, middle _ fun _ _ _ => by simp, outer _ fun _ _ _ => by simp]
  refine wp_mono blocks fun _ s' written => ?_
  rw [wp_pure]
  refine written.congr (fun x => ?_) fun _ _ => rfl
  simp only [tile_iff, Nat.zero_add, mem_counters_one, mem_counters (show 0 < 8 by decide)]
  constructor
  · rintro ⟨row, below, col, right, rfl⟩
    exact ⟨col / 8 * 8, by omega, row / 8 * 8, by omega, col % 8, by omega, row % 8, by omega,
      by congr 1 <;> omega⟩
  · rintro ⟨nn, col, mm, row, n, _, m, _, rfl⟩
    exact ⟨mm + m, by omega, nn + n, by omega, rfl⟩

end Rows

/-! ## Other shapes -/

section Shapes

variable {M N : Nat} {α : Type} {s : Matrices α}

/-- A clipped loop over a tile. -/
theorem mem_clipped {start bound i : Nat} :
    i ∈ (counters 0 16 1).takeWhile (fun i => start + i < bound) ↔ i < 16 ∧ start + i < bound := by
  rw [mem_takeWhile_sorted (counters_sorted (by decide)), mem_counters_one]
  · simp
  · intro i j less
    simp only [decide_eq_true_eq]
    omega

theorem clipped_nodup {start bound : Nat} :
    ((counters 0 16 1).takeWhile fun i => start + i < bound).Nodup :=
  (counters_nodup (by decide)).sublist (List.takeWhile_sublist _)

theorem wp_transposeTiles :
    wp (transposeTiles M N) (fun _ s' => Overwrites (Tile 0 0 M N) (transposed s) s s') s := by
  have tiles : wp (transposeTiles M N)
      (fun _ s' => Overwrites (fun x => ∃ mm ∈ counters 0 M 16, ∃ nn ∈ counters 0 N 16,
        ∃ n ∈ (counters 0 16 1).takeWhile (fun n => nn + n < N),
        ∃ m ∈ (counters 0 16 1).takeWhile (fun m => mm + m < M), x = .B (mm + m) (nn + n))
        (transposed s) s s') s := by
    refine wp_forEach_overwrites (counters_nodup (by decide)) fun mm row s₁ outer => ?_
    refine wp_forEach_overwrites (counters_nodup (by decide)) fun nn col s₂ inner => ?_
    refine wp_copy clipped_nodup (fun _ _ => clipped_nodup) (fun x => Iff.rfl) ?_ ?_ ?_
    · intro n col m row
      rw [mem_clipped] at row col
      exact ⟨⟨col.2, row.2⟩, ⟨row.2, col.2⟩⟩
    · intro n _ m _
      simp
    · intro n _ m _
      rw [inner _ fun _ _ _ => by simp, outer _ fun _ _ _ => by simp]
      rfl
  refine wp_mono tiles fun _ s' written => written.congr (fun x => ?_) fun _ _ => rfl
  simp only [tile_iff, Nat.zero_add, mem_clipped, mem_counters (show 0 < 16 by decide)]
  constructor
  · rintro ⟨row, below, col, right, rfl⟩
    exact ⟨row / 16 * 16, by omega, col / 16 * 16, by omega, col % 16, by omega, row % 16,
      by omega, by congr 1 <;> omega⟩
  · rintro ⟨mm, row, nn, col, n, _, m, _, rfl⟩
    exact ⟨mm + m, by omega, nn + n, by omega, rfl⟩

/-- `transpose_submit` fills `B`, where the blocks of 8 rows fit. -/
theorem wp_transposeSubmit (shape : N = 32 ∨ N = 64 → 8 ∣ M) :
    wp (transposeSubmit M N) (fun _ s' => Overwrites (Tile 0 0 M N) (transposed s) s s') s := by
  rw [transposeSubmit, wp_ite]
  by_cases small : N = 32
  · rw [if_pos small]
    exact wp_transpose32 (shape (.inl small)) (by omega)
  · rw [if_neg small, wp_ite]
    by_cases large : N = 64
    · rw [if_pos large]
      exact wp_transpose64 (shape (.inr large)) (by omega)
    · rw [if_neg large]
      exact wp_transposeTiles

/-- So does the reference function. -/
theorem wp_correctTrans :
    wp (correctTrans M N) (fun _ s' => Overwrites (Tile 0 0 M N) (transposed s) s s') s := by
  refine wp_copy (counters_nodup Nat.one_pos) (fun _ _ => counters_nodup Nat.one_pos)
    (fun x => ?_) ?_ (fun _ _ _ _ => id) fun _ _ _ _ => rfl
  · simp only [tile_iff, Nat.zero_add, mem_counters_one, Nat.zero_le, true_and]
    constructor
    · rintro ⟨row, below, col, right, rfl⟩
      exact ⟨col, right, row, below, rfl⟩
    · rintro ⟨col, right, row, below, rfl⟩
      exact ⟨row, below, col, right, rfl⟩
  · intro i col j row
    rw [mem_counters_one] at row col
    exact ⟨⟨col.2, row.2⟩, ⟨row.2, col.2⟩⟩

end Shapes

/-- `B` has become the transpose of `A`, and `A` is as before. -/
structure Transposed {α : Type} (M N : Nat) (s s' : Matrices α) : Prop where
  entries : ∀ i < N, ∀ j < M, s' (.B j i) = s (.A i j)
  source : ∀ i j, s' (.A i j) = s (.A i j)

theorem Transposed.of_overwrites {M N : Nat} {α : Type} {s s' : Matrices α}
    (written : Overwrites (Tile 0 0 M N) (transposed s) s s') : Transposed M N s s' where
  entries i row j col := written.inside _ (tile_iff.mpr ⟨j, col, i, row, by simp⟩)
  source _ _ := written.outside _ id

/-- `transpose_submit` stays in bounds, transposes, and agrees with the reference
function, in all shapes in which the blocks of the branch taken fit. -/
theorem transposeSubmit_transposes (M N : Nat) (shape : N = 32 ∨ N = 64 → 8 ∣ M) {α : Type}
    (s : Matrices α) : ∃ s', transposeSubmit M N s = some ((), s') ∧ Transposed M N s s' ∧
      correctTrans M N s = some ((), s') := by
  obtain ⟨⟨⟨⟩, s'⟩, run, written⟩ := wp_transposeSubmit (s := s) shape
  obtain ⟨⟨⟨⟩, s''⟩, reference, written'⟩ := wp_correctTrans (M := M) (N := N) (s := s)
  obtain rfl : s' = s'' := written.unique written'
  exact ⟨s', run, .of_overwrites written, reference⟩

/-- The entries of `A` are numbered, those of `B` are zero. -/
def numbered : Matrices Nat
  | .A row col => 100 * row + col
  | .B _ _ => 0

theorem transposeSubmit_transposes_numbered : ∃ s', transposeSubmit 72 64 numbered = some ((), s') ∧
    Transposed 72 64 numbered s' ∧ correctTrans 72 64 numbered = some ((), s') :=
  transposeSubmit_transposes 72 64 (by decide) numbered

/-! ## Bounds -/

/-- `transpose_submit` stays in bounds exactly in the shapes in which the blocks
of the branch taken fit. -/
theorem transposeSubmit_inBounds_iff (M N : Nat) {α : Type} (s : Matrices α) :
    (transposeSubmit M N s).isSome = true ↔ (N = 32 ∨ N = 64 → 8 ∣ M) := by
  rw [← wp_true_iff]
  constructor
  · intro ends special
    by_contra cut
    have last : M / 8 * 8 ∈ counters 0 M 8 := by
      rw [mem_counters (by decide)]
      omega
    have first : 0 ∈ counters 0 N 8 := by
      rw [mem_counters (by decide)]
      omega
    have zero : 0 ∈ counters 0 8 1 := by simp
    have seven : 7 ∈ counters 0 8 1 := by simp
    rw [transposeSubmit] at ends
    rcases special with rfl | rfl
    · rw [if_pos rfl, transpose32, wp_bind] at ends
      obtain ⟨t₁, s₁, strip⟩ := exists_round ends first
      obtain ⟨t₂, s₂, block⟩ := exists_round strip last
      obtain ⟨t₃, s₃, row⟩ := exists_round block zero
      rw [blockRow32, wp_bind] at row
      obtain ⟨t₄, s₄, entry⟩ := exists_round row seven
      rw [copyOrKeep, if_pos (by omega), wp_bind, wp_assign] at entry
      have inside : M / 8 * 8 + 7 < M := entry.1.2
      omega
    · rw [if_neg (by decide), if_pos rfl] at ends
      obtain ⟨s₁, strip⟩ := exists_forEach_round ends first
      obtain ⟨s₂, block⟩ := exists_forEach_round strip last
      rw [block64] at block
      by_cases diagonal : 0 ≠ M / 8 * 8
      · rw [if_pos diagonal, offDiagonal, wp_bind] at block
        obtain ⟨s₃, row⟩ := exists_forEach_round block (show 0 ∈ counters 0 4 1 by simp)
        obtain ⟨s₄, entry⟩ := exists_forEach_round row seven
        have inside : M / 8 * 8 + 7 < M := ((wp_assign _).mp entry).1.2
        omega
      · rw [if_neg diagonal, if_pos (by decide), throughNext, wp_bind] at block
        obtain ⟨s₃, row⟩ := exists_forEach_round block zero
        obtain ⟨s₄, entry⟩ := exists_forEach_round row seven
        have inside : M / 8 * 8 + 7 < M := ((wp_assign _).mp entry).1.2
        omega
  · intro shape
    exact wp_mono (wp_transposeSubmit shape) fun _ _ _ => trivial

/-- In a matrix `A` of 32 rows of one entry the second entry is read. -/
theorem outOfBounds : ¬ ∀ M N, 1 ≤ M → 1 ≤ N → ∀ s : Matrices Nat,
    (transposeSubmit M N s).isSome = true := by
  intro claimed
  have inside := claimed 1 32 (by decide) (by decide) numbered
  revert inside
  decide +kernel

end SysProg.Transpose

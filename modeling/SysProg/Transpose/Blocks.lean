import SysProg.Transpose.Program

/-!
# The blocks of the branch for 64 columns

The loops over a block fill the tile of `B` that it stands for.  A block on the
diagonal is filled through the block to its right, which is left with other
entries.
-/

namespace SysProg.Transpose

open Logic

/-- The matrices with the transpose of `A` in `B`. -/
def transposed {α : Type} (s : Matrices α) : Matrices α
  | .A row col => s (.A row col)
  | .B row col => s (.A col row)

/-- The entries of `B` in a tile. -/
def Tile (row col height width : Nat) : Cell → Prop
  | .A _ _ => False
  | .B r c => row ≤ r ∧ r < row + height ∧ col ≤ c ∧ c < col + width

section Tiles

variable {row col height width r₀ r₁ c₀ c₁ : Nat} {x : Cell}

theorem tile_iff : Tile row col height width x ↔
    ∃ i < height, ∃ j < width, x = .B (row + i) (col + j) := by
  cases x with
  | A r c => simp [Tile]
  | B r c =>
      simp only [Tile, Cell.B.injEq]
      constructor
      · rintro ⟨r₀, r₁, c₀, c₁⟩
        exact ⟨r - row, by omega, c - col, by omega, by omega, by omega⟩
      · rintro ⟨i, _, j, _, rfl, rfl⟩
        omega

/-- The entries that two counting loops name. -/
theorem tile_iff_rows (rows : r₀ ≤ r₁) (cols : c₀ ≤ c₁) :
    Tile (row + r₀) (col + c₀) (r₁ - r₀) (c₁ - c₀) x ↔
      ∃ i ∈ counters r₀ r₁ 1, ∃ j ∈ counters c₀ c₁ 1, x = .B (row + i) (col + j) := by
  simp only [tile_iff, mem_counters_one]
  constructor
  · rintro ⟨i, _, j, _, rfl⟩
    exact ⟨r₀ + i, by omega, c₀ + j, by omega, by rw [Nat.add_assoc, Nat.add_assoc]⟩
  · rintro ⟨i, _, j, _, rfl⟩
    exact ⟨i - r₀, by omega, j - c₀, by omega, by congr 1 <;> omega⟩

/-- The same with the loop over the columns outside. -/
theorem tile_iff_cols (rows : r₀ ≤ r₁) (cols : c₀ ≤ c₁) :
    Tile (row + r₀) (col + c₀) (r₁ - r₀) (c₁ - c₀) x ↔
      ∃ j ∈ counters c₀ c₁ 1, ∃ i ∈ counters r₀ r₁ 1, x = .B (row + i) (col + j) := by
  rw [tile_iff_rows rows cols]
  constructor
  · rintro ⟨i, rowIn, j, colIn, same⟩
    exact ⟨j, colIn, i, rowIn, same⟩
  · rintro ⟨j, colIn, i, rowIn, same⟩
    exact ⟨i, rowIn, j, colIn, same⟩

end Tiles

section Copies

variable {M N : Nat} {α ι κ : Type} {s : Matrices α} {value : Matrices α}

/-- Two nested loops that copy entries which they do not write. -/
theorem wp_copy {rows : List ι} {cols : ι → List κ} {target source : ι → κ → Cell}
    {part : Cell → Prop} (nodup : rows.Nodup) (nodups : ∀ i ∈ rows, (cols i).Nodup)
    (cells : ∀ x, part x ↔ ∃ i ∈ rows, ∃ j ∈ cols i, x = target i j)
    (inside : ∀ i ∈ rows, ∀ j ∈ cols i, (source i j).Inside M N ∧ (target i j).Inside M N)
    (apart : ∀ i ∈ rows, ∀ j ∈ cols i, ¬ part (source i j))
    (values : ∀ i ∈ rows, ∀ j ∈ cols i, s (source i j) = value (target i j)) :
    wp (forEach rows fun i => forEach (cols i) fun j => assign M N (target i j) (source i j))
      (fun _ s' => Overwrites part value s s') s := by
  have written : wp (forEach rows fun i => forEach (cols i) fun j =>
      assign M N (target i j) (source i j))
      (fun _ s' => Overwrites (fun x => ∃ i ∈ rows, ∃ j ∈ cols i, x = target i j) value s s') s := by
    refine wp_nest_overwrites nodup nodups fun i row j col s' same => ?_
    rw [wp_assign]
    refine ⟨(inside i row j col).1, (inside i row j col).2, .update s' ?_⟩
    rw [same _ fun i' row' j' col' owned =>
      absurd ((cells _).mpr ⟨i', row', j', col', owned⟩) (apart i row j col)]
    exact values i row j col
  exact wp_mono written fun _ s' done => done.congr cells fun _ _ => rfl

/-- Two entries that are exchanged. -/
theorem wp_exchange_overwrites (value : Matrices α) {x y : Cell} (left : x.Inside M N) (right : y.Inside M N)
    (first : value x = s y) (second : value y = s x) :
    wp (exchange M N x y) (fun _ s' => Overwrites (fun z => z = x ∨ z = y) value s s') s :=
  (wp_exchange _).mpr ⟨left, right, .exchange s first second⟩

end Copies

/-! ## Blocks off the diagonal -/

section OffDiagonal

variable {M N nn mm : Nat} {α : Type} {s : Matrices α}

/-- What `b1` and `b2` hold after the first copy. -/
def copied (nn mm : Nat) (s : Matrices α) : Matrices α
  | .A row col => s (.A row col)
  | .B row col => s (.A (nn + (row - mm)) (mm + (col - nn)))

/-- What `b1` and `b2` hold when each has been transposed. -/
def mirrored (nn mm : Nat) (s : Matrices α) : Matrices α
  | .A row col => s (.A row col)
  | .B row col =>
      if col < nn + 4 then s (.B (mm + (col - nn)) (nn + (row - mm)))
      else s (.B (mm + (col - (nn + 4))) (nn + 4 + (row - mm)))

theorem mirrored_left {i j : Nat} (small : j < 4) :
    mirrored nn mm s (.B (mm + i) (nn + j)) = s (.B (mm + j) (nn + i)) := by
  simp [mirrored, small]

theorem mirrored_right {i j : Nat} :
    mirrored nn mm s (.B (mm + i) (nn + 4 + j)) = s (.B (mm + j) (nn + 4 + i)) := by
  have right : ¬ nn + 4 + j < nn + 4 := by omega
  simp [mirrored, right]

/-- The copy of `a1` and `a2`. -/
theorem wp_copyTop (rowsIn : mm + 8 ≤ M) (colsIn : nn + 8 ≤ N) :
    wp (forEach (counters 0 4 1) fun n => forEach (counters 0 8 1) fun m =>
        assign M N (.B (mm + n) (nn + m)) (.A (nn + n) (mm + m)))
      (fun _ s' => Overwrites (Tile mm nn 4 8) (copied nn mm s) s s') s := by
  refine wp_copy (counters_nodup Nat.one_pos) (fun _ _ => counters_nodup Nat.one_pos)
    (fun x => tile_iff_rows (Nat.zero_le _) (Nat.zero_le _)) ?_ (fun _ _ _ _ => id) ?_
  · intro n row m col
    rw [mem_counters_one] at row col
    simp only [Cell.Inside]
    omega
  · intro n _ m _
    simp [copied]

/-- The four entries that are exchanged in a round of the second loop nest. -/
def Exchanged (nn mm n m : Nat) (x : Cell) : Prop :=
  (x = .B (mm + n) (nn + m) ∨ x = .B (mm + m) (nn + n)) ∨
    x = .B (mm + n) (nn + 4 + m) ∨ x = .B (mm + m) (nn + 4 + n)

/-- `b1` and `b2` are transposed in place: a round reads the entries that it
exchanges, which no other round touches. -/
theorem wp_transposeTop (rowsIn : mm + 8 ≤ M) (colsIn : nn + 8 ≤ N) :
    wp (forEach (counters 0 4 1) fun n => forEach (counters (n + 1) 4 1) fun m => do
        exchange M N (.B (mm + n) (nn + m)) (.B (mm + m) (nn + n))
        exchange M N (.B (mm + n) (nn + 4 + m)) (.B (mm + m) (nn + 4 + n)))
      (fun _ s' => Overwrites (Tile mm nn 4 8) (mirrored nn mm s) s s') s := by
  have exchanged : wp (forEach (counters 0 4 1) fun n => forEach (counters (n + 1) 4 1) fun m => do
        exchange M N (.B (mm + n) (nn + m)) (.B (mm + m) (nn + n))
        exchange M N (.B (mm + n) (nn + 4 + m)) (.B (mm + m) (nn + 4 + n)))
      (fun _ s' => Overwrites (fun x => ∃ n ∈ counters 0 4 1, ∃ m ∈ counters (n + 1) 4 1,
        Exchanged nn mm n m x) (mirrored nn mm s) s s') s := by
    refine wp_nest_overwrites (counters_nodup Nat.one_pos)
      (fun _ _ => counters_nodup Nat.one_pos) fun n row m col s' same => ?_
    simp only [mem_counters_one] at row col same
    have own : ∀ x, Exchanged nn mm n m x → s' x = s x := by
      intro x mine
      refine same x fun n' row' m' col' other => ?_
      unfold Exchanged at mine other
      rcases mine with (rfl | rfl) | rfl | rfl <;>
        simp only [Cell.B.injEq] at other <;> omega
    rw [wp_bind]
    refine wp_mono (wp_exchange_overwrites (mirrored nn mm s) ?_ ?_ ?_ ?_) fun _ s₁ left => ?_
    · exact ⟨by omega, by omega⟩
    · exact ⟨by omega, by omega⟩
    · rw [mirrored_left (by omega), own _ (.inl (.inr rfl))]
    · rw [mirrored_left (by omega), own _ (.inl (.inl rfl))]
    refine wp_mono (wp_exchange_overwrites (mirrored nn mm s) ?_ ?_ ?_ ?_) fun _ s₂ right => left.trans right
    · exact ⟨by omega, by omega⟩
    · exact ⟨by omega, by omega⟩
    · rw [mirrored_right, left.outside _ (by simp; omega), own _ (.inr (.inr rfl))]
    · rw [mirrored_right, left.outside _ (by simp; omega), own _ (.inr (.inl rfl))]
  refine wp_mono exchanged fun _ s' written => ?_
  constructor
  · intro x tile
    by_cases moved : ∃ n ∈ counters 0 4 1, ∃ m ∈ counters (n + 1) 4 1, Exchanged nn mm n m x
    · exact written.inside x moved
    · rw [written.outside x moved]
      obtain ⟨i, row, j, col, rfl⟩ := tile_iff.mp tile
      rcases Nat.lt_or_ge j 4 with left | right
      · rcases Nat.lt_trichotomy i j with lower | rfl | upper
        · exact absurd ⟨i, by simpa, j, by simp; omega, .inl (.inl rfl)⟩ moved
        · rw [mirrored_left left]
        · exact absurd ⟨j, by simpa, i, by simp; omega, .inl (.inr rfl)⟩ moved
      · obtain ⟨k, rfl⟩ := Nat.exists_eq_add_of_le right
        rw [← Nat.add_assoc] at moved ⊢
        rcases Nat.lt_trichotomy i k with lower | rfl | upper
        · exact absurd ⟨i, by simpa, k, by simp; omega, .inr (.inl rfl)⟩ moved
        · rw [mirrored_right]
        · exact absurd ⟨k, by simp; omega, i, by simp; omega, .inr (.inr rfl)⟩ moved
  · intro x other
    refine written.outside x ?_
    rintro ⟨n, row, m, col, mine⟩
    rw [mem_counters_one] at row col
    refine other ?_
    rcases mine with (rfl | rfl) | rfl | rfl <;> simp only [Tile] <;> omega

/-- What `b2` and `b3` hold after the third loop. -/
def moved (mm : Nat) (s : Matrices α) : Matrices α
  | .A row col => s (.A row col)
  | .B row col => if row < mm + 4 then s (.A col row) else s (.B (row - 4) (col + 4))

/-- The entries written in a round of the third loop. -/
def Moved (nn mm m : Nat) (x : Cell) : Prop :=
  (∃ k < 4, x = .B (mm + m) (nn + 4 + k)) ∨ ∃ k < 4, x = .B (mm + 4 + m) (nn + k)

/-- One round of the third loop. -/
theorem wp_moveQuadrant {m : Nat} (rowsIn : mm + 8 ≤ M) (colsIn : nn + 8 ≤ N) (small : m < 4)
    {s' : Matrices α} (sameA : ∀ row col, s' (.A row col) = s (.A row col))
    (sameB : ∀ k, 4 ≤ k → k < 8 → s' (.B (mm + m) (nn + k)) = s (.B (mm + m) (nn + k))) :
    wp (moveQuadrant M N nn mm m)
      (fun _ s'' => Overwrites (Moved nn mm m) (moved mm s) s' s'') s' := by
  have upper : ∀ col, moved mm s (.B (mm + m) col) = s' (.A col (mm + m)) := by
    intro col
    simp [moved, small, sameA]
  have lower : ∀ k, k < 4 →
      moved mm s (.B (mm + 4 + m) (nn + k)) = s' (.B (mm + m) (nn + (k + 4))) := by
    intro k inside
    have below : ¬ mm + 4 + m < mm + 4 := by omega
    have back : mm + 4 + m - 4 = mm + m := by omega
    simp only [moved, if_neg below, back, Nat.add_assoc nn k 4]
    exact (sameB (k + 4) (by omega) (by omega)).symm
  have inA : ∀ k, k < 8 → (Cell.A (nn + k) (mm + m)).Inside M N := fun k _ =>
    ⟨by omega, by omega⟩
  have inB : ∀ k, k < 8 → (Cell.B (mm + m) (nn + k)).Inside M N := fun k _ =>
    ⟨by omega, by omega⟩
  have inBelow : ∀ k, k < 8 → (Cell.B (mm + 4 + m) (nn + k)).Inside M N := fun k _ =>
    ⟨by omega, by omega⟩
  simp only [moveQuadrant, wp_bind, wp_load, wp_store]
  refine ⟨inA 4 (by decide), inA 5 (by decide), inA 6 (by decide), inA 7 (by decide),
    inB 4 (by decide), inB 5 (by decide), inB 6 (by decide), inB 7 (by decide),
    inB 4 (by decide), inB 5 (by decide), inB 6 (by decide), inB 7 (by decide),
    inBelow 0 (by decide), inBelow 1 (by decide), inBelow 2 (by decide), inBelow 3 (by decide), ?_⟩
  have none (cell : Nat → Cell) (s₁ : Matrices α) :
      Overwrites (fun x => ∃ k < 0, x = cell k) (moved mm s) s₁ s₁ := .nothing fun x => by simp
  have upperHalf := ((((none (fun k => .B (mm + m) (nn + 4 + k)) s').next
    (upper (nn + 4)).symm).next (upper (nn + 5)).symm).next (upper (nn + 6)).symm).next
    (upper (nn + 7)).symm
  refine upperHalf.trans ?_
  exact ((((none (fun k => .B (mm + 4 + m) (nn + k)) _).next (lower 0 (by decide)).symm).next
    (lower 1 (by decide)).symm).next (lower 2 (by decide)).symm).next (lower 3 (by decide)).symm

/-- The third loop. -/
theorem wp_moveQuadrants (rowsIn : mm + 8 ≤ M) (colsIn : nn + 8 ≤ N) :
    wp (forEach (counters 0 4 1) (moveQuadrant M N nn mm))
      (fun _ s' => Overwrites (fun x => Tile mm (nn + 4) 4 4 x ∨ Tile (mm + 4) nn 4 4 x)
        (moved mm s) s s') s := by
  have rounds : wp (forEach (counters 0 4 1) (moveQuadrant M N nn mm))
      (fun _ s' => Overwrites (fun x => ∃ m ∈ counters 0 4 1, Moved nn mm m x) (moved mm s) s s')
      s := by
    refine wp_forEach_overwrites (counters_nodup Nat.one_pos) fun m member s' same => ?_
    rw [mem_counters_one] at member
    refine wp_moveQuadrant rowsIn colsIn member.2 ?_ ?_
    · intro row col
      refine same _ fun j _ _ => ?_
      simp [Moved]
    · intro k lower upper
      refine same _ fun j _ other owned => ?_
      simp only [Moved, Cell.B.injEq] at owned
      omega
  refine wp_mono rounds fun _ s' written => written.congr (fun x => ?_) fun _ _ => rfl
  simp only [tile_iff, mem_counters_one, Moved]
  constructor
  · rintro (⟨i, row, j, col, rfl⟩ | ⟨i, row, j, col, rfl⟩)
    · exact ⟨i, ⟨Nat.zero_le _, row⟩, .inl ⟨j, col, rfl⟩⟩
    · exact ⟨i, ⟨Nat.zero_le _, row⟩, .inr ⟨j, col, rfl⟩⟩
  · rintro ⟨i, ⟨-, row⟩, ⟨j, col, rfl⟩ | ⟨j, col, rfl⟩⟩
    · exact .inl ⟨i, row, j, col, rfl⟩
    · exact .inr ⟨i, row, j, col, rfl⟩

/-- The copy of `a4`. -/
theorem wp_copyBottom (rowsIn : mm + 8 ≤ M) (colsIn : nn + 8 ≤ N) :
    wp (forEach (counters 4 8 1) fun n => forEach (counters 4 8 1) fun m =>
        assign M N (.B (mm + m) (nn + n)) (.A (nn + n) (mm + m)))
      (fun _ s' => Overwrites (Tile (mm + 4) (nn + 4) 4 4) (transposed s) s s') s := by
  refine wp_copy (counters_nodup Nat.one_pos) (fun _ _ => counters_nodup Nat.one_pos)
    (fun x => tile_iff_cols (show 4 ≤ 8 by decide) (show 4 ≤ 8 by decide)) ?_
    (fun _ _ _ _ => id) fun _ _ _ _ => rfl
  intro n col m row
  rw [mem_counters_one] at row col
  simp only [Cell.Inside]
  omega

/-- A block off the diagonal is filled by the four loops. -/
theorem wp_offDiagonal (rowsIn : mm + 8 ≤ M) (colsIn : nn + 8 ≤ N) :
    wp (offDiagonal M N nn mm)
      (fun _ s' => Overwrites (Tile mm nn 8 8) (transposed s) s s') s := by
  simp only [offDiagonal, wp_bind]
  refine wp_mono (wp_copyTop rowsIn colsIn) fun _ s₁ top => ?_
  refine wp_mono (wp_transposeTop rowsIn colsIn) fun _ s₂ turned => ?_
  refine wp_mono (wp_moveQuadrants rowsIn colsIn) fun _ s₃ shifted => ?_
  refine wp_mono (wp_copyBottom rowsIn colsIn) fun _ s₄ bottom => ?_
  have sameA : ∀ row col, s₂ (.A row col) = s (.A row col) := fun row col =>
    (turned.outside _ id).trans (top.outside _ id)
  -- what the first two loops leave in `b1` and `b2`
  have left : ∀ i j, i < 4 → j < 4 → s₂ (.B (mm + i) (nn + j)) = s (.A (nn + j) (mm + i)) := by
    intro i j row col
    rw [turned.inside _ (tile_iff.mpr ⟨i, row, j, by omega, rfl⟩), mirrored_left col,
      top.inside _ (tile_iff.mpr ⟨j, col, i, by omega, rfl⟩)]
    simp [copied]
  have right : ∀ i k, i < 4 → k < 4 →
      s₂ (.B (mm + i) (nn + 4 + k)) = s (.A (nn + k) (mm + 4 + i)) := by
    intro i k row col
    rw [turned.inside _ (tile_iff.mpr ⟨i, row, 4 + k, by omega, by rw [Nat.add_assoc]⟩),
      mirrored_right, top.inside _ (tile_iff.mpr ⟨k, col, 4 + i, by omega, by rw [Nat.add_assoc]⟩)]
    simp [copied, Nat.add_assoc]
  constructor
  · intro x tile
    obtain ⟨i, row, j, col, rfl⟩ := tile_iff.mp tile
    by_cases lower : 4 ≤ i ∧ 4 ≤ j
    · rw [bottom.inside _ (by simp only [Tile]; omega)]
      simp only [transposed]
      rw [shifted.outside _ (by simp [Tile]), sameA]
    rw [bottom.outside _ (by simp only [Tile]; omega)]
    rcases Nat.lt_or_ge i 4 with top | below
    · rcases Nat.lt_or_ge j 4 with first | second
      · rw [shifted.outside _ (by simp only [Tile]; omega), left i j top first]
        rfl
      · rw [shifted.inside _ (by simp only [Tile]; omega)]
        simp only [moved, transposed, if_pos (Nat.add_lt_add_left top mm)]
        rw [sameA]
    · have first : j < 4 := by omega
      obtain ⟨k, rfl⟩ := Nat.exists_eq_add_of_le below
      have under : ¬ mm + (4 + k) < mm + 4 := by omega
      have up : mm + (4 + k) - 4 = mm + k := by omega
      rw [shifted.inside _ (by simp only [Tile]; omega)]
      simp only [moved, transposed, if_neg under, up]
      rw [Nat.add_right_comm, right k j (by omega) first, Nat.add_assoc]
  · intro x other
    have elsewhere : ¬ Tile (mm + 4) (nn + 4) 4 4 x ∧
        ¬ (Tile mm (nn + 4) 4 4 x ∨ Tile (mm + 4) nn 4 4 x) ∧ ¬ Tile mm nn 4 8 x := by
      cases x with
      | A row col => simp [Tile]
      | B row col =>
          simp only [Tile] at other ⊢
          omega
    rw [bottom.outside x elsewhere.1, shifted.outside x elsewhere.2.1,
      turned.outside x elsewhere.2.2, top.outside x elsewhere.2.2]

end OffDiagonal

/-! ## Blocks on the diagonal -/

section Diagonals

variable {M N nn : Nat} {α : Type} {s : Matrices α}

/-- What the block to the right holds after the first copy. -/
def beside (s : Matrices α) : Matrices α
  | .A row col => s (.A row col)
  | .B row col => s (.A row (col - 8))

/-- A block on the diagonal is filled through the block to its right. -/
theorem wp_throughNext (rowsIn : nn + 8 ≤ M) (colsIn : nn + 16 ≤ N) :
    wp (throughNext M N nn nn) (fun _ s' => ∃ s₁, Overwrites (Tile nn (nn + 8) 8 8) (beside s) s s₁ ∧
      Overwrites (Tile nn nn 8 8) (transposed s) s₁ s') s := by
  have copyNext : wp (forEach (counters 0 8 1) fun n => forEach (counters 0 8 1) fun m =>
        assign M N (.B (nn + n) (nn + m + 8)) (.A (nn + n) (nn + m)))
      (fun _ s' => Overwrites (Tile nn (nn + 8) 8 8) (beside s) s s') s := by
    refine wp_copy (counters_nodup Nat.one_pos) (fun _ _ => counters_nodup Nat.one_pos)
      (fun x => ?_) ?_ (fun _ _ _ _ => id) ?_
    · simp only [tile_iff, mem_counters_one, Nat.zero_le, true_and, Nat.add_right_comm nn 8]
    · intro n row m col
      rw [mem_counters_one] at row col
      simp only [Cell.Inside]
      omega
    · intro n _ m _
      simp [beside]
  simp only [throughNext, wp_bind]
  refine wp_mono copyNext fun _ s₁ next => ?_
  have source : ∀ n m, n < 8 → m < 8 →
      s₁ (.B (nn + n) (nn + m + 8)) = transposed s (.B (nn + m) (nn + n)) := by
    intro n m row col
    rw [next.inside _ (by simp only [Tile]; omega)]
    simp [beside, transposed]
  have right : wp (forEach (counters 0 8 1).reverse fun m => forEach (counters 4 8 1) fun n =>
        assign M N (.B (nn + m) (nn + n)) (.B (nn + n) (nn + m + 8)))
      (fun _ s' => Overwrites (Tile (nn + 0) (nn + 4) (8 - 0) (8 - 4)) (transposed s) s₁ s') s₁ := by
    refine wp_copy (List.nodup_reverse.mpr (counters_nodup Nat.one_pos))
      (fun _ _ => counters_nodup Nat.one_pos) (fun x => ?_) ?_ ?_ ?_
    · simp only [List.mem_reverse]
      exact tile_iff_rows (Nat.zero_le 8) (by decide)
    · intro m row n col
      rw [List.mem_reverse, mem_counters_one] at row
      rw [mem_counters_one] at col
      simp only [Cell.Inside]
      omega
    · intro m _ n _
      simp only [Tile]
      omega
    · intro m row n col
      rw [List.mem_reverse, mem_counters_one] at row
      exact source n m (mem_counters_one.mp col).2 row.2
  refine wp_mono right fun _ s₂ rightHalf => ?_
  have left : wp (forEach (counters 0 8 1) fun m => forEach (counters 0 4 1) fun n =>
        assign M N (.B (nn + m) (nn + n)) (.B (nn + n) (nn + m + 8)))
      (fun _ s' => Overwrites (Tile (nn + 0) (nn + 0) (8 - 0) (4 - 0)) (transposed s) s₂ s') s₂ := by
    refine wp_copy (counters_nodup Nat.one_pos) (fun _ _ => counters_nodup Nat.one_pos)
      (fun x => tile_iff_rows (Nat.zero_le _) (Nat.zero_le _)) ?_ ?_ ?_
    · intro m row n col
      rw [mem_counters_one] at row col
      simp only [Cell.Inside]
      omega
    · intro m _ n _
      simp only [Tile]
      omega
    · intro m row n col
      rw [mem_counters_one] at row col
      rw [rightHalf.outside _ (by simp only [Tile]; omega)]
      exact source n m (by omega) row.2
  refine wp_mono left fun _ s₃ leftHalf => ⟨s₁, next, ?_⟩
  refine (rightHalf.trans leftHalf).congr (fun x => ?_) fun _ _ => rfl
  cases x with
  | A row col => simp [Tile]
  | B row col =>
      simp only [Tile]
      omega

/-- The entries written in a round of the last block. -/
def InColumn (nn n : Nat) (x : Cell) : Prop := ∃ k < 8, x = .B (nn + k) (nn + n)

/-- A row of the last block on the diagonal. -/
theorem wp_lastRow {n : Nat} (rowsIn : nn + 8 ≤ M) (colsIn : nn + 8 ≤ N) (small : n < 8)
    {s' : Matrices α} (sameA : ∀ row col, s' (.A row col) = s (.A row col)) :
    wp (lastRow M N nn nn n) (fun _ s'' => Overwrites (InColumn nn n) (transposed s) s' s'') s' := by
  have values : ∀ k, s' (.A (nn + n) (nn + k)) = transposed s (.B (nn + k) (nn + n)) :=
    fun k => sameA _ _
  have inA : ∀ k, k < 8 → (Cell.A (nn + n) (nn + k)).Inside M N := fun k _ =>
    ⟨by omega, by omega⟩
  have inB : ∀ k, k < 8 → (Cell.B (nn + k) (nn + n)).Inside M N := fun k _ =>
    ⟨by omega, by omega⟩
  simp only [lastRow, wp_bind, wp_load, wp_store]
  refine ⟨inA 0 (by decide), inA 1 (by decide), inA 2 (by decide), inA 3 (by decide),
    inA 4 (by decide), inA 5 (by decide), inA 6 (by decide), inA 7 (by decide),
    inB 0 (by decide), inB 1 (by decide), inB 2 (by decide), inB 3 (by decide),
    inB 4 (by decide), inB 5 (by decide), inB 6 (by decide), inB 7 (by decide), ?_⟩
  have none : Overwrites (fun x => ∃ k < 0, x = .B (nn + k) (nn + n)) (transposed s) s' s' :=
    .nothing fun x => by simp
  have firstHalf := (((none.next (values 0)).next (values 1)).next (values 2)).next (values 3)
  exact (((firstHalf.next (values 4)).next (values 5)).next (values 6)).next (values 7)

/-- The last block on the diagonal. -/
theorem wp_lastBlock (rowsIn : nn + 8 ≤ M) (colsIn : nn + 8 ≤ N) :
    wp (forEach (counters 0 8 1) (lastRow M N nn nn))
      (fun _ s' => Overwrites (Tile nn nn 8 8) (transposed s) s s') s := by
  have rounds : wp (forEach (counters 0 8 1) (lastRow M N nn nn))
      (fun _ s' => Overwrites (fun x => ∃ n ∈ counters 0 8 1, InColumn nn n x) (transposed s) s s')
      s := by
    refine wp_forEach_overwrites (counters_nodup Nat.one_pos) fun n member s' same => ?_
    refine wp_lastRow rowsIn colsIn (mem_counters_one.mp member).2 fun row col => ?_
    exact same _ fun j _ _ => by simp [InColumn]
  refine wp_mono rounds fun _ s' written => written.congr (fun x => ?_) fun _ _ => rfl
  simp only [tile_iff, mem_counters_one, InColumn]
  constructor
  · rintro ⟨i, row, j, col, rfl⟩
    exact ⟨j, ⟨Nat.zero_le _, col⟩, i, row, rfl⟩
  · rintro ⟨j, ⟨-, col⟩, i, row, rfl⟩
    exact ⟨i, row, j, col, rfl⟩

end Diagonals

end SysProg.Transpose

import SysProg.Malloc.Release

/-!
# Client bytes lie apart from the allocator's own words

No boundary tag, no epilogue and no link word is a client byte, so a heap
stays represented when anything is written to client bytes.
-/

namespace SysProg.Malloc

open Logic

section

variable {lo : Nat} {h : Heap} {bs : List Block} {fl : List Nat}

/-- Client bytes avoid the header and the footer of every block. -/
theorem ClientByte.outside_tags {i y : Nat} {d : Block} (byte : ClientByte lo bs i)
    (at_ : (y, d) ∈ located (lo + 8) bs) :
    (i < y - 4 ∨ y ≤ i) ∧ (i < y + d.size - 8 ∨ y + d.size - 4 ≤ i) := by
  obtain ⟨x, b, here, -, -, lower, upper⟩ := byte
  have large := b.size_ge
  have wide := d.size_ge
  have above := located_bounds at_
  rcases located_disjoint here at_ with ⟨rfl, rfl⟩ | before | behind <;> omega

/-- Client bytes lie behind the prologue and below the epilogue. -/
theorem ClientByte.bounds {i : Nat} (byte : ClientByte lo bs i) (layout : Layout lo h bs) :
    h.prolBp + 16 ≤ i ∧ i < h.memBrk - 4 := by
  obtain ⟨x, b, here, -, notFirst, lower, upper⟩ := byte
  have large := b.size_ge
  have inside := layout.bounds here
  have prol := layout.prol_eq
  rcases located_disjoint layout.prologue_at here with ⟨same, -⟩ | before | behind
  · exact absurd (same.symm.trans prol) notFirst
  · have size : prologue.size = 16 := rfl
    omega
  · omega

/-- Client bytes avoid the link words of the free list and of the prologue. -/
theorem ClientByte.outside_links {i x : Nat} (byte : ClientByte lo bs i)
    (c : Threaded lo h bs fl) (node : x ∈ fl ++ [h.prolBp]) : i < x ∨ x + 8 ≤ i := by
  have inside := byte.bounds c.layout
  obtain ⟨d, at_, role⟩ := c.node_at node
  obtain ⟨y, b, here, taken, notFirst, lower, upper⟩ := byte
  have wide := d.size_ge
  rcases located_disjoint here at_ with ⟨rfl, rfl⟩ | before | behind
  · have last := role taken
    omega
  · omega
  · omega

/-- Writing to client bytes keeps the layout. -/
theorem Layout.overwrite (layout : Layout lo h bs) {m : Mem}
    (only : ∀ i, ¬ ClientByte lo bs i → m i = h.mem i) : Layout lo (h.withMem m) bs := by
  refine layout.congr ?_ ?_
  · intro y d at_
    have wide := d.size_ge
    have bounds := layout.bounds at_
    refine (layout.tags y d at_).congr ?_ ?_
    · intro i lower upper
      refine only i fun byte => ?_
      have apart := byte.outside_tags at_
      omega
    · intro i lower upper
      refine only i fun byte => ?_
      have apart := byte.outside_tags at_
      omega
  · have same : word m (h.memBrk - 4) = word h.mem (h.memBrk - 4) := by
      apply word_congr
      intro i lower upper
      refine only i fun byte => ?_
      have below := byte.bounds layout
      omega
    exact same.trans layout.epilogue

/-- Writing to client bytes keeps the representation. -/
theorem Represents.overwrite (rep : Represents lo h bs fl) {m : Mem}
    (only : ∀ i, ¬ ClientByte lo bs i → m i = h.mem i) : Represents lo (h.withMem m) bs fl := by
  obtain ⟨c, settled⟩ := rep
  have links : ∀ x ∈ fl ++ [h.prolBp], AgreeOn h.mem m x (x + 8) := by
    intro x node i lower upper
    refine only i fun byte => ?_
    have apart := byte.outside_links c.toThreaded node
    omega
  have first : word m (h.rootBp + 4) = word h.mem (h.rootBp + 4) :=
    word_congr ((links _ c.root_mem).mono (by omega) (by omega))
  exact ⟨⟨⟨c.layout.overwrite only, c.list.congr links, c.free⟩, first.trans c.first⟩, settled⟩

end

end SysProg.Malloc

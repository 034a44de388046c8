import SysProg.Malloc.Contract

/-!
# The slack of live blocks

A block is handed out either at exactly the wanted size or, when the rest
would be too small for a block of its own, with one double word more.  The
bound survives every chain of requests, since a block keeps its boundary tags
until it is given back.
-/

namespace SysProg.Malloc

open Logic

/-- The header before `r` shows a block of `bsize` bytes or of one double word
more. -/
def Snug (h : Heap) (bsize r : Nat) : Prop :=
  ∃ d : Block, word h.mem (r - 4) = d.tag ∧ (d.size = bsize ∨ d.size = bsize + 8)

section Outcomes

variable {lo r : Nat} {h h' : Heap} {bs : List Block} {fl : List Nat} {b want : Block}

theorem Layout.snug (layout : Layout lo h bs) (at_ : (r, b) ∈ located (lo + 8) bs)
    (tight : b.size = want.size ∨ b.size = want.size + 8) : Snug h want.size r :=
  ⟨b, (layout.tags r b at_).1, tight⟩

/-- The header of a block determines it. -/
theorem Layout.size_of_snug {bsize : Nat} (layout : Layout lo h bs)
    (at_ : (r, b) ∈ located (lo + 8) bs) (snug : Snug h bsize r) :
    b.size = bsize ∨ b.size = bsize + 8 := by
  obtain ⟨d, header, tight⟩ := snug
  have same : b = d := Block.eq_of_tag ((layout.tags r b at_).1.symm.trans header)
  rw [same]
  exact tight

/-- An allocated block that is kept by a step keeps its header. -/
theorem Snug.kept {bsize : Nat} {bs' : List Block} (snug : Snug h bsize r)
    (before : Layout lo h bs) (at_ : (r, b) ∈ located (lo + 8) bs) (after : Layout lo h' bs')
    (at' : (r, b) ∈ located (lo + 8) bs') : Snug h' bsize r := by
  obtain ⟨d, header, tight⟩ := snug
  have same : b.tag = d.tag := (before.tags r b at_).1.symm.trans header
  exact ⟨d, (after.tags r b at').1.trans same, tight⟩

/-- `place` leaves at most one double word beyond the wanted size. -/
theorem handed_tight (fits : want.size ≤ b.size) :
    (handed b want).size = want.size ∨ (handed b want).size = want.size + 8 := by
  unfold handed
  split
  · exact .inl rfl
  · have whole := b.aligned
    have doubled := want.aligned
    simp only [Block.mark_size]
    omega

/-- What `mm_malloc` returns is snug. -/
theorem MallocOutcome.snug (outcome : MallocOutcome lo h bs fl want r h') (notNull : r ≠ NULL)
    (taken : want.alloc = true) : Snug h' want.size r := by
  have spot : ∀ (a : Nat) (d : Block),
      (a, SysProg.Malloc.handed d want) ∈ located a (placed d want) :=
    fun a d => (mem_located_placed (handed_alloc taken)).mpr ⟨rfl, rfl⟩
  cases outcome with
  | @fit front back b _ split behind isFree fits search updated settled =>
      refine updated.consistent.layout.snug (b := SysProg.Malloc.handed b want) ?_ (handed_tight fits)
      rw [located_append, located_append]
      exact List.mem_append_left _ (List.mem_append_right _ (spot _ b))
  | @grown new _ search isFree sized room updated settled =>
      have wide : want.size ≤ (new.merge (cutFreeLast bs).2 []).size := by
        simp only [Block.merge]
        omega
      refine updated.consistent.layout.snug (b := SysProg.Malloc.handed _ want) ?_ (handed_tight wide)
      rw [located_append, located_append]
      exact List.mem_append_left _ (List.mem_append_right _ (spot _ _))
  | full search exhausted => exact absurd rfl notNull

end Outcomes

section Realloc

variable {lo : Nat} {h : Heap} {front back : List Block} {b want : Block} {fl : List Nat}

/-- Moving the payload ends in a snug block. -/
theorem wp_reallocMove_snug {size : Nat} (rep : Represents lo h (front ++ b :: back) fl)
    (behind : front ≠ []) (taken : b.alloc = true)
    (positive : 0 < size) (small : size ≤ 2 ^ 32 - 16) :
    wp (reallocMove (lo + 8 + span front) size b.size (wanted size positive).size)
      (fun r h' => r ≠ NULL → Snug h' (wanted size positive).size r) h := by
  refine wp_mono (wp_reallocMove rep behind taken positive small) ?_
  rintro r h' (⟨rfl, -, -⟩ | ⟨h1, bs1, bs', fl', -, outcome, layout, ⟨d, dAt, dAt'⟩, done, -⟩) notNull
  · exact absurd rfl notNull
  · exact (outcome.snug notNull rfl).kept layout dAt done.updated.consistent.layout dAt'

/-- Whatever branch it takes, `mm_realloc` returns a snug block. -/
theorem wp_mmRealloc_snug {size : Nat} (rep : Represents lo h (front ++ b :: back) fl)
    (unchecked : h.checked = false) (behind : front ≠ []) (taken : b.alloc = true)
    (positive : 0 < size) (small : size < 2 ^ 31) :
    wp (mmRealloc (lo + 8 + span front) size)
      (fun r h' => r ≠ NULL → Snug h' (wanted size positive).size r) h := by
  have move := wp_reallocMove_snug rep behind taken positive (by omega)
  have wantTaken : (wanted size positive).alloc = true := rfl
  have bAt : (lo + 8 + span front, b) ∈ located (lo + 8) (front ++ b :: back) := by simp
  obtain ⟨run, branch, select⟩ := exists_reallocBranch lo b behind positive
    (by simp only [wanted]; omega)
  rw [mmRealloc_eq, wp_congr_run (select rep.consistent.layout mmMalloc reallocAbsorbNext)]
  generalize wanted size positive = want at *
  cases branch with
  | shrink fits =>
      refine wp_mono (wp_reallocShrink rep behind taken wantTaken fits) ?_
      rintro _ h' ⟨rfl, done, -⟩ -
      refine done.updated.consistent.layout.snug (b := want) ?_ (.inl rfl)
      refine (alloc_mem_coalesced rfl wantTaken).mpr ?_
      exact mem_located_iff.mpr ⟨front, b.rest want fits :: back, by simp, rfl⟩
  | same sized =>
      rw [wp_pure]
      exact fun _ => rep.consistent.layout.snug bAt (.inl sized)
  | @prev init p split tight differs isFree fits =>
      subst split
      have readable := Heap.accessible_unchecked unchecked
      have absorb := wp_reallocAbsorbPrev rep (readable _ _) isFree taken wantTaken fits
      have place : lo + 8 + span (init ++ [p]) = lo + 8 + span init + p.size := by
        simp [Nat.add_assoc]
      rw [place]
      refine wp_mono absorb ?_
      rintro _ h' ⟨rfl, done, -⟩ -
      refine done.updated.consistent.layout.snug (b := want) ?_ (.inl rfl)
      exact (alloc_mem_coalesced rfl wantTaken).mpr (by simp)
  | @next n tail split tight differs noPrev isFree fits =>
      subst split
      refine wp_mono (wp_reallocAbsorbNext rep behind isFree taken wantTaken fits) ?_
      rintro _ h' ⟨rfl, done, -⟩ -
      refine done.updated.consistent.layout.snug (b := want) ?_ (.inl rfl)
      exact mem_located_iff.mpr ⟨front, (b.merge [] [n]).rest want fits :: tail, by simp, rfl⟩
  | move tight differs noPrev noNext =>
      rw [reallocMove_eq] at move
      exact move

end Realloc

/-! ## Runs -/

/-- Every live block is snug for the size that was asked for. -/
def Compact (c : Client) : Prop :=
  ∀ p s, (p, s) ∈ c.live → Snug c.heap ((s + 7) / 8 * 8 + 8) p

section Runs

variable {lo : Nat} {c : Client} {bs : List Block} {fl : List Nat}

/-- A block that is handed out joins the live ones. -/
theorem Handed.compact {kept bs' : List Block} {fl' : List Nat} {want : Block} {r size : Nat}
    {h h' : Heap} {live : List (Nat × Nat)} (handed : Handed lo h kept want r h' bs' fl')
    (rep : Represents lo h bs fl)
    (old : ∀ p s, (p, s) ∈ live → Snug h ((s + 7) / 8 * 8 + 8) p ∧
      ∃ d, d.alloc = true ∧ (p, d) ∈ located (lo + 8) bs ∧ (p, d) ∈ located (lo + 8) kept)
    (new : Snug h' ((size + 7) / 8 * 8 + 8) r) : Compact ⟨h', take r size live⟩ := by
  intro p s member
  change (p, s) ∈ take r size live at member
  rw [take, if_neg handed.ne_null] at member
  rcases List.mem_cons.mp member with here | member
  · cases here
    exact new
  · obtain ⟨snug, d, dTaken, at_, keptAt⟩ := old p s member
    exact snug.kept rep.consistent.layout at_ handed.updated.consistent.layout
      (handed.kept dTaken keptAt)

/-- `mm_malloc` keeps the live blocks snug. -/
theorem Compact.malloc (rep : Represents lo c.heap bs fl) (owns : Owns lo bs c.live)
    (compact : Compact c) {size : Nat} (small : size < 2 ^ 31) :
    wp (mmMalloc size) (fun r h' => Compact ⟨h', take r size c.live⟩) c.heap := by
  by_cases zero : size = 0
  · unfold mmMalloc
    rw [wp_ite, if_pos zero, wp_pure]
    exact compact
  have positive : 0 < size := Nat.pos_of_ne_zero zero
  refine wp_mono (wp_mmMalloc rep positive (by omega)) ?_
  intro r h' outcome
  rcases outcome.handed rep rfl with ⟨rfl, rfl⟩ | ⟨bs', fl', handed⟩
  · exact compact
  · refine handed.compact rep ?_ (outcome.snug handed.ne_null rfl)
    intro p s member
    obtain ⟨d, at_, dTaken, -⟩ := owns.backed p s member
    exact ⟨compact p s member, d, dTaken, at_, at_⟩

/-- `mm_free` keeps the other live blocks snug. -/
theorem Compact.free (rep : Represents lo c.heap bs fl) (owns : Owns lo bs c.live)
    (compact : Compact c) {ptr : Nat} (owned : c.Owned ptr) :
    wp (mmFree ptr) (fun _ h' => Compact ⟨h', giveBack ptr c.live⟩) c.heap := by
  rcases owned with rfl | member
  · unfold mmFree
    rw [wp_ite, if_pos rfl, wp_pure, owns.giveBack_null]
    exact compact
  obtain ⟨front, b, back, rfl, rfl, taken, behind⟩ := owns.split_at member
  refine wp_mono (wp_mmFree rep behind taken) ?_
  rintro _ h' ⟨updated, -⟩ p s member'
  obtain ⟨kept, differ⟩ := Owns.mem_giveBack.mp member'
  obtain ⟨d, at_, dTaken, -⟩ := owns.backed p s kept
  refine (compact p s kept).kept rep.consistent.layout at_ updated.consistent.layout ?_
  exact (alloc_mem_coalesced rfl dTaken).mpr ((alloc_mem_marked dTaken).mpr ⟨at_, differ⟩)

/-- `mm_realloc` keeps the other live blocks snug and returns a snug one. -/
theorem Compact.realloc (unchecked : c.heap.checked = false) (rep : Represents lo c.heap bs fl)
    (owns : Owns lo bs c.live) (compact : Compact c) {ptr size : Nat} (owned : c.Owned ptr)
    (small : size < 2 ^ 31) :
    wp (mmRealloc ptr size) (fun r h' => Compact
      ⟨h', if r = NULL ∧ size ≠ 0 then c.live else take r size (giveBack ptr c.live)⟩) c.heap := by
  by_cases null : ptr = NULL
  · subst null
    unfold mmRealloc
    rw [wp_ite, if_pos rfl, owns.giveBack_null]
    refine wp_mono (compact.malloc rep owns small) ?_
    intro r h' done
    by_cases failed : r = NULL ∧ size ≠ 0
    · rw [take, if_pos failed.1] at done
      rw [if_pos failed]
      exact done
    · rw [if_neg failed]
      exact done
  by_cases zero : size = 0
  · unfold mmRealloc
    rw [wp_ite, if_neg null, wp_ite, if_pos zero, wp_bind]
    refine wp_mono (compact.free rep owns owned) ?_
    intro _ h' done
    rw [wp_pure, if_neg (by simp [zero])]
    exact done
  have positive : 0 < size := Nat.pos_of_ne_zero zero
  obtain ⟨front, b, back, rfl, rfl, taken, behind⟩ := owns.split_at (owned.resolve_left null)
  obtain ⟨⟨r, h'⟩, run, outcome⟩ := wp_mmRealloc rep unchecked behind taken positive small
  have snug := wp_elim (wp_mmRealloc_snug rep unchecked behind taken positive small) run
  refine ⟨_, run, ?_⟩
  rcases outcome.handed rep behind taken with ⟨failed, same⟩ | ⟨bs', fl', handed, -⟩
  · simp only at failed same
    subst failed same
    rw [if_pos ⟨rfl, zero⟩]
    exact compact
  · rw [if_neg (fun failed => handed.ne_null failed.1)]
    refine handed.compact rep ?_ (snug handed.ne_null)
    intro p s member
    obtain ⟨kept, differ⟩ := Owns.mem_giveBack.mp member
    obtain ⟨d, at_, dTaken, -⟩ := owns.backed p s kept
    exact ⟨compact p s kept, d, dTaken, at_, (alloc_mem_marked dTaken).mpr ⟨at_, differ⟩⟩

/-- A write to bytes that were asked for changes no header. -/
theorem Compact.write (rep : Represents lo c.heap bs fl) (owns : Owns lo bs c.live)
    (compact : Compact c) {ptr size offset : Nat} (value : UInt8)
    (owned : (ptr, size) ∈ c.live) (inside : offset < size) :
    Compact { c with
      heap := c.heap.withMem (Function.update c.heap.mem (ptr + offset) value) } := by
  intro p s member
  obtain ⟨d, at_, -, -⟩ := owns.backed p s member
  exact (compact p s member).kept rep.consistent.layout at_
    (rep.overwrite (owns.write_only value owned inside)).consistent.layout at_

/-- The live blocks are snug in every state of every run. -/
theorem Compact.of_reachable (reached : (Client.runs lo).Reachable c) : Compact c := by
  refine reached.invariant ?_ ?_
  · rintro s ⟨h, -, -, -, none⟩ p size member
    rw [none] at member
    cases member
  · rintro s request t before compact ⟨allowed, step⟩
    obtain ⟨unchecked, bs, fl, rep, owns⟩ := Serving.of_reachable before
    cases allowed with
    | malloc small =>
        obtain ⟨⟨r, h'⟩, run, done⟩ := compact.malloc rep owns small
        simp only [Client.serve, run] at step
        cases step
        exact done
    | free owned =>
        obtain ⟨⟨r, h'⟩, run, done⟩ := compact.free rep owns owned
        simp only [Client.serve, run] at step
        cases step
        exact done
    | realloc owned small =>
        obtain ⟨⟨r, h'⟩, run, done⟩ := compact.realloc unchecked rep owns owned small
        simp only [Client.serve, run] at step
        cases step
        exact done
    | write owned inside =>
        cases step
        exact compact.write rep owns _ owned inside

/-- In every state of every run a live pointer last asked for with `s` lies in
a block of `ALIGN(s) + 8` or `ALIGN(s) + 16` bytes. -/
theorem fragmentation_bounded (reached : (Client.runs lo).Reachable c) :
    ∀ p s, (p, s) ∈ c.live → ∃ size, getSize (hdrp p) c.heap = some (size, c.heap) ∧
      (size = align s + DSIZE ∨ size = align s + 2 * DSIZE) := by
  intro p s member
  obtain ⟨-, bs, fl, rep, owns⟩ := Serving.of_reachable reached
  obtain ⟨d, at_, -, fits⟩ := owns.backed p s member
  have limit := rep.consistent.layout.size_lt at_
  have tight := rep.consistent.layout.size_of_snug at_ (Compact.of_reachable reached p s member)
  refine ⟨d.size, rep.consistent.layout.getSize_hdrp at_, ?_⟩
  rw [align_eq (by omega)]
  unfold DSIZE
  omega

/-- The block of a client that has asked for 20 bytes. -/
theorem fragmentation_bounded_asking :
    ∃ size, getSize (hdrp 4120) askingClient.heap = some (size, askingClient.heap) ∧
      (size = align 20 + DSIZE ∨ size = align 20 + 2 * DSIZE) := by
  exact fragmentation_bounded askingClient_reachable 4120 20 (by simp [askingClient_live])

end Runs

end SysProg.Malloc

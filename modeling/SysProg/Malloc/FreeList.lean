import SysProg.Logic.LinkedNodes
import SysProg.Malloc.Layout

/-!
# The explicit free list

The free list is threaded through the first two words of its blocks and ends
at the prologue.  `Consistent` adds to a layout that the list is linked and
that its nodes are free blocks; it says nothing yet about free blocks outside
the list, because the routines pass through states where one is missing.
-/

namespace SysProg.Malloc

open Logic

/-- The list from `root_bp` to `prol_bp`, linked both ways. -/
structure FreeList (h : Heap) (fl : List Nat) : Prop where
  root : h.rootBp = fl.headD h.prolBp
  linked : Linked (fun x => word h.mem x) (fun x => word h.mem (x + 4)) (fl ++ [h.prolBp])
  nodup : fl.Nodup

/-- The block at `x` is one of the blocks `bs` and is free. -/
def FreeAt (start : Nat) (bs : List Block) (x : Nat) : Prop :=
  ∃ b, (x, b) ∈ located (start + 8) bs ∧ b.alloc = false

/-- A well laid out heap whose free list runs through free blocks only. -/
structure Threaded (lo : Nat) (h : Heap) (bs : List Block) (fl : List Nat) : Prop where
  layout : Layout lo h bs
  list : FreeList h fl
  free : ∀ x ∈ fl, FreeAt lo bs x

/-- Moreover the first node, or the prologue of an empty list, has no predecessor. -/
structure Consistent (lo : Nat) (h : Heap) (bs : List Block) (fl : List Nat) : Prop
    extends Threaded lo h bs fl where
  first : word h.mem (h.rootBp + 4) = 0

/-- The bytes that the holders of the allocated blocks may use. -/
def ClientByte (start : Nat) (bs : List Block) (i : Nat) : Prop :=
  ∃ x b, (x, b) ∈ located (start + 8) bs ∧ b.alloc = true ∧ x ≠ start + 8 ∧
    x ≤ i ∧ i < x + b.size - 8

/-- The parts of the state that no routine changes. -/
structure SameArena (h h' : Heap) : Prop where
  start : h'.memStartBrk = h.memStartBrk
  limit : h'.memMaxAddr = h.memMaxAddr
  checked : h'.checked = h.checked

theorem SameArena.refl (h : Heap) : SameArena h h := ⟨rfl, rfl, rfl⟩

theorem SameArena.trans {h h' h'' : Heap} (first : SameArena h h') (second : SameArena h' h'') :
    SameArena h h'' :=
  ⟨second.start.trans first.start, second.limit.trans first.limit,
    second.checked.trans first.checked⟩

/-- A heap that is consistent with the blocks `bs` and the list `fl`, reached
without touching the client bytes of the blocks `kept`. -/
structure Updated (lo : Nat) (h : Heap) (kept : List Block) (h' : Heap) (bs : List Block)
    (fl : List Nat) : Prop where
  arena : SameArena h h'
  consistent : Consistent lo h' bs fl
  keeps : ∀ i, ClientByte lo kept i → h'.mem i = h.mem i

namespace ClientByte

/-- Client bytes depend only on the allocated blocks. -/
theorem mono {start i : Nat} {bs bs' : List Block} (byte : ClientByte start bs i)
    (sub : ∀ x b, b.alloc = true → (x, b) ∈ located (start + 8) bs →
      (x, b) ∈ located (start + 8) bs') : ClientByte start bs' i := by
  obtain ⟨x, b, at_, taken, rest⟩ := byte
  exact ⟨x, b, sub x b taken at_, taken, rest⟩

end ClientByte

namespace Updated

theorem refl {lo : Nat} {h : Heap} {bs : List Block} {fl : List Nat} (c : Consistent lo h bs fl) :
    Updated lo h bs h bs fl :=
  ⟨.refl h, c, fun _ _ => rfl⟩

theorem trans {lo : Nat} {h h' h'' : Heap} {kept kept' bs bs' : List Block} {fl fl' : List Nat}
    (first : Updated lo h kept h' bs fl) (second : Updated lo h' kept' h'' bs' fl')
    (sub : ∀ x b, b.alloc = true → (x, b) ∈ located (lo + 8) kept →
      (x, b) ∈ located (lo + 8) kept') : Updated lo h kept h'' bs' fl' where
  arena := first.arena.trans second.arena
  consistent := second.consistent
  keeps i byte := by
    have later := second.keeps i (byte.mono sub)
    exact later.trans (first.keeps i byte)

/-- Fewer blocks may be promised to be kept. -/
theorem weaken {lo : Nat} {h h' : Heap} {kept kept' bs : List Block} {fl : List Nat}
    (u : Updated lo h kept' h' bs fl)
    (sub : ∀ x b, b.alloc = true → (x, b) ∈ located (lo + 8) kept →
      (x, b) ∈ located (lo + 8) kept') : Updated lo h kept h' bs fl where
  arena := u.arena
  consistent := u.consistent
  keeps i byte := u.keeps i (byte.mono sub)

end Updated

namespace Threaded

variable {lo : Nat} {h : Heap} {bs : List Block} {fl : List Nat}

theorem prol_not_free (c : Threaded lo h bs fl) : h.prolBp ∉ fl := by
  intro member
  obtain ⟨b, at_, free⟩ := c.free _ member
  have same := located_unique at_ c.layout.prologue_at
  rw [same] at free
  cases free

/-- A node is a list element or the prologue; either way it is a block. -/
theorem node_at (c : Threaded lo h bs fl) {x : Nat} (member : x ∈ fl ++ [h.prolBp]) :
    ∃ b, (x, b) ∈ located (lo + 8) bs ∧ (b.alloc = true → x = h.prolBp) := by
  rcases List.mem_append.mp member with inList | last
  · obtain ⟨b, at_, free⟩ := c.free x inList
    exact ⟨b, at_, fun taken => by rw [free] at taken; cases taken⟩
  · rw [List.mem_singleton] at last
    subst last
    exact ⟨prologue, c.layout.prologue_at, fun _ => rfl⟩

theorem node_aligned (c : Threaded lo h bs fl) {x : Nat} (member : x ∈ fl ++ [h.prolBp]) :
    x % 8 = 0 := by
  obtain ⟨b, at_, -⟩ := c.node_at member
  exact c.layout.aligned at_

/-- The two link words of a node lie inside the heap. -/
theorem node_inside (c : Threaded lo h bs fl) {x : Nat} (member : x ∈ fl ++ [h.prolBp]) :
    h.memStartBrk + 8 ≤ x ∧ x + 16 ≤ h.memBrk := by
  obtain ⟨b, at_, -⟩ := c.node_at member
  have start := c.layout.start_eq
  have bounds := c.layout.bounds at_
  have large := b.size_ge
  omega

theorem nodes_nodup (c : Threaded lo h bs fl) : (fl ++ [h.prolBp]).Nodup := by
  rw [List.nodup_append]
  refine ⟨c.list.nodup, by simp, ?_⟩
  intro x inList y last same
  rw [List.mem_singleton] at last
  subst last same
  exact c.prol_not_free inList

theorem root_mem (c : Threaded lo h bs fl) : h.rootBp ∈ fl ++ [h.prolBp] := by
  rw [c.list.root]
  cases fl <;> simp

/-- Reading and writing a link word of a node. -/
theorem wp_getLink (c : Threaded lo h bs fl) {x a : Nat} (member : x ∈ fl ++ [h.prolBp])
    (link : a = x ∨ a = x + 4) (post : Nat → Heap → Prop) :
    wp (getWord a) post h ↔ post (word h.mem a) h := by
  have inside := c.node_inside member
  exact wp_getWord _ (by omega)

end Threaded

/-- A memory that differs from the heap's only in link words: the boundary
tags and the client bytes are as they were. -/
structure LinkEdit (lo : Nat) (h : Heap) (bs : List Block) (m : Mem) : Prop where
  layout : Layout lo (h.withMem m) bs
  keeps : ∀ i, ClientByte lo bs i → m i = h.mem i

namespace LinkEdit

variable {lo : Nat} {h : Heap} {bs : List Block} {m : Mem}

theorem refl (layout : Layout lo h bs) : LinkEdit lo h bs h.mem := ⟨layout, fun _ _ => rfl⟩

/-- A store into a link word of a free block or of the prologue. -/
theorem store (edit : LinkEdit lo h bs m) {x a v : Nat}
    (at_ : ∃ b, (x, b) ∈ located (lo + 8) bs ∧ (b.alloc = true → x = h.prolBp))
    (link : a = x ∨ a = x + 4) : LinkEdit lo h bs (setWord m a v) := by
  obtain ⟨b, at_, role⟩ := at_
  have large := b.size_ge
  have bounds := edit.layout.bounds at_
  simp only [Heap.withMem_memBrk] at bounds
  refine ⟨edit.layout.congr ?_ ?_, ?_⟩
  · intro y d other
    have wide := d.size_ge
    have start := (edit.layout.bounds other).1
    have apart := located_disjoint at_ other
    refine (edit.layout.tags y d other).congr ?_ ?_
    · exact setWord_agreeOn (by omega)
    · refine setWord_agreeOn ?_
      rcases apart with ⟨rfl, rfl⟩ | below | above <;> omega
  · have epilogue := edit.layout.epilogue
    rw [Heap.withMem_mem, Heap.withMem_memBrk] at epilogue
    rw [Heap.withMem_memBrk, word_setWord_ne (by omega)]
    exact epilogue
  · intro i byte
    have old := edit.keeps i byte
    obtain ⟨y, d, other, taken, notFirst, lower, upper⟩ := byte
    have outside : i < a ∨ a + 4 ≤ i := by
      rcases located_disjoint at_ other with ⟨rfl, rfl⟩ | below | above
      · have prol := edit.layout.prol_eq
        have same := role taken
        simp only [Heap.withMem_prolBp] at prol
        omega
      · omega
      · omega
    rw [setWord_outside outside]
    exact old

end LinkEdit

theorem Layout.withRoot {lo : Nat} {h : Heap} {bs : List Block} (layout : Layout lo h bs) (root : Nat) :
    Layout lo { h with rootBp := root } bs :=
  ⟨layout.start_eq, layout.start_aligned, layout.limit, layout.brk_le, layout.brk_eq,
    layout.prol_eq, layout.head, layout.tags, layout.epilogue⟩

/-- The list without its first node and with a new root. -/
theorem LinkEdit.updated {lo : Nat} {h : Heap} {bs : List Block} {m : Mem} (edit : LinkEdit lo h bs m)
    {fl : List Nat} (root : Nat) (list : FreeList { h.withMem m with rootBp := root } fl)
    (first : word m (root + 4) = 0) (free : ∀ x ∈ fl, FreeAt lo bs x) :
    Updated lo h bs { h.withMem m with rootBp := root } bs fl where
  arena := ⟨rfl, rfl, rfl⟩
  consistent := ⟨⟨edit.layout.withRoot root, list, free⟩, first⟩
  keeps := edit.keeps

/-! ## Unlinking -/

/-- `cut_out` of the root makes the second node the root. -/
theorem wp_cutOut_root {lo : Nat} {h : Heap} {bs : List Block} {bp : Nat} {rest : List Nat}
    (c : Consistent lo h bs (bp :: rest)) :
    wp (cutOut bp) (fun _ h' => Updated lo h bs h' bs rest) h := by
  have rootEq : h.rootBp = bp := c.list.root
  have nodup := c.nodes_nodup
  obtain ⟨y, back, split⟩ : ∃ y back, rest ++ [h.prolBp] = y :: back := by
    cases rest <;> simp
  have linked := c.list.linked
  simp only [List.cons_append, split] at linked nodup
  have next : word h.mem bp = y := linked.1
  have nodes : ∀ z ∈ y :: back, z ∈ (bp :: rest) ++ [h.prolBp] := by
    intro z member
    rw [List.cons_append, split]
    exact List.mem_cons_of_mem _ member
  have yMem := nodes y List.mem_cons_self
  have inside := c.node_inside yMem
  simp only [cutOut, succp, predp, WSIZE, nextFreeblkp, wp_bind, wp_ite, wp_rootBp, rootEq,
    if_true]
  rw [c.wp_getLink (x := bp) (by simp) (.inl rfl), next, wp_setRootBp,
    wp_putWord _ (by simp; omega)]
  have edit : LinkEdit lo h bs (setWord h.mem (y + 4) 0) :=
    (LinkEdit.refl c.layout).store (c.node_at yMem) (.inr rfl)
  refine edit.updated y ⟨?_, ?_, ?_⟩ (by simp) ?_
  · cases rest with
    | nil => cases split; rfl
    | cons first tail => cases split; rfl
  · simp only [Heap.withMem_prolBp, Heap.withMem_mem, split]
    refine linked.dropFirst ?_ ?_
    · intro z member
      have aligned := c.node_aligned (nodes z member)
      have aligned' := c.node_aligned yMem
      exact word_setWord_ne (by omega)
    · intro z member
      have aligned := c.node_aligned (nodes z (List.mem_cons_of_mem _ member))
      have aligned' := c.node_aligned yMem
      have differ : z ≠ y := by
        rintro rfl
        simp only [List.nodup_cons] at nodup
        exact nodup.2.1 member
      exact word_setWord_ne (by omega)
  · exact (List.nodup_cons.mp c.list.nodup).2
  · intro x member
    exact c.free x (List.mem_cons_of_mem _ member)

/-- A node behind the first one is not the root. -/
theorem root_ne {front tail rest : List Nat} {x z root last : Nat}
    (nodup : (front ++ x :: tail).Nodup)
    (isRoot : root = (front ++ x :: rest).headD last) (behind : z ∈ tail) : root ≠ z := by
  rintro rfl
  cases front with
  | nil =>
      obtain rfl : root = x := isRoot
      exact (List.nodup_cons.mp nodup).1 behind
  | cons first init =>
      obtain rfl : root = first := isRoot
      exact (List.nodup_cons.mp nodup).1 (List.mem_append_right _ (List.mem_cons_of_mem _ behind))

/-- `cut_out` of an inner node joins its two neighbours. -/
theorem wp_cutOut_inner {lo : Nat} {h : Heap} {bs : List Block} {x bp : Nat} {front rest : List Nat}
    (c : Consistent lo h bs (front ++ x :: bp :: rest)) :
    wp (cutOut bp) (fun _ h' => Updated lo h bs h' bs (front ++ x :: rest)) h := by
  have nodup := c.nodes_nodup
  obtain ⟨y, back, split⟩ : ∃ y back, rest ++ [h.prolBp] = y :: back := by
    cases rest <;> simp
  have whole : front ++ x :: bp :: rest ++ [h.prolBp] = front ++ x :: bp :: y :: back := by
    simp [split]
  have linked := c.list.linked
  rw [whole] at linked nodup
  have around := ((linked_append front x (bp :: y :: back)).mp linked).2
  have prevLink : word h.mem (bp + 4) = x := around.2.1
  have nextLink : word h.mem bp = y := around.2.2.1
  have nodes : ∀ z ∈ front ++ x :: bp :: y :: back, z % 8 = 0 := by
    intro z member
    exact c.node_aligned (by rw [whole]; exact member)
  have xMem : x ∈ front ++ x :: bp :: rest ++ [h.prolBp] := by simp
  have bpMem : bp ∈ front ++ x :: bp :: rest ++ [h.prolBp] := by simp
  have yMem : y ∈ front ++ x :: bp :: rest ++ [h.prolBp] := by rw [whole]; simp
  have xAligned := c.node_aligned xMem
  have bpAligned := c.node_aligned bpMem
  have yAligned := c.node_aligned yMem
  have xInside := c.node_inside xMem
  have bpInside := c.node_inside bpMem
  have yInside := c.node_inside yMem
  have notRoot : bp ≠ h.rootBp := (root_ne nodup c.list.root List.mem_cons_self).symm
  have xNe : bp ≠ x := by
    rintro rfl
    simp [List.nodup_append] at nodup
  have first : word (setWord h.mem x y) bp = y := by
    rw [word_setWord_ne (by omega)]
    exact nextLink
  have second : word (setWord h.mem x y) (bp + 4) = x := by
    rw [word_setWord_ne (by omega)]
    exact prevLink
  simp only [cutOut, succp, predp, WSIZE, nextFreeblkp, prevFreeblkp, wp_bind, wp_ite, wp_rootBp,
    if_neg notRoot]
  rw [wp_getWord _ (by omega), prevLink, wp_getWord _ (by omega), nextLink,
    wp_putWord _ (by omega), wp_getWord _ (by simp; omega), Heap.withMem_mem, first,
    wp_getWord _ (by simp; omega), Heap.withMem_mem, second, wp_putWord _ (by simp; omega),
    Heap.withMem_withMem, Heap.withMem_mem]
  have edit : LinkEdit lo h bs (setWord (setWord h.mem x y) (y + 4) x) :=
    ((LinkEdit.refl c.layout).store (c.node_at xMem) (.inl rfl)).store (c.node_at yMem) (.inr rfl)
  have firstLink : word (setWord (setWord h.mem x y) (y + 4) x) (h.rootBp + 4) = 0 := by
    have rootAligned := c.node_aligned c.root_mem
    have rootNe : h.rootBp ≠ y := root_ne nodup c.list.root (by simp)
    rw [word_setWord_ne (by omega), word_setWord_ne (by omega)]
    exact c.first
  refine edit.updated h.rootBp ⟨?_, ?_, ?_⟩ firstLink ?_
  · have root := c.list.root
    cases front <;> exact root
  · have joined : front ++ x :: rest ++ [h.prolBp] = front ++ x :: y :: back := by simp [split]
    have fits : x < 2 ^ 32 ∧ y < 2 ^ 32 := by
      have small := c.layout.brk_lt
      omega
    simp only [Heap.withMem_prolBp, Heap.withMem_mem, joined]
    refine linked.unlink nodup ?_ ?_ ?_ ?_
    · rw [word_setWord_ne (by omega), word_setWord_same, Nat.mod_eq_of_lt fits.2]
    · rw [word_setWord_same, Nat.mod_eq_of_lt fits.1]
    · intro z member differ
      have aligned := nodes z member
      rw [word_setWord_ne (by omega), word_setWord_ne (by omega)]
    · intro z member differ
      have aligned := nodes z member
      rw [word_setWord_ne (by omega), word_setWord_ne (by omega)]
  · have distinct := c.list.nodup
    simp only [List.nodup_append, List.nodup_cons, List.mem_cons] at distinct ⊢
    grind
  · intro z member
    refine c.free z ?_
    simp only [List.mem_append, List.mem_cons] at member ⊢
    tauto

/-- `cut_out` removes exactly its argument from the free list. -/
theorem wp_cutOut {lo : Nat} {h : Heap} {bs : List Block} {fl : List Nat} {bp : Nat}
    (c : Consistent lo h bs fl) (member : bp ∈ fl) :
    wp (cutOut bp) (fun _ h' => Updated lo h bs h' bs (fl.erase bp)) h := by
  obtain ⟨front, rest, rfl⟩ := List.append_of_mem member
  have distinct := c.list.nodup
  have absent : bp ∉ front := by
    intro inFront
    simp only [List.nodup_append] at distinct
    exact distinct.2.2 bp inFront bp List.mem_cons_self rfl
  rw [List.erase_append_right _ absent, List.erase_cons_head]
  rcases List.eq_nil_or_concat front with rfl | ⟨init, x, rfl⟩
  · exact wp_cutOut_root c
  · simp only [List.concat_eq_append, List.append_assoc, List.singleton_append] at c ⊢
    exact wp_cutOut_inner c

/-! ## Linking in -/

/-- `set_root` puts a free block outside the list in front of it. -/
theorem wp_setRoot {lo : Nat} {h : Heap} {bs : List Block} {fl : List Nat} {bp : Nat}
    (c : Threaded lo h bs fl) (free : FreeAt lo bs bp) (absent : bp ∉ fl) :
    wp (setRoot bp) (fun r h' => r = bp ∧ Updated lo h bs h' bs (bp :: fl)) h := by
  obtain ⟨b, at_, isFree⟩ := free
  have start := c.layout.start_eq
  have bpBounds := c.layout.bounds at_
  have bpAligned := c.layout.aligned at_
  have large := b.size_ge
  have bpNode : ∃ b, (bp, b) ∈ located (lo + 8) bs ∧
      (b.alloc = true → bp = h.prolBp) :=
    ⟨b, at_, fun taken => by rw [isFree] at taken; cases taken⟩
  obtain ⟨root, back, split⟩ : ∃ root back, fl ++ [h.prolBp] = root :: back := by
    cases fl <;> simp
  have rootEq : h.rootBp = root := by
    rw [c.list.root]
    cases fl <;> (cases split; rfl)
  have rootMem : root ∈ fl ++ [h.prolBp] := by rw [split]; exact List.mem_cons_self
  have rootAligned := c.node_aligned rootMem
  have rootInside := c.node_inside rootMem
  have notNode : bp ∉ fl ++ [h.prolBp] := by
    intro member
    rcases List.mem_append.mp member with inList | last
    · exact absent inList
    · rw [List.mem_singleton] at last
      subst last
      have same := located_unique at_ c.layout.prologue_at
      rw [same] at isFree
      cases isFree
  have notRoot : bp ≠ root := fun same => notNode (same ▸ rootMem)
  have fits : bp < 2 ^ 32 ∧ root < 2 ^ 32 := by
    have small := c.layout.brk_lt
    omega
  simp only [setRoot, succp, predp, WSIZE, wp_bind, wp_ite, wp_rootBp, rootEq, if_neg notRoot]
  rw [wp_putWord _ (by omega), Heap.withMem_rootBp, rootEq, wp_putWord _ (by simp; omega),
    wp_putWord _ (by simp; omega)]
  simp only [Heap.withMem_mem, Heap.withMem_withMem, wp_setRootBp, wp_pure, true_and]
  have edit : LinkEdit lo h bs
      (setWord (setWord (setWord h.mem (root + 4) bp) bp root) (bp + 4) 0) :=
    (((LinkEdit.refl c.layout).store (c.node_at rootMem) (.inr rfl)).store bpNode
      (.inl rfl)).store bpNode (.inr rfl)
  refine edit.updated bp ⟨rfl, ?_, List.nodup_cons.mpr ⟨absent, c.list.nodup⟩⟩ (by simp) ?_
  · have linked := c.list.linked
    rw [split] at linked
    simp only [Heap.withMem_prolBp, Heap.withMem_mem, List.cons_append, split]
    have others : ∀ z ∈ root :: back, z % 8 = 0 ∧ z ≠ bp := by
      intro z member
      rw [← split] at member
      exact ⟨c.node_aligned member, fun same => notNode (same ▸ member)⟩
    refine linked.pushFront ?_ ?_ ?_ ?_
    · rw [word_setWord_ne (by omega), word_setWord_same, Nat.mod_eq_of_lt fits.2]
    · rw [word_setWord_ne (by omega), word_setWord_ne (by omega), word_setWord_same,
        Nat.mod_eq_of_lt fits.1]
    · intro z member
      have apart := others z member
      rw [word_setWord_ne (by omega), word_setWord_ne (by omega), word_setWord_ne (by omega)]
    · intro z member
      have apart := others z (List.mem_cons_of_mem _ member)
      have differ : z ≠ root := by
        rintro rfl
        have nodup := c.nodes_nodup
        rw [split] at nodup
        exact (List.nodup_cons.mp nodup).1 member
      rw [word_setWord_ne (by omega), word_setWord_ne (by omega), word_setWord_ne (by omega)]
  · intro z member
    rcases List.mem_cons.mp member with rfl | inList
    · exact ⟨b, at_, isFree⟩
    · exact c.free z inList

/-! ## Rewriting boundary tags under a free list -/

/-- The list depends only on the link words of its nodes. -/
theorem FreeList.congr {h : Heap} {fl : List Nat} {m : Mem} (list : FreeList h fl)
    (links : ∀ x ∈ fl ++ [h.prolBp], AgreeOn h.mem m x (x + 8)) :
    FreeList (h.withMem m) fl where
  root := list.root
  linked := list.linked.congr_all fun z member =>
    ⟨word_congr ((links z member).mono (by omega) (by omega)),
      word_congr ((links z member).mono (by omega) (by omega))⟩
  nodup := list.nodup

/-- Another cut of the middle part of the heap, where the middle part holds no
node of the free list and none of the kept payloads. -/
theorem Consistent.retag {lo : Nat} {h : Heap} {front mid back : List Block} {fl : List Nat} {m : Mem}
    (c : Consistent lo h (front ++ mid ++ back) fl) (mid' midKept : List Block) (behind : front ≠ [])
    (sameSpan : span mid' = span mid) (keptSpan : span midKept = span mid)
    (unkept : ∀ b ∈ midKept, b.alloc = false)
    (outside : ∀ i, i < lo + 8 + span front - 4 ∨
      lo + 8 + span front + span mid - 4 ≤ i → m i = h.mem i)
    (tagged : ∀ x b, (x, b) ∈ located (lo + 8 + span front) mid' → Tagged m x b)
    (apart : ∀ x ∈ fl, x < lo + 8 + span front ∨
      lo + 8 + span front + span mid ≤ x) :
    Updated lo h (front ++ midKept ++ back) (h.withMem m) (front ++ mid' ++ back) fl := by
  have frontOrBack : ∀ x d, (x, d) ∈ located (lo + 8) (front ++ mid ++ back) →
      (x < lo + 8 + span front ∨ lo + 8 + span front + span mid ≤ x) →
      (x, d) ∈ located (lo + 8) front ∨
        (x, d) ∈ located (lo + 8 + span front + span mid) back := by
    intro x d at_ sides
    have large := d.size_ge
    simp only [located_append, List.mem_append, span_append, ← Nat.add_assoc] at at_
    rcases at_ with (inFront | inMid) | inBack
    · exact .inl inFront
    · have bounds := located_bounds inMid
      omega
    · exact .inr inBack
  have prolBefore : h.prolBp < lo + 8 + span front := by
    have prol := c.layout.prol_eq
    cases front with
    | nil => exact absurd rfl behind
    | cons first rest =>
        have large := first.size_ge
        simp only [span_cons]
        omega
  have links : ∀ x ∈ fl ++ [h.prolBp], AgreeOn h.mem m x (x + 8) := by
    intro x node i lower upper
    obtain ⟨d, at_, -⟩ := c.node_at node
    have large := d.size_ge
    have sides : x < lo + 8 + span front ∨
        lo + 8 + span front + span mid ≤ x := by
      rcases List.mem_append.mp node with inList | last
      · exact apart x inList
      · rw [List.mem_singleton] at last
        exact .inl (last ▸ prolBefore)
    rcases frontOrBack x d at_ sides with inFront | inBack
    · have bounds := located_bounds inFront
      exact outside i (by omega)
    · have bounds := located_bounds inBack
      exact outside i (by omega)
  refine ⟨⟨rfl, rfl, rfl⟩, ⟨⟨c.layout.replace behind sameSpan outside tagged,
    c.list.congr links, ?_⟩, ?_⟩, ?_⟩
  · intro x member
    obtain ⟨d, at_, free⟩ := c.free x member
    refine ⟨d, ?_, free⟩
    simp only [located_append, List.mem_append, span_append, sameSpan,
      ← Nat.add_assoc]
    rcases frontOrBack x d at_ (apart x member) with inFront | inBack
    · exact .inl (.inl inFront)
    · exact .inr inBack
  · have same : word m (h.rootBp + 4) = word h.mem (h.rootBp + 4) :=
      word_congr ((links _ c.root_mem).mono (by omega) (by omega))
    exact same.trans c.first
  · rintro i ⟨x, d, at_, taken, -, lower, upper⟩
    simp only [located_append, List.mem_append, span_append, keptSpan, ← Nat.add_assoc] at at_
    rcases at_ with (inFront | inMid) | inBack
    · have bounds := located_bounds inFront
      exact outside i (by omega)
    · obtain ⟨before, after, split, -⟩ := mem_located_iff.mp inMid
      have free := unkept d (by rw [split]; simp)
      rw [free] at taken
      cases taken
    · have bounds := located_bounds inBack
      exact outside i (by omega)

end SysProg.Malloc

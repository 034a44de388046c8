import SysProg.Malloc.Client

/-!
# Walking the heap and the free list

The guarantees of the allocator in terms of its own macros: `NEXT_BLKP` walks
from the prologue over adjacent blocks to the epilogue, `SUCC` walks from the
root to the prologue, and `PRED` walks back.
-/

namespace SysProg.Malloc

open Logic

/-- `NEXT_BLKP` leads from a block pointer over adjacent blocks to the epilogue
in the last word below the break. -/
inductive BlockWalk (h : Heap) : Nat → List Nat → Prop where
  | epilogue (size : getSize (hdrp h.memBrk) h = some (0, h))
      (alloc : getAlloc (hdrp h.memBrk) h = some (1, h)) : BlockWalk h h.memBrk []
  | block {bp size footer : Nat} {rest : List Nat}
      (sized : getSize (hdrp bp) h = some (size, h)) (large : 16 ≤ size) (aligned : size % 8 = 0)
      (tail : ftrp bp h = some (footer, h)) (last : footer + 8 = bp + size)
      (tags : word h.mem (hdrp bp) = word h.mem footer)
      (adjacent : nextBlkp bp h = some (bp + size, h))
      (walk : BlockWalk h (bp + size) rest) : BlockWalk h bp (bp :: rest)

/-- The blocks of a walk are determined by the heap. -/
theorem BlockWalk.unique {h : Heap} {bp : Nat} {blocks blocks' : List Nat}
    (walk : BlockWalk h bp blocks) (walk' : BlockWalk h bp blocks') : blocks = blocks' := by
  induction walk generalizing blocks' with
  | epilogue size alloc =>
      cases walk' with
      | epilogue _ _ => rfl
      | block sized large _ _ _ _ _ _ =>
          rw [size] at sized
          cases sized
          omega
  | block sized large _ _ _ _ adjacent _ ih =>
      cases walk' with
      | epilogue size _ =>
          rw [size] at sized
          cases sized
          omega
      | block sized' _ _ _ _ _ _ walk' =>
          rw [sized] at sized'
          cases sized'
          rw [ih walk']

/-- The blocks tile the heap from the prologue to the epilogue. -/
structure WellFormed (h : Heap) : Prop where
  second : hdrp h.prolBp = h.memStartBrk + 4
  prologueSize : getSize (hdrp h.prolBp) h = some (16, h)
  prologueAlloc : getAlloc (hdrp h.prolBp) h = some (1, h)
  tiled : ∃ blocks, BlockWalk h h.prolBp blocks

/-- `SUCC` leads from a node to the prologue. -/
inductive SuccWalk (h : Heap) : Nat → List Nat → Prop where
  | prologue : SuccWalk h h.prolBp []
  | node {bp next : Nat} {rest : List Nat} (inner : bp ≠ h.prolBp)
      (succ : nextFreeblkp bp h = some (next, h)) (walk : SuccWalk h next rest) :
      SuccWalk h bp (bp :: rest)

/-- `PRED` leads from a node to null. -/
inductive PredWalk (h : Heap) : Nat → List Nat → Prop where
  | null : PredWalk h NULL []
  | node {bp prev : Nat} {rest : List Nat} (inner : bp ≠ NULL)
      (pred : prevFreeblkp bp h = some (prev, h)) (walk : PredWalk h prev rest) :
      PredWalk h bp (bp :: rest)

section

variable {lo : Nat} {h : Heap} {bs : List Block} {fl : List Nat}

/-- A run of tagged blocks that ends at the break is walked by `NEXT_BLKP`. -/
theorem blockWalk_of_tags {a : Nat} (low : h.memStartBrk + 4 ≤ a) (brk : h.memBrk = a + span bs)
    (limit : h.memBrk < 2 ^ 32) (tags : ∀ x b, (x, b) ∈ located a bs → Tagged h.mem x b)
    (epilogue : word h.mem (h.memBrk - 4) = 1) : BlockWalk h a (pointers a bs) := by
  induction bs generalizing a with
  | nil =>
      obtain rfl : a = h.memBrk := brk.symm
      have masked : 1 &&& sizeMask = 0 := by decide
      have bit : 1 &&& 1 = 1 := by decide
      refine .epilogue (run_of_wp ?_) (run_of_wp ?_)
      · simp only [getSize, hdrp, WSIZE, wp_bind, wp_pure]
        rw [wp_getWord _ (by omega), epilogue, masked]
        exact ⟨rfl, rfl⟩
      · simp only [getAlloc, hdrp, WSIZE, wp_bind, wp_pure]
        rw [wp_getWord _ (by omega), epilogue, bit]
        exact ⟨rfl, rfl⟩
  | cons b back ih =>
      have large := b.size_ge
      simp only [span_cons] at brk
      have at_ : BlockAt h a b := ⟨low, by omega, limit, tags a b List.mem_cons_self⟩
      have rest := ih (by omega) (by omega) fun x d later => tags x d (List.mem_cons_of_mem _ later)
      exact .block (run_of_wp ((at_.wp_getSize_hdrp _).mpr ⟨rfl, rfl⟩)) large b.aligned
        (run_of_wp ((at_.wp_ftrp _).mpr ⟨rfl, rfl⟩)) (by omega)
        (at_.tagged.1.trans at_.tagged.2.symm)
        (run_of_wp ((at_.wp_nextBlkp _).mpr ⟨rfl, rfl⟩)) rest

/-- A layout is walked by `NEXT_BLKP` from the prologue on. -/
theorem Layout.blockWalk (layout : Layout lo h bs) :
    BlockWalk h h.prolBp (pointers (lo + 8) bs) := by
  have start := layout.start_eq
  rw [layout.prol_eq]
  exact blockWalk_of_tags (by omega) layout.brk_eq layout.brk_lt layout.tags layout.epilogue

theorem Layout.wellFormed (layout : Layout lo h bs) : WellFormed h where
  second := by
    have start := layout.start_eq
    have prol := layout.prol_eq
    unfold hdrp WSIZE
    omega
  prologueSize := layout.getSize_hdrp layout.prologue_at
  prologueAlloc := layout.getAlloc_hdrp layout.prologue_at
  tiled := ⟨_, layout.blockWalk⟩

namespace Threaded

/-- The link words of a node are read without failing. -/
theorem nextFreeblkp_eq (c : Threaded lo h bs fl) {x : Nat} (node : x ∈ fl ++ [h.prolBp]) :
    nextFreeblkp x h = some (word h.mem x, h) :=
  run_of_wp ((c.wp_getLink node (.inl rfl) _).mpr ⟨rfl, rfl⟩)

theorem prevFreeblkp_eq (c : Threaded lo h bs fl) {x : Nat} (node : x ∈ fl ++ [h.prolBp]) :
    prevFreeblkp x h = some (word h.mem (x + 4), h) :=
  run_of_wp ((c.wp_getLink node (.inr rfl) _).mpr ⟨rfl, rfl⟩)

/-- The free list is walked by `SUCC`, from any of its nodes on. -/
theorem succWalk_from (c : Threaded lo h bs fl) {nodes : List Nat} (sub : ∀ x ∈ nodes, x ∈ fl)
    (linked : Linked (fun x => word h.mem x) (fun x => word h.mem (x + 4))
      (nodes ++ [h.prolBp])) : SuccWalk h (nodes.headD h.prolBp) nodes := by
  induction nodes with
  | nil => exact .prologue
  | cons x nodes ih =>
      have member := sub x List.mem_cons_self
      have inner : x ≠ h.prolBp := by
        rintro rfl
        exact c.prol_not_free member
      have here := c.nextFreeblkp_eq (List.mem_append_left _ member)
      rw [linked.next_eq] at here
      exact .node inner here (ih (fun y inRest => sub y (List.mem_cons_of_mem _ inRest)) linked.tail)

theorem succWalk (c : Threaded lo h bs fl) : SuccWalk h h.rootBp fl := by
  rw [c.list.root]
  exact c.succWalk_from (fun _ member => member) c.list.linked

end Threaded

namespace Consistent

/-- The free list is walked by `PRED`, from any of its nodes or the prologue. -/
theorem predWalk_from (c : Consistent lo h bs fl) {front : List Nat} {x : Nat}
    (sub : ∀ y ∈ front ++ [x], y ∈ fl ++ [h.prolBp])
    (first : (front ++ [x]).head? = some h.rootBp)
    (linked : Linked (fun x => word h.mem x) (fun x => word h.mem (x + 4)) (front ++ [x])) :
    ∃ p, prevFreeblkp x h = some (p, h) ∧ PredWalk h p front.reverse := by
  induction front using List.reverseRecOn generalizing x with
  | nil =>
      cases first
      have here := c.prevFreeblkp_eq c.root_mem
      rw [c.first] at here
      exact ⟨0, here, .null⟩
  | append_singleton init y ih =>
      rw [List.append_assoc] at linked
      obtain ⟨before, -, prev, -⟩ := (linked_append init y [x]).mp linked
      have yMem := sub y (by simp)
      obtain ⟨p, here, walk⟩ := ih (fun z member => sub z (List.mem_append_left _ member))
        (by cases init <;> simpa using first) before
      have inner : y ≠ NULL := by
        have inside := c.node_inside yMem
        unfold NULL
        omega
      have last := c.prevFreeblkp_eq (sub x (by simp))
      simp only at prev
      rw [prev] at last
      rw [List.reverse_append]
      exact ⟨y, last, .node inner here walk⟩

/-- From the prologue `PRED` leads through the free list backwards. -/
theorem predWalk (c : Consistent lo h bs fl) :
    ∃ p, prevFreeblkp h.prolBp h = some (p, h) ∧ PredWalk h p fl.reverse := by
  refine c.predWalk_from (fun _ member => member) ?_ c.list.linked
  rw [c.list.root]
  cases fl <;> rfl

/-- The successor of a list node has it as predecessor. -/
theorem pred_succ (c : Consistent lo h bs fl) {x : Nat} (member : x ∈ fl) :
    ∃ y, nextFreeblkp x h = some (y, h) ∧ prevFreeblkp y h = some (x, h) := by
  obtain ⟨front, rest, rfl⟩ := List.append_of_mem member
  obtain ⟨y, back, split⟩ : ∃ y back, rest ++ [h.prolBp] = y :: back := by
    cases rest <;> simp
  have linked := c.list.linked
  have shape : front ++ x :: rest ++ [h.prolBp] = front ++ x :: y :: back := by simp [split]
  rw [shape, linked_append] at linked
  obtain ⟨-, next, prev, -⟩ := linked
  have xNode : x ∈ front ++ x :: rest ++ [h.prolBp] := by simp
  have yNode : y ∈ front ++ x :: rest ++ [h.prolBp] := by simp [shape]
  have here := c.nextFreeblkp_eq xNode
  have there := c.prevFreeblkp_eq yNode
  simp only at next prev
  rw [next] at here
  rw [prev] at there
  exact ⟨y, here, there⟩

end Consistent

end

/-! ## A heap represents one layout only -/

section Unique

variable {lo : Nat} {h : Heap} {bs bs' : List Block} {fl fl' : List Nat}

/-- The boundary tags determine the blocks of a run. -/
theorem tagged_unique {m : Mem} {a : Nat} (tags : ∀ x b, (x, b) ∈ located a bs → Tagged m x b)
    (tags' : ∀ x b, (x, b) ∈ located a bs' → Tagged m x b) (spans : span bs = span bs') :
    bs = bs' := by
  induction bs generalizing a bs' with
  | nil =>
      cases bs' with
      | nil => rfl
      | cons c rest =>
          have large := c.size_ge
          simp only [span_nil, span_cons] at spans
          omega
  | cons b rest ih =>
      cases bs' with
      | nil =>
          have large := b.size_ge
          simp only [span_nil, span_cons] at spans
          omega
      | cons c rest' =>
          have header := (tags a b List.mem_cons_self).1
          have header' := (tags' a c List.mem_cons_self).1
          obtain rfl := Block.eq_of_tag (header.symm.trans header')
          simp only [span_cons] at spans
          rw [ih (fun x d at_ => tags x d (List.mem_cons_of_mem _ at_))
            (fun x d at_ => tags' x d (List.mem_cons_of_mem _ at_)) (by omega)]

/-- The links determine the nodes of a walk. -/
theorem SuccWalk.unique {bp : Nat} (walk : SuccWalk h bp fl) (walk' : SuccWalk h bp fl') :
    fl = fl' := by
  induction walk generalizing fl' with
  | prologue =>
      cases walk' with
      | prologue => rfl
      | node inner succ walk => exact absurd rfl inner
  | node inner succ walk ih =>
      cases walk' with
      | prologue => exact absurd rfl inner
      | node inner' succ' walk' =>
          rw [succ] at succ'
          cases succ'
          rw [ih walk']

/-- A heap represents at most one list of blocks and one free list. -/
theorem Represents.unique (rep : Represents lo h bs fl) (rep' : Represents lo h bs' fl') :
    bs = bs' ∧ fl = fl' := by
  have layout := rep.consistent.layout
  have layout' := rep'.consistent.layout
  constructor
  · refine tagged_unique layout.tags layout'.tags ?_
    have brk := layout.brk_eq
    have brk' := layout'.brk_eq
    omega
  · exact rep.consistent.succWalk.unique rep'.consistent.succWalk

end Unique

end SysProg.Malloc

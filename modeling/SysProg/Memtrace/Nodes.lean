import SysProg.Logic.Chains
import SysProg.Logic.Runs
import SysProg.Memtrace.Memlist

/-!
# The nodes of the block list

The functions of `memlist.c` on the nodes of the list, behind a dummy node whose
address is the list.  Walking the nodes, they carry out the operations on the
list of the items; the nodes once linked stay in the list.
-/

namespace SysProg.Memtrace

open Logic Logic.Machine

namespace Memlist

/-- `callocp(1, sizeof(item))`, for the address `i` that it returns. -/
def callocp (i : Nat) : Prog (Nodes Item) Unit := allocNode i ⟨⟨0, 0, 0⟩, 0⟩

/-- `new_list`. -/
def newList (i : Nat) : Prog (Nodes Item) Nat := do
  callocp i
  pure i

/-- The part of `alloc` after the search for the first address not below that of
the new node. -/
def place (ptr : Nat) (size : UInt64) (i prev cur : Nat) : Prog (Nodes Item) Nat :=
  if cur = 0 then do
    linkNode prev i
    pure i
  else do
    let node ← readNode cur
    if node.value.ptr = ptr then do
      modifyNode cur fun item => { item with size := size, cnt := item.cnt + 1 }
      freeNode i
      pure cur
    else do
      linkNode i cur
      linkNode prev i
      pure i

/-- `alloc`. -/
def alloc (fuel list ptr : Nat) (size : UInt64) (i : Nat) : Prog (Nodes Item) Nat :=
  if list = 0 then pure 0
  else do
    callocp i
    modifyNode i fun _ => ⟨ptr, size, 1⟩
    let head ← readNode list
    let found ← walk (fun item => item.ptr < ptr) fuel list head.next
    place ptr size i found.1 found.2

/-- `dealloc`. -/
def dealloc (fuel list ptr : Nat) : Prog (Nodes Item) Nat :=
  if list = 0 then pure 0
  else do
    let head ← readNode list
    let found ← walk (fun item => item.ptr ≠ ptr) fuel list head.next
    if found.2 = 0 then pure found.2
    else do
      modifyNode found.2 fun item => { item with cnt := item.cnt - 1 }
      pure found.2

/-- `find`. -/
def find (fuel list ptr : Nat) : Prog (Nodes Item) Nat :=
  if list = 0 then pure 0
  else do
    let head ← readNode list
    let found ← walk (fun item => ptr > item.ptr) fuel list head.next
    if found.2 = 0 then pure 0
    else do
      let node ← readNode found.2
      if node.value.ptr = ptr then pure found.2 else pure 0

/-- A call of a function that changes the list. -/
inductive Call where
  | alloc (ptr : Nat) (size : UInt64) (i : Nat)
  | dealloc (ptr : Nat)

def Call.run (fuel list : Nat) : Call → Prog (Nodes Item) Nat
  | .alloc ptr size i => Memlist.alloc fuel list ptr size i
  | .dealloc ptr => Memlist.dealloc fuel list ptr

/-- The calls on a fresh list at the address `list`. -/
def calls (list : Nat) : Machine (Nodes Item) Call where
  init h := newList list (fun _ => none) = some (list, h)
  step h call h' := ∃ fuel r, call.run fuel list h = some (r, h')

/-- The entries are the nodes behind the dummy node with their items, in the
order of the addresses. -/
structure Lists (list : Nat) (h : Nodes Item) (entries : List (Nat × Item)) : Prop where
  chain : ∃ dummy, Chain h list ((list, dummy) :: entries) 0
  nodup : (list :: entries.map Prod.fst).Nodup
  sorted : Sorted (entries.map Prod.snd)

/-! ## Cut-off runs -/

theorem Call.run_settled (call : Call) (list : Nat) : Settled fun fuel => call.run fuel list := by
  cases call with
  | alloc ptr size i =>
      refine .ite (.const _) (.bind (.const _) fun _ => .bind (.const _) fun _ =>
        .bind (.const _) fun head => .bind (walk_settled _ _ _) fun _ => .const _)
  | dealloc ptr =>
      refine .ite (.const _) (.bind (.const _) fun head =>
        .bind (walk_settled _ _ _) fun _ => .const _)

/-! ## Entries -/

section Entries

variable {before after : List Item} {ptr : Nat} {size : UInt64}

theorem alloc_append (below : ∀ item ∈ before, item.ptr < ptr) :
    Memtrace.alloc (before ++ after) ptr size = before ++ Memtrace.alloc after ptr size := by
  induction before with
  | nil => rfl
  | cons item rest ih =>
      rw [List.cons_append, Memtrace.alloc, if_pos (below item List.mem_cons_self)]
      rw [ih fun i member => below i (List.mem_cons_of_mem _ member), List.cons_append]

theorem dealloc_append (others : ∀ item ∈ before, item.ptr ≠ ptr) :
    Memtrace.dealloc (before ++ after) ptr = before ++ Memtrace.dealloc after ptr := by
  induction before with
  | nil => rfl
  | cons item rest ih =>
      rw [List.cons_append, Memtrace.dealloc, if_neg (others item List.mem_cons_self)]
      rw [ih fun i member => others i (List.mem_cons_of_mem _ member), List.cons_append]

theorem alloc_new {items : List Item} (above : ∀ item ∈ items.head?, ptr < item.ptr) :
    Memtrace.alloc items ptr size = ⟨ptr, size, 1⟩ :: items := by
  cases items with
  | nil => rfl
  | cons item rest =>
      have high := above item rfl
      rw [Memtrace.alloc, if_neg (by omega), if_neg (by omega)]

theorem alloc_found {item : Item} {rest : List Item} (same : item.ptr = ptr) :
    Memtrace.alloc (item :: rest) ptr size =
      { item with size := size, cnt := item.cnt + 1 } :: rest := by
  rw [Memtrace.alloc, if_neg (by omega), if_pos same]

end Entries

/-- The nodes with the addresses of their items. -/
def labels (entries : List (Nat × Item)) : List (Nat × Nat) :=
  entries.map fun e => (e.1, e.2.ptr)

section Listed

variable {list ptr i : Nat} {h : Nodes Item} {entries front back : List (Nat × Item)}
  {size : UInt64} {x : Nat × Item}

theorem Lists.ne_zero (lists : Lists list h entries) : list ≠ 0 := by
  obtain ⟨dummy, chain⟩ := lists.chain
  exact (chain.allocated List.mem_cons_self).1

/-- A free address is not in the list. -/
theorem Lists.fresh (lists : Lists list h entries) (free : h i = none) :
    i ∉ list :: entries.map Prod.fst := by
  obtain ⟨dummy, chain⟩ := lists.chain
  intro member
  have inside : i ∈ ((list, dummy) :: entries).map Prod.fst := member
  obtain ⟨e, old, rfl⟩ := List.mem_map.mp inside
  obtain ⟨-, next, node⟩ := chain.allocated old
  rw [free] at node
  cases node

/-- A node of the list. -/
theorem Lists.node (lists : Lists list h (front ++ x :: back)) :
    x.1 ≠ 0 ∧ h x.1 = some ⟨x.2, firstOf back⟩ := by
  obtain ⟨dummy, chain⟩ := lists.chain
  rw [← List.cons_append] at chain
  exact ⟨chain.middle.2.1, chain.middle.2.2.1⟩

theorem addresses_perm (list : Nat) (front : List (Nat × Item)) (x : Nat × Item)
    (back : List (Nat × Item)) : (list :: (front ++ x :: back).map Prod.fst).Perm
      (x.1 :: list :: (front ++ back).map Prod.fst) :=
  ((List.perm_middle.map Prod.fst).cons list).trans (List.Perm.swap ..)

/-- The other nodes have other addresses. -/
theorem Lists.others (lists : Lists list h (front ++ x :: back)) :
    x.1 ∉ list :: (front ++ back).map Prod.fst :=
  (List.nodup_cons.mp ((addresses_perm list front x back).nodup_iff.mp lists.nodup)).1

/-- The list holds other items, and no node of the old entries is lost. -/
def Becomes (list : Nat) (entries : List (Nat × Item)) (items : List Item) (h' : Nodes Item) :
    Prop :=
  ∃ entries', Lists list h' entries' ∧ entries'.map Prod.snd = items ∧
    (labels entries).Sublist (labels entries')

/-- The node before the place between some entries, which may be the dummy node. -/
theorem Lists.prev (lists : Lists list h (front ++ back)) : ∃ dummy before x,
    Chain h list ((list, dummy) :: (front ++ back)) 0 ∧ (list, dummy) :: front = before ++ [x] ∧
      (front.map Prod.fst).getLastD list = x.1 ∧ h x.1 = some ⟨x.2, firstOf back⟩ := by
  obtain ⟨dummy, chain⟩ := lists.chain
  obtain ⟨before, x, split, last⟩ := exists_last (list, dummy) front
  have whole : (list, dummy) :: (front ++ back) = before ++ x :: back := by
    rw [← List.cons_append, split, List.append_assoc, List.singleton_append]
  exact ⟨dummy, before, x, chain, split, last, (whole ▸ chain).middle.2.2.1⟩

/-- A node that is linked in behind another one lengthens the chain. -/
theorem Lists.link (lists : Lists list h (front ++ back)) (free : h i = none) (notNull : i ≠ 0)
    {dummy value : Item} {before : List (Nat × Item)}
    (chain : Chain h list ((list, dummy) :: (front ++ back)) 0)
    (split : (list, dummy) :: front = before ++ [x]) :
    Chain (Function.update (Function.update h i (some ⟨value, firstOf back⟩)) x.1
      (some ⟨x.2, i⟩)) list ((list, dummy) :: (front ++ (i, value) :: back)) 0 := by
  have joined (rest : List (Nat × Item)) :
      (list, dummy) :: (front ++ rest) = before ++ x :: rest := by
    rw [← List.cons_append, split, List.append_assoc, List.singleton_append]
  have outside : i ∉ (before ++ x :: back).map Prod.fst := by
    rw [← joined]
    exact lists.fresh free
  have distinct : ((before ++ x :: back).map Prod.fst).Nodup := by
    rw [← joined]
    exact lists.nodup
  have apart : i ≠ x.1 := by
    rintro rfl
    exact outside (List.mem_map_of_mem (List.mem_append_right _ List.mem_cons_self))
  rw [joined] at chain ⊢
  refine chain.insert notNull (Function.update_self ..)
    (by rw [Function.update_of_ne apart, Function.update_self]) fun e member => ?_
  have old : e.1 ≠ x.1 := by
    intro address
    rw [(List.perm_middle.map Prod.fst).nodup_iff, List.map_cons, ← address] at distinct
    exact (List.nodup_cons.mp distinct).1 (List.mem_map_of_mem member)
  have older : e.1 ≠ i := by
    rintro rfl
    refine outside (List.mem_map_of_mem ?_)
    exact (List.append_subset.mpr ⟨List.subset_append_left _ _, fun d inside =>
      List.mem_append_right _ (List.mem_cons_of_mem _ inside)⟩) member
  rw [Function.update_of_ne old, Function.update_of_ne older]

/-- The list after a new node before the first address that is not smaller. -/
theorem Lists.insert (lists : Lists list h (front ++ back)) (free : h i = none) (notNull : i ≠ 0)
    {dummy : Item} {before : List (Nat × Item)}
    (chain : Chain h list ((list, dummy) :: (front ++ back)) 0)
    (split : (list, dummy) :: front = before ++ [x])
    (below : ∀ e ∈ front, e.2.ptr < ptr) (above : ∀ e ∈ back.head?, ptr < e.2.ptr) :
    Becomes list (front ++ back) (Memtrace.alloc ((front ++ back).map Prod.snd) ptr size)
      (Function.update (Function.update h i (some ⟨⟨ptr, size, 1⟩, firstOf back⟩)) x.1
        (some ⟨x.2, i⟩)) := by
  have items : (front ++ (i, (⟨ptr, size, 1⟩ : Item)) :: back).map Prod.snd =
      Memtrace.alloc ((front ++ back).map Prod.snd) ptr size := by
    rw [List.map_append, List.map_append, alloc_append (List.forall_mem_map.mpr below), alloc_new]
    · rfl
    · intro item first
      rw [List.head?_map, Option.mem_def, Option.map_eq_some_iff] at first
      obtain ⟨e, member, rfl⟩ := first
      exact above e member
  have distinct := (addresses_perm list front (i, ⟨ptr, size, 1⟩) back).nodup_iff.mpr
    (List.nodup_cons.mpr ⟨lists.fresh free, lists.nodup⟩)
  exact ⟨_, ⟨⟨dummy, lists.link free notNull chain split⟩, distinct,
    items ▸ lists.sorted.alloc ptr size⟩, items,
    ((List.Sublist.refl front).append (List.sublist_cons_self _ back)).map _⟩

/-- The list after a new value in one of its nodes. -/
theorem Lists.modify (lists : Lists list h (front ++ x :: back)) {item : Item}
    (same : item.ptr = x.2.ptr) : Becomes list (front ++ x :: back)
      (front.map Prod.snd ++ item :: back.map Prod.snd)
      (Function.update h x.1 (some ⟨item, firstOf back⟩)) := by
  obtain ⟨dummy, chain⟩ := lists.chain
  have addresses : (front ++ (x.1, item) :: back).map Prod.fst =
      (front ++ x :: back).map Prod.fst := by
    rw [List.map_append, List.map_append, List.map_cons, List.map_cons]
  have labelled : labels (front ++ (x.1, item) :: back) = labels (front ++ x :: back) := by
    unfold labels
    rw [List.map_append, List.map_append, List.map_cons, List.map_cons, same]
  refine ⟨front ++ (x.1, item) :: back, ⟨⟨dummy, ?_⟩, addresses ▸ lists.nodup, ?_⟩, ?_,
    labelled ▸ List.Sublist.refl _⟩
  · rw [← List.cons_append] at chain ⊢
    refine chain.modify (Function.update_self ..) fun e member => Function.update_of_ne ?_ _ _
    intro address
    exact lists.others (address ▸ List.mem_map_of_mem (f := Prod.fst) member)
  · have keys (entries : List (Nat × Item)) : Sorted (entries.map Prod.snd) ↔
        ((labels entries).map Prod.snd).Pairwise (· < ·) := by
      unfold Sorted labels
      rw [List.pairwise_map, List.pairwise_map, List.pairwise_map]
    rw [keys, labelled, ← keys]
    exact lists.sorted
  · rw [List.map_append, List.map_cons]

/-- The end of `alloc`, from the nodes around the place of the new one. -/
theorem wp_place (lists : Lists list h (front ++ back)) (free : h i = none) (notNull : i ≠ 0)
    (below : ∀ e ∈ front, e.2.ptr < ptr) (above : ∀ e ∈ back.head?, ¬ e.2.ptr < ptr) :
    wp (place ptr size i ((front.map Prod.fst).getLastD list) (firstOf back))
      (fun _ h' => Becomes list (front ++ back)
        (Memtrace.alloc ((front ++ back).map Prod.snd) ptr size) h')
      (Function.update h i (some ⟨⟨ptr, size, 1⟩, 0⟩)) := by
  obtain ⟨dummy, before, x, chain, split, last, node⟩ := lists.prev
  have apart : x.1 ≠ i := by
    rintro rfl
    rw [free] at node
    cases node
  rw [place, last]
  cases back with
  | nil =>
      rw [firstOf_nil, if_pos rfl, wp_bind,
        wp_linkNode (by rw [Function.update_of_ne apart, node]), wp_pure]
      exact lists.insert free notNull chain split below fun e first => nomatch first
  | cons y rest =>
      obtain ⟨yNotNull, here⟩ := lists.node
      have other : y.1 ≠ i := by
        rintro rfl
        rw [free] at here
        cases here
      have stored : Function.update h i (some ⟨⟨ptr, size, 1⟩, 0⟩) y.1 =
          some ⟨y.2, firstOf rest⟩ := (Function.update_of_ne other _ _).trans here
      rw [firstOf_cons, if_neg yNotNull, wp_bind, wp_readNode stored, wp_ite]
      split_ifs with found
      · rw [wp_bind, wp_modifyNode stored, wp_bind, wp_freeNode (by
          rw [Function.update_of_ne other.symm, Function.update_self]), wp_pure,
          update_freed free other, List.map_append,
          alloc_append (List.forall_mem_map.mpr below), List.map_cons, alloc_found found]
        exact lists.modify rfl
      · rw [wp_bind, wp_linkNode (Function.update_self ..), wp_bind, Function.update_idem,
          wp_linkNode (by rw [Function.update_of_ne apart, node]), wp_pure]
        refine lists.insert free notNull chain split below ?_
        intro e first
        obtain rfl := Option.some.inj first
        exact Nat.lt_of_le_of_ne (Nat.le_of_not_lt (above _ rfl)) (Ne.symm found)

/-- `alloc` on the nodes is `alloc` on the items, and every node stays. -/
theorem wp_alloc (lists : Lists list h entries) (free : h i = none) (notNull : i ≠ 0)
    {fuel : Nat} (enough : entries.length < fuel) (ptr : Nat) (size : UInt64) :
    wp (alloc fuel list ptr size i)
      (fun _ h' => Becomes list entries (Memtrace.alloc (entries.map Prod.snd) ptr size) h') h := by
  obtain ⟨dummy, chain⟩ := lists.chain
  have kept : Chain (Function.update h i (some ⟨⟨ptr, size, 1⟩, 0⟩)) list
      ((list, dummy) :: entries) 0 := by
    refine chain.congr fun e member => Function.update_of_ne ?_ _ _
    rintro rfl
    exact lists.fresh free (List.mem_map_of_mem (f := Prod.fst) member)
  obtain ⟨-, -, next, head, behind⟩ := kept
  rw [alloc, if_neg lists.ne_zero, wp_bind, callocp, wp_allocNode free notNull, wp_bind,
    wp_modifyNode (Function.update_self ..), Function.update_idem, wp_bind, wp_readNode head,
    wp_bind]
  refine wp_mono (wp_walk _ behind enough) ?_
  rintro found h' ⟨rfl, front, back, rfl, passed, stopped, prev, cur⟩
  rw [prev, cur]
  exact wp_place lists free notNull (fun e member => of_decide_eq_true (passed e member))
    fun e first below => stopped e first (decide_eq_true below)

/-- The pointer of a scan for an address: its node, or null. -/
def located (entries : List (Nat × Item)) (ptr : Nat) : Nat :=
  firstOf (entries.dropWhile fun e => e.2.ptr ≠ ptr)

theorem located_append (others : ∀ e ∈ front, e.2.ptr ≠ ptr) :
    located (front ++ back) ptr = located back ptr := by
  unfold located
  rw [List.dropWhile_append_of_pos fun e member => decide_eq_true (others e member)]

theorem located_cons (same : x.2.ptr = ptr) : located (x :: back) ptr = x.1 := by
  unfold located
  rw [List.dropWhile_cons_of_neg (by simpa using same), firstOf_cons]

theorem located_none (others : ∀ e ∈ entries, e.2.ptr ≠ ptr) : located entries ptr = 0 := by
  have scanned : located (entries ++ []) ptr = located [] ptr := located_append others
  rw [List.append_nil] at scanned
  exact scanned

/-- `dealloc` on the nodes is `dealloc` on the items, and every node stays. -/
theorem wp_dealloc (lists : Lists list h entries) {fuel : Nat} (enough : entries.length < fuel)
    (ptr : Nat) : wp (dealloc fuel list ptr) (fun r h' => r = located entries ptr ∧
      Becomes list entries (Memtrace.dealloc (entries.map Prod.snd) ptr) h') h := by
  obtain ⟨dummy, -, -, next, head, behind⟩ := lists.chain
  rw [dealloc, if_neg lists.ne_zero, wp_bind, wp_readNode head, wp_bind]
  refine wp_mono (wp_walk _ behind enough) ?_
  rintro found h' ⟨rfl, front, back, rfl, passed, stopped, -, cur⟩
  have others (e : Nat × Item) (member : e ∈ front) : e.2.ptr ≠ ptr :=
    of_decide_eq_true (passed e member)
  rw [cur, located_append others, List.map_append,
    dealloc_append (List.forall_mem_map.mpr others)]
  cases back with
  | nil =>
      rw [firstOf_nil, if_pos rfl, wp_pure]
      exact ⟨rfl, _, lists, List.map_append, .refl _⟩
  | cons x rest =>
      obtain ⟨xNotNull, node⟩ := lists.node
      have same : x.2.ptr = ptr := by simpa using stopped x rfl
      rw [firstOf_cons, if_neg xNotNull, wp_bind, wp_modifyNode node, wp_pure, located_cons same,
        List.map_cons, Memtrace.dealloc, if_pos same]
      exact ⟨rfl, lists.modify rfl⟩

/-- `find` on the nodes stops early, at the node of the full scan. -/
theorem wp_find (lists : Lists list h entries) {fuel : Nat} (enough : entries.length < fuel)
    (ptr : Nat) : wp (find fuel list ptr) (fun r h' => r = located entries ptr ∧ h' = h) h := by
  obtain ⟨dummy, -, -, next, head, behind⟩ := lists.chain
  rw [find, if_neg lists.ne_zero, wp_bind, wp_readNode head, wp_bind]
  refine wp_mono (wp_walk _ behind enough) ?_
  rintro found h' ⟨rfl, front, back, rfl, passed, stopped, -, cur⟩
  have others (e : Nat × Item) (member : e ∈ front) : e.2.ptr ≠ ptr := by
    have below : ptr > e.2.ptr := of_decide_eq_true (passed e member)
    exact Nat.ne_of_lt below
  rw [cur, located_append others]
  cases back with
  | nil =>
      rw [firstOf_nil, if_pos rfl, wp_pure]
      exact ⟨rfl, rfl⟩
  | cons x rest =>
      obtain ⟨xNotNull, node⟩ := lists.node
      rw [firstOf_cons, if_neg xNotNull, wp_bind, wp_readNode node, wp_ite, wp_pure, wp_pure]
      split_ifs with same
      · exact ⟨(located_cons same).symm, rfl⟩
      · have low : ¬ ptr > x.2.ptr := fun above => stopped x rfl (decide_eq_true above)
        have sorted := lists.sorted
        rw [List.map_append, List.map_cons] at sorted
        have above := (List.pairwise_cons.mp (List.pairwise_append.mp sorted).2.1).1
        refine ⟨(located_none fun e member => ?_).symm, rfl⟩
        rcases List.mem_cons.mp member with rfl | later
        · exact same
        · have high := above e.2 (List.mem_map_of_mem later)
          omega

end Listed

/-! ## Runs -/

/-- The address of the new node is free. -/
def Call.Fresh (h : Nodes Item) : Call → Prop
  | .alloc _ _ i => i ≠ 0 ∧ h i = none
  | .dealloc _ => True

section Calls

variable {list fuel : Nat} {h h' : Nodes Item} {entries : List (Nat × Item)} {call : Call}

/-- A call keeps the list sorted and loses no node. -/
theorem Call.wp_run (lists : Lists list h entries) (fresh : call.Fresh h)
    (enough : entries.length < fuel) : wp (call.run fuel list) (fun _ h' =>
      ∃ entries', Lists list h' entries' ∧ (labels entries).Sublist (labels entries')) h := by
  cases call with
  | alloc ptr size i =>
      refine wp_mono (wp_alloc lists fresh.2 fresh.1 enough ptr size) ?_
      rintro r h' ⟨entries', listed, -, kept⟩
      exact ⟨entries', listed, kept⟩
  | dealloc ptr =>
      refine wp_mono (wp_dealloc lists enough ptr) ?_
      rintro r h' ⟨-, entries', listed, -, kept⟩
      exact ⟨entries', listed, kept⟩

/-- A call ends only where its new address was free. -/
theorem Call.fresh_of_run (notNull : list ≠ 0) {result : Nat × Nodes Item}
    (run : call.run fuel list h = some result) : call.Fresh h := by
  cases call with
  | alloc ptr size i =>
      rw [Call.run, Memlist.alloc, if_neg notNull] at run
      obtain ⟨middle, allocated, -⟩ := Option.bind_eq_some_iff.mp run
      rw [callocp, allocNode] at allocated
      split_ifs at allocated with free
      exact free
  | dealloc ptr => exact trivial

theorem newList_lists (made : newList list (fun _ => none) = some (list, h)) :
    Lists list h [] := by
  by_cases null : list = 0
  · subst null
    cases made
  · have started : wp (newList list) (fun _ h' => Lists list h' []) (fun _ => none) := by
      rw [newList, wp_bind, callocp, wp_allocNode rfl null, wp_pure]
      exact ⟨⟨_, rfl, null, 0, Function.update_self .., rfl⟩, List.nodup_singleton _,
        List.Pairwise.nil⟩
    exact wp_elim started made

theorem Lists.step (lists : Lists list h entries) (taken : (calls list).step h call h') :
    ∃ entries', Lists list h' entries' ∧ (labels entries).Sublist (labels entries') := by
  obtain ⟨fuel, r, run⟩ := taken
  have fresh := Call.fresh_of_run lists.ne_zero run
  have longer := call.run_settled list fuel (max fuel (entries.length + 1)) h _
    (Nat.le_max_left ..) run
  exact wp_elim (Call.wp_run lists fresh (Nat.le_max_right ..)) longer

/-- In every state of a run the list is sorted and has every node of the states
before it. -/
theorem run_lists {past : List (Nodes Item × Call)} (run : (calls list).Run past h) :
    ∃ entries, Lists list h entries ∧ ∀ b ∈ past, ∃ old, Lists list b.1 old ∧
      (labels old).Sublist (labels entries) := by
  induction run with
  | start made => exact ⟨[], newList_lists made, fun _ member => nomatch member⟩
  | next before taken ih =>
      obtain ⟨entries, lists, earlier⟩ := ih
      obtain ⟨entries', lists', kept⟩ := lists.step taken
      refine ⟨entries', lists', ?_⟩
      intro b member
      rcases List.mem_cons.mp member with rfl | old
      · exact ⟨entries, lists, kept⟩
      · obtain ⟨first, listed, inside⟩ := earlier b old
        exact ⟨first, listed, inside.trans kept⟩

/-- A scan ends at the node of the address, or at null where there is none. -/
theorem located_cases (entries : List (Nat × Item)) (ptr : Nat) :
    (located entries ptr = 0 ∧ ∀ e ∈ entries, e.2.ptr ≠ ptr) ∨
      ∃ e ∈ entries, e.2.ptr = ptr ∧ located entries ptr = e.1 := by
  induction entries with
  | nil => exact .inl ⟨rfl, fun _ member => nomatch member⟩
  | cons e rest ih =>
      by_cases same : e.2.ptr = ptr
      · exact .inr ⟨e, List.mem_cons_self, same, located_cons same⟩
      · have skipped : located (e :: rest) ptr = located rest ptr := by
          rw [← List.singleton_append, located_append (by simpa using same)]
        rw [skipped]
        rcases ih with ⟨null, others⟩ | ⟨x, member, found, here⟩
        · exact .inl ⟨null, List.forall_mem_cons.mpr ⟨same, others⟩⟩
        · exact .inr ⟨x, List.mem_cons_of_mem _ member, found, here⟩

/-- The searches for an address return the same pointer, null exactly where no
item has the address. -/
def SearchesAgree (list : Nat) (h : Nodes Item) (entries : List (Nat × Item)) : Prop :=
  ∀ ptr fuel, entries.length < fuel → ∃ p,
    wp (find fuel list ptr) (fun r h' => r = p ∧ h' = h) h ∧
    wp (dealloc fuel list ptr) (fun r _ => r = p) h ∧
    (p = 0 ↔ ∀ e ∈ entries, e.2.ptr ≠ ptr) ∧
    (p ≠ 0 → ∃ item, (p, item) ∈ entries ∧ item.ptr = ptr)

theorem Lists.searchesAgree (lists : Lists list h entries) : SearchesAgree list h entries := by
  intro ptr fuel enough
  refine ⟨located entries ptr, wp_find lists enough ptr,
    wp_mono (wp_dealloc lists enough ptr) fun r h' found => found.1, ?_⟩
  rcases located_cases entries ptr with ⟨null, others⟩ | ⟨e, member, same, here⟩
  · exact ⟨⟨fun _ => others, fun _ => null⟩, fun notNull => absurd null notNull⟩
  · rw [here]
    obtain ⟨dummy, chain⟩ := lists.chain
    have notNull := (chain.allocated (List.mem_cons_of_mem _ member)).1
    exact ⟨⟨fun null => absurd null notNull, fun others => absurd same (others e member)⟩,
      fun _ => ⟨e.2, member, same⟩⟩

/-- The addresses of the items are strictly increasing, no node of an earlier
state is lost, the searches agree, and every further call ends. -/
def KeepsOrder (list : Nat) (past : List (Nodes Item × Call)) (h : Nodes Item) : Prop :=
  ∃ entries, Lists list h entries ∧
    (∀ b ∈ past, ∃ old, Lists list b.1 old ∧ (labels old).Sublist (labels entries)) ∧
    SearchesAgree list h entries ∧
    ∀ call : Call, call.Fresh h → ∃ h', (calls list).step h call h'

/-- Every run from a fresh list keeps the order. -/
theorem keepsOrder {past : List (Nodes Item × Call)} (run : (calls list).Run past h) :
    KeepsOrder list past h := by
  obtain ⟨entries, lists, earlier⟩ := run_lists run
  refine ⟨entries, lists, earlier, lists.searchesAgree, ?_⟩
  intro call fresh
  obtain ⟨⟨r, h'⟩, ended, -⟩ := Call.wp_run lists fresh (Nat.lt_succ_self _)
  exact ⟨h', _, r, ended⟩

/-- A list at the address 8 with a block before another one and an update. -/
def smallList : List (Nodes Item × Call) × Nodes Item :=
  record (fun h call => (call.run 8 8 h).map Prod.snd) []
    (Function.update (fun _ => none) 8 (some ⟨⟨0, 0, 0⟩, 0⟩))
    [.alloc 100 4 16, .alloc 50 2 24, .alloc 100 6 32, .dealloc 50]

theorem keepsOrder_smallList : KeepsOrder 8 smallList.1 smallList.2 :=
  keepsOrder (Run.of_record (.start rfl) (by
    intro h call h' taken
    obtain ⟨⟨r, after⟩, ended, rfl⟩ := Option.map_eq_some_iff.mp taken
    exact ⟨8, r, ended⟩) _)

end Calls

end Memlist

end SysProg.Memtrace

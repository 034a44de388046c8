import SysProg.Memtrace.Shield

/-!
# The totals of the tracer

Over an allocator whose calls succeed, the bytes counted as allocated and not
as freed are those of the active entries, whatever addresses the clients pass.
These are the blocks that `fini` lists.
-/

namespace SysProg.Memtrace

open Logic Machine

/-! ## The end of the trace -/

/-- A line that `fini` prints. -/
inductive StopLine where
  | statistics (alloc_total alloc_avg free_total : UInt64)
  | nonfreedStart
  | block (ptr : Nat) (size : UInt64) (cnt : Int)
  | stop
  deriving DecidableEq

/-- The loop of `fini`, from an item on. -/
def nonfreed : List Item → Bool → List StopLine
  | [], _ => []
  | cur :: rest, firstblock =>
      if cur.cnt > 0 then
        (if firstblock then [.nonfreedStart] else []) ++
          .block cur.ptr cur.size cur.cnt :: nonfreed rest false
      else nonfreed rest firstblock

/-- `fini`: the average divides by the number of allocations, which traps when
there were none. -/
def fini (t : Tracer) : Option (List StopLine) :=
  if t.n_malloc + t.n_calloc + t.n_realloc = 0 then none
  else
    some (.statistics t.n_allocb (t.n_allocb / (t.n_malloc + t.n_calloc + t.n_realloc)) t.n_freeb ::
      nonfreed t.items true ++ [.stop])

/-! ## The property -/

/-- A sum of sizes. -/
def sumBytes : List UInt64 → UInt64
  | [] => 0
  | size :: rest => size + sumBytes rest

/-- The bytes of the entries with count 1. -/
def activeBytes (items : List Item) : UInt64 :=
  sumBytes ((items.filter fun i => i.cnt = 1).map Item.size)

/-- The address and the size of a block that is listed. -/
def StopLine.listed : StopLine → Option (Nat × UInt64)
  | .block ptr size _ => some (ptr, size)
  | .statistics .. | .nonfreedStart | .stop => none

/-- Counts are 0 or 1, the totals differ by the bytes of the active entries,
and those that `fini` prints by the bytes of the blocks that it lists, each of
them once. -/
structure Balanced (t : Tracer) : Prop where
  counts : ∀ i ∈ t.items, i.cnt = 0 ∨ i.cnt = 1
  bytes : t.n_allocb - t.n_freeb = activeBytes t.items
  printed : ∀ lines ∈ fini t, ∃ alloc_total alloc_avg free_total rest,
    lines = .statistics alloc_total alloc_avg free_total :: rest ∧
      alloc_total - free_total = sumBytes ((rest.filterMap StopLine.listed).map Prod.snd) ∧
      ((rest.filterMap StopLine.listed).map Prod.fst).Nodup

/-- A call for some bytes succeeds. -/
def Succeeds : Call × Nat → Prop
  | (call, res) => call.bytes ≠ 0 → res ≠ 0

instance : (e : Call × Nat) → Decidable (Succeeds e)
  | (_, _) => inferInstanceAs (Decidable (_ → _))

/-- Any client over the tracer and an allocator whose calls succeed. -/
def balancing : Machine Shielded (Call × Nat) where
  init := shielding.init
  step w e w' := Succeeds e ∧ shielding.step w e w'

/-! ## Active bytes -/

section Bytes

variable {cur i : Item} {items rest : List Item} {p : Nat} {size : UInt64}

theorem activeBytes_cons :
    activeBytes (cur :: rest) =
      if cur.cnt = 1 then cur.size + activeBytes rest else activeBytes rest := by
  unfold activeBytes
  by_cases active : cur.cnt = 1
  · simp [active, sumBytes]
  · simp [active]

/-- An address without an active entry is recorded. -/
theorem activeBytes_alloc (items : List Item) (size : UInt64) (zero : count items p = 0) :
    activeBytes (alloc items p size) = activeBytes items + size := by
  induction items with
  | nil => simp [alloc, activeBytes, sumBytes]
  | cons cur rest ih =>
      simp only [alloc]
      split
      · rename_i below
        unfold count at zero ih
        rw [find_cons_gt below] at zero
        rw [activeBytes_cons, activeBytes_cons, ih zero]
        split
        · exact (UInt64.add_assoc ..).symm
        · rfl
      · split
        · rename_i same
          subst same
          rw [count, find_cons_self] at zero
          rw [activeBytes_cons, activeBytes_cons, if_pos (by simp [zero]), if_neg (by simp [zero])]
          exact UInt64.add_comm ..
        · rw [activeBytes_cons, if_pos rfl]
          exact UInt64.add_comm ..

/-- An active entry is given up. -/
theorem activeBytes_dealloc (found : find items p = some i) (one : i.cnt = 1) :
    activeBytes (dealloc items p) + i.size = activeBytes items := by
  induction items with
  | nil => cases found
  | cons cur rest ih =>
      simp only [dealloc]
      split
      · rename_i same
        subst same
        rw [find_cons_self] at found
        cases found
        rw [activeBytes_cons, activeBytes_cons, if_neg (by simp [one]), if_pos one]
        exact UInt64.add_comm ..
      · rename_i differ
        have above := above_of_found found differ
        rw [find_cons_gt above] at found
        rw [activeBytes_cons, activeBytes_cons, ← ih found]
        split
        · exact UInt64.add_assoc ..
        · rfl

end Bytes

/-! ## The blocks that `fini` lists -/

section Listed

variable {items : List Item}

/-- `fini` lists the entries with a positive count. -/
theorem listed_nonfreed (items : List Item) (firstblock : Bool) :
    (nonfreed items firstblock).filterMap StopLine.listed =
      (items.filter fun i => 0 < i.cnt).map fun i => (i.ptr, i.size) := by
  induction items generalizing firstblock with
  | nil => rfl
  | cons cur rest ih =>
      simp only [nonfreed]
      split
      · rename_i active
        rw [List.filter_cons_of_pos (by simpa using active), List.map_cons, ← ih false]
        cases firstblock with
        | false => rfl
        | true => rfl
      · rename_i inactive
        rw [ih, List.filter_cons_of_neg (by simpa using inactive)]

theorem listed_stop (items : List Item) :
    (nonfreed items true ++ [StopLine.stop]).filterMap StopLine.listed =
      (items.filter fun i => 0 < i.cnt).map fun i => (i.ptr, i.size) := by
  rw [List.filterMap_append, listed_nonfreed]
  exact List.append_nil _

/-- These are the active entries. -/
theorem listed_active (counts : ∀ i ∈ items, i.cnt = 0 ∨ i.cnt = 1) :
    (items.filter fun i => 0 < i.cnt) = items.filter fun i => i.cnt = 1 := by
  apply List.filter_congr
  intro i member
  rcases counts i member with none | one
  · simp [none]
  · simp [one]

/-- No address is listed twice. -/
theorem Sorted.listed_nodup (sorted : Sorted items) :
    ((items.filter fun i => 0 < i.cnt).map Item.ptr).Nodup := by
  rw [List.Nodup, List.pairwise_map]
  apply (sorted.sublist List.filter_sublist).imp
  intro a b before
  exact Nat.ne_of_lt before

end Listed

/-! ## The account -/

/-- The active entries are held, and the totals differ by their bytes. -/
structure Accounted (w : Shielded) : Prop where
  guarded : Guarded w.tracer.items w.blocks
  bytes : w.tracer.n_allocb - w.tracer.n_freeb = activeBytes w.tracer.items

namespace Accounted

variable {w w' : Shielded} {call : Call} {res : Nat}

theorem counts (accounted : Accounted w) : ∀ i ∈ w.tracer.items, i.cnt = 0 ∨ i.cnt = 1 := by
  intro i member
  rw [← count_found (accounted.guarded.sorted.find_mem member)]
  exact accounted.guarded.counts i.ptr

theorem balanced (accounted : Accounted w) : Balanced w.tracer where
  counts := accounted.counts
  bytes := accounted.bytes
  printed := by
    intro lines printed
    unfold fini at printed
    split at printed
    · cases printed
    · cases printed
      refine ⟨_, _, _, nonfreed w.tracer.items true ++ [.stop], rfl, ?_, ?_⟩
      · rw [accounted.bytes, listed_stop, listed_active accounted.counts, List.map_map]
        rfl
      · rw [listed_stop, List.map_map]
        exact accounted.guarded.sorted.listed_nodup

/-- A successful call keeps the account. -/
theorem after (accounted : Accounted w) (succeeds : Succeeds (call, res))
    (outcome : Outcome w w' call res) : Accounted w' := by
  refine ⟨accounted.guarded.after outcome, ?_⟩
  have before := accounted.bytes
  cases outcome with
  | kept items allocated freed held =>
      rw [items, allocated, freed]
      exact before
  | recorded items allocated freed fresh held given =>
      rw [items, allocated, freed]
      by_cases null : res = 0
      · have nothing : call.bytes = 0 := Classical.not_not.mp fun some => succeeds some null
        rw [allocResult, if_pos null, nothing, UInt64.add_zero]
        exact before
      · have zero := accounted.guarded.fresh_zero (fresh.resolve_left null)
        rw [allocResult, if_neg null, activeBytes_alloc _ _ zero, ← before]
        grind
  | released ptr i found active items allocated freed held =>
      have one := (count_found found).symm.trans (accounted.guarded.active_one found active)
      have dropped := activeBytes_dealloc found one
      rw [items, allocated, freed]
      grind
  | regrown ptr i found active items allocated freed fresh held given =>
      have one := (count_found found).symm.trans (accounted.guarded.active_one found active)
      have dropped := activeBytes_dealloc found one
      rw [items, allocated, freed]
      by_cases null : res = 0
      · have nothing : call.bytes = 0 := Classical.not_not.mp fun some => succeeds some null
        rw [allocResult, if_pos null, nothing, UInt64.add_zero]
        grind
      · have vacant := (accounted.guarded.drop found active).fresh_zero
          ((Guarded.fresh_drop fresh).resolve_left null)
        rw [allocResult, if_neg null, activeBytes_alloc _ _ vacant]
        grind

theorem keeps {e : Call × Nat} (accounted : Accounted w) (stays : StaysPut w e)
    (taken : balancing.step w e w') : Accounted w' :=
  accounted.after taken.1 (accounted.guarded.outcome stays taken.2)

end Accounted

/-- In every run in which no `realloc` that the tracer takes for a shrink moves
its block, the counts are 0 or 1 and the totals differ by the bytes of the
active entries after every call. -/
theorem balanced_run {past : List (Shielded × (Call × Nat))} {w : Shielded}
    (run : balancing.Run past w) (stays : AllSteps StaysPut past) :
    Throughout (fun w => Balanced w.tracer) past w := by
  refine run.throughout (I := Accounted) ?_ (fun _ accounted => accounted.balanced)
    (fun _ _ _ accounted stays taken => accounted.keeps stays taken) stays
  intro w initial
  have started : w.tracer = loaded.tracer := initial
  refine ⟨?_, ?_⟩
  · rw [started]
    exact .empty _
  · rw [started]
    rfl

/-- A successful call of the client. -/
def passSuccessful (w : Shielded) (e : Call × Nat) : Option Shielded :=
  if Succeeds e then pass w e else none

theorem balancing_step {w w' : Shielded} {e : Call × Nat} (taken : passSuccessful w e = some w') :
    balancing.step w e w' := by
  unfold passSuccessful at taken
  split at taken
  · rename_i succeeds
    exact ⟨succeeds, taken⟩
  · cases taken

theorem balanced_run_freedTwice :
    Throughout (fun w => Balanced w.tracer)
      (record passSuccessful [] unshielded (freedTwice ++ [(.calloc 4 8, 16)])).1
      (record passSuccessful [] unshielded (freedTwice ++ [(.calloc 4 8, 16)])).2 :=
  balanced_run (Run.of_record (.start rfl) (fun _ _ _ => balancing_step) _)
    (by unfold AllSteps; decide +kernel)

/-- A block moves within its recorded size, and its old address is allocated
again. -/
def addressReused : List (Call × Nat) :=
  [(.malloc 100, 16), (.realloc 16 50, 16), (.realloc 16 80, 48), (.malloc 10, 16)]

/-- The entry of that address has count 2. -/
theorem entry_counts_two :
    ¬ ∀ past w, balancing.Run past w → Throughout (fun w => Balanced w.tracer) past w := by
  intro claimed
  have run : balancing.Run _ _ :=
    Run.of_record (.start (s := unshielded) rfl) (fun _ _ _ => balancing_step) addressReused
  have counts := (claimed _ _ run).1.counts
  exact absurd counts (by decide +kernel)

end SysProg.Memtrace

import SysProg.Logic.Runs
import SysProg.Malloc.Realloc

/-!
# Runs of a client

A client starts with a successful `mm_init`, calls the allocator with sizes
below `2 ^ 31` and with pointers it owns, and writes to the bytes it asked
for.  `Serving` is the invariant of its runs: the heap is represented, and the
allocated blocks behind the prologue are exactly those the client owns.
-/

namespace SysProg.Malloc

open Logic

/-- The heap together with the pointers the client owns and the sizes it
asked for. -/
structure Client where
  heap : Heap
  live : List (Nat × Nat)

/-- What a client may do next. -/
inductive Request where
  | malloc (size : Nat)
  | free (ptr : Nat)
  | realloc (ptr size : Nat)
  | write (ptr offset : Nat) (value : UInt8)

namespace Request

/-- The pointer that a request is about. -/
def argument : Request → Nat
  | malloc _ => NULL
  | free ptr => ptr
  | realloc ptr _ => ptr
  | write ptr _ _ => ptr

end Request

/-- The pointers that stay owned when one is given back. -/
def giveBack (ptr : Nat) (live : List (Nat × Nat)) : List (Nat × Nat) :=
  live.filter fun entry => entry.1 ≠ ptr

/-- The pointers owned after a call for `size` bytes returned `r`. -/
def take (r size : Nat) (live : List (Nat × Nat)) : List (Nat × Nat) :=
  if r = NULL then live else (r, size) :: live

namespace Client

/-- One request, carried out on the heap. -/
def serve (c : Client) : Request → Option Client
  | .malloc size => do
      let (r, heap) ← mmMalloc size c.heap
      pure ⟨heap, take r size c.live⟩
  | .free ptr => do
      let (_, heap) ← mmFree ptr c.heap
      pure ⟨heap, giveBack ptr c.live⟩
  | .realloc ptr size => do
      let (r, heap) ← mmRealloc ptr size c.heap
      -- A failing call for a nonzero size leaves the old block to its owner.
      pure ⟨heap, if r = NULL ∧ size ≠ 0 then c.live else take r size (giveBack ptr c.live)⟩
  | .write ptr offset value =>
      some { c with heap := c.heap.withMem (Function.update c.heap.mem (ptr + offset) value) }

/-- The client owns the pointer or it is null. -/
def Owned (c : Client) (ptr : Nat) : Prop := ptr = NULL ∨ ptr ∈ c.live.map Prod.fst

/-- The requests that a client may make. -/
inductive Allowed (c : Client) : Request → Prop where
  | malloc {size : Nat} (small : size < 2 ^ 31) : Allowed c (.malloc size)
  | free {ptr : Nat} (owned : c.Owned ptr) : Allowed c (.free ptr)
  | realloc {ptr size : Nat} (owned : c.Owned ptr) (small : size < 2 ^ 31) :
      Allowed c (.realloc ptr size)
  | write {ptr size offset : Nat} {value : UInt8} (owned : (ptr, size) ∈ c.live)
      (inside : offset < size) : Allowed c (.write ptr offset value)

/-- A client after a successful `mm_init` on the empty heap that `mem_init`
leaves at `lo`. -/
def Started (lo : Nat) (c : Client) : Prop :=
  ∃ h, Fresh lo h ∧ h.checked = false ∧ mmInit h = some (0, c.heap) ∧ c.live = []

/-- The runs of a client over the heap that starts at `lo`. -/
def runs (lo : Nat) : Machine Client Request where
  init := Started lo
  step c request c' := c.Allowed request ∧ c.serve request = some c'

end Client

/-! ## The invariant -/

/-- Two live pointers backed by blocks of one heap point to disjoint bytes. -/
theorem backed_apart {a p s q t : Nat} {d e : Block} {bs : List Block}
    (first : (p, d) ∈ located a bs) (second : (q, e) ∈ located a bs) (differ : p ≠ q)
    (fits : (s + 7) / 8 * 8 + 8 ≤ d.size) (fits' : (t + 7) / 8 * 8 + 8 ≤ e.size) :
    p + s ≤ q ∨ q + t ≤ p := by
  rcases located_disjoint first second with ⟨same, -⟩ | before | behind
  · exact absurd same differ
  · omega
  · omega

/-- A pointer at which no allocated block starts is not live. -/
theorem backed_fresh {a r : Nat} {bs : List Block} {live : List (Nat × Nat)}
    (backed : ∀ p s, (p, s) ∈ live →
      ∃ d, (p, d) ∈ located a bs ∧ d.alloc = true ∧ (s + 7) / 8 * 8 + 8 ≤ d.size)
    (fresh : ∀ d, (r, d) ∈ located a bs → d.alloc = false) : r ∉ live.map Prod.fst := by
  intro member
  obtain ⟨⟨p, s⟩, old, rfl⟩ := List.mem_map.mp member
  obtain ⟨d, at_, taken, -⟩ := backed p s old
  rw [fresh d at_] at taken
  cases taken

/-- The allocated blocks behind the prologue are those of the live pointers,
each large enough for the size that was asked for. -/
structure Owns (lo : Nat) (bs : List Block) (live : List (Nat × Nat)) : Prop where
  distinct : (live.map Prod.fst).Nodup
  behind : ∀ p s, (p, s) ∈ live → 0 < s ∧ p ≠ lo + 8
  backed : ∀ p s, (p, s) ∈ live →
    ∃ d, (p, d) ∈ located (lo + 8) bs ∧ d.alloc = true ∧ (s + 7) / 8 * 8 + 8 ≤ d.size
  owned : ∀ x d, (x, d) ∈ located (lo + 8) bs → d.alloc = true → x ≠ lo + 8 →
    x ∈ live.map Prod.fst

/-- The invariant of a client's run. -/
def Serving (lo : Nat) (c : Client) : Prop :=
  c.heap.checked = false ∧
    ∃ bs fl, Represents lo c.heap bs fl ∧ Owns lo bs c.live

namespace Owns

variable {lo : Nat} {bs bs' : List Block} {live : List (Nat × Nat)}

/-- The bytes asked for are client bytes. -/
theorem clientByte (owns : Owns lo bs live) {p s i : Nat} (member : (p, s) ∈ live)
    (lower : p ≤ i) (upper : i < p + s) : ClientByte lo bs i := by
  obtain ⟨d, at_, taken, fits⟩ := owns.backed p s member
  exact ⟨p, d, at_, taken, (owns.behind p s member).2, lower, by omega⟩

theorem mem_giveBack {p s ptr : Nat} :
    (p, s) ∈ giveBack ptr live ↔ (p, s) ∈ live ∧ p ≠ ptr := by
  simp [giveBack]

/-- Giving a block back. -/
theorem release (owns : Owns lo bs live) {ptr : Nat}
    (others : ∀ x d, d.alloc = true →
      ((x, d) ∈ located (lo + 8) bs' ↔ (x, d) ∈ located (lo + 8) bs ∧ x ≠ ptr)) :
    Owns lo bs' (giveBack ptr live) where
  distinct := owns.distinct.sublist (List.filter_sublist.map Prod.fst)
  behind p s member := owns.behind p s (mem_giveBack.mp member).1
  backed p s member := by
    obtain ⟨kept, differ⟩ := mem_giveBack.mp member
    obtain ⟨d, at_, taken, fits⟩ := owns.backed p s kept
    exact ⟨d, (others p d taken).mpr ⟨at_, differ⟩, taken, fits⟩
  owned x d at_ taken notFirst := by
    obtain ⟨kept, differ⟩ := (others x d taken).mp at_
    obtain ⟨⟨p, s⟩, member, rfl⟩ := List.mem_map.mp (owns.owned x d kept taken notFirst)
    exact List.mem_map.mpr ⟨(p, s), mem_giveBack.mpr ⟨member, differ⟩, rfl⟩

/-- Receiving a block. -/
theorem receive {h h' : Heap} {want : Block} {r size : Nat} {fl : List Nat}
    (owns : Owns lo bs live) (handed : Handed lo h bs want r h' bs' fl) (positive : 0 < size)
    (wide : (size + 7) / 8 * 8 + 8 ≤ want.size) : Owns lo bs' (take r size live) := by
  obtain ⟨d, taken, fits, others⟩ := handed.block
  unfold take
  rw [if_neg handed.ne_null]
  refine ⟨?_, ?_, ?_, ?_⟩
  · exact List.nodup_cons.mpr ⟨backed_fresh owns.backed handed.fresh, owns.distinct⟩
  · intro p s member
    rcases List.mem_cons.mp member with new | old
    · cases new
      exact ⟨positive, handed.notFirst⟩
    · exact owns.behind p s old
  · intro p s member
    rcases List.mem_cons.mp member with new | old
    · cases new
      exact ⟨d, (others r d taken).mpr (.inl ⟨rfl, rfl⟩), taken, by omega⟩
    · obtain ⟨e, at_, bit, wide'⟩ := owns.backed p s old
      exact ⟨e, (others p e bit).mpr (.inr at_), bit, wide'⟩
  · intro x e at_ bit notFirst
    rw [List.map_cons, List.mem_cons]
    rcases (others x e bit).mp at_ with ⟨rfl, -⟩ | old
    · exact .inl rfl
    · exact .inr (owns.owned x e old bit notFirst)

/-- No owned pointer is null. -/
theorem giveBack_null (owns : Owns lo bs live) : giveBack NULL live = live := by
  refine List.filter_eq_self.mpr ?_
  rintro ⟨p, s⟩ member
  obtain ⟨d, at_, -, -⟩ := owns.backed p s member
  have bounds := located_bounds at_
  have notNull : p ≠ NULL := by
    unfold NULL
    omega
  exact decide_eq_true notNull

/-- An owned pointer is the start of an allocated block behind the prologue. -/
theorem split_at (owns : Owns lo bs live) {ptr : Nat} (member : ptr ∈ live.map Prod.fst) :
    ∃ front b back, bs = front ++ b :: back ∧ ptr = lo + 8 + span front ∧ b.alloc = true ∧
      front ≠ [] := by
  obtain ⟨⟨p, s⟩, old, rfl⟩ := List.mem_map.mp member
  obtain ⟨d, at_, taken, -⟩ := owns.backed p s old
  obtain ⟨front, back, split, place⟩ := mem_located_iff.mp at_
  refine ⟨front, d, back, split, place, taken, ?_⟩
  rintro rfl
  exact (owns.behind p s old).2 place

/-- The bytes asked for through two pointers are disjoint. -/
theorem apart (owns : Owns lo bs live) {p s q t : Nat} (first : (p, s) ∈ live)
    (second : (q, t) ∈ live) (differ : p ≠ q) : p + s ≤ q ∨ q + t ≤ p := by
  obtain ⟨d, dAt, -, dFits⟩ := owns.backed p s first
  obtain ⟨e, eAt, -, eFits⟩ := owns.backed q t second
  exact backed_apart dAt eAt differ dFits eFits

/-- The bytes asked for through another pointer outlive a block. -/
theorem clientByte_marked {front back : List Block} {b : Block}
    (owns : Owns lo (front ++ b :: back) live) {p s i : Nat} (member : (p, s) ∈ live)
    (differ : p ≠ lo + 8 + span front) (lower : p ≤ i) (upper : i < p + s) :
    ClientByte lo (front ++ b.mark false :: back) i := by
  obtain ⟨d, at_, taken, fits⟩ := owns.backed p s member
  exact ⟨p, d, (alloc_mem_marked taken).mpr ⟨at_, differ⟩, taken, (owns.behind p s member).2,
    lower, by omega⟩

end Owns

/-! ## The operations from a served client's view -/

section Serve

variable {lo : Nat} {c : Client}

/-- The end of a request: the invariant holds again, and what the client had
written to the blocks that the request is not about is still there. -/
structure Served (lo : Nat) (c : Client) (ptr : Nat) (c' : Client) : Prop where
  serving : Serving lo c'
  kept : ∀ p s, (p, s) ∈ c.live → p ≠ ptr → (p, s) ∈ c'.live ∧
    ∀ i, i < s → c'.heap.mem (p + i) = c.heap.mem (p + i)

theorem Served.refl (serving : Serving lo c) (ptr : Nat) : Served lo c ptr c :=
  ⟨serving, fun _ _ member _ => ⟨member, fun _ _ => rfl⟩⟩

theorem mem_take {p s r size : Nat} {live : List (Nat × Nat)} (member : (p, s) ∈ live) :
    (p, s) ∈ take r size live := by
  unfold take
  split
  · exact member
  · exact List.mem_cons_of_mem _ member

/-- A successful `mm_init` starts a served client without pointers. -/
theorem Serving.start (started : c.Started lo) : Serving lo c := by
  obtain ⟨h, fresh, unchecked, run, none⟩ := started
  rcases wp_elim (wp_mmInit fresh) run with ⟨failed, -⟩ | ⟨-, -, arena, rep⟩
  · cases failed
  · refine ⟨arena.checked.trans unchecked, _, _, rep, ?_⟩
    rw [none]
    refine ⟨List.nodup_nil, by simp, by simp, ?_⟩
    intro x d at_ taken notFirst
    simp only [located_cons, located_nil, List.mem_cons, List.not_mem_nil, or_false,
      Prod.mk.injEq] at at_
    rcases at_ with ⟨rfl, -⟩ | ⟨-, rfl⟩
    · exact absurd rfl notFirst
    · cases taken

/-- `mm_malloc` of a size below `2 ^ 31`. -/
theorem Serving.malloc (serving : Serving lo c) {size : Nat} (small : size < 2 ^ 31) :
    wp (mmMalloc size) (fun r h' => Served lo c NULL ⟨h', take r size c.live⟩) c.heap := by
  obtain ⟨unchecked, bs, fl, rep, owns⟩ := serving
  by_cases zero : size = 0
  · unfold mmMalloc
    rw [wp_ite, if_pos zero, wp_pure]
    exact .refl ⟨unchecked, bs, fl, rep, owns⟩ NULL
  · have positive : 0 < size := Nat.pos_of_ne_zero zero
    refine wp_mono (wp_mmMalloc rep positive (by omega)) ?_
    intro r h' outcome
    rcases outcome.handed rep rfl with ⟨rfl, rfl⟩ | ⟨bs', fl', handed⟩
    · exact .refl ⟨unchecked, bs, fl, rep, owns⟩ NULL
    · have updated := handed.updated
      refine ⟨⟨updated.arena.checked.trans unchecked, bs', fl',
        ⟨updated.consistent, handed.settled⟩, owns.receive handed positive (le_refl _)⟩, ?_⟩
      intro p s member _
      exact ⟨mem_take member,
        fun i inside => updated.keeps _ (owns.clientByte member (by omega) (by omega))⟩

/-- `mm_free` of an owned pointer or of null. -/
theorem Serving.free (serving : Serving lo c) {ptr : Nat} (owned : c.Owned ptr) :
    wp (mmFree ptr) (fun _ h' => Served lo c ptr ⟨h', giveBack ptr c.live⟩) c.heap := by
  obtain ⟨unchecked, bs, fl, rep, owns⟩ := serving
  rcases owned with rfl | member
  · unfold mmFree
    rw [wp_ite, if_pos rfl, wp_pure, owns.giveBack_null]
    exact .refl ⟨unchecked, bs, fl, rep, owns⟩ NULL
  · obtain ⟨front, b, back, rfl, rfl, taken, behind⟩ := owns.split_at member
    refine wp_mono (wp_mmFree rep behind taken) ?_
    rintro _ h' ⟨updated, settled⟩
    have others : ∀ x d, d.alloc = true →
        ((x, d) ∈ located (lo + 8) (coalesced front (b.mark false) back) ↔
          (x, d) ∈ located (lo + 8) (front ++ b :: back) ∧ x ≠ lo + 8 + span front) := by
      intro x d bit
      rw [alloc_mem_coalesced rfl bit, alloc_mem_marked bit]
    refine ⟨⟨updated.arena.checked.trans unchecked, _, _, ⟨updated.consistent, settled⟩,
      owns.release others⟩, ?_⟩
    intro p s old differ
    refine ⟨Owns.mem_giveBack.mpr ⟨old, differ⟩, fun i inside => updated.keeps _ ?_⟩
    exact owns.clientByte_marked old differ (by omega) (by omega)

/-- `mm_realloc` of an owned pointer or of null. -/
theorem Serving.realloc (serving : Serving lo c) {ptr size : Nat} (owned : c.Owned ptr)
    (small : size < 2 ^ 31) :
    wp (mmRealloc ptr size) (fun r h' => Served lo c ptr
      ⟨h', if r = NULL ∧ size ≠ 0 then c.live else take r size (giveBack ptr c.live)⟩) c.heap := by
  by_cases null : ptr = NULL
  · subst null
    have same : giveBack NULL c.live = c.live := by
      obtain ⟨-, bs, fl, -, owns⟩ := serving
      exact owns.giveBack_null
    unfold mmRealloc
    rw [wp_ite, if_pos rfl]
    refine wp_mono (serving.malloc small) ?_
    intro r h' served
    rw [same]
    by_cases failed : r = NULL ∧ size ≠ 0
    · rw [take, if_pos failed.1] at served
      rw [if_pos failed]
      exact served
    · rw [if_neg failed]
      exact served
  by_cases zero : size = 0
  · unfold mmRealloc
    rw [wp_ite, if_neg null, wp_ite, if_pos zero, wp_bind]
    refine wp_mono (serving.free owned) ?_
    intro _ h' served
    rw [wp_pure, if_neg (by simp [zero])]
    exact served
  · have positive : 0 < size := Nat.pos_of_ne_zero zero
    obtain ⟨unchecked, bs, fl, rep, owns⟩ := serving
    obtain ⟨front, b, back, rfl, rfl, taken, behind⟩ := owns.split_at (owned.resolve_left null)
    refine wp_mono (wp_mmRealloc rep unchecked behind taken positive small) ?_
    intro r h' outcome
    rcases outcome.handed rep behind taken with ⟨rfl, rfl⟩ | ⟨bs', fl', handed, -⟩
    · rw [if_pos ⟨rfl, zero⟩]
      exact .refl ⟨unchecked, _, fl, rep, owns⟩ _
    · rw [if_neg (fun failed => handed.ne_null failed.1)]
      have updated := handed.updated
      have released : Owns lo (front ++ b.mark false :: back)
          (giveBack (lo + 8 + span front) c.live) :=
        owns.release (fun x d bit => alloc_mem_marked bit)
      refine ⟨⟨updated.arena.checked.trans unchecked, bs', fl',
        ⟨updated.consistent, handed.settled⟩, released.receive handed positive (le_refl _)⟩, ?_⟩
      intro p s old differ
      refine ⟨mem_take (Owns.mem_giveBack.mpr ⟨old, differ⟩), fun i inside => ?_⟩
      exact updated.keeps _ (owns.clientByte_marked old differ (by omega) (by omega))

/-- A write to bytes that were asked for reaches none of the others. -/
theorem Owns.write_only {h : Heap} {bs : List Block} {live : List (Nat × Nat)}
    (owns : Owns lo bs live) {ptr size offset : Nat} (value : UInt8) (owned : (ptr, size) ∈ live)
    (inside : offset < size) (i : Nat) (outside : ¬ ClientByte lo bs i) :
    Function.update h.mem (ptr + offset) value i = h.mem i := by
  have byte : ClientByte lo bs (ptr + offset) := owns.clientByte owned (by omega) (by omega)
  refine Function.update_of_ne ?_ _ _
  rintro rfl
  exact outside byte

/-- A write to bytes that were asked for. -/
theorem Serving.write (serving : Serving lo c) {ptr size offset : Nat} (value : UInt8)
    (owned : (ptr, size) ∈ c.live) (inside : offset < size) :
    Served lo c ptr { c with
      heap := c.heap.withMem (Function.update c.heap.mem (ptr + offset) value) } := by
  obtain ⟨unchecked, bs, fl, rep, owns⟩ := serving
  refine ⟨⟨unchecked, bs, fl, rep.overwrite (owns.write_only value owned inside), owns⟩, ?_⟩
  intro p s member differ
  refine ⟨member, fun i lower => Function.update_of_ne ?_ _ _⟩
  have apart := owns.apart member owned differ
  omega

/-- Every allowed request is carried out to its end. -/
theorem Serving.serve (serving : Serving lo c) {request : Request} (allowed : c.Allowed request) :
    ∃ c', c.serve request = some c' ∧ Served lo c request.argument c' := by
  cases allowed with
  | malloc small =>
      obtain ⟨⟨r, h'⟩, run, served⟩ := serving.malloc small
      exact ⟨_, by simp [Client.serve, run], served⟩
  | free owned =>
      obtain ⟨⟨r, h'⟩, run, served⟩ := serving.free owned
      exact ⟨_, by simp [Client.serve, run], served⟩
  | realloc owned small =>
      obtain ⟨⟨r, h'⟩, run, served⟩ := serving.realloc owned small
      exact ⟨_, by simp [Client.serve, run], served⟩
  | write owned inside => exact ⟨_, rfl, serving.write _ owned inside⟩

/-- The invariant holds in every state of every run. -/
theorem Serving.of_reachable (reached : (Client.runs lo).Reachable c) : Serving lo c := by
  refine reached.invariant (fun _ started => .start started) ?_
  rintro s request t - serving ⟨allowed, step⟩
  obtain ⟨t', run, served⟩ := serving.serve allowed
  rw [step] at run
  cases run
  exact served.serving

end Serve

end SysProg.Malloc

import SysProg.Implicit.Interface
import SysProg.Malloc.Client

/-!
# Runs of a client of the first allocator

A client starts with a successful `mm_init`, calls the allocator with its live
pointers and with sizes below `2 ^ 31`, and writes to the bytes it asked for.
`Serving` is the invariant of its runs: the heap is represented, and every
live pointer is backed by an allocated block.
-/

namespace SysProg.Implicit

open Logic Malloc

/-- One request, carried out on the heap. -/
def serve (c : Client) : Request → Option Client
  | .malloc size => do
      let (r, heap) ← mmMalloc size c.heap
      pure ⟨heap, take r size c.live⟩
  | .free ptr => do
      let (_, heap) ← mmFree ptr c.heap
      pure ⟨heap, giveBack ptr c.live⟩
  | .realloc ptr size => do
      let (r, heap) ← mmRealloc ptr size c.heap
      -- A failing call leaves the old block to its owner.
      pure ⟨heap, if r = NULL then c.live else take r size (giveBack ptr c.live)⟩
  | .write ptr offset value =>
      some { c with heap := c.heap.withMem (Function.update c.heap.mem (ptr + offset) value) }

/-- The requests that a client may make. -/
inductive Allowed (c : Client) : Request → Prop where
  | malloc {size : Nat} (small : size < 2 ^ 31) : Allowed c (.malloc size)
  | free {ptr size : Nat} (owned : (ptr, size) ∈ c.live) : Allowed c (.free ptr)
  | realloc {ptr old size : Nat} (owned : (ptr, old) ∈ c.live) (positive : 0 < size)
      (small : size < 2 ^ 31) : Allowed c (.realloc ptr size)
  | write {ptr size offset : Nat} {value : UInt8} (owned : (ptr, size) ∈ c.live)
      (inside : offset < size) : Allowed c (.write ptr offset value)

/-- A client after a successful `mm_init` on the empty heap that `mem_init`
leaves at `lo`. -/
def Started (lo : Nat) (c : Client) : Prop :=
  ∃ h, Fresh lo h ∧ mmInit h = some (0, c.heap) ∧ c.live = []

/-- The runs of a client over the heap that starts at `lo`. -/
def runs (lo : Nat) : Machine Client Request where
  init := Started lo
  step c request c' := Allowed c request ∧ serve c request = some c'

/-! ## The invariant -/

/-- Every live pointer is the start of an allocated block, large enough for
the size that was asked for. -/
structure Owns (listp : Nat) (bs : List Block) (live : List (Nat × Nat)) : Prop where
  distinct : (live.map Prod.fst).Nodup
  positive : ∀ p s, (p, s) ∈ live → 0 < s
  backed : ∀ p s, (p, s) ∈ live →
    ∃ d, (p, d) ∈ located (listp + 8) bs ∧ d.alloc = true ∧ (s + 7) / 8 * 8 + 8 ≤ d.size

/-- The invariant of a client's run. -/
def Serving (lo : Nat) (c : Client) : Prop :=
  ∃ bs, Represents (lo + 8) c.heap bs ∧ Owns (lo + 8) bs c.live

namespace Owns

variable {listp : Nat} {bs bs' : List Block} {live : List (Nat × Nat)}

/-- The bytes asked for are payload. -/
theorem payloadByte (owns : Owns listp bs live) {p s i : Nat} (member : (p, s) ∈ live)
    (lower : p ≤ i) (upper : i < p + s) : PayloadByte listp bs i := by
  obtain ⟨d, at_, taken, fits⟩ := owns.backed p s member
  exact ⟨p, d, at_, taken, lower, by omega⟩

/-- Giving a block back. -/
theorem release (owns : Owns listp bs live) {ptr : Nat}
    (others : ∀ x d, d.alloc = true → (x, d) ∈ located (listp + 8) bs → x ≠ ptr →
      (x, d) ∈ located (listp + 8) bs') : Owns listp bs' (giveBack ptr live) where
  distinct := owns.distinct.sublist (List.filter_sublist.map Prod.fst)
  positive p s member := owns.positive p s (Malloc.Owns.mem_giveBack.mp member).1
  backed p s member := by
    obtain ⟨kept, differ⟩ := Malloc.Owns.mem_giveBack.mp member
    obtain ⟨d, at_, taken, fits⟩ := owns.backed p s kept
    exact ⟨d, others p d taken at_ differ, taken, fits⟩

/-- Receiving a block. -/
theorem receive {h h' : Heap} {r size : Nat} {positive : 0 < size} (owns : Owns listp bs live)
    (handed : Handed listp h bs (wanted size positive) r h' bs') :
    Owns listp bs' (take r size live) := by
  obtain ⟨d, taken, fits, others⟩ := handed.block
  unfold take
  rw [if_neg handed.ne_null]
  refine ⟨?_, ?_, ?_⟩
  · exact List.nodup_cons.mpr ⟨backed_fresh owns.backed handed.fresh, owns.distinct⟩
  · intro p s member
    rcases List.mem_cons.mp member with new | old
    · cases new
      exact positive
    · exact owns.positive p s old
  · intro p s member
    rcases List.mem_cons.mp member with new | old
    · cases new
      exact ⟨d, (others r d taken).mpr (.inl ⟨rfl, rfl⟩), taken, fits⟩
    · obtain ⟨e, at_, bit, wide⟩ := owns.backed p s old
      exact ⟨e, (others p e bit).mpr (.inr at_), bit, wide⟩

/-- The bytes asked for through two pointers are disjoint. -/
theorem apart (owns : Owns listp bs live) {p s q t : Nat} (first : (p, s) ∈ live)
    (second : (q, t) ∈ live) (differ : p ≠ q) : p + s ≤ q ∨ q + t ≤ p := by
  obtain ⟨d, dAt, -, dFits⟩ := owns.backed p s first
  obtain ⟨e, eAt, -, eFits⟩ := owns.backed q t second
  exact backed_apart dAt eAt differ dFits eFits

/-- The bytes asked for through another pointer outlive a block. -/
theorem payloadByte_marked {front back : List Block} {b : Block}
    (owns : Owns listp (front ++ b :: back) live) {p s i : Nat} (member : (p, s) ∈ live)
    (differ : p ≠ listp + 8 + span front) (lower : p ≤ i) (upper : i < p + s) :
    PayloadByte listp (front ++ b.mark false :: back) i := by
  obtain ⟨d, at_, taken, fits⟩ := owns.backed p s member
  exact ⟨p, d, (alloc_mem_marked taken).mpr ⟨at_, differ⟩, taken, lower, by omega⟩

end Owns

/-! ## The operations from a served client's view -/

section Serve

variable {lo : Nat} {c : Client}

/-- The end of a request: the invariant holds again, and what the client had
written to the blocks that the request is not about is still there. -/
structure Served (lo : Nat) (c : Client) (ptr : Nat) (c' : Client) : Prop where
  serving : Serving lo c'
  kept : ∀ p s, (p, s) ∈ c.live → p ≠ ptr → (p, s) ∈ c'.live ∧
    ∀ i, i < s → c'.heap.mem (p + i) = c.heap.mem (p + i)

theorem Served.refl (serving : Serving lo c) (ptr : Nat) : Served lo c ptr c :=
  ⟨serving, fun _ _ member _ => ⟨member, fun _ _ => rfl⟩⟩

/-- A successful `mm_init` starts a served client without pointers. -/
theorem Serving.start (started : Started lo c) : Serving lo c := by
  obtain ⟨h, fresh, run, none⟩ := started
  rcases wp_elim (wp_mmInit fresh) run with ⟨failed, -⟩ | ⟨-, -, rep⟩
  · cases failed
  · refine ⟨_, rep, ?_⟩
    rw [none]
    exact ⟨List.nodup_nil, by simp, by simp⟩

/-- `mm_malloc` of a size below `2 ^ 31`. -/
theorem Serving.malloc (serving : Serving lo c) {size : Nat} (small : size < 2 ^ 31) :
    wp (mmMalloc size) (fun r h' => Served lo c NULL ⟨h', take r size c.live⟩) c.heap := by
  by_cases zero : size = 0
  · unfold mmMalloc
    rw [wp_ite, if_pos zero, wp_pure]
    exact .refl serving NULL
  · obtain ⟨bs, rep, owns⟩ := serving
    have positive : 0 < size := Nat.pos_of_ne_zero zero
    refine wp_mono (wp_mmMalloc rep positive (by omega)) ?_
    intro r h' outcome
    rcases outcome.handed with ⟨rfl, rfl⟩ | ⟨bs', handed⟩
    · exact .refl ⟨bs, rep, owns⟩ NULL
    · refine ⟨⟨bs', handed.represents, owns.receive handed⟩, ?_⟩
      intro p s member _
      refine ⟨mem_take member, fun i inside => handed.updated.keeps _ ?_⟩
      exact owns.payloadByte member (by omega) (by omega)

/-- `mm_free` of a live pointer. -/
theorem Serving.free (serving : Serving lo c) {ptr size : Nat} (owned : (ptr, size) ∈ c.live) :
    wp (mmFree ptr) (fun _ h' => Served lo c ptr ⟨h', giveBack ptr c.live⟩) c.heap := by
  obtain ⟨bs, rep, owns⟩ := serving
  obtain ⟨b, at_, -, -⟩ := owns.backed ptr size owned
  obtain ⟨front, back, rfl, rfl⟩ := mem_located_iff.mp at_
  refine wp_mono (wp_mmFree rep) ?_
  rintro _ h' ⟨updated, sparse⟩
  refine ⟨⟨_, ⟨updated.tiling, sparse⟩, owns.release ?_⟩, ?_⟩
  · intro x d bit old differ
    exact (alloc_mem_coalesced rfl bit).mpr ((alloc_mem_marked bit).mpr ⟨old, differ⟩)
  · intro p s member differ
    refine ⟨Malloc.Owns.mem_giveBack.mpr ⟨member, differ⟩, fun i inside => updated.keeps _ ?_⟩
    exact owns.payloadByte_marked member differ (by omega) (by omega)

/-- `mm_realloc` of a live pointer: it fails without any change, or the first
bytes are where it points. -/
theorem Serving.realloc (serving : Serving lo c) {ptr old size : Nat}
    (owned : (ptr, old) ∈ c.live) (positive : 0 < size) (small : size < 2 ^ 31) :
    wp (mmRealloc ptr size) (fun r h' =>
      Served lo c ptr ⟨h', if r = NULL then c.live else take r size (giveBack ptr c.live)⟩ ∧
      (r = NULL ∧ h' = c.heap ∨
        r ≠ NULL ∧ ∀ i, i < min old size → h'.mem (r + i) = c.heap.mem (ptr + i))) c.heap := by
  obtain ⟨bs, rep, owns⟩ := serving
  obtain ⟨b, at_, taken, wide⟩ := owns.backed ptr old owned
  obtain ⟨front, back, rfl, rfl⟩ := mem_located_iff.mp at_
  refine wp_mono (wp_mmRealloc rep taken positive (by omega)) ?_
  rintro r h' (⟨rfl, rfl⟩ | ⟨⟨bs', handed⟩, copied⟩)
  · rw [if_pos rfl]
    exact ⟨.refl ⟨_, rep, owns⟩ _, .inl ⟨rfl, rfl⟩⟩
  · rw [if_neg handed.ne_null]
    have released : Owns (lo + 8) (front ++ b.mark false :: back)
        (giveBack (lo + 8 + 8 + span front) c.live) :=
      owns.release fun x d bit old differ => (alloc_mem_marked bit).mpr ⟨old, differ⟩
    refine ⟨⟨⟨bs', handed.represents, released.receive handed⟩, ?_⟩, .inr ⟨handed.ne_null, ?_⟩⟩
    · intro p s member differ
      refine ⟨mem_take (Malloc.Owns.mem_giveBack.mpr ⟨member, differ⟩), fun i inside => ?_⟩
      exact handed.updated.keeps _ (owns.payloadByte_marked member differ (by omega) (by omega))
    · intro i inside
      exact copied i (by omega) (by omega)

/-- A write to bytes that were asked for. -/
theorem Serving.write (serving : Serving lo c) {ptr size offset : Nat} (value : UInt8)
    (owned : (ptr, size) ∈ c.live) (inside : offset < size) :
    Served lo c ptr { c with
      heap := c.heap.withMem (Function.update c.heap.mem (ptr + offset) value) } := by
  obtain ⟨bs, rep, owns⟩ := serving
  have byte : PayloadByte (lo + 8) bs (ptr + offset) :=
    owns.payloadByte owned (by omega) (by omega)
  have only : ∀ i, ¬ PayloadByte (lo + 8) bs i →
      Function.update c.heap.mem (ptr + offset) value i = c.heap.mem i := by
    intro i outside
    refine Function.update_of_ne ?_ _ _
    rintro rfl
    exact outside byte
  refine ⟨⟨bs, ⟨rep.tiling.overwrite only, rep.sparse⟩, owns⟩, ?_⟩
  intro p s member differ
  refine ⟨member, fun i lower => Function.update_of_ne ?_ _ _⟩
  have apart := owns.apart member owned differ
  omega

/-- Every allowed request is carried out to its end. -/
theorem Serving.serve (serving : Serving lo c) {request : Request} (allowed : Allowed c request) :
    ∃ c', SysProg.Implicit.serve c request = some c' ∧ Served lo c request.argument c' := by
  cases allowed with
  | malloc small =>
      obtain ⟨⟨r, h'⟩, run, served⟩ := serving.malloc small
      exact ⟨_, by simp [Implicit.serve, run], served⟩
  | free owned =>
      obtain ⟨⟨r, h'⟩, run, served⟩ := serving.free owned
      exact ⟨_, by simp [Implicit.serve, run], served⟩
  | realloc owned positive small =>
      obtain ⟨⟨r, h'⟩, run, served, -⟩ := serving.realloc owned positive small
      exact ⟨_, by simp [Implicit.serve, run], served⟩
  | write owned inside => exact ⟨_, rfl, serving.write _ owned inside⟩

/-- The invariant holds in every state of every run. -/
theorem Serving.of_reachable (reached : (runs lo).Reachable c) : Serving lo c := by
  refine reached.invariant (fun _ started => .start started) ?_
  rintro s request t - serving ⟨allowed, step⟩
  obtain ⟨t', run, served⟩ := serving.serve allowed
  rw [step] at run
  cases run
  exact served.serving

end Serve

end SysProg.Implicit

import SysProg.Proxy.Relay

/-!
# Read errors in the relay loop

`Rio_readnb` returns -1 after a failed read, and `run_thread` keeps its result
in a `size_t`.  A response without an error is relayed within the bounds of
both arrays; the first error makes the loop send, and perhaps copy, `2 ^ 64 - 1`
bytes instead of ending it.
-/

namespace SysProg.Proxy

/-- Each result is the length of a chunk, the end of the file or an error. -/
def ReadResults (results : List ReadResult) : Prop :=
  ∀ r ∈ results, (1 ≤ r.result ∧ r.result ≤ MAXBUF) ∨ r.result = 0 ∨ r.result = -1

/-- The loop keeps to the bounds of its arrays, ends at the first result that
is not a chunk, and a response that an error cuts short is not cached. -/
structure Contained (url : List UInt8) (results : List ReadResult) : Prop where
  copies : ∀ c ∈ (relay results).copied, c.2 ≤ MAXBUF ∧ c.1 + c.2 ≤ MAX_OBJECT_SIZE
  sends : ∀ w ∈ (relay results).written, w.len ≤ MAXBUF
  stops : ∀ before r after, results = before ++ r :: after → Delivered before → r.result ≤ 0 →
    relay results = relay before
  uncached : ∀ before r after, results = before ++ r :: after → Delivered before →
    r.result = -1 → relayAdd url (relay results) = none

/-- No read fails before the end of the file. -/
def ErrorFree (results : List ReadResult) : Prop :=
  ∀ before r after, results = before ++ r :: after → Delivered before → r.result ≠ -1

/-! ## A failed read -/

theorem relayStep_written (s : Relay) (resp : Nat → UInt8) (len : Nat) :
    (relayStep s resp len).written = s.written ++ [⟨resp, len⟩] := by
  simp only [relayStep]
  split <;> rfl

theorem sizeT_error : sizeT (-1) = 2 ^ 64 - 1 := by
  unfold sizeT
  omega

/-- An error is taken for a chunk of `2 ^ 64 - 1` bytes: that many are sent, and
copied unless no byte has been collected yet. -/
theorem relayStep_error {s : Relay} (small : s.objectlen ≤ MAX_OBJECT_SIZE) (resp : Nat → UInt8) :
    (relayStep s resp (sizeT (-1))).written = s.written ++ [⟨resp, 2 ^ 64 - 1⟩] ∧
      (relayStep s resp (sizeT (-1))).copied =
        if s.objectlen = 0 then s.copied else s.copied ++ [(s.objectlen, 2 ^ 64 - 1)] := by
  rw [sizeT_error]
  refine ⟨relayStep_written .., ?_⟩
  simp only [relayStep]
  by_cases first : s.objectlen = 0
  · have large : ¬ (s.objectlen + (2 ^ 64 - 1)) % 2 ^ 64 ≤ MAX_OBJECT_SIZE := by
      unfold MAX_OBJECT_SIZE
      omega
    rw [if_pos first, if_neg large]
  · have wrapped : (s.objectlen + (2 ^ 64 - 1)) % 2 ^ 64 ≤ MAX_OBJECT_SIZE := by omega
    rw [if_neg first, if_pos wrapped]

/-! ## Chunks -/

section Loop

variable {s : Relay} {results chunks rest : List ReadResult} {r : ReadResult}

theorem relayLoop_append (delivered : Delivered chunks) :
    relayLoop s (chunks ++ rest) = relayLoop (relayLoop s chunks) rest := by
  induction chunks generalizing s with
  | nil => rfl
  | cons r chunks ih =>
      obtain ⟨size, positive, -⟩ := sizeT_chunk (delivered r List.mem_cons_self)
      have later : Delivered chunks := fun q member => delivered q (List.mem_cons_of_mem _ member)
      rw [List.cons_append, relayLoop, relayLoop, if_pos (by omega), if_pos (by omega), ih later]

/-- What has been sent stays sent. -/
theorem written_prefix (s : Relay) (results : List ReadResult) :
    s.written <+: (relayLoop s results).written := by
  induction results generalizing s with
  | nil => exact List.prefix_rfl
  | cons r rest ih =>
      rw [relayLoop]
      split
      · refine List.IsPrefix.trans ?_ (ih _)
        rw [relayStep_written]
        exact List.prefix_append _ _
      · exact List.prefix_rfl

/-- A sequence of results starts with its chunks. -/
theorem exists_chunks (readnb : ReadResults results) :
    ∃ chunks rest, results = chunks ++ rest ∧ Delivered chunks ∧
      ∀ r ∈ rest.head?, r.result = 0 ∨ r.result = -1 := by
  induction results with
  | nil => exact ⟨[], [], rfl, fun _ member => (nomatch member), fun _ member => (nomatch member)⟩
  | cons r results ih =>
      rcases readnb r List.mem_cons_self with chunk | other
      · obtain ⟨chunks, rest, rfl, delivered, ended⟩ :=
          ih fun q member => readnb q (List.mem_cons_of_mem _ member)
        exact ⟨r :: chunks, rest, rfl, List.forall_mem_cons.mpr ⟨chunk, delivered⟩, ended⟩
      · refine ⟨[], r :: results, rfl, fun _ member => (nomatch member), ?_⟩
        intro q first
        cases first
        exact other

/-- The end of the file ends the loop. -/
theorem relayLoop_end (ended : r.result = 0) : relayLoop s (r :: rest) = s := by
  rw [relayLoop, ended]
  rfl

/-- The loop after chunks only: its calls stay inside the arrays. -/
structure Bounded (s : Relay) : Prop where
  small : s.objectlen ≤ MAX_OBJECT_SIZE
  copies : ∀ c ∈ s.copied, c.2 ≤ MAXBUF ∧ c.1 + c.2 ≤ MAX_OBJECT_SIZE
  sends : ∀ w ∈ s.written, w.len ≤ MAXBUF

theorem Bounded.start : Bounded ⟨fun _ => 0, 0, [], []⟩ where
  small := Nat.zero_le _
  copies _ member := nomatch member
  sends _ member := nomatch member

/-- A chunk keeps the bounds. -/
theorem Bounded.step (bounded : Bounded s) (chunk : 1 ≤ r.result ∧ r.result ≤ MAXBUF) :
    Bounded (relayStep s r.resp (sizeT r.result)) := by
  obtain ⟨size, -, upper⟩ := sizeT_chunk chunk
  have length := relayStep_objectlen bounded.small chunk
  have small := bounded.small
  have noWrap := collected_add small upper
  rw [size] at length ⊢
  refine ⟨?_, ?_, ?_⟩
  · rw [length]
    split
    · assumption
    · exact small
  · simp only [relayStep, noWrap]
    split
    · rename_i fits
      intro c member
      rcases List.mem_append.mp member with old | new
      · exact bounded.copies c old
      · rw [List.mem_singleton.mp new]
        exact ⟨upper, fits⟩
    · exact bounded.copies
  · intro w member
    rw [relayStep_written] at member
    rcases List.mem_append.mp member with old | new
    · exact bounded.sends w old
    · rw [List.mem_singleton.mp new]
      exact upper

/-- So does any number of chunks. -/
theorem Bounded.loop (bounded : Bounded s) (delivered : Delivered chunks) :
    Bounded (relayLoop s chunks) := by
  induction chunks generalizing s with
  | nil => exact bounded
  | cons r chunks ih =>
      have chunk := delivered r List.mem_cons_self
      obtain ⟨size, positive, -⟩ := sizeT_chunk chunk
      rw [relayLoop, if_pos (by omega)]
      exact ih (bounded.step chunk) fun q member => delivered q (List.mem_cons_of_mem _ member)

end Loop

/-! ## The condition -/

/-- A contained sequence has no error before the end of the file. -/
theorem Contained.errorFree {url : List UInt8} {results : List ReadResult}
    (contained : Contained url results) : ErrorFree results := by
  rintro before r after rfl delivered failed
  have bounded : Bounded (relay before) := Bounded.start.loop delivered
  obtain ⟨sent, -⟩ := relayStep_error bounded.small r.resp
  have positive : 0 < sizeT (-1) := by
    rw [sizeT_error]
    omega
  have run : relay (before ++ r :: after) =
      relayLoop (relayStep (relay before) r.resp (sizeT (-1))) after := by
    rw [relay, relayLoop_append delivered, relayLoop, failed, if_pos positive]
    rfl
  have kept := written_prefix (relayStep (relay before) r.resp (sizeT (-1))) after
  rw [← run, sent] at kept
  have asked : 2 ^ 64 - 1 ≤ MAXBUF := contained.sends ⟨r.resp, 2 ^ 64 - 1⟩ (kept.subset (by simp))
  unfold MAXBUF at asked
  omega

/-- The relay loop is safe for exactly the sequences of results without an error
before the end of the file. -/
theorem contained_iff {url : List UInt8} {results : List ReadResult}
    (readnb : ReadResults results) : Contained url results ↔ ErrorFree results := by
  constructor
  · exact Contained.errorFree
  · intro errorFree
    obtain ⟨chunks, rest, rfl, delivered, ended⟩ := exists_chunks readnb
    have run : relay (chunks ++ rest) = relay chunks := by
      rw [relay, relayLoop_append delivered]
      cases rest with
      | nil => rfl
      | cons r rest =>
          exact relayLoop_end ((ended r rfl).resolve_right (errorFree chunks r rest rfl delivered))
    have bounded : Bounded (relay (chunks ++ rest)) := run ▸ Bounded.start.loop delivered
    refine ⟨bounded.copies, bounded.sends, ?_, ?_⟩
    · intro before r after split before_ low
      have notError := errorFree before r after split before_
      have member : r ∈ chunks ++ rest := by simp [split]
      have zero : r.result = 0 := by
        rcases readnb r member with chunk | zero | failed
        · omega
        · exact zero
        · exact absurd failed notError
      rw [split, relay, relayLoop_append before_, relayLoop_end zero]
      rfl
    · intro before r after split before_ failed
      exact absurd failed (errorFree before r after split before_)

/-- A response of 100 bytes. -/
def shortResponse : List ReadResult := [⟨100, fun _ => 120⟩, endOfFile]

theorem contained_iff_short : Contained [97] shortResponse ↔ ErrorFree shortResponse := by
  refine contained_iff ?_
  intro r member
  simp only [shortResponse, List.mem_cons, List.not_mem_nil, or_false] at member
  rcases member with rfl | rfl
  · exact .inl (by decide)
  · exact .inr (.inl rfl)

/-- An error after a full buffer is relayed as a chunk. -/
theorem read_error_relayed :
    ¬ ∀ url results, ReadResults results → Contained url results := by
  intro claimed
  have readnb : ReadResults [⟨8192, fun _ => 120⟩, ⟨-1, fun _ => 120⟩] := by
    intro r member
    simp only [List.mem_cons, List.not_mem_nil, or_false] at member
    rcases member with rfl | rfl
    · exact .inl (by decide)
    · exact .inr (.inr rfl)
  have errorFree := (claimed [97] _ readnb).errorFree
  refine errorFree [⟨8192, fun _ => 120⟩] ⟨-1, fun _ => 120⟩ [] rfl ?_ rfl
  intro r member
  rw [List.mem_singleton.mp member]
  decide

end SysProg.Proxy

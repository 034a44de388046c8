import Mathlib.Algebra.Group.Int.Defs
import SysProg.Proxy.Cache

/-!
# The relay loop of `run_thread`

The loop forwards what `Rio_readnb` delivers, collects it in `object` as long
as it fits, and hands the collected bytes to `cache_add` at the end.  The
lengths are `size_t` values of 64 bits.
-/

namespace SysProg.Proxy

def MAXBUF : Nat := 8192

/-- A result of `Rio_readnb` and the contents of `resp` after it. -/
structure ReadResult where
  result : Int
  resp : Nat → UInt8

/-- The first `len` bytes of an array. -/
def bytesOf (array : Nat → UInt8) (len : Nat) : List UInt8 := (List.range len).map array

/-- The conversion of a result to `size_t`. -/
def sizeT (x : Int) : Nat := (x % 2 ^ 64).toNat

/-- A call `rio_writen(clientfd, resp, len)`. -/
structure Written where
  resp : Nat → UInt8
  len : Nat

/-- The variables of the loop, with the calls it has made so far. -/
structure Relay where
  object : Nat → UInt8
  objectlen : Nat
  written : List Written
  copied : List (Nat × Nat)

/-- The body of the loop for a chunk of `len` bytes. -/
def relayStep (s : Relay) (resp : Nat → UInt8) (len : Nat) : Relay :=
  let s := { s with written := s.written ++ [⟨resp, len⟩] }
  if (s.objectlen + len) % 2 ^ 64 ≤ MAX_OBJECT_SIZE then
    { s with
      object := fun i =>
        if s.objectlen ≤ i ∧ i < s.objectlen + len then resp (i - s.objectlen) else s.object i
      objectlen := (s.objectlen + len) % 2 ^ 64
      copied := s.copied ++ [(s.objectlen, len)] }
  else s

/-- The loop over the results still to come. -/
def relayLoop (s : Relay) : List ReadResult → Relay
  | [] => s
  | r :: rest =>
      if 0 < sizeT r.result then relayLoop (relayStep s r.resp (sizeT r.result)) rest else s

/-- A call `cache_add(url, object, objectlen)`. -/
structure CacheAdd where
  url : List UInt8
  object : Nat → UInt8
  objectlen : Nat

/-- The loop from the cleared `object` on. -/
def relay (results : List ReadResult) : Relay :=
  relayLoop ⟨fun _ => 0, 0, [], []⟩ results

/-- The call of `cache_add` after the loop. -/
def relayAdd (url : List UInt8) (s : Relay) : Option CacheAdd :=
  if s.objectlen ≤ MAX_OBJECT_SIZE then some ⟨url, s.object, s.objectlen⟩ else none

/-! ## Bodies -/

/-- The end of a response. -/
def endOfFile : ReadResult := ⟨0, fun _ => 0⟩

/-- Every result is the length of a chunk. -/
def Delivered (chunks : List ReadResult) : Prop :=
  ∀ r ∈ chunks, 1 ≤ r.result ∧ r.result ≤ MAXBUF

/-- The bytes of a chunk. -/
def chunkBytes (r : ReadResult) : List UInt8 := bytesOf r.resp r.result.toNat

/-- The bytes of a response. -/
def body (chunks : List ReadResult) : List UInt8 := chunks.flatMap chunkBytes

/-- The bytes written to the client. -/
def sentBytes (s : Relay) : List UInt8 := s.written.flatMap fun w => bytesOf w.resp w.len

/-- The chunks that still fit when `n` bytes have been collected. -/
def fitting : Nat → List ReadResult → List ReadResult
  | _, [] => []
  | n, r :: rest =>
      if n + r.result.toNat ≤ MAX_OBJECT_SIZE then r :: fitting (n + r.result.toNat) rest
      else fitting n rest

@[simp] theorem bytesOf_length (array : Nat → UInt8) (len : Nat) :
    (bytesOf array len).length = len := by
  simp [bytesOf]

theorem bytesOf_congr {array array' : Nat → UInt8} {len : Nat}
    (same : ∀ i, i < len → array' i = array i) : bytesOf array' len = bytesOf array len := by
  refine List.map_congr_left fun i member => ?_
  exact same i (List.mem_range.mp member)

theorem bytesOf_append (array : Nat → UInt8) (n len : Nat) :
    bytesOf array (n + len) = bytesOf array n ++ bytesOf (fun i => array (n + i)) len := by
  simp [bytesOf, List.range_add]

theorem sizeT_chunk {r : ReadResult} (chunk : 1 ≤ r.result ∧ r.result ≤ MAXBUF) :
    sizeT r.result = r.result.toNat ∧ 0 < r.result.toNat ∧ r.result.toNat ≤ MAXBUF := by
  unfold MAXBUF at *
  unfold sizeT
  omega

theorem body_length (chunks : List ReadResult) :
    (body chunks).length = (chunks.map fun r => r.result.toNat).sum := by
  simp [body, chunkBytes, List.length_flatMap]

/-- Everything fits when the whole response does. -/
theorem fitting_all {n : Nat} {chunks : List ReadResult}
    (fits : n + (body chunks).length ≤ MAX_OBJECT_SIZE) : fitting n chunks = chunks := by
  induction chunks generalizing n with
  | nil => rfl
  | cons r rest ih =>
      rw [body_length, List.map_cons, List.sum_cons, ← body_length] at fits
      unfold fitting
      rw [if_pos (by omega), ih (by omega)]

/-- The state of the loop: `kept` has been collected, `sent` has been written. -/
structure Collected (s : Relay) (kept sent : List UInt8) : Prop where
  small : s.objectlen ≤ MAX_OBJECT_SIZE
  object : bytesOf s.object s.objectlen = kept
  written : sentBytes s = sent

/-- What is collected and one more chunk do not reach the width of `objectlen`. -/
theorem collected_add {n k : Nat} (small : n ≤ MAX_OBJECT_SIZE) (chunk : k ≤ MAXBUF) :
    (n + k) % 2 ^ 64 = n + k := by
  unfold MAX_OBJECT_SIZE at small
  unfold MAXBUF at chunk
  exact Nat.mod_eq_of_lt (by omega)

theorem relayStep_objectlen {s : Relay} {r : ReadResult} (small : s.objectlen ≤ MAX_OBJECT_SIZE)
    (chunk : 1 ≤ r.result ∧ r.result ≤ MAXBUF) :
    (relayStep s r.resp (sizeT r.result)).objectlen =
      if s.objectlen + r.result.toNat ≤ MAX_OBJECT_SIZE then s.objectlen + r.result.toNat
      else s.objectlen := by
  obtain ⟨size, -, upper⟩ := sizeT_chunk chunk
  simp only [relayStep, size, collected_add small upper]
  split <;> rfl

/-- One chunk is written, and collected when it fits. -/
theorem Collected.step {s : Relay} {kept sent : List UInt8} {r : ReadResult}
    (c : Collected s kept sent) (chunk : 1 ≤ r.result ∧ r.result ≤ MAXBUF) :
    Collected (relayStep s r.resp (sizeT r.result))
      (if s.objectlen + r.result.toNat ≤ MAX_OBJECT_SIZE then kept ++ chunkBytes r else kept)
      (sent ++ chunkBytes r) := by
  obtain ⟨size, -, upper⟩ := sizeT_chunk chunk
  have small := c.small
  have noWrap := collected_add small upper
  have written : (s.written ++ [Written.mk r.resp r.result.toNat]).flatMap
      (fun w => bytesOf w.resp w.len) = sent ++ chunkBytes r := by
    rw [List.flatMap_append, ← c.written]
    simp [sentBytes, chunkBytes]
  simp only [relayStep, size, noWrap]
  by_cases fits : s.objectlen + r.result.toNat ≤ MAX_OBJECT_SIZE
  · rw [if_pos fits, if_pos fits]
    refine ⟨fits, ?_, written⟩
    rw [bytesOf_append, ← c.object]
    congr 1
    · refine bytesOf_congr fun i below => ?_
      exact if_neg (by omega)
    · refine bytesOf_congr fun i below => ?_
      have inside : s.objectlen ≤ s.objectlen + i ∧
          s.objectlen + i < s.objectlen + r.result.toNat := by omega
      simp only [inside, and_self, if_true, Nat.add_sub_cancel_left]
  · rw [if_neg fits, if_neg fits]
    exact ⟨small, c.object, written⟩

/-- The loop collects exactly the chunks that fit and writes all of them. -/
theorem Collected.loop {s : Relay} {kept sent : List UInt8} {chunks : List ReadResult}
    (c : Collected s kept sent) (delivered : Delivered chunks) :
    Collected (relayLoop s (chunks ++ [endOfFile])) (kept ++ body (fitting s.objectlen chunks))
      (sent ++ body chunks) := by
  induction chunks generalizing s kept sent with
  | nil => simpa [relayLoop, endOfFile, sizeT, fitting, body] using c
  | cons r rest ih =>
      have chunk := delivered r List.mem_cons_self
      obtain ⟨size, positive, upper⟩ := sizeT_chunk chunk
      have later : Delivered rest := fun q member => delivered q (List.mem_cons_of_mem _ member)
      have after := ih (c.step chunk) later
      have length := relayStep_objectlen c.small chunk
      rw [List.cons_append, relayLoop, if_pos (by omega)]
      have allSent : body (r :: rest) = chunkBytes r ++ body rest := rfl
      rw [allSent, ← List.append_assoc]
      by_cases fits : s.objectlen + r.result.toNat ≤ MAX_OBJECT_SIZE
      · rw [if_pos fits] at after length
        have kept' : fitting s.objectlen (r :: rest) =
            r :: fitting (s.objectlen + r.result.toNat) rest := if_pos fits
        rw [length, List.append_assoc] at after
        rw [kept']
        exact after
      · rw [if_neg fits] at after length
        have kept' : fitting s.objectlen (r :: rest) = fitting s.objectlen rest := if_neg fits
        rw [length] at after
        rw [kept']
        exact after

/-! ## What is cached -/

/-- The outcome of the loop for a response that ends with end of file. -/
def relayed (url : List UInt8) (chunks : List ReadResult) : Relay × Option CacheAdd :=
  let s := relay (chunks ++ [endOfFile])
  (s, relayAdd url s)

/-- The loop always ends with a call of `cache_add`, for the chunks that fit. -/
theorem relayed_eq (url : List UInt8) {chunks : List ReadResult} (delivered : Delivered chunks) :
    ∃ add, (relayed url chunks).2 = some add ∧ add.url = url ∧
      bytesOf add.object add.objectlen = body (fitting 0 chunks) ∧
      sentBytes (relayed url chunks).1 = body chunks := by
  have start : Collected ⟨fun _ => 0, 0, [], []⟩ [] [] := ⟨Nat.zero_le _, rfl, rfl⟩
  have done := start.loop delivered
  simp only [List.nil_append] at done
  refine ⟨_, if_pos done.small, rfl, done.object, done.written⟩

/-- What is cached is what was relayed: an object is added only for a response
that fits, and then it is the whole response. -/
def CachesRelayed (url : List UInt8) (chunks : List ReadResult) : Prop :=
  ∀ add, (relayed url chunks).2 = some add →
    (body chunks).length ≤ MAX_OBJECT_SIZE ∧ add.url = url ∧
      bytesOf add.object add.objectlen = sentBytes (relayed url chunks).1

/-- The loop caches what it relayed exactly when the response fits. -/
theorem cachesRelayed_iff {url : List UInt8} {chunks : List ReadResult}
    (delivered : Delivered chunks) :
    CachesRelayed url chunks ↔ (body chunks).length ≤ MAX_OBJECT_SIZE := by
  obtain ⟨add, call, same, object, sent⟩ := relayed_eq url delivered
  constructor
  · intro faithful
    exact (faithful add call).1
  · intro fits add' call'
    rw [call] at call'
    cases call'
    refine ⟨fits, same, ?_⟩
    rw [object, sent, fitting_all (by omega)]

/-- A response of `n` chunks of `MAXBUF` bytes. -/
def fullChunks (n : Nat) : List ReadResult := List.replicate n ⟨8192, fun _ => 120⟩

theorem fullChunks_delivered (n : Nat) : Delivered (fullChunks n) := by
  intro r member
  rw [List.eq_of_mem_replicate member]
  decide

theorem cachesRelayed_iff_twelve :
    CachesRelayed [97] (fullChunks 12) ↔ (body (fullChunks 12)).length ≤ MAX_OBJECT_SIZE :=
  cachesRelayed_iff (fullChunks_delivered 12)

/-- Of a response of 13 full chunks the first 12 are cached. -/
theorem relayed_too_long :
    ¬ ∀ url chunks, Delivered chunks → CachesRelayed url chunks := by
  intro claimed
  obtain ⟨add, call, -⟩ := relayed_eq [97] (fullChunks_delivered 13)
  have fits := (claimed [97] _ (fullChunks_delivered 13) add call).1
  rw [body_length] at fits
  revert fits
  decide

end SysProg.Proxy

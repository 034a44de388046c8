import SysProg.Proxy.Fetching

/-!
# Where a cached object comes from

Whatever the interleaving, an object that a client gets from the cache was
relayed to a client that had asked for the same URL.  The bytes are the relayed
ones exactly when all of them fit into `object` and none before the last is zero.
-/

namespace SysProg.Proxy

open Logic Machine

/-! ## What is collected -/

/-- Behind the collected bytes `object` is zero. -/
structure Zeroed (s : Relay) : Prop where
  small : s.objectlen ≤ MAX_OBJECT_SIZE
  zero : ∀ i, s.objectlen ≤ i → s.object i = 0

theorem Zeroed.step {s : Relay} {r : ReadResult} (zeroed : Zeroed s)
    (chunk : 1 ≤ r.result ∧ r.result ≤ MAXBUF) :
    Zeroed (relayStep s r.resp (sizeT r.result)) := by
  obtain ⟨size, -, upper⟩ := sizeT_chunk chunk
  have noWrap := collected_add zeroed.small upper
  have length := relayStep_objectlen zeroed.small chunk
  constructor
  · rw [length]
    split
    · assumption
    · exact zeroed.small
  · rw [length]
    intro i behind
    simp only [relayStep, size, noWrap]
    by_cases fits : s.objectlen + r.result.toNat ≤ MAX_OBJECT_SIZE
    · rw [if_pos fits] at behind ⊢
      dsimp only
      rw [if_neg (by omega)]
      exact zeroed.zero i (by omega)
    · rw [if_neg fits] at behind ⊢
      exact zeroed.zero i behind

theorem Zeroed.loop {s : Relay} {chunks : List ReadResult} (zeroed : Zeroed s)
    (delivered : Delivered chunks) : Zeroed (relayLoop s (chunks ++ [endOfFile])) := by
  induction chunks generalizing s with
  | nil => exact zeroed
  | cons r chunks ih =>
      have chunk := delivered r List.mem_cons_self
      obtain ⟨size, positive, -⟩ := sizeT_chunk chunk
      rw [List.cons_append, relayLoop, if_pos (by omega)]
      exact ih (zeroed.step chunk) fun q member => delivered q (List.mem_cons_of_mem _ member)

/-- The array behind the loop is the buffer of the collected bytes. -/
theorem Zeroed.objectOf_eq {s : Relay} (zeroed : Zeroed s) :
    objectOf s = objectBuffer (bytesOf s.object s.objectlen) := by
  have size : MAX_OBJECT_SIZE = s.objectlen + (MAX_OBJECT_SIZE - s.objectlen) := by
    have small := zeroed.small
    omega
  rw [objectOf, objectBuffer, bytesOf_length]
  conv_lhs => rw [size]
  rw [bytesOf_append]
  congr 1
  refine List.ext_getElem (by simp) ?_
  intro i inside inside'
  simp [bytesOf, zeroed.zero]

/-- The loop over a response. -/
def relayedBytes (bytes : List UInt8) : Relay := relay (chunksOf bytes ++ [endOfFile])

/-- The bytes of a response that are collected: the chunks that fit. -/
def collected (bytes : List UInt8) : List UInt8 := body (fitting 0 (chunksOf bytes))

theorem relayedBytes_zeroed (bytes : List UInt8) : Zeroed (relayedBytes bytes) :=
  Zeroed.loop ⟨Nat.zero_le _, fun _ _ => rfl⟩ (chunksOf_delivered bytes)

theorem relayedBytes_collected (bytes : List UInt8) :
    Collected (relayedBytes bytes) (collected bytes) bytes := by
  have start : Collected ⟨fun _ => 0, 0, [], []⟩ [] [] := ⟨Nat.zero_le _, rfl, rfl⟩
  have done := start.loop (chunksOf_delivered bytes)
  rwa [List.nil_append, List.nil_append, body_chunksOf] at done

theorem relayedBytes_objectlen (bytes : List UInt8) :
    (relayedBytes bytes).objectlen = (collected bytes).length := by
  rw [← (relayedBytes_collected bytes).object, bytesOf_length]

theorem objectOf_relayedBytes (bytes : List UInt8) :
    objectOf (relayedBytes bytes) = objectBuffer (collected bytes) := by
  rw [(relayedBytes_zeroed bytes).objectOf_eq, (relayedBytes_collected bytes).object]

theorem collected_length (bytes : List UInt8) : (collected bytes).length ≤ MAX_OBJECT_SIZE :=
  relayedBytes_objectlen bytes ▸ (relayedBytes_collected bytes).small

theorem collected_all {bytes : List UInt8} (fits : bytes.length ≤ MAX_OBJECT_SIZE) :
    collected bytes = bytes := by
  rw [collected, fitting_all (by rw [body_chunksOf]; omega), body_chunksOf]

/-- What a lookup returns of a response that was relayed. -/
def loaded (bytes : List UInt8) : List (Option UInt8) :=
  (stringOver (List.replicate ((collected bytes).length + 1) none)
    (objectBuffer (collected bytes))).take (collected bytes).length

theorem loaded_length (bytes : List UInt8) : (loaded bytes).length ≤ (collected bytes).length :=
  List.length_take_le _ _

/-- A response comes back from the cache exactly when it fits and has no zero
byte before its last one. -/
theorem loaded_eq_iff (bytes : List UInt8) : loaded bytes = bytes.map some ↔
    bytes.length ≤ MAX_OBJECT_SIZE ∧ 0 ∉ bytes.dropLast := by
  constructor
  · intro same
    have length := loaded_length bytes
    rw [same, List.length_map] at length
    have fits := length.trans (collected_length bytes)
    rw [loaded, collected_all fits] at same
    exact ⟨fits, stored_eq_iff.mp same⟩
  · rintro ⟨fits, clean⟩
    rw [loaded, collected_all fits]
    exact stored_eq_iff.mpr clean

/-! ## The items -/

section Items

variable {c : CacheList} {x : Nat}

/-- The item `x` holds what is collected of the response. -/
structure Keeps (c : CacheList) (x : Nat) (url : Text) (bytes : List UInt8) : Prop where
  tag : (c.item x).tag = url
  objectlen : (c.item x).objectlen = (collected bytes).length
  object : (c.item x).object =
    stringOver (List.replicate ((collected bytes).length + 1) none) (objectBuffer (collected bytes))

/-- The items of two lists differ at most in their links. -/
def SameObjects (c c' : CacheList) (x : Nat) : Prop :=
  (c'.item x).tag = (c.item x).tag ∧ (c'.item x).objectlen = (c.item x).objectlen ∧
    (c'.item x).object = (c.item x).object

theorem SameObjects.of_eq {c' : CacheList} (same : c'.item x = c.item x) : SameObjects c c' x := by
  unfold SameObjects
  rw [same]
  exact ⟨rfl, rfl, rfl⟩

theorem Keeps.same {c' : CacheList} {url : Text} {bytes : List UInt8} (keeps : Keeps c x url bytes)
    (same : SameObjects c c' x) : Keeps c' x url bytes where
  tag := same.1.trans keeps.tag
  objectlen := same.2.1.trans keeps.objectlen
  object := same.2.2.trans keeps.object

/-- A move to the front changes links only. -/
theorem moveToHead_objects {result : Unit × CacheList} (unlinked : NoBack c)
    (moved : moveToHead x c = some result) :
    NoBack result.2 ∧ result.2.allocated = c.allocated ∧ ∀ y, SameObjects c result.2 y := by
  by_cases first : c.head = x
  · rw [moveToHead_head first] at moved
    cases moved
    exact ⟨unlinked, rfl, fun y => .of_eq rfl⟩
  · by_cases empty : c.head = NULL
    · have alone : moveToHead x c = some ((), { c with head := x, tail := x }) := by
        show (if c.head = x then pure () else listHead >>= fun head => if head = NULL then
          (setTail x >>= fun _ => setHead x) else _) c = _
        rw [if_neg first]
        show (if c.head = NULL then (setTail x >>= fun _ => setHead x) else _) c = _
        rw [if_pos empty]
        rfl
      rw [alone] at moved
      cases moved
      exact ⟨unlinked, rfl, fun y => .of_eq rfl⟩
    · by_cases live : x ∈ c.allocated
      · rw [moveToHead_eq unlinked live, if_neg first, if_neg empty] at moved
        split at moved
        · cases moved
          have objects : ∀ y, SameObjects c (pushFront c x) y := by
            intro y
            by_cases here : y = x
            · subst here
              simp [SameObjects, pushFront]
            · exact .of_eq (Function.update_of_ne here _ _)
          refine ⟨fun y => ?_, rfl, objects⟩
          by_cases here : y = x
          · subst here
            simpa [pushFront] using unlinked y
          · simpa [pushFront, here] using unlinked y
        · cases moved
      · rw [moveToHead_freed live first empty] at moved
        cases moved

/-- The section under the read lock finds an item with the URL or none. -/
theorem lookupCopy_result {url : Text} {result : (Nat × Nat × List (Option UInt8)) × CacheList}
    (looked : lookupCopy url c = some result) : result.1.1 = NULL ∨
      result.1.1 ∈ c.allocated ∧ (c.item result.1.1).tag = url ∧
        result.1.2.1 = (c.item result.1.1).objectlen ∧
        result.1.2.2 =
          (c.item result.1.1).object.take (c.item result.1.1).objectlen := by
  rw [lookupCopy, bind_run] at looked
  cases ends : search url c with
  | none =>
      rw [ends] at looked
      cases looked
  | some found =>
      obtain ⟨same, -, -⟩ := searchFrom_result ends
      obtain ⟨y, c'⟩ := found
      obtain rfl : c' = c := same
      rw [ends, Option.bind_some] at looked
      by_cases null : y = NULL
      · rw [if_pos null] at looked
        cases looked
        exact .inl rfl
      · obtain ⟨-, live, tagged⟩ := searchFrom_found ends null
        rw [if_neg null, bind_run, deref_eq live, Option.bind_some] at looked
        cases looked
        exact .inr ⟨live, tagged, rfl, rfl⟩

end Items

/-! ## The sections -/

section Sections

variable {w w' : Session}

theorem storeAll_run {stores : Stores} {result : Unit × Session}
    (stored : storeAll stores w = some result) : result = ((), w) := by
  rw [storeAll] at stored
  split at stored
  · cases stored
    rfl
  · cases stored

/-- The request line is read from the client; nothing else changes. -/
theorem receive_run {received : Option (Text × Text)} (sound : w.rioClient.Sound)
    (ends : receive w = some (received, w')) :
    w'.rioClient.Sound ∧ w'.clientfd = w.clientfd := by
  obtain ⟨⟨result, v⟩, run, r, rfl, read⟩ := wp_clientLine sound
  rw [receive, bind_run_of_run run] at ends
  have sound' : r.Sound := by
    cases read <;> assumption
  dsimp only at ends
  split at ends
  · cases ends
    exact ⟨sound', rfl⟩
  · split at ends
    · cases ends
    · obtain ⟨stored, run', rest⟩ := Option.bind_eq_some_iff.mp ends
      obtain rfl := storeAll_run run'
      generalize sscanf (cstring result.2) requestFormat = fields at rest
      rcases fields with _ | ⟨method, _ | ⟨url, _ | ⟨version, _ | _⟩⟩⟩
      all_goals
        cases rest
        exact ⟨sound', rfl⟩

/-- What the miss path leaves behind: nothing is sent to the client unless a
response was relayed. -/
theorem fetch_run {network : Network} {method url : Text} {ending : Ending}
    (sound : w.rioClient.Sound) (ends : fetch network method url w = some (ending, w')) :
    ending = .left ∨ ending = .unreachable ∨ ∃ bytes, ending = .relayed url (relayedBytes bytes) ∧
      Delivers (bytes.map some) w.clientfd w'.clientfd := by
  rw [fetch] at ends
  split at ends
  · cases ends
    exact .inl rfl
  · obtain ⟨stored, run, ends⟩ := Option.bind_eq_some_iff.mp ends
    obtain rfl := storeAll_run run
    dsimp only at ends
    cases target : (parseUrl url).target with
    | none =>
      rw [target] at ends
      cases ends
      exact .inl rfl
    | some t =>
      rw [target] at ends
      dsimp only at ends
      obtain ⟨⟨fwd, v⟩, run, ⟨r, rfl⟩, -⟩ :=
        wp_headers ((opening t).foldl strcatFwd (strcpyFwd method)) sound
      rw [bind_run_of_run run] at ends
      obtain ⟨stored, run, ends⟩ := Option.bind_eq_some_iff.mp ends
      obtain rfl := storeAll_run run
      dsimp only at ends
      cases found : network t.hostname t.port with
      | none =>
        rw [found] at ends
        cases ends
        exact .inr (.inl rfl)
      | some connection =>
        rw [found] at ends
        dsimp only at ends
        obtain ⟨⟨_, v⟩, run, serverfd, rfl, -⟩ :=
          wp_sendServer (w := { w with rioClient := r }) connection fwd.text
        rw [bind_run_of_run run] at ends
        rcases relayResponse_cases (w := { w with rioClient := r, serverfd := serverfd })
          connection with ⟨⟨s, v⟩, run, rfl, reader, out, rfl, delivers⟩ | ⟨stuck, -⟩
        · rw [bind_run_of_run run] at ends
          cases ends
          exact .inr (.inr ⟨_, rfl, delivers⟩)
        · obtain ⟨result, run, -⟩ := Option.bind_eq_some_iff.mp ends
          rw [stuck] at run
          cases run

/-- An add that comes to its end puts the collected bytes in front and keeps the
other items that are left. -/
theorem addRelayed_run {item : Nat} {url bytes : List UInt8} {c : CacheList}
    {result : Unit × CacheList} (unlinked : NoBack c) (notNull : NULL ∉ c.allocated)
    (ends : addRelayed item url (relayedBytes bytes) c = some result) :
    NoBack result.2 ∧ NULL ∉ result.2.allocated ∧ Keeps result.2 item url bytes ∧
      ∀ y ∈ result.2.allocated, y = item ∨ y ∈ c.allocated ∧ SameObjects c result.2 y := by
  rw [addRelayed, if_pos (relayedBytes_zeroed bytes).small, objectOf_relayedBytes,
    relayedBytes_objectlen] at ends
  obtain ⟨c', left, itemNe, fresh, after⟩ := cacheAdd_some unlinked notNull ends
  have base : NoBack c' ∧ c'.item = c.item ∧ ∀ y ∈ c'.allocated, y ∈ c.allocated := by
    rcases left with rfl | ⟨-, rfl⟩
    · exact ⟨unlinked, rfl, fun _ => id⟩
    · exact ⟨unlinked, rfl, fun _ => List.mem_of_mem_erase⟩
  obtain ⟨unlinked', items, fewer⟩ := base
  obtain ⟨others, tag, objectlen, -⟩ :=
    added_item c' item url (objectBuffer (collected bytes)) (collected bytes).length
  rw [after]
  refine ⟨added_unlinked unlinked', ?_, ⟨tag, objectlen, added_object ..⟩, fun y member => ?_⟩
  · rw [added_allocated]
    intro member
    rcases List.mem_cons.mp member with null | old
    · exact itemNe null.symm
    · exact notNull (fewer _ old)
  · rw [added_allocated] at member
    rcases List.mem_cons.mp member with here | old
    · exact .inl here
    · refine .inr ⟨fewer y old, .of_eq ?_⟩
      rw [others y fun same => fresh (same ▸ old), items]

end Sections

/-! ## Histories -/

/-- The thread accepted the client, which asked for the URL. -/
structure Asked (past : List (Hall × Phase)) (t : Nat) (url : Text) (client : Client) : Prop where
  accepted : ∃ h, (h, Phase.accept t client) ∈ past
  asked : ∃ method session, receive client.accepted = some (some (method, url), session)

/-- A thread relayed the response to a client that had asked for the URL, and
added it to the cache. -/
def Fetched (past : List (Hall × Phase)) (url : Text) (bytes : List UInt8) : Prop :=
  ∃ h t item session client, (h, Phase.add t item) ∈ past ∧
    h.worker t = .relayed session url (relayedBytes bytes) ∧ Asked past t url client ∧
      Delivers (bytes.map some) ⟨[], client.responsePlan⟩ session.clientfd

/-- The client of the thread was sent what a lookup returns of a response that
had been fetched for the same URL. -/
def Replayed (past : List (Hall × Phase)) (t : Nat) (url : Text) (session : Session) : Prop :=
  ∃ client bytes, Asked past t url client ∧ Fetched past url bytes ∧
    Delivers (loaded bytes) ⟨[], client.responsePlan⟩ session.clientfd

/-- Nothing has been sent to the client yet. -/
structure Waiting (past : List (Hall × Phase)) (t : Nat) (url : Text) (session : Session) : Prop where
  sound : session.rioClient.Sound
  asked : ∃ client, Asked past t url client ∧ session.clientfd = ⟨[], client.responsePlan⟩

/-- What is known of a thread. -/
inductive Explained (past : List (Hall × Phase)) (t : Nat) : Worker → Prop where
  | idle : Explained past t .idle
  | asking {session : Session} {method url : Text} (waiting : Waiting past t url session) :
      Explained past t (.asking session method url)
  | found {session : Session} {method url : Text} {item : Nat} {bytes : List UInt8}
      (waiting : Waiting past t url session) (fetched : Fetched past url bytes) :
      Explained past t
        (.found session method url item (collected bytes).length (loaded bytes))
  | missed {session : Session} {method url : Text} (waiting : Waiting past t url session) :
      Explained past t (.missed session method url)
  | relayed {session : Session} {url : Text} {bytes : List UInt8} {client : Client}
      (asked : Asked past t url client)
      (delivers : Delivers (bytes.map some) ⟨[], client.responsePlan⟩ session.clientfd) :
      Explained past t (.relayed session url (relayedBytes bytes))
  | finished {session : Session} {ending : Ending}
      (replayed : ∀ url, ending = .hit url → Replayed past t url session) :
      Explained past t (.finished session ending)

section Later

variable {past : List (Hall × Phase)} {b : Hall × Phase} {t : Nat} {url : Text} {client : Client}

theorem Asked.later (asked : Asked past t url client) : Asked (b :: past) t url client where
  accepted := asked.accepted.imp fun _ => List.mem_cons_of_mem b
  asked := asked.asked

theorem Fetched.later {bytes : List UInt8} (fetched : Fetched past url bytes) :
    Fetched (b :: past) url bytes := by
  obtain ⟨h, t, item, session, client, member, worker, asked, delivers⟩ := fetched
  exact ⟨h, t, item, session, client, List.mem_cons_of_mem b member, worker, asked.later, delivers⟩

theorem Waiting.later {session : Session} (waiting : Waiting past t url session) :
    Waiting (b :: past) t url session where
  sound := waiting.sound
  asked := waiting.asked.imp fun _ known => known.imp_left Asked.later

theorem Explained.later {w : Worker} (explained : Explained past t w) :
    Explained (b :: past) t w := by
  cases explained with
  | idle => exact .idle
  | asking waiting => exact .asking waiting.later
  | found waiting fetched => exact .found waiting.later fetched.later
  | missed waiting => exact .missed waiting.later
  | relayed asked delivers => exact .relayed asked.later delivers
  | finished replayed =>
      refine .finished fun url hit => ?_
      obtain ⟨client, bytes, asked, fetched, delivers⟩ := replayed url hit
      exact ⟨client, bytes, asked.later, fetched.later, delivers⟩

end Later

/-- What is known of the cache and the threads. -/
structure Known (past : List (Hall × Phase)) (h : Hall) : Prop where
  unlinked : NoBack h.cache
  notNull : NULL ∉ h.cache.allocated
  items : ∀ x ∈ h.cache.allocated, ∃ url bytes, Fetched past url bytes ∧ Keeps h.cache x url bytes
  workers : ∀ t, Explained past t (h.worker t)

namespace Known

variable {past : List (Hall × Phase)} {h h' : Hall} {b : Hall × Phase} {c : CacheList} {t : Nat}
  {w : Worker}

theorem start : Known [] emptyHall where
  unlinked _ := rfl
  notNull := List.not_mem_nil
  items _ member := nomatch member
  workers _ := .idle

/-- One thread goes on, with a cache whose items are known. -/
theorem moves (known : Known past h) (unlinked : NoBack c) (notNull : NULL ∉ c.allocated)
    (items : ∀ x ∈ c.allocated, ∃ url bytes, Fetched (b :: past) url bytes ∧ Keeps c x url bytes)
    (explained : Explained (b :: past) t w) :
    Known (b :: past) ({ h with cache := c }.moves t w) where
  unlinked := unlinked
  notNull := notNull
  items := items
  workers t' := by
    by_cases same : t' = t
    · subst same
      simpa [Hall.moves] using explained
    · simpa [Hall.moves, same] using (known.workers t').later

/-- One thread goes on without the cache. -/
theorem moves_alone (known : Known past h) (explained : Explained (b :: past) t w) :
    Known (b :: past) (h.moves t w) := by
  refine known.moves known.unlinked known.notNull (fun x live => ?_) explained
  obtain ⟨url, bytes, fetched, keeps⟩ := known.items x live
  exact ⟨url, bytes, fetched.later, keeps⟩

theorem accept {client : Client} (known : Known past h)
    (taken : advance h (.accept t client) = some h') :
    Known ((h, .accept t client) :: past) h' := by
  simp only [advance] at taken
  split at taken
  · obtain ⟨⟨received, session⟩, ends, rfl⟩ := Option.map_eq_some_iff.mp taken
    have initial : client.accepted.rioClient.Sound := Nat.zero_le _
    obtain ⟨sound, clientfd⟩ := receive_run initial ends
    refine known.moves_alone ?_
    cases received with
    | none => exact .finished fun url hit => nomatch hit
    | some words =>
        refine .asking ⟨sound, client, ⟨⟨h, List.mem_cons_self⟩, words.1, session, ends⟩, clientfd⟩
  · cases taken

theorem search (known : Known past h) (taken : advance h (.search t) = some h') :
    Known ((h, .search t) :: past) h' := by
  have explained := known.workers t
  simp only [advance] at taken
  split at taken
  · rename_i session method url asking
    obtain ⟨⟨⟨item, len, object⟩, c⟩, looked, rfl⟩ := Option.map_eq_some_iff.mp taken
    rw [asking] at explained
    cases explained with
    | asking waiting =>
        refine known.moves_alone ?_
        by_cases null : item = NULL
        · rw [if_pos null]
          exact .missed waiting.later
        · obtain ⟨live, tagged, length, copy⟩ := (lookupCopy_result looked).resolve_left null
          obtain ⟨url', bytes, fetched, keeps⟩ := known.items item live
          obtain rfl : url' = url := keeps.tag.symm.trans tagged
          rw [if_neg null, length, copy, keeps.objectlen, keeps.object]
          exact .found waiting.later fetched.later
  · cases taken

theorem moveToHead (known : Known past h) (taken : advance h (.moveToHead t) = some h') :
    Known ((h, .moveToHead t) :: past) h' := by
  have explained := known.workers t
  simp only [advance] at taken
  split at taken
  · rename_i session method url item len object found
    obtain ⟨result, moved, taken⟩ := Option.bind_eq_some_iff.mp taken
    obtain ⟨unlinked, allocated, same⟩ := moveToHead_objects known.unlinked moved
    have notNull : NULL ∉ result.2.allocated := allocated ▸ known.notNull
    have items : ∀ x ∈ result.2.allocated, ∃ url bytes,
        Fetched ((h, .moveToHead t) :: past) url bytes ∧ Keeps result.2 x url bytes := by
      intro x live
      obtain ⟨url, bytes, fetched, keeps⟩ := known.items x (allocated ▸ live)
      exact ⟨url, bytes, fetched.later, keeps.same (same x)⟩
    rw [found] at explained
    cases explained with
    | @found _ _ _ _ bytes waiting fetched =>
        split at taken
        · cases taken
          exact known.moves unlinked notNull items (.missed waiting.later)
        · obtain ⟨sent, run, rfl⟩ := Option.map_eq_some_iff.mp taken
          obtain ⟨out, after, delivers⟩ := wp_elim (wp_sendClient (loaded bytes)) run
          refine known.moves unlinked notNull items (.finished fun url' hit => ?_)
          cases hit
          obtain ⟨-, client, asked, clientfd⟩ := waiting
          rw [clientfd] at delivers
          rw [after]
          exact ⟨client, bytes, asked.later, fetched.later, delivers⟩
  · cases taken

theorem fetch {network : Network} (known : Known past h)
    (taken : advance h (.fetch t network) = some h') :
    Known ((h, .fetch t network) :: past) h' := by
  have explained := known.workers t
  simp only [advance] at taken
  split at taken
  · rename_i session method url missed
    obtain ⟨⟨ending, session'⟩, ends, rfl⟩ := Option.map_eq_some_iff.mp taken
    rw [missed] at explained
    cases explained with
    | missed waiting =>
        obtain ⟨sound, client, asked, clientfd⟩ := waiting
        refine known.moves_alone ?_
        rcases fetch_run sound ends with rfl | rfl | ⟨bytes, rfl, delivers⟩
        · exact .finished fun url hit => nomatch hit
        · exact .finished fun url hit => nomatch hit
        · rw [clientfd] at delivers
          exact .relayed asked.later delivers
  · cases taken

theorem add {item : Nat} (known : Known past h) (taken : advance h (.add t item) = some h') :
    Known ((h, .add t item) :: past) h' := by
  have explained := known.workers t
  simp only [advance] at taken
  split at taken
  · rename_i session url s here
    obtain ⟨result, ends, rfl⟩ := Option.map_eq_some_iff.mp taken
    rw [here] at explained
    cases explained with
    | @relayed _ _ bytes client asked delivers =>
        have fetched : Fetched ((h, .add t item) :: past) url bytes :=
          ⟨h, t, item, session, client, List.mem_cons_self, here, asked.later, delivers⟩
        obtain ⟨unlinked, notNull, new, others⟩ :=
          addRelayed_run known.unlinked known.notNull ends
        refine known.moves unlinked notNull (fun x live => ?_) (.finished fun url hit => nomatch hit)
        rcases others x live with rfl | ⟨old, same⟩
        · exact ⟨url, bytes, fetched, new⟩
        · obtain ⟨url', bytes', fetched', keeps⟩ := known.items x old
          exact ⟨url', bytes', fetched'.later, keeps.same same⟩
  · cases taken

/-- Every section keeps what is known. -/
theorem step {e : Phase} (known : Known past h) (taken : hosting.step h e h') :
    Known ((h, e) :: past) h' := by
  cases e with
  | accept t client => exact known.accept taken
  | search t => exact known.search taken
  | moveToHead t => exact known.moveToHead taken
  | fetch t network => exact known.fetch taken
  | add t item => exact known.add taken

theorem run (run : hosting.Run past h) : Known past h := by
  induction run with
  | start initial =>
      cases initial
      exact .start
  | next before taken ih => exact ih.step taken

end Known

end SysProg.Proxy

import SysProg.Proxy.Provenance

/-!
# A miss and the hit after it

A GET request that misses is fetched for its client and added; the next request
for the URL gets the same bytes, and no server is asked for them.
-/

namespace SysProg.Proxy

open Logic Machine

/-! ## Going on -/

section Moves

variable {h : Hall} {t u : Nat} {w : Worker}

@[simp] theorem moves_cache : (h.moves t w).cache = h.cache := rfl

@[simp] theorem moves_same : (h.moves t w).worker t = w := Function.update_self ..

theorem moves_other (apart : u ≠ t) : (h.moves t w).worker u = h.worker u :=
  Function.update_of_ne apart ..

end Moves

/-- The client sends the request and takes a response whole. -/
structure Client.Sends (client : Client) (r : GetRequest) (behind : Text) : Prop where
  request : client.request.rest = r.bytes ++ behind
  whole : r.requestLine.length < MAXBUF
  steady : failures client.request.plan = 0
  takes : failures client.responsePlan = 0
  inside : InBounds [(.method, r.method), (.url, r.url), (.version, r.version)]

namespace GetRequest

/-- The lines behind the request line. -/
def linesBehind (r : GetRequest) (behind : Text) : List (List UInt8) :=
  r.headers.map Header.line ++ crlf :: readLines behind

/-- The request that is sent to the server. -/
def sentTo (r : GetRequest) (t : Target) (behind : Text) : Text :=
  cstring (builtFwd r.method t (r.linesBehind behind)).text

end GetRequest

/-- The network has a server for the request that answers the response. -/
structure Answers (network : Network) (r : GetRequest) (behind : Text) (t : Target)
    (response : List UInt8) : Prop where
  parsed : (parseUrl r.url).target = some t
  urlInside : InBounds (parseUrl r.url).stores
  fwdInside : InBounds (builtFwd r.method t (r.linesBehind behind)).stores
  connects : ∃ connection, network t.hostname t.port = some connection ∧
    failures connection.requestPlan = 0 ∧
      failures (connection.respond (r.sentTo t behind)).plan = 0 ∧
        (connection.respond (r.sentTo t behind)).rest = response

section Phases

variable {h : Hall} {t : Nat} {client : Client} {r : GetRequest} {behind : Text}
  {session : Session} {method url : Text}

theorem accept_sends (idle : h.worker t = .idle) (sends : client.Sends r behind) :
    ∃ session, advance h (.accept t client) = some (h.moves t (.asking session r.method r.url)) ∧
      session.clientfd = ⟨[], client.responsePlan⟩ ∧ session.rioClient.Sound ∧
        session.rioClient.failures = 0 ∧
          readLines session.rioClient.pending = r.linesBehind behind := by
  have sound : client.accepted.rioClient.Sound := Nat.zero_le _
  obtain ⟨⟨received, session⟩, ends, rfl, reader, rfl, sound', steady, lines⟩ :=
    wp_receive sound sends.steady sends.whole sends.request sends.inside
  refine ⟨{ client.accepted with rioClient := reader }, ?_, rfl, sound', steady, lines⟩
  simp only [advance, idle]
  rw [ends]
  rfl

theorem search_missed (asking : h.worker t = .asking session method url)
    (missed : search url h.cache = some (NULL, h.cache)) :
    advance h (.search t) = some (h.moves t (.missed session method url)) := by
  have looked : lookupCopy url h.cache = some ((NULL, 0, []), h.cache) := by
    rw [lookupCopy, bind_run, missed, Option.bind_some, if_pos rfl]
    rfl
  simp only [advance, asking]
  rw [looked]
  rfl

theorem fetch_answered {network : Network} {target : Target} {response : List UInt8}
    (missed : h.worker t = .missed session r.method r.url) (sound : session.rioClient.Sound)
    (steady : session.rioClient.failures = 0)
    (lines : readLines session.rioClient.pending = r.linesBehind behind)
    (answers : Answers network r behind target response) :
    ∃ session', advance h (.fetch t network) =
        some (h.moves t (.relayed session' r.url (relayedBytes response))) ∧
      session'.serverfd.taken = r.sentTo target behind ∧
      Delivers (response.map some) session.clientfd session'.clientfd := by
  obtain ⟨connection, connects, takes, steady', rfl⟩ := answers.connects
  obtain ⟨⟨ending, session'⟩, ends, rfl, received, delivers⟩ :=
    wp_fetch r.get answers.parsed sound steady lines answers.urlInside answers.fwdInside connects
      takes steady'
  refine ⟨session', ?_, received, delivers⟩
  simp only [advance, missed]
  rw [ends]
  rfl

theorem add_relayed {response : List UInt8} {item : Nat} {c : CacheList}
    (relayed : h.worker t = .relayed session url (relayedBytes response))
    (fits : response.length ≤ MAX_OBJECT_SIZE)
    (terminated : 0 ∈ response ∨ response.length < MAX_OBJECT_SIZE)
    (room : makeRoom response.length h.cache = some ((), c)) (unlinked : NoBack c)
    (notNull : item ≠ NULL) (fresh : item ∉ c.allocated) :
    advance h (.add t item) = some ({ h with
      cache := added c url (objectBuffer response) response.length item }.moves t
        (.finished session (.relayed url (relayedBytes response)))) := by
  have whole : collected response = response := collected_all fits
  have inside := (copiesInside_iff fits).mpr terminated
  have grown : addRelayed item url (relayedBytes response) h.cache =
      some ((), added c url (objectBuffer response) response.length item) := by
    rw [addRelayed, if_pos (relayedBytes_zeroed response).small, objectOf_relayedBytes,
      relayedBytes_objectlen, whole, cacheAdd_eq unlinked room notNull fresh inside]
  simp only [advance, relayed]
  rw [grown]
  rfl

/-- A search finds the item at the head when it has the URL. -/
theorem search_head {object : List (Option UInt8)} {len x : Nat}
    (asking : h.worker t = .asking session method url) (notNull : NULL ∉ h.cache.allocated)
    (head : h.cache.head = x) (live : x ∈ h.cache.allocated) (tagged : (h.cache.item x).tag = url)
    (length : (h.cache.item x).objectlen = len)
    (copy : (h.cache.item x).object.take len = object) :
    advance h (.search t) = some (h.moves t (.found session method url x len object)) := by
  have apart : x ≠ NULL := fun same => notNull (same ▸ live)
  have path : Path h.cache h.cache.head [] x := head
  have found : search url h.cache = some (x, h.cache) :=
    search_reached notNull path (fun _ member => nomatch member) live tagged
  have looked : lookupCopy url h.cache = some ((x, len, object), h.cache) := by
    rw [lookupCopy, bind_run, found, Option.bind_some, if_neg apart, bind_run, deref_eq live,
      Option.bind_some, ← copy, ← length]
    rfl
  simp only [advance, asking]
  rw [looked]
  exact congrArg (fun w => some (h.moves t w)) (if_neg apart)

theorem moveToHead_hit {object : List (Option UInt8)} {len x : Nat}
    (found : h.worker t = .found session method url x len object) (head : h.cache.head = x)
    (positive : 0 < len) :
    ∃ session', advance h (.moveToHead t) = some (h.moves t (.finished session' (.hit url))) ∧
      Delivers object session.clientfd session'.clientfd := by
  obtain ⟨⟨_, session'⟩, run, out, rfl, delivers⟩ := wp_sendClient (w := session) object
  refine ⟨{ session with clientfd := out }, ?_, delivers⟩
  simp only [advance, found]
  rw [moveToHead_head head, Option.bind_some, if_neg (Nat.ne_of_gt positive), run]
  rfl

end Phases

/-- The sections of a thread that misses. -/
def missing (t item : Nat) (client : Client) (network : Network) : List Phase :=
  [.accept t client, .search t, .fetch t network, .add t item]

/-- The sections of a thread that hits. -/
def hitting (t : Nat) (client : Client) : List Phase := [.accept t client, .search t, .moveToHead t]

/-- A lookup of the URL misses, and an object of the length can be added. -/
structure Admits (c : CacheList) (url : Text) (len item : Nat) : Prop where
  missed : search url c = some (NULL, c)
  room : ∃ c', makeRoom len c = some ((), c') ∧ item ∉ c'.allocated
  notNull : item ≠ NULL

/-- The response fits and survives the copies as a string. -/
structure Cacheable (response : List UInt8) : Prop where
  nonempty : 0 < response.length
  fits : response.length ≤ MAX_OBJECT_SIZE
  clean : 0 ∉ response.dropLast
  terminated : 0 ∈ response ∨ response.length < MAX_OBJECT_SIZE

/-- The head of the list is an item that holds the response. -/
structure InFront (c : CacheList) (url : Text) (response : List UInt8) (x : Nat) : Prop where
  notNull : NULL ∉ c.allocated
  head : c.head = x
  live : x ∈ c.allocated
  tag : (c.item x).tag = url
  objectlen : (c.item x).objectlen = response.length
  object : (c.item x).object.take response.length = response.map some

theorem InFront.of_added {c : CacheList} {url : Text} {response : List UInt8} {x : Nat}
    (cacheable : Cacheable response) (notNull : NULL ∉ c.allocated) (itemNe : x ≠ NULL) :
    InFront (added c url (objectBuffer response) response.length x) url response x := by
  obtain ⟨-, tag, objectlen, -⟩ := added_item c x url (objectBuffer response) response.length
  have whole : loaded response = response.map some :=
    (loaded_eq_iff response).mpr ⟨cacheable.fits, cacheable.clean⟩
  rw [loaded, collected_all cacheable.fits,
    ← added_object c x url (objectBuffer response) response.length] at whole
  refine ⟨?_, added_head, ?_, tag, objectlen, whole⟩
  · rw [added_allocated]
    intro member
    rcases List.mem_cons.mp member with null | old
    · exact itemNe null.symm
    · exact notNull old
  · rw [added_allocated]
    exact List.mem_cons_self

section Threads

variable {h : Hall} {t : Nat} {r : GetRequest} {client : Client} {behind : Text}
  {response : List UInt8}

/-- A thread whose request misses. -/
theorem miss_run {network : Network} {target : Target} {item : Nat} (unlinked : NoBack h.cache)
    (notNull : NULL ∉ h.cache.allocated) (idle : h.worker t = .idle)
    (sends : client.Sends r behind) (answers : Answers network r behind target response)
    (cacheable : Cacheable response) (admits : Admits h.cache r.url response.length item) :
    ∃ h' session, replay advance h (missing t item client network) = some h' ∧
      h'.worker t = .finished session (.relayed r.url (relayedBytes response)) ∧
      (∀ u, u ≠ t → h'.worker u = h.worker u) ∧ InFront h'.cache r.url response item ∧
      session.serverfd.taken = r.sentTo target behind ∧
      session.clientfd.taken = response.map some := by
  obtain ⟨c, room, fresh⟩ := admits.room
  obtain ⟨unlinked', notNull'⟩ := makeRoom_base unlinked notNull room
  obtain ⟨s1, accepted, clientfd, sound, steady, lines⟩ := accept_sends idle sends
  have searched := search_missed (h := h.moves t (.asking s1 r.method r.url)) moves_same
    admits.missed
  obtain ⟨s2, fetched, received, delivers⟩ := fetch_answered
    (h := (h.moves t (.asking s1 r.method r.url)).moves t (.missed s1 r.method r.url))
    moves_same sound steady lines answers
  have grown := add_relayed moves_same cacheable.fits cacheable.terminated room unlinked'
    admits.notNull fresh (h := ((h.moves t (.asking s1 r.method r.url)).moves t
      (.missed s1 r.method r.url)).moves t (.relayed s2 r.url (relayedBytes response)))
  rw [clientfd] at delivers
  refine ⟨_, s2, replay_next accepted (replay_next searched (replay_next fetched
    (replay_one grown))), moves_same, fun u apart => ?_, ?_, received, (delivers sends.takes).1⟩
  · simp only [moves_other apart]
  · exact .of_added cacheable notNull' admits.notNull

/-- A thread whose request finds the head of the list. -/
theorem hit_run {x : Nat} (idle : h.worker t = .idle) (sends : client.Sends r behind)
    (front : InFront h.cache r.url response x) (nonempty : 0 < response.length) :
    ∃ h' session, replay advance h (hitting t client) = some h' ∧
      h'.worker t = .finished session (.hit r.url) ∧
      (∀ u, u ≠ t → h'.worker u = h.worker u) ∧
      session.clientfd.taken = response.map some := by
  obtain ⟨s1, accepted, clientfd, -⟩ := accept_sends idle sends
  have searched := search_head (h := h.moves t (.asking s1 r.method r.url)) moves_same
    front.notNull front.head front.live front.tag front.objectlen front.object
  obtain ⟨s2, hit, delivers⟩ := moveToHead_hit (h := (h.moves t (.asking s1 r.method r.url)).moves t
    (.found s1 r.method r.url x response.length (response.map some))) moves_same front.head nonempty
  rw [clientfd] at delivers
  refine ⟨_, s2, replay_next accepted (replay_next searched (replay_one hit)), moves_same,
    fun u apart => ?_, (delivers sends.takes).1⟩
  simp only [moves_other apart]

end Threads

/-- A GET request that misses is relayed to its server and answered with the
response; the next request for the URL is answered with the same bytes from the
cache, whatever the pieces in which the devices transfer. -/
theorem fetched_then_hit {past : List (Hall × Phase)} {h : Hall} (run : hosting.Run past h)
    {t u item : Nat} (idle : h.worker t = .idle) (idle' : h.worker u = .idle) (apart : u ≠ t)
    {r r' : GetRequest} (same : r'.url = r.url) {client client' : Client} {behind behind' : Text}
    (sends : client.Sends r behind) (sends' : client'.Sends r' behind') {network : Network}
    {target : Target} {response : List UInt8} (answers : Answers network r behind target response)
    (cacheable : Cacheable response) (admits : Admits h.cache r.url response.length item) :
    ∃ h' session session',
      replay advance h (missing t item client network ++ hitting u client') = some h' ∧
      h'.worker t = .finished session (.relayed r.url (relayedBytes response)) ∧
      session.serverfd.taken = r.sentTo target behind ∧
      session.clientfd.taken = response.map some ∧
      h'.worker u = .finished session' (.hit r.url) ∧
      session'.clientfd.taken = response.map some := by
  have known := Known.run run
  obtain ⟨h1, session, missed, done, others, front, received, answered⟩ :=
    miss_run known.unlinked known.notNull idle sends answers cacheable admits
  have idle1 : h1.worker u = .idle := (others u apart).trans idle'
  rw [← same] at front
  obtain ⟨h2, session', hit, done', others', replayed⟩ :=
    hit_run idle1 sends' front cacheable.nonempty
  refine ⟨h2, session, session', replay_trans missed hit, ?_, received, answered, ?_, replayed⟩
  · rw [others' t apart.symm, done]
  · rw [done', same]

theorem get_word : Word (ascii "GET") := ⟨by decide, by decide +kernel⟩

theorem url_word : Word (ascii "a/") := ⟨by decide, by decide +kernel⟩

theorem version_word : Word (ascii "HTTP/1.0") := ⟨by decide, by decide +kernel⟩

theorem get_get : strcasecmpZero (ascii "GET") (ascii "GET") = true := by decide

theorem no_header_long : ∀ h ∈ ([] : List Header), h.line.length < MAXBUF :=
  fun _ member => absurd member List.not_mem_nil

/-- `GET a/ HTTP/1.0` without header lines. -/
def bareGet : GetRequest where
  method := ascii "GET"
  url := ascii "a/"
  version := ascii "HTTP/1.0"
  headers := []
  method_word := get_word
  url_word := url_word
  version_word := version_word
  get := get_get
  header_length := no_header_long

/-- A client whose bytes come and go in pieces. -/
def slowClient : Client := ⟨⟨bareGet.bytes ++ [], [.interrupted, .upTo 0]⟩, [.upTo 0]⟩

/-- Every server answers one byte. -/
def oneByteNetwork : Network := fun _ _ => some ⟨[.interrupted], fun _ => ⟨oneByte, [.upTo 0]⟩⟩

theorem slowClient_sends : slowClient.Sends bareGet [] where
  request := rfl
  whole := by decide
  steady := by decide
  takes := by decide
  inside := by decide

theorem oneByteNetwork_answers :
    Answers oneByteNetwork bareGet [] ⟨ascii "a", ascii "80", ascii "/"⟩ oneByte where
  parsed := by decide
  urlInside := by decide
  fwdInside := by
    intro s stored
    obtain ⟨buffer, length⟩ := (builtFwd_growing _ _ _).inside s stored
    have built := (GetRequest.builtFwd_iff (r := bareGet) ⟨ascii "a", ascii "80", ascii "/"⟩
      (readLines [])).mpr fun _ member => nomatch member
    rw [buffer]
    refine length.trans_lt ?_
    rw [GetRequest.linesBehind, built]
    decide +kernel
  connects := ⟨_, rfl, by decide, by decide, rfl⟩

theorem oneByte_cacheable : Cacheable oneByte :=
  ⟨by decide, by decide, by decide, .inr (by decide)⟩

theorem emptyHall_admits : Admits emptyHall.cache bareGet.url oneByte.length 1 :=
  ⟨rfl, ⟨cacheInit, rfl, List.not_mem_nil⟩, by decide⟩

theorem fetched_then_hit_oneByte : ∃ h' session session',
    replay advance emptyHall (missing 0 1 slowClient oneByteNetwork ++ hitting 1 slowClient) =
        some h' ∧
      h'.worker 0 = .finished session (.relayed bareGet.url (relayedBytes oneByte)) ∧
      session.serverfd.taken = bareGet.sentTo ⟨ascii "a", ascii "80", ascii "/"⟩ [] ∧
      session.clientfd.taken = oneByte.map some ∧
      h'.worker 1 = .finished session' (.hit bareGet.url) ∧
      session'.clientfd.taken = oneByte.map some :=
  fetched_then_hit (.start rfl) rfl rfl (by decide) rfl slowClient_sends slowClient_sends
    oneByteNetwork_answers oneByte_cacheable emptyHall_admits

/-- In every interleaving, a client whose request hit the cache was sent what a
lookup returns of a response that had been relayed to a client asking for the
same URL: these bytes exactly when they fit and only the last may be zero. -/
theorem hits_replay {past : List (Hall × Phase)} {h : Hall} (run : hosting.Run past h) {t : Nat}
    {session : Session} {url : Text} (finished : h.worker t = .finished session (.hit url)) :
    ∃ client bytes, Asked past t url client ∧ Fetched past url bytes ∧
      Delivers (loaded bytes) ⟨[], client.responsePlan⟩ session.clientfd ∧
      (loaded bytes = bytes.map some ↔
        bytes.length ≤ MAX_OBJECT_SIZE ∧ 0 ∉ bytes.dropLast) := by
  have explained := (Known.run run).workers t
  rw [finished] at explained
  cases explained with
  | finished replayed =>
      obtain ⟨client, bytes, asked, fetched, delivers⟩ := replayed url rfl
      exact ⟨client, bytes, asked, fetched, delivers, loaded_eq_iff bytes⟩

theorem hits_replay_oneByte : ∃ past h session, hosting.Run past h ∧
    h.worker 1 = .finished session (.hit bareGet.url) ∧
    ∃ client bytes, Asked past 1 bareGet.url client ∧ Fetched past bareGet.url bytes ∧
      Delivers (loaded bytes) ⟨[], client.responsePlan⟩ session.clientfd ∧
      (loaded bytes = bytes.map some ↔
        bytes.length ≤ MAX_OBJECT_SIZE ∧ 0 ∉ bytes.dropLast) := by
  have known := Known.start
  obtain ⟨h1, _, missed, -, others, front, -⟩ := miss_run known.unlinked known.notNull rfl
    slowClient_sends oneByteNetwork_answers oneByte_cacheable emptyHall_admits (t := 0)
  have idle : h1.worker 1 = .idle := others 1 (by decide)
  obtain ⟨h2, session, hit, finished, -⟩ := hit_run idle slowClient_sends front (by decide)
  obtain ⟨past, run⟩ := Run.of_replay (M := hosting) (.start rfl)
    (fun _ _ _ _ taken => taken) (replay_trans missed hit)
  exact ⟨past, h2, session, run, finished, hits_replay run finished⟩

end SysProg.Proxy

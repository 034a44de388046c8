import SysProg.Logic.Parts
import SysProg.Proxy.Buffers
import SysProg.Proxy.ReadErrors
import SysProg.Proxy.RoundTrip
import SysProg.Rio.Streams

/-!
# A thread on its connections

`run_thread` whole: it reads the request through a `rio_t`, looks the object
up, fetches it from a server on a miss, relays the response and adds it to the
cache.  The threads share the cache and nothing else, so a run interleaves
their sections between the calls of the cache.  A thread fails where it would
leave an array or read one that was never set.
-/

namespace SysProg.Proxy

open Logic

/-! ## Devices -/

/-- The connections of a thread; the bytes that the client gets are unknown
where the object in the cache was never written. -/
structure Session where
  rioClient : Rio.Reader
  clientfd : Sink (Option UInt8)
  rioServer : Rio.Reader
  serverfd : Sink UInt8

/-- A program of a thread between the calls of the cache. -/
abbrev SM := Prog Session

namespace Session

def rioClientPart : Part Session Rio.Reader := ⟨rioClient, fun r s => { s with rioClient := r }⟩

def clientfdPart : Part Session (Sink (Option UInt8)) :=
  ⟨clientfd, fun fd s => { s with clientfd := fd }⟩

def rioServerPart : Part Session Rio.Reader := ⟨rioServer, fun r s => { s with rioServer := r }⟩

def serverfdPart : Part Session (Sink UInt8) := ⟨serverfd, fun fd s => { s with serverfd := fd }⟩

end Session

/-- A connection to a server: how it takes the request, and what it sends for
the bytes that it has received. -/
structure Connection where
  requestPlan : List Logic.Answer
  respond : Text → Source UInt8

/-- What `open_clientfd` finds for a host name and a port. -/
abbrev Network := Text → Text → Option Connection

/-- A client: what it sends, and how it takes the response. -/
structure Client where
  request : Source UInt8
  responsePlan : List Logic.Answer

/-- The session of an accepted connection, before `serverfd` is set. -/
def Client.accepted (client : Client) : Session where
  rioClient := Rio.rioReadinitb client.request
  clientfd := ⟨[], client.responsePlan⟩
  rioServer := Rio.rioReadinitb ⟨[], []⟩
  serverfd := ⟨[], []⟩

/-- The `return` statements of `run_thread`: no object is asked for, it was in the
cache, the server cannot be reached, or the response was relayed. -/
inductive Ending where
  | left
  | hit (url : Text)
  | unreachable
  | relayed (url : Text) (s : Relay)

/-! ## The sections of a thread -/

instance (stores : Stores) : Decidable (InBounds stores) :=
  inferInstanceAs (Decidable (∀ s ∈ stores, s.2.length < s.1.size))

/-- Strings are stored in their arrays. -/
def storeAll (stores : Stores) : SM Unit := if InBounds stores then pure () else fun _ => none

/-- The request line, split into its words; nothing where the thread ends. -/
def receive : SM (Option (Text × Text)) := do
  let line ← Session.rioClientPart.run (Rio.rioReadlineb MAXBUF)
  if line.1 < 0 then pure none
  else if line.1 = 0 then fun _ => none
  else do
    let fields := sscanf (cstring line.2) requestFormat
    storeAll ([Buffer.method, .url, .version].zip fields)
    match fields with
    | [method, url, _] => pure (some (method, url))
    | _ => pure none

/-- `rio_writen(clientfd, object, len)`, whose result is not looked at. -/
def sendClient (bytes : List (Option UInt8)) : SM Unit := do
  let _ ← Session.clientfdPart.run (Rio.rioWriten bytes)
  pure ()

/-- The loop over the header lines, cut off after `fuel` rounds. -/
def readHeaders : Nat → ReqFwd → SM ReqFwd
  | 0, _ => fun _ => none
  | fuel + 1, fwd => do
      let line ← Session.rioClientPart.run (Rio.rioReadlineb MAXBUF)
      if 0 < line.1 then
        let req := cstring line.2
        if req = crlf then pure (strcatFwd fwd req)
        else if alreadyWritten req then readHeaders fuel fwd
        else readHeaders fuel (strcatFwd fwd req)
      else pure fwd

/-- Every round but the last takes a byte of the client. -/
def headers (fwd : ReqFwd) : SM ReqFwd := fun s =>
  readHeaders (s.rioClient.pending.length + 1) fwd s

/-- `rio_writen(serverfd, req_fwd, strlen(req_fwd))` on a new connection. -/
def sendServer (connection : Connection) (reqFwd : Text) : SM Unit := fun s =>
  (do
    let _ ← Session.serverfdPart.run (Rio.rioWriten (cstring reqFwd))
    pure ()) { s with serverfd := ⟨[], connection.requestPlan⟩ }

/-- The relay loop, cut off after `fuel` rounds. -/
def relayRounds : Nat → Relay → SM Relay
  | 0, _ => fun _ => none
  | fuel + 1, s => do
      let chunk ← Session.rioServerPart.run (Rio.rioReadnb MAXBUF)
      let len := sizeT chunk.1
      if 0 < len then
        if MAXBUF < len then fun _ => none
        else do
          let resp := fun i => chunk.2.getD i 0
          sendClient ((bytesOf resp len).map some)
          relayRounds fuel (relayStep s resp len)
      else pure s

/-- The response of the connection is relayed; every round but the last takes a
byte of it. -/
def relayResponse (connection : Connection) : SM Relay := fun s =>
  let source := connection.respond s.serverfd.taken
  relayRounds (source.rest.length + 1) ⟨fun _ => 0, 0, [], []⟩
    { s with rioServer := Rio.rioReadinitb source }

/-- From the miss to the call of `cache_add`. -/
def fetch (network : Network) (method url : Text) : SM Ending := do
  if !strcasecmpZero method (ascii "GET") then pure .left
  else do
    let parsed := parseUrl url
    storeAll parsed.stores
    match parsed.target with
    | none => pure .left
    | some t => do
        let fwd ← headers ((opening t).foldl strcatFwd (strcpyFwd method))
        storeAll fwd.stores
        match network t.hostname t.port with
        | none => pure .unreachable
        | some connection => do
            sendServer connection fwd.text
            let s ← relayResponse connection
            pure (.relayed url s)

/-- The array `object`. -/
def objectOf (s : Relay) : List UInt8 := bytesOf s.object MAX_OBJECT_SIZE

/-- The call of `cache_add`. -/
def addRelayed (item : Nat) (url : Text) (s : Relay) : CM Unit :=
  if s.objectlen ≤ MAX_OBJECT_SIZE then cacheAdd url (objectOf s) s.objectlen item else pure ()

/-! ## Interleavings -/

/-- Where a thread is. -/
inductive Worker where
  | idle
  | asking (session : Session) (method url : Text)
  | found (session : Session) (method url : Text) (item len : Nat) (object : List (Option UInt8))
  | missed (session : Session) (method url : Text)
  | relayed (session : Session) (url : Text) (s : Relay)
  | finished (session : Session) (ending : Ending)

/-- The cache and the threads that serve clients. -/
structure Hall where
  cache : CacheList
  worker : Nat → Worker

/-- What a thread does between two calls of the cache, or one of these. -/
inductive Phase where
  | accept (t : Nat) (client : Client)
  | search (t : Nat)
  | moveToHead (t : Nat)
  | fetch (t : Nat) (network : Network)
  | add (t item : Nat)

/-- The thread goes on to another point. -/
def Hall.moves (h : Hall) (t : Nat) (w : Worker) : Hall :=
  { h with worker := Function.update h.worker t w }

/-- The search of `cache_lookup` and its copy, under the read lock: the item, its
length and the copy. -/
def lookupCopy (url : Text) : CM (Nat × Nat × List (Option UInt8)) := do
  let item ← search url
  if item = NULL then pure (NULL, 0, [])
  else do
    let found ← deref item
    pure (item, found.objectlen, found.object.take found.objectlen)

/-- A section of a thread. -/
def advance (h : Hall) : Phase → Option Hall
  | .accept t client =>
      match h.worker t with
      | .idle => (receive client.accepted).map fun r =>
          h.moves t (match r.1 with
            | none => .finished r.2 .left
            | some (method, url) => .asking r.2 method url)
      | _ => none
  | .search t =>
      match h.worker t with
      | .asking session method url => (lookupCopy url h.cache).map fun r =>
          h.moves t (if r.1.1 = NULL then .missed session method url
            else .found session method url r.1.1 r.1.2.1 r.1.2.2)
      | _ => none
  | .moveToHead t =>
      match h.worker t with
      | .found session method url item len object => (moveToHead item h.cache).bind fun r =>
          if len = 0 then some ({ h with cache := r.2 }.moves t (.missed session method url))
          else (sendClient object session).map fun sent =>
            { h with cache := r.2 }.moves t (.finished sent.2 (.hit url))
      | _ => none
  | .fetch t network =>
      match h.worker t with
      | .missed session method url => (fetch network method url session).map fun r =>
          h.moves t (match r.1 with
            | .relayed url s => .relayed r.2 url s
            | ending => .finished r.2 ending)
      | _ => none
  | .add t item =>
      match h.worker t with
      | .relayed session url s => (addRelayed item url s h.cache).map fun r =>
          { h with cache := r.2 }.moves t (.finished session (.relayed url s))
      | _ => none

/-- The proxy before the first client. -/
def emptyHall : Hall := ⟨cacheInit, fun _ => .idle⟩

/-- All interleavings of any number of threads. -/
def hosting : Machine Hall Phase where
  init h := h = emptyHall
  step h e h' := advance h e = some h'

end SysProg.Proxy

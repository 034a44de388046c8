import SysProg.Proxy.Service

/-!
# Fetching an object

Whatever the pieces in which the connections transfer, the server gets the
request that is built from the client's bytes, and the client gets the bytes of
the server.  What is collected for the cache depends on these bytes alone.
-/

namespace SysProg.Proxy

open Logic

/-! ## Sending -/

/-- If the device does not fail, it has taken the bytes and still does not fail. -/
def Delivers {β : Type} (bytes : List β) (fd fd' : Sink β) : Prop :=
  failures fd.plan = 0 → fd'.taken = fd.taken ++ bytes ∧ failures fd'.plan = 0

theorem Delivers.trans {β : Type} {bytes bytes' : List β} {fd fd' fd'' : Sink β}
    (first : Delivers bytes fd fd') (second : Delivers bytes' fd' fd'') :
    Delivers (bytes ++ bytes') fd fd'' := by
  intro steady
  obtain ⟨taken, steady'⟩ := first steady
  obtain ⟨taken', steady''⟩ := second steady'
  exact ⟨by rw [taken', taken, List.append_assoc], steady''⟩

theorem wp_rioWriten_delivers {β : Type} (bytes : List β) (fd : Sink β) :
    wp (Rio.rioWriten bytes) (fun _ fd' => Delivers bytes fd fd') fd := by
  refine wp_mono (Rio.wp_rioWriten bytes fd) ?_
  intro result fd' wrote steady
  cases wrote with
  | all taken steady' => exact ⟨taken, steady'.trans steady⟩
  | failed few taken fewer => omega

section Sections

variable {w : Session}

theorem wp_sendClient (bytes : List (Option UInt8)) :
    wp (sendClient bytes) (fun _ w' => ∃ out, w' = { w with clientfd := out } ∧
      Delivers bytes w.clientfd out) w := by
  rw [sendClient, wp_bind, Part.wp_run]
  refine wp_mono (wp_rioWriten_delivers bytes _) ?_
  intro _ out delivers
  rw [wp_pure]
  exact ⟨out, rfl, delivers⟩

theorem wp_sendServer (connection : Connection) (reqFwd : Text) :
    wp (sendServer connection reqFwd) (fun _ w' => ∃ out, w' = { w with serverfd := out } ∧
      Delivers (cstring reqFwd) ⟨[], connection.requestPlan⟩ out) w := by
  have run : sendServer connection reqFwd w = (do
      let _ ← Session.serverfdPart.run (Rio.rioWriten (cstring reqFwd))
      pure () : SM Unit) { w with serverfd := ⟨[], connection.requestPlan⟩ } := rfl
  rw [wp_congr_run run, wp_bind, Part.wp_run]
  refine wp_mono (wp_rioWriten_delivers (cstring reqFwd) _) ?_
  intro _ out delivers
  rw [wp_pure]
  exact ⟨out, rfl, delivers⟩

/-! ## The header lines -/

/-- The terminator of `rio_readlineb` is not part of the string. -/
theorem cstring_terminated (line : List UInt8) : cstring (line ++ [0]) = cstring line := by
  induction line with
  | nil => rfl
  | cons c line ih =>
      by_cases zero : c = 0
      · simp [cstring, zero]
      · simpa [cstring, zero] using ih

/-- What `Rio_readlineb(&rio_client, req, MAXBUF)` can do. -/
inductive LineRead (r : Rio.Reader) : Rio.Result → Rio.Reader → Prop where
  | line {line : List UInt8} {r' : Rio.Reader} (some_line : line ≠ []) (sound : r'.Sound)
      (lines : readLines r.pending = line :: readLines r'.pending)
      (shorter : r'.pending.length < r.pending.length) (steady : r'.failures = r.failures) :
      LineRead r (line.length, line ++ [0]) r'
  | ended {r' : Rio.Reader} (sound : r'.Sound) (none_left : readLines r.pending = [])
      (steady : r'.failures = r.failures) : LineRead r (0, []) r'
  | failed {stored : List UInt8} {r' : Rio.Reader} (sound : r'.Sound)
      (fewer : r'.failures + 1 = r.failures) : LineRead r (-1, stored) r'

theorem wp_readLine {r : Rio.Reader} (sound : r.Sound) :
    wp (Rio.rioReadlineb MAXBUF) (LineRead r) r := by
  refine wp_mono (Rio.wp_rioReadlineb MAXBUF sound) ?_
  intro result r' answers
  cases answers with
  | done sound' left steady =>
      have room : 0 < MAXBUF - 1 := by decide
      have lines := readLines.eq_1 r.pending
      have split := Rio.rioReadlineb_append (MAXBUF - 1) r.pending
      simp only [Rio.Call.ideal, room, and_true] at left ⊢
      rw [← left] at lines split
      cases read : (rioReadlineb (MAXBUF - 1) r.pending).1 with
      | nil =>
          rw [read, if_pos rfl] at lines
          rw [if_pos rfl]
          exact .ended sound' lines steady
      | cons c line =>
          rw [read, if_neg (List.cons_ne_nil _ _)] at lines
          rw [if_neg (List.cons_ne_nil _ _)]
          refine .line (List.cons_ne_nil _ _) sound' lines ?_ steady
          rw [← split, read, List.cons_append, List.length_cons, List.length_append]
          omega
  | failed few inside sound' left fewer => exact .failed sound' fewer

theorem wp_clientLine (sound : w.rioClient.Sound) :
    wp (Session.rioClientPart.run (Rio.rioReadlineb MAXBUF)) (fun result w' =>
      ∃ r, w' = { w with rioClient := r } ∧ LineRead w.rioClient result r) w := by
  rw [Part.wp_run]
  refine wp_mono (wp_readLine sound) ?_
  intro result r read
  exact ⟨r, rfl, read⟩

/-- The loop over the header lines ends and touches nothing but the reader; on a
device that does not fail it goes over the lines of the client. -/
theorem wp_readHeaders {fuel : Nat} {fwd : ReqFwd} (sound : w.rioClient.Sound)
    (enough : w.rioClient.pending.length < fuel) :
    wp (readHeaders fuel fwd) (fun fwd' w' => (∃ r, w' = { w with rioClient := r }) ∧
      (w.rioClient.failures = 0 →
        fwd' = headerLoop fwd (readLines w.rioClient.pending))) w := by
  induction fuel generalizing w fwd with
  | zero => omega
  | succ fuel ih =>
      rw [readHeaders, wp_bind]
      refine wp_mono (wp_clientLine sound) ?_
      rintro result w' ⟨r, rfl, read⟩
      cases read with
      | @line line r some_line sound' lines shorter steady =>
          have later : ∀ fwd', wp (readHeaders fuel fwd') (fun fwd'' w' =>
              (∃ r, w' = { w with rioClient := r }) ∧ (w.rioClient.failures = 0 →
                fwd'' = headerLoop fwd' (readLines r.pending))) { w with rioClient := r } := by
            intro fwd'
            have enough' : r.pending.length < fuel := by omega
            refine wp_mono (@ih { w with rioClient := r } fwd' sound' enough') ?_
            rintro fwd'' w' ⟨⟨r', rfl⟩, looped⟩
            exact ⟨⟨r', rfl⟩, fun none_failed => looped (steady.trans none_failed)⟩
          have counted : (0 : Int) < line.length := by
            have positive := List.length_pos_of_ne_nil some_line
            omega
          rw [wp_ite, if_pos counted]
          simp only [cstring_terminated, lines, headerLoop]
          by_cases blank : cstring line = crlf
          · simp only [if_pos blank]
            exact (wp_pure _ _).mpr ⟨⟨r, rfl⟩, fun _ => rfl⟩
          · simp only [if_neg blank]
            by_cases skipped : alreadyWritten (cstring line) = true
            · simp only [if_pos skipped]
              exact later fwd
            · simp only [if_neg skipped]
              exact later _
      | ended sound' none_left steady =>
          rw [wp_ite, if_neg (by decide), wp_pure, none_left]
          exact ⟨⟨r, rfl⟩, fun _ => rfl⟩
      | failed sound' fewer =>
          rw [wp_ite, if_neg (show ¬ (0 : Int) < -1 by decide), wp_pure]
          exact ⟨⟨r, rfl⟩, fun none_failed => absurd (fewer.trans none_failed) (Nat.succ_ne_zero _)⟩

theorem wp_headers (fwd : ReqFwd) (sound : w.rioClient.Sound) :
    wp (headers fwd) (fun fwd' w' => (∃ r, w' = { w with rioClient := r }) ∧
      (w.rioClient.failures = 0 →
        fwd' = headerLoop fwd (readLines w.rioClient.pending))) w :=
  wp_readHeaders sound (Nat.lt_succ_self _)

/-! ## The response -/

/-- The results of the calls `rio_readnb(&rio_server, resp, MAXBUF)` before the end of the
file. -/
def chunksOf (bytes : List UInt8) : List ReadResult :=
  if bytes = [] then []
  else ⟨(bytes.take MAXBUF).length, fun i => (bytes.take MAXBUF).getD i 0⟩ ::
    chunksOf (bytes.drop MAXBUF)
termination_by bytes.length
decreasing_by
  rename_i nonempty
  have positive : 0 < bytes.length := List.length_pos_of_ne_nil nonempty
  rw [List.length_drop, MAXBUF]
  omega

theorem bytesOf_getD (piece : List UInt8) :
    bytesOf (fun i => piece.getD i 0) piece.length = piece := by
  refine List.ext_getElem (by simp) ?_
  intro i inside inside'
  simp [bytesOf, inside']

theorem chunk_delivered {bytes : List UInt8} (nonempty : bytes ≠ []) :
    1 ≤ (((bytes.take MAXBUF).length : Nat) : Int) ∧
      (((bytes.take MAXBUF).length : Nat) : Int) ≤ MAXBUF := by
  have positive : 0 < bytes.length := List.length_pos_of_ne_nil nonempty
  rw [List.length_take]
  unfold MAXBUF
  omega

theorem chunksOf_delivered (bytes : List UInt8) : Delivered (chunksOf bytes) := by
  induction bytes using chunksOf.induct with
  | case1 =>
      rw [chunksOf, if_pos rfl]
      exact fun _ member => nomatch member
  | case2 bytes nonempty ih =>
      rw [chunksOf, if_neg nonempty]
      exact List.forall_mem_cons.mpr ⟨chunk_delivered nonempty, ih⟩

theorem body_chunksOf (bytes : List UInt8) : body (chunksOf bytes) = bytes := by
  induction bytes using chunksOf.induct with
  | case1 =>
      rw [chunksOf, if_pos rfl]
      rfl
  | case2 bytes nonempty ih =>
      rw [chunksOf, if_neg nonempty]
      rw [body] at ih ⊢
      rw [List.flatMap_cons, ih, chunkBytes, Int.toNat_natCast, bytesOf_getD,
        List.take_append_drop]

/-- The relay loop over a reader relays the chunks of its bytes, or it fails on a
device that does. -/
theorem relayRounds_cases {fuel : Nat} {s : Relay} (sound : w.rioServer.Sound)
    (enough : w.rioServer.pending.length < fuel) :
    wp (relayRounds fuel s) (fun s' w' =>
        s' = relayLoop s (chunksOf w.rioServer.pending ++ [endOfFile]) ∧
        ∃ r out, w' = { w with rioServer := r, clientfd := out } ∧
          Delivers (w.rioServer.pending.map some) w.clientfd out) w ∨
      relayRounds fuel s w = none ∧ 0 < w.rioServer.failures := by
  induction fuel generalizing w s with
  | zero => omega
  | succ fuel ih =>
      obtain ⟨⟨chunk, r⟩, read, answers⟩ := Rio.wp_rioReadnb MAXBUF sound
      have run : relayRounds (fuel + 1) s w = (let len := sizeT chunk.1
          if 0 < len then
            if MAXBUF < len then fun _ => none
            else do
              sendClient ((bytesOf (fun i => chunk.2.getD i 0) len).map some)
              relayRounds fuel (relayStep s (fun i => chunk.2.getD i 0) len)
          else pure s : SM Relay) { w with rioServer := r } := by
        rw [relayRounds]
        refine bind_run_of_run ?_ _
        rw [Part.run]
        exact Option.map_eq_some_iff.mpr ⟨_, read, rfl⟩
      rw [wp_congr_run run, run]
      cases answers with
      | @done r sound' left steady =>
          dsimp only [Rio.Call.ideal] at left ⊢
          by_cases ended : w.rioServer.pending = []
          · left
            rw [ended, chunksOf, if_pos rfl, wp_ite, if_neg (by decide), wp_pure]
            refine ⟨by rfl, r, w.clientfd, rfl, ?_⟩
            exact fun none_failed => ⟨(List.append_nil _).symm, none_failed⟩
          · have chunk := chunk_delivered ended
            have size : sizeT (((w.rioServer.pending.take MAXBUF).length : Nat) : Int) =
                (w.rioServer.pending.take MAXBUF).length := by
              unfold sizeT
              unfold MAXBUF at *
              omega
            have positive : 0 < (w.rioServer.pending.take MAXBUF).length := by omega
            have few : ¬ MAXBUF < (w.rioServer.pending.take MAXBUF).length := by omega
            simp only [size, if_pos positive, if_neg few, bytesOf_getD]
            have shorter : r.pending.length < fuel := by
              rw [left, List.length_drop]
              rw [List.length_take] at positive
              omega
            have split := List.take_append_drop MAXBUF w.rioServer.pending
            have looped : ∀ later, relayLoop s (chunksOf w.rioServer.pending ++ later) =
                relayLoop (relayStep s (fun i => (w.rioServer.pending.take MAXBUF).getD i 0)
                  (w.rioServer.pending.take MAXBUF).length)
                  (chunksOf (w.rioServer.pending.drop MAXBUF) ++ later) := by
              intro later
              rw [chunksOf, if_neg ended, List.cons_append, relayLoop, size, if_pos positive]
            obtain ⟨⟨_, w'⟩, sent, out, rfl, delivers⟩ :=
              wp_sendClient (w := { w with rioServer := r })
                ((w.rioServer.pending.take MAXBUF).map some)
            rw [wp_congr_run (bind_run_of_run sent _), bind_run_of_run sent]
            rcases @ih { w with rioServer := r, clientfd := out } _ sound' shorter with
              whole | ⟨stuck, failing⟩
            · left
              refine wp_mono whole ?_
              rintro s' w' ⟨rfl, r', out', rfl, delivers'⟩
              dsimp only at delivers' ⊢
              rw [left] at delivers' ⊢
              rw [looped]
              refine ⟨rfl, r', out', rfl, ?_⟩
              have both := delivers.trans delivers'
              rwa [← List.map_append, split] at both
            · right
              exact ⟨stuck, steady ▸ failing⟩
      | failed few inside sound' left fewer =>
          right
          refine ⟨?_, by omega⟩
          have size : sizeT (-1) = 2 ^ 64 - 1 := sizeT_error
          simp only [size]
          rw [if_pos (by decide), if_pos (by decide)]

theorem relayResponse_cases (connection : Connection) :
    wp (relayResponse connection) (fun s' w' =>
      s' = relay (chunksOf (connection.respond w.serverfd.taken).rest ++ [endOfFile]) ∧
        ∃ r out, w' = { w with rioServer := r, clientfd := out } ∧
          Delivers ((connection.respond w.serverfd.taken).rest.map some) w.clientfd out) w ∨
      relayResponse connection w = none ∧
        0 < failures (connection.respond w.serverfd.taken).plan := by
  have sound : (Rio.rioReadinitb (connection.respond w.serverfd.taken)).Sound := Nat.zero_le _
  have run : relayResponse connection w =
      relayRounds ((connection.respond w.serverfd.taken).rest.length + 1)
        ⟨fun _ => 0, 0, [], []⟩
        { w with rioServer := Rio.rioReadinitb (connection.respond w.serverfd.taken) } := rfl
  rcases @relayRounds_cases
    { w with rioServer := Rio.rioReadinitb (connection.respond w.serverfd.taken) }
    _ ⟨fun _ => 0, 0, [], []⟩ sound (Nat.lt_succ_self _) with whole | failed
  · left
    rw [wp_congr_run run]
    refine wp_mono whole ?_
    rintro s' w' ⟨rfl, r, out, rfl, delivers⟩
    exact ⟨rfl, r, out, rfl, delivers⟩
  · exact .inr failed

/-- The response of a connection that does not fail is relayed whole. -/
theorem wp_relayResponse {connection : Connection}
    (steady : failures (connection.respond w.serverfd.taken).plan = 0) :
    wp (relayResponse connection) (fun s' w' =>
      s' = relay (chunksOf (connection.respond w.serverfd.taken).rest ++ [endOfFile]) ∧
        ∃ r out, w' = { w with rioServer := r, clientfd := out } ∧
          Delivers ((connection.respond w.serverfd.taken).rest.map some) w.clientfd out) w :=
  (relayResponse_cases connection).resolve_right fun failed => by omega

/-! ## A request that misses -/

theorem wp_storeAll {stores : Stores} (inside : InBounds stores) (post : Unit → Session → Prop) :
    wp (storeAll stores) post w ↔ post () w := by
  rw [storeAll, if_pos inside, wp_pure]

/-- The request line of a GET request is received. -/
theorem wp_receive {r : GetRequest} {behind : Text}
    (sound : w.rioClient.Sound) (steady : w.rioClient.failures = 0)
    (whole : r.requestLine.length < MAXBUF)
    (pending : w.rioClient.pending = r.bytes ++ behind)
    (inside : InBounds [(.method, r.method), (.url, r.url), (.version, r.version)]) :
    wp receive (fun received w' => received = some (r.method, r.url) ∧
      ∃ reader, w' = { w with rioClient := reader } ∧ reader.Sound ∧ reader.failures = 0 ∧
        readLines reader.pending =
          r.headers.map Header.line ++ crlf :: readLines behind) w := by
  have lines := r.readLines_bytes whole behind
  rw [← pending] at lines
  rw [receive, wp_bind]
  refine wp_mono (wp_clientLine sound) ?_
  rintro result w' ⟨reader, rfl, read⟩
  cases read with
  | @line line reader some_line sound' lines' shorter steady' =>
      have positive := List.length_pos_of_ne_nil some_line
      obtain ⟨rfl, rest⟩ := List.cons.inj (lines'.symm.trans lines)
      rw [wp_ite, if_neg (by omega), wp_ite, if_neg (by omega), cstring_terminated,
        r.cstring_requestLine, r.requestLine_fields, wp_bind]
      refine (wp_storeAll inside _).mpr ((wp_pure _ _).mpr ⟨rfl, reader, rfl, sound', ?_, rest⟩)
      exact steady'.trans steady
  | ended sound' none_left steady' =>
      rw [none_left] at lines
      exact nomatch lines
  | failed sound' fewer => omega

/-- A GET request is fetched: the server gets the request that is built from the
header lines, and the client gets its response. -/
theorem wp_fetch {network : Network} {method url : Text} {t : Target} {lines : List (List UInt8)}
    {connection : Connection} (get : strcasecmpZero method (ascii "GET") = true)
    (parsed : (parseUrl url).target = some t) (sound : w.rioClient.Sound)
    (steady : w.rioClient.failures = 0) (pending : readLines w.rioClient.pending = lines)
    (urlInside : InBounds (parseUrl url).stores)
    (fwdInside : InBounds (builtFwd method t lines).stores)
    (connects : network t.hostname t.port = some connection)
    (takes : failures connection.requestPlan = 0)
    (answers : failures (connection.respond (cstring (builtFwd method t lines).text)).plan = 0) :
    wp (fetch network method url) (fun ending w' =>
      ending = .relayed url (relay (chunksOf
        (connection.respond (cstring (builtFwd method t lines).text)).rest ++ [endOfFile])) ∧
      w'.serverfd.taken = cstring (builtFwd method t lines).text ∧
      Delivers ((connection.respond (cstring (builtFwd method t lines).text)).rest.map some)
        w.clientfd w'.clientfd) w := by
  have isGet : ¬ (!strcasecmpZero method (ascii "GET")) = true := by
    rw [get]
    exact Bool.false_ne_true
  rw [fetch, wp_ite, if_neg isGet, wp_bind]
  refine (wp_storeAll urlInside _).mpr ?_
  rw [parsed, wp_bind]
  refine wp_mono (wp_headers _ sound) ?_
  rintro fwd w' ⟨⟨reader, rfl⟩, looped⟩
  obtain rfl : fwd = builtFwd method t lines := by rw [looped steady, pending, builtFwd]
  rw [wp_bind]
  refine (wp_storeAll fwdInside _).mpr ?_
  rw [connects, wp_bind]
  refine wp_mono (wp_sendServer connection _) ?_
  rintro _ w' ⟨serverfd, rfl, sent⟩
  obtain ⟨received, -⟩ := sent takes
  rw [List.nil_append] at received
  rw [← received] at answers ⊢
  rw [wp_bind]
  refine wp_mono (wp_relayResponse answers) ?_
  rintro s w' ⟨rfl, reader', out, rfl, delivers⟩
  rw [wp_pure]
  exact ⟨rfl, rfl, delivers⟩

end Sections

end SysProg.Proxy

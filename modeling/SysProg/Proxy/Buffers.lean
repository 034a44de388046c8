import SysProg.Proxy.Headers

/-!
# The bounds of the request arrays

Every string that `run_thread` stores fits its array exactly when the words of
the request line, the scheme and the port are short enough for theirs and the
forwarded request is short enough for `req_fwd`.  The other arrays are as long
as a line and cannot overflow.
-/

namespace SysProg.Proxy

open Logic

/-! ## The property and the condition -/

/-- The header lines before the empty line that contain none of the four names. -/
def keptLines (headers : List (List UInt8)) : List Text :=
  ((headers.map cstring).takeWhile (· ≠ crlf)).filter fun line => !alreadyWritten line

/-- The length of the text that follows the method in `req_fwd`: the path, the
authority with a default port, the text of the thread and the lines of the
client. -/
def tailLength (authority path : Text) (headers : List (List UInt8)) : Nat :=
  path.length + authority.length + (if colon ∈ authority then 0 else 3) + 150 +
    (keptLines headers).flatten.length + (if crlf ∈ headers.map cstring then 2 else 0)

/-- A URL whose parts fit. -/
structure RoomyUrl (method url : Text) (headers : List (List UInt8)) : Prop where
  scheme : separator <:+: url → (url.takeWhile (· ≠ colon)).length < 8
  port : ∀ authority path host port, Splits url authority path →
    authority = host ++ colon :: port → colon ∉ host → port.length < 8
  total : ∀ authority path, Splits url authority path →
    method.length + tailLength authority path headers < MAXBUF

/-- A request whose parts fit; the URL is parsed for GET requests that miss the
cache only. -/
structure Roomy (cached : Text → Bool) (req : List UInt8) (headers : List (List UInt8)) :
    Prop where
  method : ∀ w ∈ (words isspace (cstring req))[0]?, w.length < 8
  version : ∀ w ∈ (words isspace (cstring req))[2]?, w.length < 16
  url : ∀ method url version more, words isspace (cstring req) = method :: url :: version :: more →
    cached url = false → strcasecmpZero method (ascii "GET") = true → RoomyUrl method url headers

/-! ## The forwarded request -/

theorem appended_length (headers : List (List UInt8)) : (appended headers).flatten.length =
    (keptLines headers).flatten.length + if crlf ∈ headers.map cstring then 2 else 0 := by
  induction headers with
  | nil => rfl
  | cons line headers ih =>
      by_cases blank : cstring line = crlf
      · simp [appended, keptLines, blank, crlf, ascii]
      · have here : crlf ∈ (line :: headers).map cstring ↔ crlf ∈ headers.map cstring := by
          simp [Ne.symm blank]
        simp only [here]
        rw [appended, if_neg blank]
        cases written : alreadyWritten (cstring line) with
        | true =>
            have kept : keptLines (line :: headers) = keptLines headers := by
              simp [keptLines, blank, written]
            rw [kept]
            exact ih
        | false =>
            have kept : keptLines (line :: headers) = cstring line :: keptLines headers := by
              simp [keptLines, blank, written]
            rw [kept, if_neg Bool.false_ne_true, List.flatten_cons, List.flatten_cons,
              List.length_append, List.length_append, ih, Nat.add_assoc]

theorem builtFwd_inBounds (method : Text) (t : Target) (headers : List (List UInt8)) :
    InBounds (builtFwd method t headers).stores ↔
      method.length + (opening t).flatten.length + (appended headers).flatten.length < MAXBUF := by
  have growing := builtFwd_growing method t headers
  have length := congrArg List.length (builtFwd_text method t headers)
  simp only [List.length_append] at length
  rw [← length]
  constructor
  · intro inBounds
    exact inBounds _ growing.last
  · intro fits s stored
    obtain ⟨buffer, below⟩ := growing.inside s stored
    rw [buffer]
    exact below.trans_lt fits

/-! ## The run -/

/-- The words of the request line fit exactly when the first and the third do. -/
theorem fields_inBounds {ws : List Text} (short : ∀ w ∈ ws, w.length < MAXLINE) :
    InBounds ([Buffer.method, .url, .version].zip (ws.take 3)) ↔
      (∀ w ∈ ws[0]?, w.length < 8) ∧ ∀ w ∈ ws[2]?, w.length < 16 := by
  match ws, short with
  | [], _ => simp [InBounds]
  | [method], _ => simp [InBounds, Buffer.size]
  | [method, url], short => simp [InBounds, Buffer.size, short url (by simp)]
  | method :: url :: version :: more, short =>
      simp [InBounds, Buffer.size, short url (by simp)]

/-- The strings for a GET request that misses the cache fit exactly when the
parts of its URL do. -/
theorem roomyUrl_iff {method url : Text} {headers : List (List UInt8)}
    (clear : ∀ c ∈ url, isspace c = false) (short : url.length < MAXLINE) :
    (InBounds (parseUrl url).stores ∧ ∀ t, (parseUrl url).target = some t →
      InBounds (builtFwd method t headers).stores) ↔ RoomyUrl method url headers := by
  have total : ∀ {authority path}, Splits url authority path →
      ∃ t, (parseUrl url).target = some t ∧
        (InBounds (builtFwd method t headers).stores ↔
          method.length + tailLength authority path headers < MAXBUF) := by
    intro authority path s
    have clearPath : ∀ c ∈ path, isspace c = false := fun c member =>
      clear c (s.suffix.subset (List.mem_append_right _ member))
    refine ⟨_, by rw [parseUrl_splits clearPath s], ?_⟩
    have lengths := authority_length authority
    rw [builtFwd_inBounds, opening_length, appended_length, tailLength]
    dsimp only
    constructor <;> intro fits <;> omega
  rw [parseUrl_inBounds clear short]
  constructor
  · rintro ⟨⟨scheme, port⟩, built⟩
    refine ⟨scheme, port, ?_⟩
    intro authority path s
    obtain ⟨t, target, fits⟩ := total s
    exact fits.mp (built t target)
  · rintro ⟨scheme, port, totals⟩
    refine ⟨⟨scheme, port⟩, ?_⟩
    intro t target
    by_cases splits : ∃ authority path, Splits url authority path
    · obtain ⟨authority, path, s⟩ := splits
      obtain ⟨t', target', fits⟩ := total s
      cases Option.some.inj (target.symm.trans target')
      exact fits.mpr (totals authority path s)
    · have none := (parseUrl_none fun authority path s => splits ⟨authority, path, s⟩).1
      rw [none] at target
      exact nomatch target

/-- What follows the three words fits exactly when the URL has room. -/
theorem urlStores_inBounds {method url : Text} {headers : List (List UInt8)}
    (clear : ∀ c ∈ url, isspace c = false) (short : url.length < MAXLINE) :
    InBounds (urlStores method url headers) ↔ RoomyUrl method url headers := by
  rw [← roomyUrl_iff clear short, urlStores, inBounds_append]
  refine and_congr_right fun _ => ?_
  cases (parseUrl url).target with
  | none => simp [InBounds]
  | some t => simp

section Run

variable {cached : Text → Bool} {req : List UInt8} {headers : List (List UInt8)}

/-- Of fewer than three words only the first one and the third one matter. -/
theorem roomy_short (few : (words isspace (cstring req)).length < 3) :
    Roomy cached req headers ↔ (∀ w ∈ (words isspace (cstring req))[0]?, w.length < 8) ∧
      ∀ w ∈ (words isspace (cstring req))[2]?, w.length < 16 := by
  constructor
  · intro roomy
    exact ⟨roomy.method, roomy.version⟩
  · rintro ⟨method, version⟩
    refine ⟨method, version, ?_⟩
    intro method' url' version' more split
    rw [split] at few
    exact absurd few (by simp)

/-- With three words the URL matters as well, if the thread looks at it. -/
theorem roomy_words {method url version : Text} {more : List Text}
    (split : words isspace (cstring req) = method :: url :: version :: more) :
    Roomy cached req headers ↔
      ((∀ w ∈ (words isspace (cstring req))[0]?, w.length < 8) ∧
        ∀ w ∈ (words isspace (cstring req))[2]?, w.length < 16) ∧
      (cached url = false ∧ strcasecmpZero method (ascii "GET") = true →
        RoomyUrl method url headers) := by
  constructor
  · rintro ⟨first, third, roomy⟩
    exact ⟨⟨first, third⟩, fun parsed => roomy method url version more split parsed.1 parsed.2⟩
  · rintro ⟨⟨first, third⟩, roomy⟩
    refine ⟨first, third, ?_⟩
    intro method' url' version' more' split' miss get
    rw [split] at split'
    cases split'
    exact roomy ⟨miss, get⟩

/-- Every string that the thread stores fits its array exactly when the parts of
the request do. -/
theorem inBounds_iff (short : req.length < MAXBUF) :
    InBounds (runThread cached req headers).stores ↔ Roomy cached req headers := by
  have wordFits : ∀ w ∈ words isspace (cstring req), w.length < MAXLINE := fun w member =>
    ((words_clear member).2.trans (List.takeWhile_prefix _).length_le).trans_lt short
  have fields := fields_inBounds wordFits
  by_cases few : (words isspace (cstring req)).length < 3
  · rw [runThread_short few, fields, roomy_short few]
  · obtain ⟨method, url, version, more, split⟩ := exists_three few
    have urlMember : url ∈ words isspace (cstring req) := by simp [split]
    have clear := (words_clear urlMember).1
    rw [roomy_words split, ← fields, runThread_stores split, inBounds_append, split]
    refine and_congr_right fun _ => ?_
    split_ifs with parsed
    · rw [urlStores_inBounds clear (wordFits url urlMember)]
      exact ⟨fun roomy _ => roomy, fun roomy => roomy parsed⟩
    · exact ⟨fun _ taken => absurd taken parsed, fun _ _ member => nomatch member⟩

end Run

/-- `GET a/ HTTP/1.0` -/
def plainGet : List UInt8 := ascii "GET a/ HTTP/1.0\r\n"

theorem inBounds_iff_plain :
    InBounds (runThread (fun _ => false) plainGet [crlf]).stores ↔
      Roomy (fun _ => false) plainGet [crlf] :=
  inBounds_iff (by decide)

/-- A method of eight letters does not fit. -/
theorem method_overflows :
    ¬ ∀ (cached : Text → Bool) (req : List UInt8) (headers : List (List UInt8)),
      (∀ line ∈ req :: headers, line.length < MAXBUF) →
        InBounds (runThread cached req headers).stores := by
  intro claimed
  have inBounds := claimed (fun _ => false) (ascii "PROPFIND a/ HTTP/1.1\r\n") [] (by decide)
  have fits := inBounds (.method, ascii "PROPFIND") (by decide)
  exact absurd fits (by decide)

end SysProg.Proxy

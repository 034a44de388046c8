import SysProg.Proxy.Url

/-!
# The header lines of a request

The thread writes four header lines itself and drops those lines of the client
that contain the name of one of them followed by a colon, in exactly this
spelling and anywhere in the line.
-/

namespace SysProg.Proxy

open Logic

/-! ## Requests -/

/-- `name: value` -/
structure Header where
  name : Text
  value : Text
  name_clear : colon ∉ name ∧ newline ∉ name ∧ 0 ∉ name
  value_clear : newline ∉ value ∧ 0 ∉ value

/-- The line of a header. -/
def Header.line (h : Header) : Text := h.name ++ colon :: 32 :: (h.value ++ crlf)

/-- The names of the header lines that the thread writes itself. -/
def fixedNames : List Text :=
  [ascii "Host", ascii "User-Agent", ascii "Connection", ascii "Proxy-Connection"]

/-- The name of the header is one of them, in any spelling. -/
def Header.Fixed (h : Header) : Prop := ∃ name ∈ fixedNames, strcasecmpZero h.name name = true

instance (h : Header) : Decidable h.Fixed := inferInstanceAs (Decidable (∃ _ ∈ _, _))

/-- The name of the header ends with one of them, or its value contains one with
a colon; the fourth name ends with the third. -/
def Header.Mentions (h : Header) : Prop :=
  ∃ name ∈ [ascii "Host", ascii "User-Agent", ascii "Connection"],
    name <:+ h.name ∨ name ++ [colon] <:+: h.value

/-- A word of a request line. -/
structure Word (text : Text) : Prop where
  nonempty : text ≠ []
  clear : ∀ c ∈ text, isspace c = false ∧ c ≠ 0

/-- A GET request. -/
structure GetRequest where
  method : Text
  url : Text
  version : Text
  headers : List Header
  method_word : Word method
  url_word : Word url
  version_word : Word version
  get : strcasecmpZero method (ascii "GET") = true
  header_length : ∀ h ∈ headers, h.line.length < MAXBUF

namespace GetRequest

def requestLine (r : GetRequest) : Text :=
  r.method ++ 32 :: (r.url ++ 32 :: (r.version ++ crlf))

/-- The request up to and including the empty line. -/
def bytes (r : GetRequest) : Text :=
  r.requestLine ++ (r.headers.map Header.line).flatten ++ crlf

/-- The request for the server. -/
def forwarded (r : GetRequest) (t : Target) : Text :=
  r.method ++ ascii " " ++ t.resource ++ ascii " HTTP/1.0\r\n" ++
    ascii "Host: " ++ t.hostname ++ ascii ":" ++ t.port ++ ascii "\r\n" ++
    userAgentHdr ++ connHdr ++ proxyConnHdr ++
    ((r.headers.filter fun h => ¬ h.Fixed).map Header.line).flatten ++ crlf

/-- The thread connects to the target and sends that request, and every string
that it has stored before fits its array; `behind` is what follows the empty
line. -/
def ForwardedExactly (r : GetRequest) (cached : Text → Bool) (t : Target) (behind : Text) : Prop :=
  ∃ run, runThreadOn cached (r.bytes ++ behind) = some run ∧
    run.answer = .connects t.hostname t.port (r.forwarded t) ∧ InBounds run.stores

/-- The parts of the request that have a short array fit. -/
structure PartsFit (r : GetRequest) (t : Target) : Prop where
  version : r.version.length < 16
  scheme : separator <:+: r.url → (r.url.takeWhile (· ≠ colon)).length < 8
  port : t.port.length < 8

end GetRequest

/-! ## Reading lines -/

theorem rioReadlineb_line {front rest : List UInt8} {n : Nat} (clear : newline ∉ front)
    (room : front.length < n) :
    rioReadlineb n (front ++ newline :: rest) = (front ++ [newline], rest) := by
  induction front generalizing n with
  | nil =>
      cases n with
      | zero => exact nomatch room
      | succ n => exact if_pos rfl
  | cons c front ih =>
      cases n with
      | zero => exact nomatch room
      | succ n =>
          have other : c ≠ newline := fun same => clear (same ▸ List.mem_cons_self)
          have later := ih (fun member => clear (List.mem_cons_of_mem _ member))
            (Nat.lt_of_succ_lt_succ room)
          rw [List.cons_append, rioReadlineb, if_neg other, later]
          rfl

theorem rioReadlineb_piece {front : List UInt8} (clear : newline ∉ front) (rest : List UInt8) :
    rioReadlineb front.length (front ++ rest) = (front, rest) := by
  induction front with
  | nil => rfl
  | cons c front ih =>
      have other : c ≠ newline := fun same => clear (same ▸ List.mem_cons_self)
      have later := ih fun member => clear (List.mem_cons_of_mem _ member)
      rw [List.length_cons, List.cons_append, rioReadlineb, if_neg other, later]

/-- Of a line that is too long a piece is delivered. -/
theorem readLines_piece {front : List UInt8} (clear : newline ∉ front)
    (full : front.length = MAXBUF - 1) (rest : List UInt8) :
    readLines (front ++ rest) = front :: readLines rest := by
  have nonempty : front ≠ [] := by
    rintro rfl
    exact absurd full (by decide)
  rw [readLines, ← full, rioReadlineb_piece clear]
  exact if_neg nonempty

/-- A line that is short enough is delivered as it is. -/
theorem readLines_line {line rest : List UInt8} (marked : MarkedOnce newline line)
    (short : line.length < MAXBUF) : readLines (line ++ rest) = line :: readLines rest := by
  obtain ⟨front, clear, rfl⟩ := marked
  rw [List.append_assoc, List.singleton_append, readLines]
  have room : front.length < MAXBUF - 1 := by
    rw [List.length_append] at short
    exact Nat.lt_sub_of_add_lt short
  rw [rioReadlineb_line clear room]
  exact if_neg (by simp)

theorem readLines_lines {lines : List (List UInt8)} {rest : List UInt8}
    (marked : ∀ line ∈ lines, MarkedOnce newline line)
    (short : ∀ line ∈ lines, line.length < MAXBUF) :
    readLines (lines.flatten ++ rest) = lines ++ readLines rest := by
  induction lines with
  | nil => rfl
  | cons line lines ih =>
      have first := marked line List.mem_cons_self
      rw [List.flatten_cons, List.append_assoc,
        readLines_line first (short line List.mem_cons_self),
        ih (fun line member => marked line (List.mem_cons_of_mem _ member))
          (fun line member => short line (List.mem_cons_of_mem _ member))]
      rfl

theorem crlf_marked : MarkedOnce newline crlf := ⟨[13], by decide, rfl⟩

/-! ## Building `req_fwd` -/

/-- What the loop over the header lines appends. -/
def appended : List (List UInt8) → List Text
  | [] => []
  | line :: rest =>
      if cstring line = crlf then [crlf]
      else if alreadyWritten (cstring line) then appended rest
      else cstring line :: appended rest

theorem headerLoop_eq (fwd : ReqFwd) (headers : List (List UInt8)) :
    headerLoop fwd headers = (appended headers).foldl strcatFwd fwd := by
  induction headers generalizing fwd with
  | nil => rfl
  | cons line rest ih =>
      rw [headerLoop, appended]
      split
      · rename_i blank
        rw [blank]
        rfl
      · split
        · exact ih fwd
        · exact ih (strcatFwd fwd (cstring line))

theorem foldl_strcatFwd_text (fwd : ReqFwd) (pieces : List Text) :
    (pieces.foldl strcatFwd fwd).text = fwd.text ++ pieces.flatten := by
  induction pieces generalizing fwd with
  | nil => exact (List.append_nil _).symm
  | cons piece pieces ih =>
      rw [List.foldl_cons, ih, List.flatten_cons, ← List.append_assoc]
      rfl

/-- `req_fwd` has held at most what it holds now. -/
structure Growing (fwd : ReqFwd) : Prop where
  inside : ∀ s ∈ fwd.stores, s.1 = .reqFwd ∧ s.2.length ≤ fwd.text.length
  last : (.reqFwd, fwd.text) ∈ fwd.stores

theorem Growing.start (s : Text) : Growing (strcpyFwd s) where
  inside _ member := by
    rw [List.mem_singleton.mp member]
    exact ⟨rfl, Nat.le_refl _⟩
  last := List.mem_singleton.mpr rfl

theorem Growing.strcat {fwd : ReqFwd} (growing : Growing fwd) (s : Text) :
    Growing (strcatFwd fwd s) where
  inside store member := by
    rcases List.mem_append.mp member with old | new
    · obtain ⟨buffer, length⟩ := growing.inside store old
      exact ⟨buffer, length.trans (List.length_append ▸ Nat.le_add_right ..)⟩
    · rw [List.mem_singleton.mp new]
      exact ⟨rfl, Nat.le_refl _⟩
  last := List.mem_append_right _ (List.mem_singleton.mpr rfl)

theorem Growing.foldl {fwd : ReqFwd} (growing : Growing fwd) (pieces : List Text) :
    Growing (pieces.foldl strcatFwd fwd) := by
  induction pieces generalizing fwd with
  | nil => exact growing
  | cons piece pieces ih => exact ih (growing.strcat piece)

/-- `req_fwd` for a method, a target and the header lines of a client. -/
def builtFwd (method : Text) (t : Target) (headers : List (List UInt8)) : ReqFwd :=
  headerLoop ((opening t).foldl strcatFwd (strcpyFwd method)) headers

theorem builtFwd_growing (method : Text) (t : Target) (headers : List (List UInt8)) :
    Growing (builtFwd method t headers) := by
  rw [builtFwd, headerLoop_eq]
  exact ((Growing.start method).foldl _).foldl _

theorem builtFwd_text (method : Text) (t : Target) (headers : List (List UInt8)) :
    (builtFwd method t headers).text =
      method ++ (opening t).flatten ++ (appended headers).flatten := by
  rw [builtFwd, headerLoop_eq, foldl_strcatFwd_text, foldl_strcatFwd_text]
  rfl

theorem opening_length (t : Target) : (opening t).flatten.length =
    t.resource.length + (t.hostname.length + t.port.length) + 151 := by
  have agent : userAgentHdr.length = 86 := by decide
  have conn : connHdr.length = 19 := by decide
  have proxy : proxyConnHdr.length = 25 := by decide
  simp [opening, agent, conn, proxy, ascii]
  omega

/-! ## The lines of a header -/

namespace Header

variable (h : Header)

theorem line_marked : MarkedOnce newline h.line := by
  refine ⟨h.name ++ colon :: 32 :: (h.value ++ [13]), ?_, by simp [line, crlf, ascii, newline]⟩
  simp [h.name_clear.2.1, h.value_clear.1, show newline ≠ colon by decide,
    show newline ≠ 32 by decide, show newline ≠ 13 by decide]

theorem cstring_line : cstring h.line = h.line := by
  have clear : (0 : UInt8) ∉ h.line := by
    simp [line, h.name_clear.2.2, h.value_clear.2, show (0 : UInt8) ≠ colon by decide,
      show (0 : UInt8) ∉ crlf by decide]
  exact List.takeWhile_eq_self_iff.mpr fun c member => decide_eq_true fun same =>
    clear (same ▸ member)

theorem line_ne_crlf : h.line ≠ crlf := by
  intro same
  have length := congrArg List.length same
  simp [line, crlf, ascii] at length
  omega

theorem line_injective {h h' : Header} (same : h.line = h'.line) : h = h' := by
  obtain ⟨names, rest⟩ := append_mark_inj h.name_clear.1 h'.name_clear.1 same
  have values : h.value = h'.value := List.append_cancel_right (List.cons.inj rest).2
  cases h
  cases h'
  simp_all

/-- One of the searches: the name stands at the end of the header's name or, with
its colon, in the value. -/
theorem search_line (name : Text) (clear : colon ∉ name) (nonempty : name ≠ [])
    (first : name.head? ≠ some 32) :
    strstrFound h.line (name ++ [colon]) = true ↔
      name <:+ h.name ∨ name ++ [colon] <:+: h.value := by
  have other : (name ++ [colon]).head? ≠ some 32 := by
    rw [List.head?_append_of_ne_nil _ nonempty]
    exact first
  have ending : h.value ++ crlf = h.value ++ [13] ++ [10] := by simp [crlf, ascii]
  rw [strstrFound, decide_eq_true_iff, line, infix_mark h.name_clear.1 clear,
    infix_cons_ne other (by simp), ending, infix_concat_ne (by decide), infix_concat_ne (by decide)]

/-- The lines that the code drops. -/
theorem alreadyWritten_line : alreadyWritten h.line = true ↔ h.Mentions := by
  have host := h.search_line (ascii "Host") (by decide) (by decide) (by decide)
  have agent := h.search_line (ascii "User-Agent") (by decide) (by decide) (by decide)
  have conn := h.search_line (ascii "Connection") (by decide) (by decide) (by decide)
  have proxy : strstrFound h.line (ascii "Proxy-Connection:") = true →
      strstrFound h.line (ascii "Connection:") = true := by
    simp only [strstrFound, decide_eq_true_iff]
    exact List.IsInfix.trans (by decide)
  have texts : ascii "Host:" = ascii "Host" ++ [colon] ∧
      ascii "User-Agent:" = ascii "User-Agent" ++ [colon] ∧
      ascii "Connection:" = ascii "Connection" ++ [colon] := by decide
  simp only [alreadyWritten, Bool.or_eq_true, or_assoc, or_iff_left_of_imp proxy]
  rw [texts.1, texts.2.1, texts.2.2, host, agent, conn]
  simp [Mentions]

end Header

/-- Up to the empty line the loop keeps the header lines that do not mention a
name of its own. -/
theorem appended_headers (headers : List Header) (behind : List (List UInt8)) :
    appended (headers.map Header.line ++ crlf :: behind) =
      (headers.filter fun h => !alreadyWritten h.line).map Header.line ++ [crlf] := by
  induction headers with
  | nil => exact if_pos (by decide)
  | cons h headers ih =>
      rw [List.map_cons, List.cons_append, appended, h.cstring_line, if_neg h.line_ne_crlf,
        List.filter_cons]
      cases alreadyWritten h.line with
      | true => exact ih
      | false =>
          rw [ih]
          rfl

/-! ## What is forwarded -/

theorem requestFormat_words (text : Text) :
    sscanf text requestFormat = (words isspace text).take 3 :=
  scan_wordFormat 2

/-- What is stored from the parsing of the URL on. -/
def urlStores (method url : Text) (headers : List (List UInt8)) : Stores :=
  (parseUrl url).stores ++ match (parseUrl url).target with
    | none => []
    | some t => (builtFwd method t headers).stores

/-- A list that is not shorter than three words starts with three words. -/
theorem exists_three {ws : List Text} (many : ¬ ws.length < 3) :
    ∃ method url version more, ws = method :: url :: version :: more := by
  rcases ws with _ | ⟨method, _ | ⟨url, _ | ⟨version, more⟩⟩⟩
  · exact absurd (by simp) many
  · exact absurd (by simp) many
  · exact absurd (by simp) many
  · exact ⟨method, url, version, more, rfl⟩

section Run

variable {cached : Text → Bool} {req : List UInt8} {headers : List (List UInt8)}

/-- The strings of a run on three words. -/
theorem runThread_stores {method url version : Text} {more : List Text}
    (split : words isspace (cstring req) = method :: url :: version :: more) :
    (runThread cached req headers).stores =
      [(.method, method), (.url, url), (.version, version)] ++
        if cached url = false ∧ strcasecmpZero method (ascii "GET") = true then
          urlStores method url headers
        else [] := by
  have fields : sscanf (cstring req) requestFormat = [method, url, version] := by
    rw [requestFormat_words, split]
    rfl
  simp only [runThread, urlStores, fields]
  cases cached url with
  | true => rfl
  | false =>
      cases strcasecmpZero method (ascii "GET") with
      | false => rfl
      | true =>
          cases (parseUrl url).target with
          | none => simp
          | some t => simp [builtFwd]

/-- With fewer words the thread ends. -/
theorem runThread_short (few : (words isspace (cstring req)).length < 3) :
    (runThread cached req headers).stores =
      [Buffer.method, .url, .version].zip ((words isspace (cstring req)).take 3) := by
  have fields := requestFormat_words (cstring req)
  simp only [runThread, fields]
  generalize words isspace (cstring req) = ws at few
  rcases ws with _ | ⟨method, _ | ⟨url, _ | ⟨version, more⟩⟩⟩
  · rfl
  · rfl
  · rfl
  · exact absurd few (by simp)

theorem runThread_ended (few : (words isspace (cstring req)).length < 3) :
    (runThread cached req headers).answer = .ended := by
  have fields := requestFormat_words (cstring req)
  simp only [runThread, fields]
  generalize words isspace (cstring req) = ws at few
  rcases ws with _ | ⟨method, _ | ⟨url, _ | ⟨version, more⟩⟩⟩
  · rfl
  · rfl
  · rfl
  · exact absurd few (by simp)

end Run

namespace GetRequest

variable (r : GetRequest)

theorem requestLine_marked : MarkedOnce newline r.requestLine := by
  have clear : ∀ {text}, Word text → newline ∉ text := fun word member =>
    absurd (word.clear _ member).1 (by decide)
  refine ⟨r.method ++ 32 :: (r.url ++ 32 :: (r.version ++ [13])), ?_,
    by simp [requestLine, crlf, ascii, newline]⟩
  simp [clear r.method_word, clear r.url_word, clear r.version_word,
    show newline ≠ 32 by decide, show newline ≠ 13 by decide]

theorem requestLine_length :
    r.requestLine.length = r.method.length + r.url.length + r.version.length + 4 := by
  simp [requestLine, crlf, ascii]
  omega

/-- The thread receives the lines as they were sent. -/
theorem readLines_bytes (short : r.requestLine.length < MAXBUF) (behind : Text) :
    readLines (r.bytes ++ behind) =
      r.requestLine :: (r.headers.map Header.line ++ crlf :: readLines behind) := by
  have marked : ∀ line ∈ r.headers.map Header.line, MarkedOnce newline line := by
    intro line member
    obtain ⟨h, -, rfl⟩ := List.mem_map.mp member
    exact h.line_marked
  have shorts : ∀ line ∈ r.headers.map Header.line, line.length < MAXBUF := by
    intro line member
    obtain ⟨h, given, rfl⟩ := List.mem_map.mp member
    exact r.header_length h given
  rw [bytes, List.append_assoc, List.append_assoc, readLines_line r.requestLine_marked short,
    readLines_lines marked shorts, readLines_line crlf_marked (by decide)]

/-- It receives as much of the request line as fits. -/
theorem readLines_take (behind : Text) :
    ∃ headers, readLines (r.bytes ++ behind) = r.requestLine.take (MAXBUF - 1) :: headers := by
  by_cases short : r.requestLine.length < MAXBUF
  · rw [r.readLines_bytes short, List.take_of_length_le (Nat.le_sub_one_of_lt short)]
    exact ⟨_, rfl⟩
  · obtain ⟨front, clear, line⟩ := r.requestLine_marked
    have length := congrArg List.length line
    rw [List.length_append, List.length_singleton] at length
    have room : MAXBUF - 1 ≤ front.length := by
      have positive : 0 < MAXBUF := by decide
      omega
    have piece : r.requestLine.take (MAXBUF - 1) = front.take (MAXBUF - 1) := by
      rw [line, List.take_append_of_le_length room]
    have split : r.bytes ++ behind = front.take (MAXBUF - 1) ++ (front.drop (MAXBUF - 1) ++
        ([newline] ++ ((r.headers.map Header.line).flatten ++ crlf) ++ behind)) := by
      rw [← List.append_assoc, List.take_append_drop, bytes, line]
      simp only [List.append_assoc]
    rw [piece, split]
    refine ⟨_, readLines_piece (fun member => clear (List.mem_of_mem_take member)) ?_ _⟩
    rw [List.length_take, Nat.min_eq_left room]

theorem requestLine_clear : (0 : UInt8) ∉ r.requestLine := by
  have clear : ∀ {text}, Word text → (0 : UInt8) ∉ text := fun word member =>
    (word.clear _ member).2 rfl
  simp [requestLine, clear r.method_word, clear r.url_word, clear r.version_word,
    show (0 : UInt8) ∉ crlf by decide]

theorem cstring_take (n : Nat) : cstring (r.requestLine.take n) = r.requestLine.take n :=
  List.takeWhile_eq_self_iff.mpr fun _ member => decide_eq_true fun same =>
    r.requestLine_clear (same ▸ List.mem_of_mem_take member)

theorem cstring_requestLine : cstring r.requestLine = r.requestLine :=
  List.takeWhile_eq_self_iff.mpr fun _ member => decide_eq_true fun same =>
    r.requestLine_clear (same ▸ member)

theorem words_word {text rest : Text} (word : Word text)
    (next : ∀ c ∈ rest.head?, isspace c = true) :
    words isspace (text ++ rest) = text :: words isspace rest :=
  words_block (fun c member => (word.clear c member).1) word.nonempty next

/-- At most one word is left of a word that is cut off. -/
theorem words_cut {text : Text} (word : Word text) (n : Nat) :
    (words isspace (text.take n)).length ≤ 1 := by
  by_cases empty : text.take n = []
  · rw [empty]
    exact Nat.zero_le 1
  · have cut : Word (text.take n) := ⟨empty, fun c member =>
      word.clear c (List.mem_of_mem_take member)⟩
    have alone : words isspace (text.take n ++ []) = [text.take n] := words_word cut nofun
    rw [List.append_nil] at alone
    rw [alone]
    exact Nat.le_refl 1

/-- A space ends a word. -/
theorem words_spaced {text : Text} (word : Word text) (rest : Text) :
    words isspace (text ++ 32 :: rest) = text :: words isspace rest := by
  have space : isspace 32 = true := by decide
  have next : ∀ c ∈ (32 :: rest).head?, isspace c = true := fun c first =>
    Option.some.inj first ▸ space
  rw [words_word word next, words_space space]

theorem words_crlf (n : Nat) : words isspace (crlf.take n) = [] := by
  match n with
  | 0 => rfl
  | 1 => decide
  | n + 2 =>
      rw [List.take_of_length_le (Nat.le_add_left 2 n)]
      decide

/-- The last word of a line that is cut off. -/
theorem words_last {text : Text} (word : Word text) (n : Nat) :
    words isspace ((text ++ crlf).take (n + 1)) = [text.take (n + 1)] := by
  have cut : Word (text.take (n + 1)) := by
    refine ⟨?_, fun c member => word.clear c (List.mem_of_mem_take member)⟩
    rw [Ne, List.take_eq_nil_iff, not_or]
    exact ⟨Nat.succ_ne_zero n, word.nonempty⟩
  have white : ∀ c ∈ (crlf.take (n + 1 - text.length)).head?, isspace c = true := by
    intro c first
    have member := List.mem_of_mem_take (List.mem_of_mem_head? first)
    have all : ∀ c ∈ crlf, isspace c = true := List.all_eq_true.mp (by decide)
    exact all c member
  rw [List.take_append, words_word cut white, words_crlf]

/-- The request line is split into its three words. -/
theorem words_requestLine : words isspace r.requestLine = [r.method, r.url, r.version] := by
  have ending : ∀ c ∈ crlf.head?, isspace c = true := fun c first =>
    Option.some.inj first ▸ (by decide : isspace 13 = true)
  have nothing : words isspace crlf = [] := by decide
  rw [requestLine, words_spaced r.method_word, words_spaced r.url_word,
    words_word r.version_word ending, nothing]

theorem requestLine_fields :
    sscanf r.requestLine requestFormat = [r.method, r.url, r.version] := by
  rw [requestFormat_words, words_requestLine]
  rfl

/-- Of a request line that is cut off, three words are left only if the first two
are whole. -/
theorem words_take {n : Nat} (behind : r.method.length < n) :
    (words isspace (r.requestLine.take n)).length < 3 ∨
      words isspace (r.requestLine.take n) =
        [r.method, r.url, r.version.take (n - (r.method.length + r.url.length + 2))] := by
  obtain ⟨m, rfl⟩ := Nat.exists_eq_add_of_lt behind
  rw [requestLine, Nat.add_assoc, List.take_length_add_append, List.take_succ_cons,
    words_spaced r.method_word]
  by_cases inUrl : m ≤ r.url.length
  · left
    rw [List.take_append_of_le_length inUrl, List.length_cons]
    exact Nat.succ_lt_succ (Nat.lt_succ_of_le (words_cut r.url_word m))
  · obtain ⟨k, rfl⟩ := Nat.exists_eq_add_of_lt (Nat.lt_of_not_le inUrl)
    rw [Nat.add_assoc r.url.length, List.take_length_add_append, List.take_succ_cons,
      words_spaced r.url_word]
    cases k with
    | zero => exact .inl (by simp [words])
    | succ k =>
        right
        rw [words_last r.version_word]
        congr
        omega

section Forwarding

variable {r} {cached : Text → Bool}

/-- The run on a GET request that misses the cache. -/
theorem runThreadOn_bytes {t : Target} (short : r.requestLine.length < MAXBUF)
    (parsed : (parseUrl r.url).target = some t) (miss : cached r.url = false) (behind : Text) :
    runThreadOn cached (r.bytes ++ behind) =
      let fwd := builtFwd r.method t (r.headers.map Header.line ++ crlf :: readLines behind)
      some ⟨[(.method, r.method), (.url, r.url), (.version, r.version)] ++
        (parseUrl r.url).stores ++ fwd.stores, .connects t.hostname t.port fwd.text⟩ := by
  rw [runThreadOn, r.readLines_bytes short]
  simp only [runThread, cstring_requestLine, requestLine_fields, miss, r.get, parsed]
  rfl

theorem forwarded_eq (t : Target) : r.forwarded t = r.method ++ (opening t).flatten ++
    ((r.headers.filter fun h => ¬ h.Fixed).map Header.line ++ [crlf]).flatten := by
  have version : ascii " HTTP/1.0\r\n" = ascii " " ++ ascii "HTTP/1.0\r\n" := by decide
  simp [forwarded, opening, version]

/-- The lines that are kept are the right ones exactly when the two tests agree. -/
theorem kept_iff (headers : List Header) :
    ((headers.filter fun h => !alreadyWritten h.line).map Header.line ++ [crlf]).flatten =
        ((headers.filter fun h => ¬ h.Fixed).map Header.line ++ [crlf]).flatten ↔
      ∀ h ∈ headers, h.Mentions ↔ h.Fixed := by
  have marked : ∀ l : List Header, ∀ line ∈ l.map Header.line, MarkedOnce newline line := by
    intro l line member
    obtain ⟨h, -, rfl⟩ := List.mem_map.mp member
    exact h.line_marked
  have agree : ∀ h : Header, (!alreadyWritten h.line) = decide (¬ h.Fixed) ↔
      (h.Mentions ↔ h.Fixed) := by
    intro h
    rw [← h.alreadyWritten_line]
    cases alreadyWritten h.line <;> simp
  rw [List.flatten_append, List.flatten_append, List.append_left_inj]
  refine Iff.trans ⟨flatten_lines_inj (marked _) (marked _), congrArg _⟩ ?_
  rw [List.map_inj_right fun _ _ => Header.line_injective, filter_eq_filter_iff]
  exact forall₂_congr fun h _ => agree h

theorem builtFwd_iff (t : Target) (behind : List (List UInt8)) :
    (builtFwd r.method t (r.headers.map Header.line ++ crlf :: behind)).text = r.forwarded t ↔
      ∀ h ∈ r.headers, h.Mentions ↔ h.Fixed := by
  rw [builtFwd_text, appended_headers, forwarded_eq, List.append_right_inj, kept_iff]

theorem method_length : r.method.length = 3 := by
  have same := congrArg List.length (of_decide_eq_true r.get)
  rwa [List.length_map, List.length_map] at same

/-- A request that fits leaves this much room for the parts of its URL. -/
theorem forwarded_length {t : Target} (fits : (r.forwarded t).length < MAXBUF) :
    t.hostname.length + t.port.length + t.resource.length + 154 < MAXBUF := by
  rw [forwarded_eq, List.length_append, List.length_append, method_length, opening_length] at fits
  omega

/-- The URL is short if its scheme is. -/
theorem url_length {t : Target} (parsed : (parseUrl r.url).target = some t)
    (fits : (r.forwarded t).length < MAXBUF)
    (scheme : separator <:+: r.url → (r.url.takeWhile (· ≠ colon)).length < 8) :
    r.url.length + 143 < MAXBUF := by
  have long := target_length (fun c member => (r.url_word.clear c member).1) parsed scheme
  have room := forwarded_length fits
  omega

/-- With the version, the whole request line is. -/
theorem PartsFit.short {t : Target} (parts : r.PartsFit t)
    (parsed : (parseUrl r.url).target = some t) (fits : (r.forwarded t).length < MAXBUF) :
    r.requestLine.length < MAXBUF := by
  have url := url_length parsed fits parts.scheme
  have version := parts.version
  rw [requestLine_length, method_length]
  omega

/-- The parts of a request that is forwarded exactly fit. -/
theorem ForwardedExactly.partsFit {t : Target} {behind : Text}
    (parsed : (parseUrl r.url).target = some t) (miss : cached r.url = false)
    (fits : (r.forwarded t).length < MAXBUF) (forwarded : r.ForwardedExactly cached t behind) :
    r.PartsFit t := by
  obtain ⟨run, eq, answer, inside⟩ := forwarded
  obtain ⟨headers, lines⟩ := r.readLines_take behind
  rw [runThreadOn, lines] at eq
  cases eq
  have whole := r.cstring_take (MAXBUF - 1)
  have started : r.method.length < MAXBUF - 1 := by
    rw [method_length]
    decide
  rcases r.words_take started with few | three
  · rw [← whole] at few
    rw [runThread_ended few] at answer
    exact nomatch answer
  · rw [← whole] at three
    rw [runThread_stores three, if_pos ⟨miss, r.get⟩, urlStores, inBounds_append,
      inBounds_append] at inside
    obtain ⟨fields, url, -⟩ := inside
    have urlFits : r.url.length < MAXLINE := fields (.url, r.url) (by simp)
    have versionFits := fields (.version, _) (List.mem_cons_of_mem _
      (List.mem_cons_of_mem _ List.mem_cons_self))
    have clear : ∀ c ∈ r.url, isspace c = false := fun c member => (r.url_word.clear c member).1
    obtain ⟨scheme, port⟩ := (target_inBounds clear urlFits parsed).mp url
    -- the URL leaves more room than an array for versions, so the version is whole
    have room := url_length parsed fits scheme
    rw [List.length_take, method_length, Buffer.size] at versionFits
    exact ⟨by omega, scheme, port⟩

/-- The tests agree on its header lines. -/
theorem ForwardedExactly.agree {t : Target} {behind : Text}
    (parsed : (parseUrl r.url).target = some t) (miss : cached r.url = false)
    (fits : (r.forwarded t).length < MAXBUF) (forwarded : r.ForwardedExactly cached t behind) :
    ∀ h ∈ r.headers, h.Mentions ↔ h.Fixed := by
  have short := (forwarded.partsFit parsed miss fits).short parsed fits
  obtain ⟨run, eq, answer, -⟩ := forwarded
  rw [runThreadOn_bytes short parsed miss behind] at eq
  cases eq
  simp only [Answer.connects.injEq, true_and] at answer
  exact (builtFwd_iff t _).mp answer

/-- The strings of the request fit if its parts do. -/
theorem PartsFit.inBounds {t : Target} (parts : r.PartsFit t)
    (parsed : (parseUrl r.url).target = some t) (fits : (r.forwarded t).length < MAXBUF) :
    InBounds ([(.method, r.method), (.url, r.url), (.version, r.version)] ++
      (parseUrl r.url).stores) := by
  have url := url_length parsed fits parts.scheme
  have urlFits : r.url.length < MAXLINE := Nat.lt_of_le_of_lt (Nat.le_add_right ..) url
  have methodFits : r.method.length < 8 := by
    rw [method_length]
    decide
  have clear : ∀ c ∈ r.url, isspace c = false := fun c member => (r.url_word.clear c member).1
  rw [inBounds_append, target_inBounds clear urlFits parsed]
  refine ⟨?_, parts.scheme, parts.port⟩
  simp only [InBounds, List.forall_mem_cons, Buffer.size]
  exact ⟨methodFits, urlFits, parts.version, List.forall_mem_nil _⟩

/-- A request is forwarded exactly when its version, its scheme and its port fit
their arrays and the header lines that mention a name of the four are those of
the four. -/
theorem forwardedExactly_iff {t : Target} {behind : Text} (parsed : (parseUrl r.url).target = some t)
    (miss : cached r.url = false) (fits : (r.forwarded t).length < MAXBUF) :
    r.ForwardedExactly cached t behind ↔
      r.PartsFit t ∧ ∀ h ∈ r.headers, h.Mentions ↔ h.Fixed := by
  constructor
  · intro forwarded
    exact ⟨forwarded.partsFit parsed miss fits, forwarded.agree parsed miss fits⟩
  · rintro ⟨parts, agree⟩
    have short := parts.short parsed fits
    have built := (builtFwd_iff t (readLines behind)).mpr agree
    refine ⟨_, runThreadOn_bytes short parsed miss behind, by rw [built], ?_⟩
    refine inBounds_append.mpr ⟨parts.inBounds parsed fits, ?_⟩
    intro s appends
    have growing := builtFwd_growing r.method t
      (r.headers.map Header.line ++ crlf :: readLines behind)
    obtain ⟨buffer, below⟩ := growing.inside s appends
    rw [buffer]
    exact below.trans_lt (built ▸ fits)

end Forwarding

end GetRequest

/-- `GET a/ HTTP/1.0` with one header line. -/
def shortGet (h : Header) (length : h.line.length < MAXBUF) : GetRequest where
  method := ascii "GET"
  url := ascii "a/"
  version := ascii "HTTP/1.0"
  headers := [h]
  method_word := ⟨by decide, by decide +kernel⟩
  url_word := ⟨by decide, by decide +kernel⟩
  version_word := ⟨by decide, by decide +kernel⟩
  get := by decide
  header_length := by simpa using length

def hostHeader : Header := ⟨ascii "Host", ascii "a", by decide, by decide⟩

def forwardedHostHeader : Header := ⟨ascii "X-Forwarded-Host", ascii "b", by decide, by decide⟩

theorem forwardedExactly_iff_host :
    (shortGet hostHeader (by decide)).ForwardedExactly (fun _ => false)
        ⟨ascii "a", ascii "80", ascii "/"⟩ [] ↔
      (shortGet hostHeader (by decide)).PartsFit ⟨ascii "a", ascii "80", ascii "/"⟩ ∧
        ∀ h ∈ (shortGet hostHeader (by decide)).headers, h.Mentions ↔ h.Fixed :=
  GetRequest.forwardedExactly_iff (by decide) rfl (by decide +kernel)

/-- A header line whose name ends with `Host` is dropped. -/
theorem forwarded_host_dropped :
    ¬ ∀ (r : GetRequest) (cached : Text → Bool) (t : Target) (behind : Text),
      (parseUrl r.url).target = some t → cached r.url = false →
        (r.forwarded t).length < MAXBUF → r.ForwardedExactly cached t behind := by
  intro claimed
  have parsed : (parseUrl (shortGet forwardedHostHeader (by decide)).url).target =
      some ⟨ascii "a", ascii "80", ascii "/"⟩ := by decide
  have fits : ((shortGet forwardedHostHeader (by decide)).forwarded
      ⟨ascii "a", ascii "80", ascii "/"⟩).length < MAXBUF := by decide +kernel
  have forwarded := claimed (shortGet forwardedHostHeader (by decide)) (fun _ => false) _ []
    parsed rfl fits
  have agree := forwarded.agree parsed rfl fits forwardedHostHeader (List.mem_singleton.mpr rfl)
  have mentions : forwardedHostHeader.Mentions := ⟨ascii "Host", by decide, .inl (by decide)⟩
  exact absurd (agree.mp mentions) (by decide)

end SysProg.Proxy

import SysProg.Proxy.Request

/-!
# The parsing of URLs

A URL with `://` is read as a scheme, an authority and a path, any other as an
authority and a path.  The test looks for `://` anywhere in the URL, so a
query string that contains it turns the second form into the first.
-/

namespace SysProg.Proxy

open Logic

/-! ## How a URL is split -/

/-- The authority and the path that the code finds in a URL. -/
structure Splits (url authority path : Text) : Prop where
  authority_nonempty : authority ≠ []
  authority_clear : slash ∉ authority
  path_slash : path.head? = some slash
  url_eq : if separator <:+: url then
      ∃ scheme, scheme ≠ [] ∧ colon ∉ scheme ∧ url = scheme ++ (separator ++ (authority ++ path))
    else url = authority ++ path

/-- The part of an authority after the first colon, or the default. -/
def portOf (authority : Text) : Text :=
  match authority.dropWhile (· ≠ colon) with
  | [] => ascii "80"
  | _ :: port => port

theorem pullPort_eq (stores : Stores) (authority path : Text) :
    pullPort stores authority path = ⟨stores ++ [(.port, portOf authority)],
      some ⟨authority.takeWhile (· ≠ colon), portOf authority, path⟩⟩ := by
  unfold pullPort portOf
  cases rest : authority.dropWhile (· ≠ colon) with
  | nil =>
      have whole := List.takeWhile_append_dropWhile (p := fun c => decide (c ≠ colon))
        (l := authority)
      rw [rest, List.append_nil] at whole
      simp only [whole]
  | cons c port => rfl

theorem takeWhile_clear (text : Text) (stop : UInt8) : stop ∉ text.takeWhile (· ≠ stop) := by
  intro member
  simpa using List.mem_takeWhile_imp member

theorem dropWhile_head (text : Text) (stop : UInt8) :
    ∀ c ∈ (text.dropWhile (· ≠ stop)).head?, c = stop := by
  intro c first
  have stopped := List.head?_dropWhile_not (fun c => decide (c ≠ stop)) text
  rw [Option.mem_def.mp first] at stopped
  simpa using stopped

theorem portOf_split {host port : Text} (clear : colon ∉ host) :
    portOf (host ++ colon :: port) = port := by
  have next : ∀ c ∈ (colon :: port).head?, c = colon := fun _ m => (Option.some.inj m).symm
  simp only [portOf, (takeWhile_before clear next).2]

theorem takeWhile_split {host port : Text} (clear : colon ∉ host) :
    (host ++ colon :: port).takeWhile (· ≠ colon) = host := by
  have next : ∀ c ∈ (colon :: port).head?, c = colon := fun _ m => (Option.some.inj m).symm
  exact (takeWhile_before clear next).1

/-- An authority has a port or it has no colon. -/
theorem authority_cases (authority : Text) :
    (∃ host port, authority = host ++ colon :: port ∧ colon ∉ host) ∨ colon ∉ authority := by
  have split := List.takeWhile_append_dropWhile (p := fun c => decide (c ≠ colon)) (l := authority)
  have next := dropWhile_head authority colon
  have clear := takeWhile_clear authority colon
  cases rest : authority.dropWhile (· ≠ colon) with
  | nil =>
      right
      rw [rest, List.append_nil] at split
      exact split ▸ clear
  | cons c port =>
      left
      rw [rest] at split next
      exact ⟨_, port, next c rfl ▸ split.symm, clear⟩

theorem portOf_default {authority : Text} (clear : colon ∉ authority) :
    portOf authority = ascii "80" ∧ authority.takeWhile (· ≠ colon) = authority := by
  have all : ∀ c ∈ authority, decide (c ≠ colon) = true := fun c member =>
    decide_eq_true fun same => clear (same ▸ member)
  rw [portOf, List.dropWhile_eq_nil_iff.mpr all]
  exact ⟨rfl, List.takeWhile_eq_self_iff.mpr all⟩

section Parsing

variable {url authority path scheme text : Text}

/-- The conversions `%[^/]%s` split a text without white space at its first
slash. -/
theorem plain_fields (clear : ∀ c ∈ path, isspace c = false) (nonempty : authority ≠ [])
    (clearAuthority : slash ∉ authority) (first : path.head? = some slash) :
    sscanf (authority ++ path) plainFormat = [authority, path] := by
  have nonemptyPath : path ≠ [] := by
    rintro rfl
    exact nomatch first
  have next : ∀ c ∈ path.head?, c = slash := by
    intro c member
    rw [first] at member
    exact (Option.some.inj member).symm
  rw [sscanf, plainFormat, scan_before clearAuthority nonempty next,
    scan_word_all clear nonemptyPath]

/-- Otherwise at most one of them succeeds. -/
theorem plain_fields_short (text : Text) :
    (∃ authority path, text = authority ++ path ∧ authority ≠ [] ∧ slash ∉ authority ∧
      path.head? = some slash) ∨ (sscanf text plainFormat).length ≤ 1 := by
  have split := List.takeWhile_append_dropWhile (p := fun c => decide (c ≠ slash)) (l := text)
  have next := dropWhile_head text slash
  have clearAuthority := takeWhile_clear text slash
  generalize text.takeWhile (· ≠ slash) = authority at split clearAuthority
  generalize text.dropWhile (· ≠ slash) = path at split next
  subst split
  by_cases nonempty : authority = []
  · subst nonempty
    right
    rw [List.nil_append, sscanf, plainFormat, scan_before_stop next]
    exact Nat.zero_le 1
  · cases path with
    | nil =>
        right
        rw [sscanf, plainFormat, scan_before clearAuthority nonempty next]
        exact Nat.le_refl 1
    | cons c path =>
        left
        have isSlash : c = slash := next c rfl
        exact ⟨authority, c :: path, rfl, nonempty, clearAuthority, isSlash ▸ rfl⟩

theorem absolute_fields (nonempty : scheme ≠ []) (clear : colon ∉ scheme) :
    sscanf (scheme ++ (separator ++ text)) absoluteFormat = scheme :: sscanf text plainFormat := by
  have next : ∀ c ∈ (separator ++ text).head?, c = colon := by
    intro c member
    exact (Option.some.inj member).symm
  have parts : separator ++ text = colon :: slash :: slash :: text := rfl
  rw [sscanf, absoluteFormat, scan_before clear nonempty next, parts, scan_literal, scan_literal,
    scan_literal]
  rfl

/-- Unless `://` follows the first colon, at most the scheme is converted. -/
theorem absolute_fields_short (url : Text) :
    (∃ scheme text, scheme ≠ [] ∧ colon ∉ scheme ∧ url = scheme ++ (separator ++ text)) ∨
      sscanf url absoluteFormat = [url.takeWhile (· ≠ colon)] ∨
      sscanf url absoluteFormat = [] ∧ url.takeWhile (· ≠ colon) = [] := by
  have split := List.takeWhile_append_dropWhile (p := fun c => decide (c ≠ colon)) (l := url)
  have next := dropWhile_head url colon
  have clear := takeWhile_clear url colon
  generalize url.takeWhile (· ≠ colon) = scheme at split clear ⊢
  generalize url.dropWhile (· ≠ colon) = rest at split next
  by_cases nonempty : scheme = []
  · right; right
    rw [nonempty, List.nil_append] at split
    exact ⟨by rw [← split, sscanf, absoluteFormat, scan_before_stop next], nonempty⟩
  · by_cases follows : ∃ text, rest = separator ++ text
    · obtain ⟨text, rfl⟩ := follows
      exact .inl ⟨scheme, text, nonempty, clear, split.symm⟩
    · right; left
      rw [← split, sscanf, absoluteFormat, scan_before clear nonempty next]
      congr 1
      match rest, follows with
      | [], _ => rfl
      | [c], _ =>
          rw [next c rfl, scan_literal]
          rfl
      | c :: d :: rest, follows =>
          rw [next c rfl, scan_literal]
          by_cases first : d = slash
          · rw [first, scan_literal]
            refine scan_literal_ne fun second => follows ?_
            cases rest with
            | nil => exact nomatch second
            | cons e rest =>
                refine ⟨rest, ?_⟩
                rw [next c rfl, first, Option.some.inj second]
                rfl
          · exact scan_literal_ne fun second => first (Option.some.inj second)

/-- The scheme of a URL that is read as one with a scheme. -/
def protocolStore (url : Text) : Stores :=
  if separator <:+: url then [(.protocol, url.takeWhile (· ≠ colon))] else []

theorem takeWhile_scheme (clear : colon ∉ scheme) :
    (scheme ++ (separator ++ text)).takeWhile (· ≠ colon) = scheme := by
  refine (takeWhile_before clear ?_).1
  intro c member
  exact (Option.some.inj member).symm

/-- A URL that splits is parsed into its parts. -/
theorem parseUrl_splits (clear : ∀ c ∈ path, isspace c = false) (s : Splits url authority path) :
    parseUrl url =
      ⟨protocolStore url ++ [(.hostname, authority), (.resource, path), (.port, portOf authority)],
        some ⟨authority.takeWhile (· ≠ colon), portOf authority, path⟩⟩ := by
  obtain ⟨nonempty, clearAuthority, first, url_eq⟩ := s
  by_cases inside : separator <:+: url
  · rw [if_pos inside] at url_eq
    obtain ⟨scheme, nonemptyScheme, clearScheme, rfl⟩ := url_eq
    have fields : sscanf (scheme ++ (separator ++ (authority ++ path))) absoluteFormat =
        [scheme, authority, path] := by
      rw [absolute_fields nonemptyScheme clearScheme,
        plain_fields clear nonempty clearAuthority first]
    have found : strstrFound (scheme ++ (separator ++ (authority ++ path))) separator = true :=
      decide_eq_true inside
    simp only [parseUrl, found, if_true, fields, pullPort_eq, protocolStore, if_pos inside,
      takeWhile_scheme clearScheme]
    rfl
  · rw [if_neg inside] at url_eq
    subst url_eq
    have fields := plain_fields clear nonempty clearAuthority first
    have missing : strstrFound (authority ++ path) separator = false := decide_eq_false inside
    simp only [parseUrl, missing, fields, pullPort_eq, protocolStore, if_neg inside]
    rfl

/-- A URL that does not split ends the thread; at most the scheme and a host
name have been stored. -/
theorem parseUrl_none (none : ∀ authority path, ¬ Splits url authority path) :
    (parseUrl url).target = .none ∧
      ((parseUrl url).stores = [] ∧ (separator <:+: url → url.takeWhile (· ≠ colon) = []) ∨
        ∃ hosts : List Text, (parseUrl url).stores = protocolStore url ++ hosts.map (.hostname, ·) ∧
          ∀ host ∈ hosts, host.length ≤ url.length) := by
  by_cases inside : separator <:+: url
  · have found : strstrFound url separator = true := decide_eq_true inside
    rcases absolute_fields_short url with
      ⟨scheme, text, nonempty, clearScheme, rfl⟩ | single | ⟨empty, noScheme⟩
    · have fields : sscanf (scheme ++ (separator ++ text)) absoluteFormat =
          scheme :: sscanf text plainFormat := absolute_fields nonempty clearScheme
      rcases plain_fields_short text with
        ⟨authority, path, rfl, nonemptyAuthority, clearAuthority, first⟩ | short
      · refine absurd ?_ (none authority path)
        refine ⟨nonemptyAuthority, clearAuthority, first, ?_⟩
        rw [if_pos inside]
        exact ⟨scheme, nonempty, clearScheme, rfl⟩
      · have fits : ∀ host ∈ sscanf text plainFormat,
            host.length ≤ (scheme ++ (separator ++ text)).length := by
          intro host member
          have inText := scan_length member
          simp only [List.length_append]
          omega
        generalize sscanf text plainFormat = hosts at fields short fits
        simp only [parseUrl, found, if_true, fields, protocolStore, if_pos inside,
          takeWhile_scheme clearScheme]
        match hosts, short with
        | [], _ => exact ⟨rfl, .inr ⟨[], rfl, fits⟩⟩
        | [host], _ => exact ⟨rfl, .inr ⟨[host], rfl, fits⟩⟩
    · simp only [parseUrl, found, if_true, single, protocolStore, if_pos inside]
      exact ⟨trivial, .inr ⟨[], rfl, fun _ member => (nomatch member)⟩⟩
    · simp only [parseUrl, found, if_true, empty]
      exact ⟨trivial, .inl ⟨rfl, fun _ => noScheme⟩⟩
  · have missing : strstrFound url separator = false := decide_eq_false inside
    rcases plain_fields_short url with
      ⟨authority, path, rfl, nonemptyAuthority, clearAuthority, first⟩ | short
    · refine absurd ?_ (none authority path)
      refine ⟨nonemptyAuthority, clearAuthority, first, ?_⟩
      rw [if_neg inside]
    · have fits : ∀ host ∈ sscanf url plainFormat, host.length ≤ url.length :=
        fun _ member => scan_length member
      simp only [parseUrl, missing, Bool.false_eq_true, if_false, protocolStore, if_neg inside]
      generalize sscanf url plainFormat = hosts at short fits
      match hosts, short with
      | [], _ => exact ⟨rfl, .inr ⟨[], rfl, fits⟩⟩
      | [host], _ => exact ⟨rfl, .inr ⟨[host], rfl, fits⟩⟩

end Parsing

/-! ## What is stored -/

section Url

variable {url authority path : Text}

theorem Splits.suffix (s : Splits url authority path) : authority ++ path <:+ url := by
  have url_eq := s.url_eq
  split at url_eq
  · obtain ⟨scheme, -, -, rfl⟩ := url_eq
    exact ⟨scheme ++ separator, by simp⟩
  · rw [url_eq]

theorem Splits.lengths (s : Splits url authority path) :
    authority.length + path.length ≤ url.length := by
  rw [← List.length_append]
  exact s.suffix.length_le

/-- The split of a URL without white space is the only one. -/
theorem Splits.unique {authority' path' : Text} (clear : ∀ c ∈ url, isspace c = false)
    (s : Splits url authority path) (s' : Splits url authority' path') :
    authority = authority' ∧ path = path' := by
  have part : ∀ {authority path : Text}, Splits url authority path →
      ∀ c ∈ path, isspace c = false := fun s c member =>
    clear c (s.suffix.subset (List.mem_append_right _ member))
  have same := parseUrl_splits (part s) s
  rw [parseUrl_splits (part s') s', Parsed.mk.injEq, List.append_right_inj] at same
  simp only [List.cons.injEq, Prod.mk.injEq, true_and] at same
  exact ⟨same.1.1.symm, same.1.2.1.symm⟩

/-- A URL that names a target splits into it. -/
theorem splits_of_target {t : Target} (clear : ∀ c ∈ url, isspace c = false)
    (parsed : (parseUrl url).target = some t) : ∃ authority path, Splits url authority path ∧
      t = ⟨authority.takeWhile (· ≠ colon), portOf authority, path⟩ := by
  by_cases splits : ∃ authority path, Splits url authority path
  · obtain ⟨authority, path, s⟩ := splits
    have clearPath : ∀ c ∈ path, isspace c = false := fun c member =>
      clear c (s.suffix.subset (List.mem_append_right _ member))
    rw [parseUrl_splits clearPath s] at parsed
    exact ⟨authority, path, s, (Option.some.inj parsed).symm⟩
  · have none := (parseUrl_none fun authority path s => splits ⟨authority, path, s⟩).1
    rw [none] at parsed
    exact nomatch parsed

theorem protocolStore_inBounds : InBounds (protocolStore url) ↔
    (separator <:+: url → (url.takeWhile (· ≠ colon)).length < 8) := by
  unfold protocolStore
  split
  · rename_i inside
    simp [InBounds, Buffer.size, inside]
  · rename_i outside
    simp [InBounds, outside]

/-- The strings stored while a URL is parsed fit exactly when its scheme and its
port do. -/
theorem parseUrl_inBounds (clear : ∀ c ∈ url, isspace c = false) (short : url.length < MAXLINE) :
    InBounds (parseUrl url).stores ↔
      (separator <:+: url → (url.takeWhile (· ≠ colon)).length < 8) ∧
      ∀ authority path host port, Splits url authority path →
        authority = host ++ colon :: port → colon ∉ host → port.length < 8 := by
  by_cases splits : ∃ authority path, Splits url authority path
  · obtain ⟨authority, path, s⟩ := splits
    have clearPath : ∀ c ∈ path, isspace c = false := fun c member =>
      clear c (s.suffix.subset (List.mem_append_right _ member))
    have lengths := s.lengths
    rw [parseUrl_splits clearPath s, inBounds_append, protocolStore_inBounds]
    refine and_congr_right fun _ => ?_
    simp only [InBounds, List.forall_mem_cons, List.not_mem_nil, Buffer.size]
    constructor
    · rintro ⟨-, -, fits, -⟩ authority' path' host port s' split clearHost
      obtain ⟨rfl, rfl⟩ := s.unique clear s'
      rwa [split, portOf_split clearHost] at fits
    · intro ports
      refine ⟨by omega, by omega, ?_, fun _ member => (nomatch member)⟩
      rcases authority_cases authority with ⟨host, port, split, clearHost⟩ | noColon
      · rw [split, portOf_split clearHost]
        exact ports _ _ _ _ s split clearHost
      · rw [(portOf_default noColon).1]
        decide
  · have noSplit : ∀ authority path, ¬ Splits url authority path := fun authority path s =>
      splits ⟨authority, path, s⟩
    have vacuous : ∀ authority path host port, Splits url authority path →
        authority = host ++ colon :: port → colon ∉ host → port.length < 8 :=
      fun authority path _ _ s => absurd s (noSplit authority path)
    obtain ⟨-, ⟨none, noScheme⟩ | ⟨hosts, stores, fits⟩⟩ := parseUrl_none noSplit
    · rw [none]
      refine iff_of_true (fun _ member => (nomatch member)) ⟨fun inside => ?_, vacuous⟩
      rw [noScheme inside]
      decide
    · rw [stores, inBounds_append, protocolStore_inBounds]
      refine and_congr_right fun _ => iff_of_true ?_ vacuous
      intro store member
      obtain ⟨host, given, rfl⟩ := List.mem_map.mp member
      exact (fits host given).trans_lt short

/-- Of a URL that names a target the scheme and the port matter. -/
theorem target_inBounds {t : Target} (clear : ∀ c ∈ url, isspace c = false)
    (short : url.length < MAXLINE) (parsed : (parseUrl url).target = some t) :
    InBounds (parseUrl url).stores ↔
      (separator <:+: url → (url.takeWhile (· ≠ colon)).length < 8) ∧ t.port.length < 8 := by
  obtain ⟨authority, path, s, rfl⟩ := splits_of_target clear parsed
  have clearPath : ∀ c ∈ path, isspace c = false := fun c member =>
    clear c (s.suffix.subset (List.mem_append_right _ member))
  have lengths := s.lengths
  rw [parseUrl_splits clearPath s, inBounds_append, protocolStore_inBounds]
  refine and_congr_right fun _ => ?_
  simp only [InBounds, List.forall_mem_cons, List.not_mem_nil, Buffer.size]
  constructor
  · exact fun inBounds => inBounds.2.2.1
  · exact fun port => ⟨by omega, by omega, port, fun _ member => (nomatch member)⟩

end Url

/-- The host and the port make up the authority, or the port is the default. -/
theorem authority_length (authority : Text) :
    (authority.takeWhile (· ≠ colon)).length + (portOf authority).length + 1 =
      authority.length + if colon ∈ authority then 0 else 3 := by
  rcases authority_cases authority with ⟨host, port, rfl, clear⟩ | clear
  · rw [takeWhile_split clear, portOf_split clear, if_pos (by simp)]
    simp only [List.length_append, List.length_cons]
    omega
  · obtain ⟨port, host⟩ := portOf_default clear
    rw [port, host, if_neg clear]
    rfl

/-- A URL is little longer than its parts. -/
theorem target_length {url : Text} {t : Target} (clear : ∀ c ∈ url, isspace c = false)
    (parsed : (parseUrl url).target = some t)
    (scheme : separator <:+: url → (url.takeWhile (· ≠ colon)).length < 8) :
    url.length ≤ 11 + (t.hostname.length + t.port.length + t.resource.length) := by
  obtain ⟨authority, path, s, rfl⟩ := splits_of_target clear parsed
  have parts := authority_length authority
  have url_eq := s.url_eq
  by_cases inside : separator <:+: url
  · have short := scheme inside
    rw [if_pos inside] at url_eq
    obtain ⟨first, -, clearScheme, rfl⟩ := url_eq
    rw [takeWhile_scheme clearScheme] at short
    have three : separator.length = 3 := rfl
    simp only [List.length_append, three]
    omega
  · rw [if_neg inside] at url_eq
    rw [url_eq, List.length_append]
    simp only
    omega

/-! ## Two forms of a URL -/

/-- A scheme, a host, perhaps a port, and a path. -/
structure Address where
  scheme : Text
  host : Text
  port : Option Text
  path : Text
  scheme_length : 1 ≤ scheme.length ∧ scheme.length ≤ 7
  scheme_clear : colon ∉ scheme
  host_nonempty : host ≠ []
  host_clear : colon ∉ host ∧ slash ∉ host
  port_digits : ∀ p ∈ port, (1 ≤ p.length ∧ p.length ≤ 7) ∧ ∀ c ∈ p, 48 ≤ c ∧ c ≤ 57
  path_slash : path.head? = some slash
  path_clear : ∀ c ∈ path, isspace c = false

namespace Address

/-- `host` or `host:port` -/
def authority (a : Address) : Text :=
  match a.port with
  | none => a.host
  | some port => a.host ++ colon :: port

/-- `scheme://host[:port]path` -/
def absolute (a : Address) : Text := a.scheme ++ (separator ++ (a.authority ++ a.path))

/-- `host[:port]path` -/
def plain (a : Address) : Text := a.authority ++ a.path

/-- The target that the URL names. -/
def target (a : Address) : Target := ⟨a.host, a.port.getD (ascii "80"), a.path⟩

/-- Both forms are parsed to that target. -/
def ParsesAlike (a : Address) : Prop :=
  (parseUrl a.absolute).target = some a.target ∧ (parseUrl a.plain).target = some a.target

variable (a : Address)

theorem authority_nonempty : a.authority ≠ [] := by
  unfold authority
  split
  · exact a.host_nonempty
  · simp

theorem slash_not_digit : ¬ ((48 : UInt8) ≤ slash ∧ slash ≤ 57) := by decide

theorem authority_clear : slash ∉ a.authority := by
  unfold authority
  split
  · exact a.host_clear.2
  · rename_i port given
    intro member
    rcases List.mem_append.mp member with inHost | inPort
    · exact a.host_clear.2 inHost
    · rcases List.mem_cons.mp inPort with isColon | digit
      · exact absurd isColon (by decide)
      · exact slash_not_digit ((a.port_digits port given).2 slash digit)

/-- The host and the port of the authority are those of the address. -/
theorem authority_parts : a.authority.takeWhile (· ≠ colon) = a.host ∧
    portOf a.authority = a.port.getD (ascii "80") := by
  unfold authority
  cases a.port with
  | none =>
      obtain ⟨port, host⟩ := portOf_default a.host_clear.1
      exact ⟨host, port⟩
  | some port => exact ⟨takeWhile_split a.host_clear.1, portOf_split a.host_clear.1⟩

/-- A split into the authority and the path is parsed to the target. -/
theorem target_of_splits {url : Text} (s : Splits url a.authority a.path) :
    (parseUrl url).target = some a.target := by
  obtain ⟨host, port⟩ := a.authority_parts
  rw [parseUrl_splits a.path_clear s, host, port]
  rfl

/-- The authority ends with the host or with a digit. -/
theorem authority_end : ¬ [colon] <:+ a.authority := by
  unfold authority
  rintro ⟨front, eq⟩
  cases given : a.port with
  | none =>
      simp only [given] at eq
      refine a.host_clear.1 ?_
      rw [← eq]
      simp
  | some port =>
      obtain ⟨⟨positive, -⟩, digits⟩ := a.port_digits port given
      rcases List.eq_nil_or_concat port with rfl | ⟨init, last, rfl⟩
      · exact absurd positive (by decide)
      · have regrouped : front ++ [colon] = (a.host ++ colon :: init) ++ [last] := by
          simpa [given] using eq
        have isColon : [colon] = [last] := List.append_inj_right' regrouped rfl
        have digit := digits last (by simp)
        rw [← List.head_eq_of_cons_eq isColon] at digit
        exact absurd digit (by decide)

/-- In the second form `://` can stand in the path only. -/
theorem separator_plain : separator <:+: a.plain ↔ separator <:+: a.path := by
  constructor
  · intro inside
    rcases List.infix_append_iff.mp inside with front | path | ⟨left, right, parts, front, path⟩
    · exact absurd (front.subset (by decide)) a.authority_clear
    · exact path
    · match left, parts with
      | [], parts =>
          rw [List.nil_append] at parts
          exact parts ▸ path.isInfix
      | [c], parts =>
          have isColon : colon = c := (List.cons.inj parts).1
          exact absurd (isColon ▸ front) a.authority_end
      | c :: d :: left, parts =>
          have isSlash : slash = d := (List.cons.inj (List.cons.inj parts).2).1
          exact absurd (isSlash ▸ front.subset (by simp)) a.authority_clear
  · exact List.infix_append_of_infix_right

theorem absolute_splits : Splits a.absolute a.authority a.path := by
  refine ⟨a.authority_nonempty, a.authority_clear, a.path_slash, ?_⟩
  have inside : separator <:+: a.absolute := by
    unfold absolute
    exact List.infix_append_of_infix_right (List.prefix_append _ _).isInfix
  rw [if_pos inside]
  exact ⟨a.scheme, List.length_pos_iff.mp a.scheme_length.1, a.scheme_clear, rfl⟩

/-- The path of the second form is not found behind a `://`. -/
theorem plain_target_ne (inside : separator <:+: a.path) :
    (parseUrl a.plain).target ≠ some a.target := by
  intro parsed
  by_cases splits : ∃ authority path, Splits a.plain authority path
  · obtain ⟨authority, path, splits⟩ := splits
    have url_eq := splits.url_eq
    rw [if_pos (a.separator_plain.mpr inside)] at url_eq
    obtain ⟨scheme, -, -, url_eq⟩ := url_eq
    have regrouped : a.authority ++ a.path = (scheme ++ (separator ++ authority)) ++ path := by
      simpa [plain] using url_eq
    have hasSlash : slash ∈ scheme ++ (separator ++ authority) := by
      simp [show slash ∈ separator by decide]
    -- the scheme reaches into the path, so what is taken for the path is shorter
    rcases List.append_eq_append_iff.mp regrouped with ⟨rest, front, whole⟩ | ⟨rest, front, -⟩
    · have clear : ∀ c ∈ path, isspace c = false := fun c member =>
        a.path_clear c (whole ▸ List.mem_append_right rest member)
      rw [parseUrl_splits clear splits] at parsed
      have samePath : path = a.path := congrArg Target.resource (Option.some.inj parsed)
      have length := congrArg List.length whole
      rw [samePath, List.length_append] at length
      have empty : rest = [] := List.length_eq_zero_iff.mp (by omega)
      rw [front, empty, List.append_nil] at hasSlash
      exact a.authority_clear hasSlash
    · exact a.authority_clear (front ▸ List.mem_append_left rest hasSlash)
  · obtain ⟨none, -⟩ := parseUrl_none fun authority path s => splits ⟨authority, path, s⟩
    rw [none] at parsed
    exact nomatch parsed

/-- Both forms of an address are parsed to its target exactly when its path does
not contain `://`. -/
theorem parsesAlike_iff : a.ParsesAlike ↔ ¬ separator <:+: a.path := by
  constructor
  · intro alike inside
    exact a.plain_target_ne inside alike.2
  · intro outside
    refine ⟨a.target_of_splits a.absolute_splits, a.target_of_splits ?_⟩
    refine ⟨a.authority_nonempty, a.authority_clear, a.path_slash, ?_⟩
    rw [if_neg (mt a.separator_plain.mp outside)]
    rfl

end Address

/-- `a/?u=x://b/c` -/
def queryAddress : Address where
  scheme := ascii "http"
  host := ascii "a"
  port := none
  path := ascii "/?u=x://b/c"
  scheme_length := by decide
  scheme_clear := by decide
  host_nonempty := by decide
  host_clear := by decide
  port_digits := nofun
  path_slash := rfl
  path_clear := by decide +kernel

example : (parseUrl queryAddress.plain).target = some ⟨ascii "b", ascii "80", ascii "/c"⟩ := by
  decide

/-- Without its scheme this address is taken for one of another host. -/
theorem query_misread : ¬ ∀ a : Address, a.ParsesAlike := by
  intro claimed
  exact queryAddress.plain_target_ne (by decide) (claimed queryAddress).2

end SysProg.Proxy

import Mathlib.Tactic.SplitIfs
import SysProg.Logic.CStrings
import SysProg.Logic.Quoting

/-!
# Splitting the command line

`parseline` of `tsh.c` works in place on a copy of the command line: it ends each
word with a terminator and stores a pointer to its start.  The words are those of
the line with its last character replaced by a space.
-/

namespace SysProg.Shell

open Logic

def MAXLINE : Nat := 1024
def MAXARGS : Nat := 128

def space : UInt8 := 32
def quote : UInt8 := 39
def ampersand : UInt8 := 38
def newline : UInt8 := 10

/-- The static copy of the line and the array `argv` of the caller, whose pointers
lead into the copy; a null pointer is `none`. -/
structure Parse where
  array : Vector UInt8 MAXLINE
  argv : Vector (Option Nat) MAXARGS

/-- Skip the spaces from `buf` on; the start of the word there and its delimiter.
The source does so before the loop and at the end of each round. -/
def nextWord (array : Vector UInt8 MAXLINE) (buf : Nat) : Option (Nat × Option Nat) := do
  let buf ← scanFrom array (fun c => c ≠ 0 && c = space) buf
  let c ← array[buf]?
  if c = quote then do
    let delim ← strchr array (buf + 1) quote
    pure (buf + 1, delim)
  else do
    let delim ← strchr array buf space
    pure (buf, delim)

/-- `while (delim)`, cut off after `fuel` rounds. -/
def buildArgv : Nat → Parse → Nat → Nat × Option Nat → Option (Nat × Parse)
  | 0, _, _, _ => none
  | _ + 1, s, argc, (_, none) => some (argc, s)
  | fuel + 1, s, argc, (buf, some delim) => do
      let argv ← store s.argv argc (some buf)
      let array ← store s.array delim 0
      let next ← nextWord array (delim + 1)
      buildArgv fuel ⟨array, argv⟩ (argc + 1) next

/-- `parseline` up to `argv[argc] = NULL`. -/
def fillArgv (fuel : Nat) (cmdline : List UInt8) (s : Parse) : Option (Nat × Parse) := do
  let array ← strcpy s.array cmdline
  let length ← strlen array 0
  match length with
  -- the byte before the array
  | 0 => none
  | last + 1 => do
      let array ← store array last space
      let first ← nextWord array 0
      let (argc, s) ← buildArgv fuel ⟨array, s.argv⟩ 0 first
      let argv ← store s.argv argc none
      pure (argc, ⟨s.array, argv⟩)

/-- `parseline`. -/
def parseline (fuel : Nat) (cmdline : List UInt8) (s : Parse) : Option (Int × Parse) := do
  let (argc, s) ← fillArgv fuel cmdline s
  match argc with
  | 0 => pure (1, s)
  | last + 1 => do
      let arg ← s.argv[last]?
      let arg ← arg
      let c ← s.array[arg]?
      if c = ampersand then do
        let argv ← store s.argv last none
        pure (1, ⟨s.array, argv⟩)
      else pure (0, s)

/-- The words of a text. -/
def textWords (text : List UInt8) : List (List UInt8) := quotedWords space quote .between text

/-- The words of a command line, whose last character counts as a space. -/
def lineWords (cmdline : List UInt8) : List (List UInt8) := textWords (cmdline.dropLast ++ [space])

/-- The first arguments are the words, as strings before the address `front`. -/
def Args (s : Parse) (front : Nat) (words : List (List UInt8)) : Prop :=
  ∀ (i : Nat) (word : List UInt8), words[i]? = some word →
    ∃ p, s.argv[i]? = some (some p) ∧ StringAt s.array p word ∧ p + word.length < front

section Loop

variable {array : Vector UInt8 MAXLINE} {s : Parse} {p argc fuel : Nat} {text : List UInt8}
  {words : List (List UInt8)} {next : Nat × Option Nat}

theorem getD_head_ne {c : UInt8} (start : ∀ d ∈ text.head?, d ≠ c) (notNul : 0 ≠ c) :
    text.getD 0 0 ≠ c := by
  cases text with
  | nil => exact notNul
  | cons d text => exact start d rfl

/-- The search for a word finds the next one of the text, or no delimiter. -/
theorem nextWord_cases (string : StringAt array p text) :
    (∃ buf, nextWord array p = some (buf, none) ∧ textWords text = []) ∨
      ∃ buf word c rest, nextWord array p = some (buf, some (buf + word.length)) ∧ p ≤ buf ∧
        StringAt array buf (word ++ c :: rest) ∧ textWords text = word :: textWords rest := by
  obtain ⟨front, behind, rfl, spaces, start, next⟩ : ∃ front behind, text = front ++ behind ∧
    (∀ d ∈ front, d = space) ∧ (∀ d ∈ behind.head?, d ≠ space) ∧ Next space quote behind :=
      exists_next text
  have here := string.drop
  have skipped : scanFrom array (fun c => c ≠ 0 && c = space) p = some (p + front.length) := by
    refine string.scanFrom_eq (fun d member => ?_) ?_
    · rw [spaces d member]
      rfl
    · have notSpace := getD_head_ne start (by decide)
      rw [decide_eq_false notSpace, Bool.and_false]
  have first := here.bytes 0 (Nat.zero_le _)
  rw [Nat.add_zero] at first
  have words : textWords (front ++ behind) = textWords behind := quotedWords_spaces spaces
  simp only [nextWord, skipped, first, words, Option.bind_eq_bind, Option.bind_some]
  cases next with
  | bare word rest nonempty unquoted clear =>
      have bare : (word ++ space :: rest).getD 0 0 ≠ quote := by
        cases word with
        | nil => exact absurd rfl nonempty
        | cons d word => exact unquoted d rfl
      rw [if_neg bare, here.strchr_eq clear]
      exact .inr ⟨_, word, space, rest, rfl, Nat.le_add_right _ _, here,
        quotedWords_cons_bare nonempty unquoted clear⟩
  | quoted word rest clear =>
      have behindQuote : StringAt array (p + front.length + 1) (word ++ quote :: rest) := by
        have whole : StringAt array (p + front.length) ([quote] ++ (word ++ quote :: rest)) := here
        exact whole.drop
      rw [List.getD_cons_zero, if_pos rfl, behindQuote.strchr_eq clear]
      exact .inr ⟨_, word, quote, rest, rfl, by omega, behindQuote,
        quotedWords_cons_quoted (by decide) clear⟩
  | openBare word unquoted clear =>
      rw [if_neg (getD_head_ne unquoted (by decide)), here.strchr_null clear (by decide)]
      exact .inl ⟨_, rfl, quotedWords_open_bare unquoted clear⟩
  | openQuoted word clear =>
      have behindQuote : StringAt array (p + front.length + 1) word := by
        have whole : StringAt array (p + front.length) ([quote] ++ word) := here
        exact whole.drop
      rw [List.getD_cons_zero, if_pos rfl, behindQuote.strchr_null clear (by decide)]
      exact .inl ⟨_, rfl, quotedWords_open_quoted (by decide) clear⟩

theorem exists_nextWord (string : StringAt array p text) : ∃ next, nextWord array p = some next := by
  rcases nextWord_cases string with ⟨buf, found, -⟩ | ⟨buf, word, c, rest, found, -⟩
  · exact ⟨_, found⟩
  · exact ⟨_, found⟩

/-- A stored pointer to a string adds an argument. -/
theorem Args.push {word rest : List UInt8} {c : UInt8} {buf : Nat} {argv : Vector (Option Nat) MAXARGS}
    (args : Args s p words) (behind : p ≤ buf)
    (string : StringAt s.array buf (word ++ c :: rest))
    (pointed : store s.argv words.length (some buf) = some argv)
    (ended : store s.array (buf + word.length) 0 = some array) :
    Args ⟨array, argv⟩ (buf + word.length + 1) (words ++ [word]) := by
  intro i w entry
  rw [List.getElem?_append] at entry
  split at entry
  · rename_i inside
    obtain ⟨q, pointer, text, before⟩ := args i w entry
    refine ⟨q, ?_, text.frame ended (by omega), by omega⟩
    dsimp only
    rw [store_getElem? pointed, if_neg (Nat.ne_of_lt inside), pointer]
  · rename_i outside
    obtain ⟨same, rfl⟩ : i = words.length ∧ word = w := by
      rw [List.getElem?_singleton] at entry
      split at entry
      · exact ⟨by omega, Option.some.inj entry⟩
      · cases entry
    subst same
    refine ⟨buf, ?_, (string.split ended).1, Nat.lt_succ_self _⟩
    dsimp only
    rw [store_getElem? pointed, if_pos rfl]

theorem Args.mono {front : Nat} (args : Args s p words) (more : p ≤ front) : Args s front words := by
  intro i word entry
  obtain ⟨q, pointer, string, before⟩ := args i word entry
  exact ⟨q, pointer, string, Nat.lt_of_lt_of_le before more⟩

/-- One round of the loop: what it stores, and the search for the next word. -/
theorem buildArgv_round {buf : Nat} {word rest : List UInt8} {c : UInt8}
    (string : StringAt s.array buf (word ++ c :: rest)) (room : argc < MAXARGS) :
    ∃ argv array next, store s.argv argc (some buf) = some argv ∧
      store s.array (buf + word.length) 0 = some array ∧
      nextWord array (buf + word.length + 1) = some next ∧
      ∀ fuel, buildArgv (fuel + 1) s argc (buf, some (buf + word.length)) =
        buildArgv fuel ⟨array, argv⟩ (argc + 1) next := by
  have inside := string.inside
  rw [List.length_append] at inside
  have ended := store_eq (v := s.array) (x := 0) (by omega : buf + word.length < MAXLINE)
  have pointed := store_eq (v := s.argv) (x := some buf) room
  obtain ⟨next, found⟩ := exists_nextWord (string.split ended).2
  refine ⟨_, _, next, pointed, ended, found, fun fuel => ?_⟩
  simp only [buildArgv, pointed, ended, found, Option.bind_eq_bind, Option.bind_some]

/-- The loop stores the words of the text behind the ones before. -/
theorem buildArgv_eq (string : StringAt s.array p text) (args : Args s p words)
    (found : nextWord s.array p = some next)
    (room : words.length + (textWords text).length ≤ MAXARGS)
    (enough : (textWords text).length < fuel) : ∃ s',
      buildArgv fuel s words.length next =
        some (words.length + (textWords text).length, s') ∧
      Args s' MAXLINE (words ++ textWords text) := by
  induction fuel generalizing s p text words next with
  | zero => exact absurd enough (Nat.not_lt_zero _)
  | succ fuel ih =>
      have inside := string.inside
      rcases nextWord_cases string with ⟨buf, last, empty⟩ |
        ⟨buf, word, c, rest, more, behind, here, split⟩
      · obtain rfl := Option.some.inj (found.symm.trans last)
        rw [empty, List.append_nil]
        exact ⟨s, rfl, args.mono (by omega)⟩
      · obtain rfl := Option.some.inj (found.symm.trans more)
        rw [split, List.length_cons] at room enough
        obtain ⟨argv, array, next, pointed, ended, searched, round⟩ :=
          buildArgv_round here (by omega : words.length < MAXARGS)
        obtain ⟨s', run, stored⟩ := ih (s := ⟨array, argv⟩)
          (here.split ended).2 (args.push behind here pointed ended) searched
          (by rw [List.length_append, List.length_singleton]; omega) (by omega)
        rw [List.length_append, List.length_singleton] at run
        refine ⟨s', ?_, ?_⟩
        · rw [round, run, split, List.length_cons]
          congr 2
          omega
        · rw [split, ← List.singleton_append, ← List.append_assoc]
          exact stored

/-- The loop fails when there are more words than arguments. -/
theorem buildArgv_overrun (string : StringAt s.array p text)
    (found : nextWord s.array p = some next) (started : argc ≤ MAXARGS)
    (tooMany : MAXARGS < argc + (textWords text).length) : buildArgv fuel s argc next = none := by
  induction fuel generalizing s p text argc next with
  | zero => rfl
  | succ fuel ih =>
      rcases nextWord_cases string with ⟨buf, last, empty⟩ |
        ⟨buf, word, c, rest, more, behind, here, split⟩
      · rw [empty] at tooMany
        exact absurd started (by simpa using tooMany)
      · obtain rfl := Option.some.inj (found.symm.trans more)
        rw [split, List.length_cons] at tooMany
        rcases Nat.lt_or_eq_of_le started with room | rfl
        · obtain ⟨argv, array, next, pointed, ended, searched, round⟩ := buildArgv_round here room
          rw [round]
          exact ih (s := ⟨array, argv⟩) (here.split ended).2 searched room (by omega)
        · simp [buildArgv, store]

end Loop

/-! ## The line -/

/-- The argument array holds the words and a null pointer behind them. -/
def Argv (s : Parse) (words : List (List UInt8)) : Prop :=
  Args s MAXLINE words ∧ s.argv[words.length]? = some none

/-- The returned value and the arguments for the words of a line: a last word that
begins with `&` asks for a background job, as does a line without words. -/
def outcome (words : List (List UInt8)) : Int × List (List UInt8) :=
  match words.getLast? with
  | none => (1, [])
  | some last => if last.head? = some ampersand then (1, words.dropLast) else (0, words)

section Lines

variable {cmdline : List UInt8} {s : Parse} {fuel : Nat}

/-- The copy of the line with the space at its end, and the first search in it. -/
theorem fillArgv_start (nonempty : cmdline ≠ []) (clear : 0 ∉ cmdline)
    (short : cmdline.length < MAXLINE) (s : Parse) : ∃ array first,
      StringAt array 0 (cmdline.dropLast ++ [space]) ∧ nextWord array 0 = some first ∧
      ∀ fuel, fillArgv fuel cmdline s =
        (buildArgv fuel ⟨array, s.argv⟩ 0 first).bind fun built =>
          (store built.2.argv built.1 none).map fun argv => (built.1, ⟨built.2.array, argv⟩) := by
  obtain ⟨front, c, rfl⟩ := (List.eq_nil_or_concat' cmdline).resolve_left nonempty
  obtain ⟨copy, copied, string⟩ := strcpy_string s.array clear short
  rw [List.length_append, List.length_singleton] at short
  have inside : front.length < MAXLINE := by omega
  have ended := store_eq (v := copy) (x := space) inside
  have text : StringAt _ 0 (front ++ [space]) :=
    string.replace (by rw [Nat.zero_add]; exact ended) (by decide)
  obtain ⟨first, found⟩ := exists_nextWord text
  rw [List.dropLast_concat]
  refine ⟨_, first, text, found, fun fuel => ?_⟩
  simp only [fillArgv, copied, string.strlen_eq, List.length_append, List.length_singleton, ended,
    found, Option.bind_eq_bind, Option.bind_some, Option.pure_def, Option.map_eq_bind]
  rfl

/-- A pointer stored behind the arguments leaves them. -/
theorem Args.store {words : List (List UInt8)} {front argc : Nat} {x : Option Nat}
    {argv : Vector (Option Nat) MAXARGS} (args : Args s front words)
    (stored : Logic.store s.argv argc x = some argv) (behind : words.length ≤ argc) :
    Args ⟨s.array, argv⟩ front words := by
  intro i word entry
  obtain ⟨p, pointer, string, before⟩ := args i word entry
  have inside : i < words.length := (List.getElem?_eq_some_iff.mp entry).1
  refine ⟨p, ?_, string, before⟩
  dsimp only
  rw [store_getElem? stored, if_neg (by omega), pointer]

theorem Args.init {words later : List (List UInt8)} {front : Nat}
    (args : Args s front (words ++ later)) : Args s front words := by
  intro i word entry
  have inside : i < words.length := (List.getElem?_eq_some_iff.mp entry).1
  exact args i word ((List.getElem?_append_left inside).trans entry)

/-- `parseline` up to the null pointer stores the words of the line. -/
theorem fillArgv_eq (nonempty : cmdline ≠ []) (clear : 0 ∉ cmdline)
    (short : cmdline.length < MAXLINE) (room : (lineWords cmdline).length < MAXARGS)
    (enough : MAXARGS < fuel) (s : Parse) : ∃ s',
      fillArgv fuel cmdline s = some ((lineWords cmdline).length, s') ∧
        Argv s' (lineWords cmdline) := by
  obtain ⟨array, first, string, found, run⟩ := fillArgv_start nonempty clear short s
  have unfilled : Args ⟨array, s.argv⟩ 0 [] := fun i word entry => by simp at entry
  obtain ⟨s', built, args⟩ := buildArgv_eq (s := ⟨array, s.argv⟩) string unfilled found
    (by rw [List.length_nil, Nat.zero_add]; exact Nat.le_of_lt room) (Nat.lt_trans room enough)
  have words : textWords (cmdline.dropLast ++ [space]) = lineWords cmdline := rfl
  rw [List.length_nil, Nat.zero_add, words] at built
  rw [List.nil_append, words] at args
  have ended := store_eq (v := s'.argv) (x := none) room
  refine ⟨⟨s'.array, _⟩, ?_, args.store ended (Nat.le_refl _), ?_⟩
  · rw [run, built, Option.bind_some, ended, Option.map_some]
  · exact (store_getElem? ended _).trans (if_pos rfl)

/-- A line with more words fails. -/
theorem fillArgv_overrun (nonempty : cmdline ≠ []) (clear : 0 ∉ cmdline)
    (short : cmdline.length < MAXLINE) (tooMany : MAXARGS ≤ (lineWords cmdline).length)
    (enough : MAXARGS < fuel) (s : Parse) : fillArgv fuel cmdline s = none := by
  obtain ⟨array, first, string, found, run⟩ := fillArgv_start nonempty clear short s
  rcases Nat.lt_or_eq_of_le tooMany with more | full
  · rw [run, buildArgv_overrun string found (Nat.zero_le _) (by rw [Nat.zero_add]; exact more)]
    rfl
  · have unfilled : Args ⟨array, s.argv⟩ 0 [] := fun i word entry => by simp at entry
    obtain ⟨s', built, -⟩ := buildArgv_eq (s := ⟨array, s.argv⟩) string unfilled found
      (by rw [List.length_nil, Nat.zero_add]; exact Nat.le_of_eq full.symm) (full ▸ enough)
    have words : textWords (cmdline.dropLast ++ [space]) = lineWords cmdline := rfl
    rw [List.length_nil, Nat.zero_add, words, ← full] at built
    rw [run, built, Option.bind_some]
    simp [store]

/-- What `parseline` returns and stores for a line whose words fit. -/
theorem parseline_eq (nonempty : cmdline ≠ []) (clear : 0 ∉ cmdline)
    (short : cmdline.length < MAXLINE) (room : (lineWords cmdline).length < MAXARGS)
    (enough : MAXARGS < fuel) (s : Parse) : ∃ s',
      parseline fuel cmdline s = some ((outcome (lineWords cmdline)).1, s') ∧
        Argv s' (outcome (lineWords cmdline)).2 := by
  obtain ⟨s', filled, args, ended⟩ := fillArgv_eq nonempty clear short room enough s
  simp only [parseline, filled, Option.bind_eq_bind, Option.bind_some]
  generalize lineWords cmdline = words at room args ended
  rcases List.eq_nil_or_concat' words with rfl | ⟨front, last, rfl⟩
  · exact ⟨s', rfl, args, ended⟩
  · rw [List.length_append, List.length_singleton] at room ended
    obtain ⟨p, pointer, string, -⟩ := args front.length last (by simp)
    have first := string.bytes 0 (Nat.zero_le _)
    rw [Nat.add_zero] at first
    have dropped := store_eq (v := s'.argv) (x := none) (by omega : front.length < MAXARGS)
    have marked : last.getD 0 0 = ampersand ↔ last.head? = some ampersand := by
      cases last with
      | nil => decide
      | cons c last => simp
    simp only [outcome, List.getLast?_concat, List.length_append, List.length_singleton, pointer,
      first, Option.bind_some, marked, dropped]
    split_ifs
    · refine ⟨_, rfl, ?_⟩
      rw [List.dropLast_concat]
      exact ⟨args.init.store dropped (Nat.le_refl _),
        (store_getElem? dropped _).trans (if_pos rfl)⟩
    · exact ⟨s', rfl, args, by rwa [List.length_append, List.length_singleton]⟩

end Lines

end SysProg.Shell

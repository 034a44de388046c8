import Mathlib.Data.List.TakeWhile
import SysProg.Shell.Parse

/-!
# Command lines

A command line written with spaces and quotes is read back by `parseline`, with a
final `&` taken off.  A line of more words than `argv` has room for is written
beyond it, and an empty string is written before its start.
-/

namespace SysProg.Shell

open Logic

/-! ## Written lines -/

/-- A command line: the leading spaces, the words with the spaces behind each, and
the spaces behind a final `&` if there is one. -/
structure CommandLine where
  lead : Nat
  words : List (Word UInt8 × Nat)
  background : Option Nat

namespace CommandLine

def items (c : CommandLine) : List (Word UInt8 × Nat) :=
  c.words ++ (c.background.map fun gap => (Word.bare [ampersand], gap)).toList

def line (c : CommandLine) : List UInt8 :=
  List.replicate c.lead space ++ Word.line space quote c.items ++ [newline]

def texts (c : CommandLine) : List (List UInt8) := c.words.map fun item => item.1.text

end CommandLine

/-- A word that can be written on a line. -/
structure Typed (word : Word UInt8) : Prop where
  readable : word.Readable space quote
  newline : newline ∉ word.text
  nul : 0 ∉ word.text
  ampersand : word.text.head? ≠ some ampersand

/-- A line that fits the buffers. -/
structure WellFormed (c : CommandLine) : Prop where
  nonempty : 1 ≤ c.words.length
  count : c.words.length ≤ 126
  typed : ∀ item ∈ c.words, Typed item.1
  spaced : ∀ item ∈ c.items.dropLast, 1 ≤ item.2
  short : c.line.length ≤ MAXLINE - 1

section Written

variable {c : CommandLine} {word : Word UInt8} {fuel : Nat}

theorem items_eq (c : CommandLine) : c.items = c.words ∨
    ∃ gap, c.background = some gap ∧ c.items = c.words ++ [(.bare [ampersand], gap)] := by
  unfold CommandLine.items
  cases c.background with
  | none => exact .inl (List.append_nil _)
  | some gap => exact .inr ⟨gap, rfl, rfl⟩

/-- The words of a line can be read back and have no terminator in them. -/
theorem WellFormed.readable (wf : WellFormed c) (item : Word UInt8 × Nat) (member : item ∈ c.items) :
    item.1.Readable space quote ∧ 0 ∉ item.1.text := by
  have typed := wf.typed
  rcases items_eq c with same | ⟨gap, -, extended⟩
  · rw [same] at member
    exact ⟨(typed item member).readable, (typed item member).nul⟩
  · rw [extended, List.mem_append, List.mem_singleton] at member
    rcases member with inside | rfl
    · exact ⟨(typed item inside).readable, (typed item inside).nul⟩
    · refine ⟨⟨List.cons_ne_nil _ _, ?_, by decide⟩, (by decide : (0 : UInt8) ∉ [ampersand])⟩
      intro d first
      obtain rfl := Option.some.inj first
      decide

/-- The words of a written line are read back. -/
theorem WellFormed.lineWords_eq (wf : WellFormed c) :
    lineWords c.line = c.items.map fun item => item.1.text := by
  have text : c.line.dropLast ++ [space] =
      List.replicate c.lead space ++ (Word.line space quote c.items ++ [space]) := by
    rw [CommandLine.line, List.dropLast_concat, List.append_assoc]
  rw [lineWords, text, textWords, quotedWords_spaces fun d member => List.eq_of_mem_replicate member]
  exact quotedWords_line (by decide) (fun item member => (wf.readable item member).1) wf.spaced

theorem written_clear (clear : 0 ∉ word.text) : 0 ∉ word.written quote := by
  cases word with
  | bare text => exact clear
  | quoted text =>
      have notQuote : (0 : UInt8) ≠ quote := by decide
      simpa [Word.written, Word.text, notQuote] using clear

theorem WellFormed.clear (wf : WellFormed c) : 0 ∉ c.line := by
  have notSpace : (0 : UInt8) ≠ space := by decide
  have spaces (n : Nat) : 0 ∉ List.replicate n space :=
    fun member => notSpace (List.eq_of_mem_replicate member)
  unfold CommandLine.line Word.line
  rw [List.mem_append, List.mem_append, List.mem_flatMap, List.mem_singleton]
  rintro ((lead | ⟨item, member, inside⟩) | last)
  · exact spaces _ lead
  · rcases List.mem_append.mp inside with word | gap
    · exact written_clear (wf.readable item member).2 word
    · exact spaces _ gap
  · exact absurd last (by decide)

/-- The words without the final `&`, and whether there is one. -/
theorem WellFormed.outcome_eq (wf : WellFormed c) :
    outcome (lineWords c.line) = (if c.background.isSome then 1 else 0, c.texts) := by
  rw [wf.lineWords_eq]
  have nonempty := wf.nonempty
  unfold CommandLine.items CommandLine.texts
  cases c.background with
  | none =>
      obtain ⟨front, last, split⟩ := (List.eq_nil_or_concat' c.words).resolve_left
        (List.ne_nil_of_length_pos nonempty)
      have unmarked := (wf.typed last (split ▸ List.mem_append_right _ List.mem_cons_self)).ampersand
      rw [Option.map_none, Option.toList_none, List.append_nil, split, List.map_append,
        List.map_singleton, outcome, List.getLast?_concat]
      exact if_neg unmarked
  | some gap =>
      rw [Option.map_some, Option.toList_some, List.map_append, List.map_singleton, outcome,
        List.getLast?_concat, List.dropLast_concat]
      rfl

/-- `parseline` stores exactly the written words, and returns 1 exactly when a final
`&` follows them. -/
theorem parseline_line (wf : WellFormed c) (enough : MAXARGS < fuel) (s : Parse) : ∃ s',
    parseline fuel c.line s = some (if c.background.isSome then 1 else 0, s') ∧
      Argv s' c.texts := by
  have short := wf.short
  have nonempty : c.line ≠ [] := List.concat_ne_nil _ _
  have room : (lineWords c.line).length < MAXARGS := by
    have count := wf.count
    rw [wf.lineWords_eq, List.length_map]
    unfold MAXARGS
    rcases items_eq c with same | ⟨gap, -, extended⟩
    · rw [same]
      omega
    · rw [extended, List.length_append, List.length_singleton]
      omega
  have parsed := parseline_eq nonempty wf.clear (by unfold MAXLINE at short ⊢; omega) room enough s
  rw [wf.outcome_eq] at parsed
  exact parsed

/-- `" echo  'a b' '' &"`. -/
def quotedLine : CommandLine where
  lead := 1
  words := [(.bare (ascii "echo"), 2), (.quoted (ascii "a b"), 1), (.quoted [], 1)]
  background := some 0

theorem wellFormed_quotedLine : WellFormed quotedLine where
  nonempty := by decide
  count := by decide
  typed := by
    have unquoted : Unquoted quote (ascii "echo") := by
      intro d first
      obtain rfl := Option.some.inj first
      decide
    have echo : Typed (.bare (ascii "echo")) :=
      ⟨⟨by decide, unquoted, by decide⟩, by decide, by decide, by decide⟩
    have spaced : Typed (.quoted (ascii "a b")) :=
      ⟨(by decide : quote ∉ ascii "a b"), by decide, by decide, by decide⟩
    have empty : Typed (.quoted []) := ⟨List.not_mem_nil, by decide, by decide, by decide⟩
    simp [quotedLine, echo, spaced, empty]
  spaced := by decide
  short := by decide

/-- Arrays before the first line. -/
def unparsed : Parse := ⟨Vector.replicate MAXLINE 0, Vector.replicate MAXARGS none⟩

theorem parseline_line_quotedLine : ∃ s',
    parseline 129 quotedLine.line unparsed = some (1, s') ∧
      Argv s' [ascii "echo", ascii "a b", []] :=
  parseline_line wellFormed_quotedLine (by decide) unparsed

end Written

/-! ## The bounds of the arrays -/

/-- For the characters that `fgets` has received, `parseline` stays inside its copy
of the line and inside `argv`, and so do the pointers that it stores. -/
def StaysInside (fuel : Nat) (received : List UInt8) : Prop :=
  ∀ s, ∃ argc s', fillArgv fuel (beforeNul received) s = some (argc, s') ∧ argc + 1 ≤ MAXARGS ∧
    (∀ i < argc, ∃ p < MAXLINE, s'.argv[i]? = some (some p)) ∧
      (parseline fuel (beforeNul received) s).isSome

section Bounds

variable {received : List UInt8} {fuel : Nat}

/-- An empty string is written before its start. -/
theorem fillArgv_nil (fuel : Nat) (s : Parse) : fillArgv fuel [] s = none := by
  obtain ⟨copy, copied, string⟩ := strcpy_string s.array List.not_mem_nil (by decide)
  simp [fillArgv, copied, string.strlen_eq]

theorem beforeNul_clear (received : List UInt8) : 0 ∉ beforeNul received := by
  intro member
  have passed := List.mem_takeWhile_imp member
  simp at passed

/-- `parseline` stays inside its arrays exactly for the lines that do not begin with
a terminator and leave room for the null pointer. -/
theorem staysInside_iff (nonempty : 1 ≤ received.length) (short : received.length ≤ MAXLINE - 1)
    (enough : MAXARGS < fuel) : StaysInside fuel received ↔
      received.head? ≠ some 0 ∧ (lineWords (beforeNul received)).length < MAXARGS := by
  have fits : (beforeNul received).length < MAXLINE := by
    have cut : (beforeNul received).length ≤ received.length :=
      (List.takeWhile_prefix _).length_le
    unfold MAXLINE at short ⊢
    omega
  have empty : beforeNul received = [] ↔ received.head? = some 0 := by
    cases received with
    | nil => simp at nonempty
    | cons c rest => simp [beforeNul, List.takeWhile_cons]
  have clear := beforeNul_clear received
  constructor
  · intro inside
    obtain ⟨argc, s', filled, -⟩ := inside unparsed
    have start : received.head? ≠ some 0 := by
      intro nul
      rw [empty.mpr nul, fillArgv_nil] at filled
      cases filled
    refine ⟨start, Nat.lt_of_not_le fun tooMany => ?_⟩
    rw [fillArgv_overrun (empty.not.mpr start) clear fits tooMany enough] at filled
    cases filled
  · rintro ⟨start, room⟩ s
    obtain ⟨s', filled, args, -⟩ := fillArgv_eq (empty.not.mpr start) clear fits room enough s
    obtain ⟨after, parsed, -⟩ := parseline_eq (empty.not.mpr start) clear fits room enough s
    refine ⟨_, s', filled, room, fun i inside => ?_, Option.isSome_iff_exists.mpr ⟨_, parsed⟩⟩
    obtain ⟨p, pointer, -, before⟩ := args i _ (List.getElem?_eq_getElem inside)
    exact ⟨p, by omega, pointer⟩

/-- One word. -/
theorem staysInside_iff_quit : StaysInside 129 (ascii "quit\n") ↔
    (ascii "quit\n").head? ≠ some 0 ∧
      (lineWords (beforeNul (ascii "quit\n"))).length < MAXARGS :=
  staysInside_iff (by decide) (by decide) (by decide)

/-- A line of 128 words of one letter. -/
def longLine : List UInt8 := (List.replicate 128 (ascii "a ")).flatten ++ [newline]

/-- The null pointer behind the words of the line is stored beyond `argv`. -/
theorem argv_overrun : ¬ ∀ fuel received, 1 ≤ received.length → received.length ≤ MAXLINE - 1 →
    newline ∉ received.dropLast → MAXARGS < fuel → StaysInside fuel received := by
  intro claimed
  have words : (lineWords (beforeNul longLine)).length = 128 := by decide +kernel
  obtain ⟨argc, s', filled, -⟩ := claimed 129 longLine (by decide +kernel) (by decide +kernel)
    (by decide +kernel) (by decide) unparsed
  rw [fillArgv_overrun (by decide +kernel) (beforeNul_clear longLine) (by decide +kernel)
    (Nat.le_of_eq words.symm) (by decide)] at filled
  cases filled

end Bounds

end SysProg.Shell

import Mathlib.Data.List.DropRight
import Mathlib.Data.List.TakeWhile
import Mathlib.Order.Basic

/-!
# Scanning text

A format is a list of directives.  Scanning stores one field for each
conversion and stops at the first directive that does not match.  The words of a
text are its maximal blocks without white space; the fields of consecutive word
conversions are the first words of the text.
-/

namespace SysProg.Logic

/-! ## Words -/

section Words

variable {α : Type} (isSpace : α → Bool)

/-- The words of a text. -/
def words (text : List α) : List (List α) := (text.splitOnP isSpace).filter (· ≠ [])

variable {isSpace} {text rest word : List α} {c : α}

theorem words_space (space : isSpace c = true) :
    words isSpace (c :: text) = words isSpace text := by
  simp [words, List.splitOnP_cons_eq_if_modifyHead, space]

/-- White space in front does not count. -/
theorem words_dropWhile : words isSpace (text.dropWhile isSpace) = words isSpace text := by
  induction text with
  | nil => rfl
  | cons c text ih =>
      rw [List.dropWhile_cons]
      split
      · rename_i space
        rw [ih, words_space space]
      · rfl

/-- A block without white space is a word. -/
theorem words_block (clear : ∀ c ∈ word, isSpace c = false) (nonempty : word ≠ [])
    (next : ∀ c ∈ rest.head?, isSpace c = true) :
    words isSpace (word ++ rest) = word :: words isSpace rest := by
  cases rest with
  | nil => simp [words, List.splitOnP_eq_singleton clear, nonempty]
  | cons c rest =>
      rw [words_space (next c rfl), words,
        List.splitOnP_append_cons_of_forall_mem clear c (next c rfl)]
      simp [words, nonempty]

theorem dropWhile_not_space (isSpace : α → Bool) (text : List α) :
    ∀ c ∈ (text.dropWhile fun c => !isSpace c).head?, isSpace c = true := by
  intro c first
  have stopped := List.head?_dropWhile_not (fun c => !isSpace c) text
  rw [Option.mem_def.mp first] at stopped
  simpa using stopped

/-- Words have no white space in them and are no longer than the text. -/
theorem words_clear (member : word ∈ words isSpace text) :
    (∀ c ∈ word, isSpace c = false) ∧ word.length ≤ text.length := by
  induction size : text.length using Nat.strong_induction_on generalizing text with
  | _ n ih =>
      subst size
      cases text with
      | nil => exact absurd member (List.not_mem_nil)
      | cons c text =>
          by_cases space : isSpace c = true
          · rw [words_space space] at member
            obtain ⟨clear, length⟩ := ih text.length (Nat.lt_succ_self _) member rfl
            exact ⟨clear, length.trans (Nat.le_succ _)⟩
          · have isBlock : isSpace c = false := by simpa using space
            have clear : ∀ d ∈ (c :: text).takeWhile (fun d => !isSpace d), isSpace d = false :=
              fun d inside => by simpa using List.mem_takeWhile_imp inside
            have shorter : ((c :: text).dropWhile fun d => !isSpace d).length ≤ text.length := by
              rw [List.dropWhile_cons_of_pos (by simp [isBlock])]
              exact (List.dropWhile_suffix _).length_le
            rw [← List.takeWhile_append_dropWhile (p := fun d => !isSpace d) (l := c :: text),
              words_block clear (by simp [isBlock]) (dropWhile_not_space isSpace (c :: text))]
              at member
            rcases List.mem_cons.mp member with rfl | later
            · exact ⟨clear, (List.takeWhile_prefix _).length_le⟩
            · obtain ⟨clear', length⟩ := ih _ (Nat.lt_succ_of_le shorter) later rfl
              exact ⟨clear', length.trans (shorter.trans (Nat.le_succ _))⟩

end Words

/-! ## Directives -/

/-- A directive: a conversion of a word, a conversion of the characters before
`stop`, a character of the format itself, or white space. -/
inductive Directive (α : Type) where
  | word
  | before (stop : α)
  | literal (c : α)
  | space

section Scan

variable {α : Type} [DecidableEq α] (isSpace : α → Bool)

/-- The fields stored by a scan. -/
def scan : List (Directive α) → List α → List (List α)
  | [], _ => []
  | .space :: format, text => scan format (text.dropWhile isSpace)
  | .literal c :: format, text =>
      if text.head? = some c then scan format text.tail else []
  | .word :: format, text =>
      let text := text.dropWhile isSpace
      let field := text.takeWhile fun c => !isSpace c
      if field = [] then [] else field :: scan format (text.dropWhile fun c => !isSpace c)
  | .before stop :: format, text =>
      let field := text.takeWhile fun c => c ≠ stop
      if field = [] then [] else field :: scan format (text.dropWhile fun c => c ≠ stop)

attribute [grind =] scan

variable {isSpace} {format : List (Directive α)} {text rest word : List α} {stop c : α}

/-- Every field is at most as long as the text. -/
theorem scan_length {field : List α} (stored : field ∈ scan isSpace format text) :
    field.length ≤ text.length := by
  induction format generalizing text with
  | nil => exact nomatch stored
  | cons d format ih =>
      cases d with
      | space => exact (ih stored).trans (List.dropWhile_suffix _).length_le
      | literal c =>
          rw [scan] at stored
          split at stored
          · exact (ih stored).trans (by simp)
          · exact nomatch stored
      | word =>
          rw [scan] at stored
          have skipped := (List.dropWhile_suffix isSpace (l := text)).length_le
          split at stored
          · exact nomatch stored
          · rcases List.mem_cons.mp stored with rfl | later
            · exact (List.takeWhile_prefix _).length_le.trans skipped
            · exact (ih later).trans ((List.dropWhile_suffix _).length_le.trans skipped)
      | before stop =>
          rw [scan] at stored
          split at stored
          · exact nomatch stored
          · rcases List.mem_cons.mp stored with rfl | later
            · exact (List.takeWhile_prefix _).length_le
            · exact (ih later).trans (List.dropWhile_suffix _).length_le

theorem takeWhile_before (clear : stop ∉ word) (next : ∀ c ∈ rest.head?, c = stop) :
    (word ++ rest).takeWhile (fun c => c ≠ stop) = word ∧
      (word ++ rest).dropWhile (fun c => c ≠ stop) = rest := by
  have pass : ∀ c ∈ word, decide (c ≠ stop) = true := fun c member =>
    decide_eq_true fun same => clear (same ▸ member)
  rw [List.takeWhile_append_of_pos pass, List.dropWhile_append_of_pos pass]
  cases rest with
  | nil => simp
  | cons c rest => simp [next c rfl]

/-- The characters before `stop` are converted. -/
theorem scan_before (clear : stop ∉ word) (nonempty : word ≠ [])
    (next : ∀ c ∈ rest.head?, c = stop) :
    scan isSpace (.before stop :: format) (word ++ rest) = word :: scan isSpace format rest := by
  obtain ⟨taken, left⟩ := takeWhile_before clear next
  simp only [scan, taken, left, if_neg nonempty]

/-- Nothing is converted in front of `stop`. -/
theorem scan_before_stop (next : ∀ c ∈ text.head?, c = stop) :
    scan isSpace (.before stop :: format) text = [] := by
  have taken : text.takeWhile (fun c => c ≠ stop) = [] := by
    cases text with
    | nil => rfl
    | cons c rest => simp [next c rfl]
  simp only [scan, taken, if_true]

@[simp] theorem scan_literal :
    scan isSpace (.literal c :: format) (c :: rest) = scan isSpace format rest := by
  simp [scan]

theorem scan_literal_ne (other : text.head? ≠ some c) :
    scan isSpace (.literal c :: format) text = [] := by
  simp [scan, other]

/-- A word conversion of a text without white space converts all of it. -/
theorem scan_word_all (clear : ∀ c ∈ word, isSpace c = false) (nonempty : word ≠ []) :
    scan isSpace [.word] word = [word] := by
  have start : word.dropWhile isSpace = word := by
    cases word with
    | nil => rfl
    | cons c rest => simp [clear c List.mem_cons_self]
  have all : word.takeWhile (fun c => !isSpace c) = word :=
    List.takeWhile_eq_self_iff.mpr fun c member => by simp [clear c member]
  simp only [scan, start, all, if_neg nonempty]

/-- A word conversion converts the first word. -/
theorem scan_word (isSpace : α → Bool) (format : List (Directive α)) (text : List α) :
    scan isSpace (.word :: format) text = [] ∧ words isSpace text = [] ∨
    ∃ word rest, scan isSpace (.word :: format) text = word :: scan isSpace format rest ∧
      words isSpace text = word :: words isSpace rest := by
  rw [← words_dropWhile, scan]
  generalize split : text.dropWhile isSpace = block
  by_cases none : block.takeWhile (fun c => !isSpace c) = []
  · left
    refine ⟨if_pos none, ?_⟩
    cases block with
    | nil => rfl
    | cons c block =>
        have stopped := List.head?_dropWhile_not isSpace text
        rw [split] at stopped
        have block : isSpace c = false := by simpa using stopped
        simp [block] at none
  · right
    refine ⟨_, _, if_neg none, ?_⟩
    have clear : ∀ c ∈ block.takeWhile (fun c => !isSpace c), isSpace c = false := fun c member =>
      by simpa using List.mem_takeWhile_imp member
    conv_lhs => rw [← List.takeWhile_append_dropWhile (p := fun c => !isSpace c) (l := block)]
    exact words_block clear none (dropWhile_not_space isSpace block)

/-- White space in front of a word conversion changes nothing. -/
theorem scan_space_word :
    scan isSpace (.space :: .word :: format) text = scan isSpace (.word :: format) text := by
  have twice : (text.dropWhile isSpace).dropWhile isSpace = text.dropWhile isSpace := by
    rw [List.dropWhile_idempotent]
  simp only [scan, twice]

/-- `n + 1` word conversions, separated by white space. -/
def wordFormat : Nat → List (Directive α)
  | 0 => [.word]
  | n + 1 => .word :: .space :: wordFormat n

/-- They convert the first words. -/
theorem scan_wordFormat (n : Nat) :
    scan isSpace (wordFormat n) text = (words isSpace text).take (n + 1) := by
  induction n generalizing text with
  | zero =>
      rcases scan_word isSpace [] text with ⟨none, noWords⟩ | ⟨word, rest, first, split⟩
      · rw [wordFormat, none, noWords]
        rfl
      · rw [wordFormat, first, split]
        rfl
  | succ n ih =>
      have skip : ∀ rest : List α, scan isSpace (.space :: wordFormat n) rest =
          scan isSpace (wordFormat n) rest := fun rest => by
        cases n <;> exact scan_space_word
      rcases scan_word isSpace (.space :: wordFormat n) text with
        ⟨none, noWords⟩ | ⟨word, rest, first, split⟩
      · rw [wordFormat, none, noWords]
        rfl
      · rw [wordFormat, first, split, skip, ih]
        rfl

end Scan

/-! ## Marks -/

section Marks

variable {α : Type} {mark c : α} {front front' rest rest' text pattern : List α}

/-- The first mark divides a text in one way. -/
theorem append_mark_inj (clear : mark ∉ front) (clear' : mark ∉ front')
    (same : front ++ mark :: rest = front' ++ mark :: rest') : front = front' ∧ rest = rest' := by
  rcases List.append_eq_append_iff.mp same with ⟨more, eq, tail⟩ | ⟨more, eq, tail⟩
  all_goals cases more with
    | nil =>
        rw [List.append_nil] at eq
        exact ⟨eq.symm ▸ rfl, by simpa [eq_comm] using tail⟩
    | cons d more =>
        have isMark : mark = d := (List.cons.inj tail).1
        simp [eq, isMark] at clear clear'

/-- A text that ends with its only mark. -/
def MarkedOnce (mark : α) (line : List α) : Prop := ∃ front, mark ∉ front ∧ line = front ++ [mark]

/-- Lines can be told apart after they have been joined. -/
theorem flatten_lines_inj {lines lines' : List (List α)}
    (marked : ∀ line ∈ lines, MarkedOnce mark line)
    (marked' : ∀ line ∈ lines', MarkedOnce mark line)
    (same : lines.flatten = lines'.flatten) : lines = lines' := by
  induction lines generalizing lines' with
  | nil =>
      cases lines' with
      | nil => rfl
      | cons line' lines' =>
          obtain ⟨front, -, rfl⟩ := marked' line' List.mem_cons_self
          simp at same
  | cons line lines ih =>
      obtain ⟨front, clear, rfl⟩ := marked line List.mem_cons_self
      cases lines' with
      | nil => simp at same
      | cons line' lines' =>
          obtain ⟨front', clear', rfl⟩ := marked' line' List.mem_cons_self
          simp only [List.flatten_cons, List.append_assoc, List.singleton_append] at same
          obtain ⟨rfl, tails⟩ := append_mark_inj clear clear' same
          rw [ih (fun line member => marked line (List.mem_cons_of_mem _ member))
            (fun line member => marked' line (List.mem_cons_of_mem _ member)) tails]

/-- A pattern with its only mark at the end occurs around the first mark of a
text, or behind it. -/
theorem infix_mark (clear : mark ∉ front) (clearPattern : mark ∉ pattern) :
    pattern ++ [mark] <:+: front ++ mark :: rest ↔
      pattern <:+ front ∨ pattern ++ [mark] <:+: rest := by
  constructor
  · rintro ⟨before, behind, eq⟩
    rcases List.append_eq_append_iff.mp
      (show before ++ (pattern ++ mark :: behind) = front ++ mark :: rest by simpa using eq) with
      ⟨more, here, tail⟩ | ⟨more, here, tail⟩
    · left
      have clearMore : mark ∉ more := fun member => clear (here ▸ List.mem_append_right _ member)
      obtain ⟨rfl, -⟩ := append_mark_inj clearPattern clearMore tail
      exact ⟨before, here.symm⟩
    · cases more with
      | nil =>
          left
          rw [List.nil_append] at tail
          obtain ⟨rfl, -⟩ := append_mark_inj clearPattern (List.not_mem_nil) tail.symm
          exact List.nil_suffix
      | cons d more =>
          right
          rw [(List.cons.inj tail).2]
          exact ⟨more, behind, by simp⟩
  · rintro (⟨before, rfl⟩ | inside)
    · exact ⟨before, rest, by simp⟩
    · exact List.infix_append_of_infix_right (List.infix_cons inside)

/-- A character that the pattern does not start with can be left out. -/
theorem infix_cons_ne (other : pattern.head? ≠ some c) (nonempty : pattern ≠ []) :
    pattern <:+: c :: text ↔ pattern <:+: text := by
  rw [List.infix_cons_iff]
  refine or_iff_right ?_
  rintro ⟨behind, eq⟩
  cases pattern with
  | nil => exact nonempty rfl
  | cons d pattern => exact other (congrArg some (List.cons.inj eq).1)

/-- A character that the pattern does not end with can be left out. -/
theorem infix_concat_ne (other : mark ≠ c) :
    pattern ++ [mark] <:+: text ++ [c] ↔ pattern ++ [mark] <:+: text := by
  rw [List.infix_concat_iff]
  refine or_iff_right ?_
  rintro ⟨before, eq⟩
  rw [← List.append_assoc] at eq
  exact other (List.head_eq_of_cons_eq (List.append_inj_right' eq rfl))

/-- Two filters with the same result accept the same members. -/
theorem filter_eq_filter_iff {p q : α → Bool} {l : List α} :
    l.filter p = l.filter q ↔ ∀ a ∈ l, p a = q a := by
  constructor
  · intro same a member
    have accepted : ∀ r : α → Bool, a ∈ l.filter r ↔ r a = true := fun r => by
      simp [member]
    rw [Bool.eq_iff_iff, ← accepted p, ← accepted q, same]
  · exact List.filter_congr

end Marks

end SysProg.Logic

import Mathlib.Data.List.Basic
import Mathlib.Tactic.ByContra

/-!
# Words with quotes

A text is read one character at a time: a bare word ends at a space, a quoted
word at the next quote.  A word that does not end is dropped.  Words written
with spaces between them are read back.
-/

namespace SysProg.Logic

/-- What the reader is inside of, with the part of the word read so far. -/
inductive Reading (α : Type) where
  | between
  | bare (word : List α)
  | quoted (word : List α)

section Quoting

variable {α : Type} [DecidableEq α] (space quote : α)

/-- The words of a text. -/
def quotedWords : Reading α → List α → List (List α)
  | _, [] => []
  | .between, c :: rest =>
      if c = space then quotedWords .between rest
      else if c = quote then quotedWords (.quoted []) rest
      else quotedWords (.bare [c]) rest
  | .bare word, c :: rest =>
      if c = space then word :: quotedWords .between rest
      else quotedWords (.bare (word ++ [c])) rest
  | .quoted word, c :: rest =>
      if c = quote then word :: quotedWords .between rest
      else quotedWords (.quoted (word ++ [c])) rest

attribute [grind =] quotedWords

variable {space quote} {word text front rest : List α}

/-! ## Reading -/

@[simp] theorem quotedWords_nil (reading : Reading α) : quotedWords space quote reading [] = [] := by
  cases reading <;> rfl

@[simp] theorem quotedWords_space :
    quotedWords space quote .between (space :: rest) = quotedWords space quote .between rest := by
  rw [quotedWords, if_pos rfl]

/-- Spaces before a word do not count. -/
theorem quotedWords_spaces (spaces : ∀ d ∈ front, d = space) :
    quotedWords space quote .between (front ++ rest) = quotedWords space quote .between rest := by
  induction front with
  | nil => rfl
  | cons d front ih =>
      rw [List.cons_append, quotedWords, if_pos (spaces d List.mem_cons_self)]
      exact ih fun e member => spaces e (List.mem_cons_of_mem _ member)

theorem quotedWords_bare (clear : space ∉ text) :
    quotedWords space quote (.bare word) (text ++ rest) =
      quotedWords space quote (.bare (word ++ text)) rest := by
  induction text generalizing word with
  | nil => rw [List.nil_append, List.append_nil]
  | cons d text ih =>
      have other : d ≠ space := fun same => clear (same ▸ List.mem_cons_self)
      rw [List.cons_append, quotedWords, if_neg other,
        ih fun member => clear (List.mem_cons_of_mem _ member), List.append_assoc,
        List.singleton_append]

theorem quotedWords_quoted (clear : quote ∉ text) :
    quotedWords space quote (.quoted word) (text ++ rest) =
      quotedWords space quote (.quoted (word ++ text)) rest := by
  induction text generalizing word with
  | nil => rw [List.nil_append, List.append_nil]
  | cons d text ih =>
      have other : d ≠ quote := fun same => clear (same ▸ List.mem_cons_self)
      rw [List.cons_append, quotedWords, if_neg other,
        ih fun member => clear (List.mem_cons_of_mem _ member), List.append_assoc,
        List.singleton_append]

/-! ## The next word -/

/-- A block that may start a bare word: it does not begin with a quote. -/
def Unquoted (quote : α) (text : List α) : Prop := ∀ d ∈ text.head?, d ≠ quote

/-- A bare word up to the next space. -/
theorem quotedWords_cons_bare (nonempty : text ≠ []) (unquoted : Unquoted quote text)
    (clear : space ∉ text) : quotedWords space quote .between (text ++ space :: rest) =
      text :: quotedWords space quote .between rest := by
  cases text with
  | nil => exact absurd rfl nonempty
  | cons d text =>
      have notQuote : d ≠ quote := unquoted d rfl
      have notSpace : d ≠ space := fun same => clear (same ▸ List.mem_cons_self)
      rw [List.cons_append, quotedWords, if_neg notSpace, if_neg notQuote,
        quotedWords_bare fun member => clear (List.mem_cons_of_mem _ member),
        List.singleton_append, quotedWords, if_pos rfl]

/-- A quoted word up to the next quote. -/
theorem quotedWords_cons_quoted (differ : quote ≠ space) (clear : quote ∉ text) :
    quotedWords space quote .between (quote :: (text ++ quote :: rest)) =
      text :: quotedWords space quote .between rest := by
  rw [quotedWords, if_neg differ, if_pos rfl, quotedWords_quoted clear, List.nil_append,
    quotedWords, if_pos rfl]

/-- A bare word that does not end. -/
theorem quotedWords_open_bare (unquoted : Unquoted quote text) (clear : space ∉ text) :
    quotedWords space quote .between text = [] := by
  cases text with
  | nil => rfl
  | cons d text =>
      have notQuote : d ≠ quote := unquoted d rfl
      have notSpace : d ≠ space := fun same => clear (same ▸ List.mem_cons_self)
      have block : quotedWords space quote (.bare [d]) (text ++ []) =
          quotedWords space quote (.bare ([d] ++ text)) [] :=
        quotedWords_bare fun member => clear (List.mem_cons_of_mem d member)
      rw [quotedWords, if_neg notSpace, if_neg notQuote]
      rw [List.append_nil, quotedWords_nil] at block
      exact block

/-- A quoted word that does not end. -/
theorem quotedWords_open_quoted (differ : quote ≠ space) (clear : quote ∉ text) :
    quotedWords space quote .between (quote :: text) = [] := by
  have block : quotedWords space quote (.quoted []) (text ++ []) =
      quotedWords space quote (.quoted ([] ++ text)) [] := quotedWords_quoted clear
  rw [quotedWords, if_neg differ, if_pos rfl]
  rw [List.append_nil, quotedWords_nil] at block
  exact block

/-- How a text behind the spaces goes on: with a word or with one that does not
end. -/
inductive Next (space quote : α) : List α → Prop where
  | bare (text rest : List α) (nonempty : text ≠ []) (unquoted : Unquoted quote text)
      (clear : space ∉ text) : Next space quote (text ++ space :: rest)
  | quoted (text rest : List α) (clear : quote ∉ text) :
      Next space quote (quote :: (text ++ quote :: rest))
  | openBare (text : List α) (unquoted : Unquoted quote text) (clear : space ∉ text) :
      Next space quote text
  | openQuoted (text : List α) (clear : quote ∉ text) : Next space quote (quote :: text)

theorem next_of_head (text : List α) (start : ∀ d ∈ text.head?, d ≠ space) :
    Next space quote text := by
  by_cases opened : text.head? = some quote
  · obtain ⟨text, rfl⟩ : ∃ rest, text = quote :: rest := List.head?_eq_some_iff.mp opened
    by_cases closed : quote ∈ text
    · obtain ⟨word, rest, rfl, clear⟩ := List.eq_append_cons_of_mem closed
      exact .quoted word rest clear
    · exact .openQuoted text closed
  · have unquoted : Unquoted quote text := fun d first same => opened (same ▸ first)
    by_cases ended : space ∈ text
    · obtain ⟨word, rest, rfl, clear⟩ := List.eq_append_cons_of_mem ended
      cases word with
      | nil => exact absurd rfl (start space rfl)
      | cons d word => exact .bare (d :: word) rest (List.cons_ne_nil d word) unquoted clear
    · exact .openBare text unquoted ended

/-- Behind the spaces a text goes on. -/
theorem exists_next (text : List α) : ∃ front rest, text = front ++ rest ∧
    (∀ d ∈ front, d = space) ∧ (∀ d ∈ rest.head?, d ≠ space) ∧ Next space quote rest := by
  induction text with
  | nil => exact ⟨[], [], rfl, (fun _ member => nomatch member), (fun _ first => nomatch first),
      .openBare [] (fun _ first => nomatch first) List.not_mem_nil⟩
  | cons d text ih =>
      by_cases isSpace : d = space
      · obtain ⟨front, rest, rfl, spaces, start, next⟩ := ih
        exact ⟨d :: front, rest, rfl, List.forall_mem_cons.mpr ⟨isSpace, spaces⟩, start, next⟩
      · have start : ∀ e ∈ (d :: text).head?, e ≠ space := by
          intro e first
          obtain rfl := Option.some.inj first
          exact isSpace
        exact ⟨[], d :: text, rfl, (fun _ member => nomatch member), start, next_of_head _ start⟩

end Quoting

/-! ## Written words -/

/-- A word of a line. -/
inductive Word (α : Type) where
  | bare (text : List α)
  | quoted (text : List α)

namespace Word

variable {α : Type}

def text : Word α → List α
  | bare text => text
  | quoted text => text

/-- The word as it is written. -/
def written (quote : α) : Word α → List α
  | bare text => text
  | quoted text => quote :: (text ++ [quote])

/-- The word is read back. -/
def Readable (space quote : α) : Word α → Prop
  | bare text => text ≠ [] ∧ Unquoted quote text ∧ space ∉ text
  | quoted text => quote ∉ text

/-- Words, each with the number of spaces behind it. -/
def line (space quote : α) (items : List (Word α × Nat)) : List α :=
  items.flatMap fun item => item.1.written quote ++ List.replicate item.2 space

end Word

section Lines

variable {α : Type} [DecidableEq α] {space quote : α} {items : List (Word α × Nat)}
  {word : Word α} {rest : List α}

theorem Word.Readable.cons (readable : word.Readable space quote) (differ : quote ≠ space) :
    quotedWords space quote .between (word.written quote ++ space :: rest) =
      word.text :: quotedWords space quote .between rest := by
  cases word with
  | bare text => exact quotedWords_cons_bare readable.1 readable.2.1 readable.2.2
  | quoted text =>
      rw [Word.written, List.cons_append, List.append_assoc, List.singleton_append,
        quotedWords_cons_quoted differ readable, Word.text]
      rw [quotedWords_space]

/-- The words of a line are read back, whatever the number of spaces behind the
last one. -/
theorem quotedWords_line (differ : quote ≠ space) (readable : ∀ item ∈ items,
      item.1.Readable space quote) (spaced : ∀ item ∈ items.dropLast, 1 ≤ item.2) :
    quotedWords space quote .between (Word.line space quote items ++ [space]) =
      items.map fun item => item.1.text := by
  induction items with
  | nil => exact quotedWords_space
  | cons item items ih =>
      have behind : ∃ tail, List.replicate item.2 space ++ (Word.line space quote items ++ [space]) =
          space :: tail ∧
            quotedWords space quote .between tail = items.map fun item => item.1.text := by
        cases gap : item.2 with
        | zero =>
            cases items with
            | nil => exact ⟨[], rfl, rfl⟩
            | cons next items =>
                have one := spaced item List.mem_cons_self
                omega
        | succ more =>
            refine ⟨List.replicate more space ++ (Word.line space quote items ++ [space]), rfl, ?_⟩
            rw [quotedWords_spaces fun d member => List.eq_of_mem_replicate member]
            refine ih (fun x member => readable x (List.mem_cons_of_mem _ member)) ?_
            intro x member
            cases items with
            | nil => cases member
            | cons next items => exact spaced x (List.mem_cons_of_mem _ member)
      obtain ⟨tail, spaces, words⟩ := behind
      have split : Word.line space quote (item :: items) ++ [space] =
          item.1.written quote ++ space :: tail := by
        rw [← spaces]
        simp [Word.line]
      rw [split, (readable item List.mem_cons_self).cons differ, words, List.map_cons]

end Lines

end SysProg.Logic

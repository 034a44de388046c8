import SysProg.Logic.Lines
import SysProg.Shell.CommandLine
import SysProg.Shell.Dispatch

/-!
# The read/eval loop

`main` of `tsh.c` reads its input with `fgets` and hands each line to `eval`, which hands its
words to `builtin_cmd`.  A script of blank lines and written command lines is taken line by
line, each with the written words, up to `quit`.  What stands behind the last line end is
dropped, since the end of the file is seen with it.
-/

namespace SysProg.Shell

open Logic

/-! ## The program -/

/-- What `eval` makes of a line: nothing, the end of the shell, `listjobs`, `do_bgfg` with its
arguments, or a job with its arguments and the value of `bg`. -/
inductive Turn where
  | ignored
  | quits
  | lists
  | resumes (argv : List (List UInt8))
  | runs (bg : Int) (argv : List (List UInt8))

/-- The string at an address of the copy. -/
def stringAt (array : Vector UInt8 MAXLINE) (p : Nat) : List UInt8 :=
  beforeNul (array.toList.drop p)

/-- The strings in `argv`, up to the null pointer. -/
def arguments (s : Parse) : List (List UInt8) :=
  ((s.argv.toList.takeWhile Option.isSome).filterMap id).map (stringAt s.array)

theorem nul_notMem_beforeNul (bytes : List UInt8) : 0 ∉ beforeNul bytes := by
  intro nul
  unfold beforeNul at nul
  have kept := List.all_eq_true.mp List.all_takeWhile 0 nul
  exact of_decide_eq_true kept rfl

/-- The bytes as the library reads a string. -/
def cString (bytes : List UInt8) : CString := ⟨beforeNul bytes, nul_notMem_beforeNul bytes⟩

/-- `eval` behind `parseline`, up to what it or `builtin_cmd` calls for the line. -/
def takeTurn (strcmp : Strcmp) : Int × List (List UInt8) → Turn
  | (_, []) => .ignored
  | (bg, name :: rest) =>
      match builtinCmd strcmp (cString name) with
      | .exit => .quits
      | .listjobs => .lists
      | .doBgfg => .resumes (name :: rest)
      | .ignored => .ignored
      | .none => .runs bg (name :: rest)

/-- `eval` up to there. -/
def evalLine (strcmp : Strcmp) (cmdline : List UInt8) (s : Parse) : Option (Turn × Parse) := do
  let (bg, s) ← parseline (MAXARGS + 1) (beforeNul cmdline) s
  pure (takeTurn strcmp (bg, arguments s), s)

/-- What the loop of `main` does for its lines, cut off after `fuel` rounds. -/
def readEval (strcmp : Strcmp) : Nat → List UInt8 → Parse → Option (List Turn)
  | 0, _, _ => none
  | fuel + 1, stdin, s =>
      let got := fgets MAXLINE stdin
      if got.eof then some []
      else do
        let (turn, s) ← evalLine strcmp got.line s
        match turn with
        | .quits => pure [.quits]
        | turn => do
            let later ← readEval strcmp fuel got.rest s
            pure (turn :: later)

/-- `main` behind the command line; every round but the last takes a character. -/
def main (strcmp : Strcmp) (stdin : List UInt8) (s : Parse) : Option (List Turn) :=
  readEval strcmp (stdin.length + 1) stdin s

/-! ## Scripts -/

/-- A line of a script: spaces only, or a command line. -/
inductive Item where
  | blank (spaces : Nat)
  | command (c : CommandLine)

namespace Item

/-- The line without its end. -/
def body : Item → List UInt8
  | blank spaces => List.replicate spaces space
  | command c => List.replicate c.lead space ++ Word.line space quote c.items

def Fits : Item → Prop
  | blank spaces => spaces < MAXLINE - 1
  | command c => WellFormed c

/-- The written words, without a final `&`, and whether there is one. -/
def words : Item → Int × List (List UInt8)
  | blank _ => (0, [])
  | command c => (if c.background.isSome then 1 else 0, c.texts)

/-- `builtin_cmd` tells the first word from `bg` and `fg`. -/
def Dispatched (strcmp : Strcmp) (item : Item) : Prop :=
  ∀ name ∈ item.words.2.head?, Named (cString name) ∨
    strcmp (cString name) bgName &&& strcmp (cString name) fgName ≠ 0#32

end Item

/-- What words are meant to do, by the first of them. -/
def meaning : Int × List (List UInt8) → Turn
  | (_, []) => .ignored
  | (bg, name :: rest) =>
      if name = quitName.val then .quits
      else if name = jobsName.val then .lists
      else if name = bgName.val ∨ name = fgName.val then .resumes (name :: rest)
      else if name = ampersandName.val then .ignored
      else .runs bg (name :: rest)

/-- The turns up to the end of the shell. -/
def perform : List Turn → List Turn
  | [] => []
  | .quits :: _ => [.quits]
  | turn :: rest => turn :: perform rest

/-! ## The first word -/

section Words

variable {strcmp : Strcmp} {name : List UInt8} {bg : Int} {rest : List (List UInt8)}

theorem cString_eq_iff (clear : 0 ∉ name) (t : CString) : cString name = t ↔ name = t.val := by
  have whole : (cString name).val = name := beforeNul_of_clear clear
  rw [Subtype.ext_iff, whole]

/-- A word that `builtin_cmd` tells from `bg` and `fg` does what it names. -/
theorem takeTurn_meaning (conforming : Conforming strcmp) (clear : 0 ∉ name)
    (told : Named (cString name) ∨
      strcmp (cString name) bgName &&& strcmp (cString name) fgName ≠ 0#32) :
    takeTurn strcmp (bg, name :: rest) = meaning (bg, name :: rest) := by
  obtain ⟨bgfg, jobs, quit, -⟩ := conforming.dispatches_iff.mpr told
  have other : builtinCmd strcmp (cString name) = .none ↔ _ := conforming.none_iff
  simp only [ne_eq, cString_eq_iff clear] at bgfg jobs quit other
  unfold takeTurn meaning
  dsimp only
  by_cases isQuit : name = quitName.val
  · rw [quit.mpr isQuit, if_pos isQuit]
  rw [if_neg isQuit]
  by_cases isJobs : name = jobsName.val
  · rw [jobs.mpr isJobs, if_pos isJobs]
  rw [if_neg isJobs]
  by_cases resumes : name = bgName.val ∨ name = fgName.val
  · rw [bgfg.mpr resumes, if_pos resumes]
  rw [if_neg resumes]
  by_cases isAmpersand : name = ampersandName.val
  · rw [if_pos isAmpersand]
    cases dispatched : builtinCmd strcmp (cString name) with
    | exit => exact absurd (quit.mp dispatched) isQuit
    | listjobs => exact absurd (jobs.mp dispatched) isJobs
    | doBgfg => exact absurd (bgfg.mp dispatched) resumes
    | ignored => rfl
    | none => exact absurd isAmpersand (other.mp dispatched).2.2.2
  · have none : builtinCmd strcmp (cString name) = .none :=
      other.mpr ⟨quit.not.mpr isQuit, jobs.not.mpr isJobs, bgfg.not.mpr resumes, isAmpersand⟩
    rw [none, if_neg isAmpersand]

end Words

/-! ## One line -/

section Line

variable {s : Parse} {words : List (List UInt8)} {body : List UInt8}

theorem beforeNul_eq {bytes text : List UInt8} (clear : 0 ∉ text)
    (same : ∀ i ≤ text.length, bytes[i]? = some (text.getD i 0)) : beforeNul bytes = text := by
  induction text generalizing bytes with
  | nil =>
      have stop := same 0 (Nat.le_refl _)
      cases bytes with
      | nil => cases stop
      | cons c bytes =>
          obtain rfl : c = 0 := Option.some.inj stop
          exact List.takeWhile_cons_of_neg (by decide)
  | cons d text ih =>
      have first := same 0 (Nat.zero_le _)
      cases bytes with
      | nil => cases first
      | cons c bytes =>
          obtain rfl : c = d := Option.some.inj first
          have inner : c ≠ 0 := fun nul => clear (nul ▸ List.mem_cons_self)
          have later : beforeNul bytes = text := by
            apply ih fun member => clear (List.mem_cons_of_mem _ member)
            intro i below
            exact same (i + 1) (Nat.succ_le_succ below)
          rw [← later]
          exact List.takeWhile_cons_of_pos (by simp [inner])

theorem stringAt_eq {array : Vector UInt8 MAXLINE} {p : Nat} {text : List UInt8}
    (string : StringAt array p text) : stringAt array p = text := by
  apply beforeNul_eq string.clear
  intro i below
  rw [List.getElem?_drop, Vector.getElem?_toList]
  exact string.bytes i below

/-- Pointers to some words, and a null pointer behind them. -/
theorem pointed_eq {pointers : List (Option Nat)} {f : Nat → List UInt8}
    (points : ∀ (i : Nat) (word : List UInt8), words[i]? = some word →
      ∃ p, pointers[i]? = some (some p) ∧ f p = word)
    (ended : pointers[words.length]? = some none) :
    ((pointers.takeWhile Option.isSome).filterMap id).map f = words := by
  induction words generalizing pointers with
  | nil =>
      cases pointers with
      | nil => rfl
      | cons pointer pointers =>
          obtain rfl : pointer = none := Option.some.inj ended
          rfl
  | cons word words ih =>
      obtain ⟨p, first, rfl⟩ := points 0 word rfl
      cases pointers with
      | nil => cases first
      | cons pointer pointers =>
          obtain rfl : pointer = some p := Option.some.inj first
          have later := ih (fun i word entry => points (i + 1) word entry) ended
          rw [List.takeWhile_cons_of_pos rfl]
          exact congrArg (f p :: ·) later

/-- The arguments that `parseline` stores are read back. -/
theorem Argv.arguments_eq (args : Argv s words) : arguments s = words := by
  apply pointed_eq
  · intro i word entry
    obtain ⟨p, pointer, string, -⟩ := args.1 i word entry
    exact ⟨p, (Vector.getElem?_toList ..).trans pointer, stringAt_eq string⟩
  · exact (Vector.getElem?_toList ..).trans args.2

/-- `eval` takes a line that fits by its words. -/
theorem evalLine_run (strcmp : Strcmp) (clear : 0 ∉ body) (short : body.length + 1 < MAXLINE)
    (room : (lineWords (body ++ [newline])).length < MAXARGS) (s : Parse) :
    ∃ s', evalLine strcmp (body ++ [newline]) s =
      some (takeTurn strcmp (outcome (lineWords (body ++ [newline]))), s') := by
  have whole : 0 ∉ body ++ [newline] := by
    rw [List.mem_append, not_or]
    exact ⟨clear, by decide⟩
  have copied : beforeNul (body ++ [newline]) = body ++ [newline] := beforeNul_of_clear whole
  obtain ⟨s', parsed, args⟩ := parseline_eq (List.concat_ne_nil _ _) whole
    (by rw [List.length_append]; exact short) room (Nat.lt_succ_self _) s
  refine ⟨s', ?_⟩
  rw [evalLine, copied, parsed]
  simp only [Option.bind_eq_bind, Option.bind_some, args.arguments_eq]
  rfl

end Line

/-! ## The loop -/

section Loop

variable {strcmp : Strcmp} {rest : List UInt8} {fuel : Nat}

/-- A text of lines that fit, and the rest behind the last line end. -/
def inLines (bodies : List (List UInt8)) (rest : List UInt8) : List UInt8 :=
  bodies.flatMap (fun body => body ++ [newline]) ++ rest

/-- The loop does what its lines say, and drops the rest. -/
theorem readEval_lines {bodies : List (List UInt8)}
    (fits : ∀ body ∈ bodies, newline ∉ body ∧ 0 ∉ body ∧ body.length + 1 < MAXLINE ∧
      (lineWords (body ++ [newline])).length < MAXARGS)
    (inner : newline ∉ rest) (short : rest.length + 1 < MAXLINE) (enough : bodies.length < fuel)
    (s : Parse) :
    readEval strcmp fuel (inLines bodies rest) s = some (perform
      (bodies.map fun body => takeTurn strcmp (outcome (lineWords (body ++ [newline]))))) := by
  induction bodies generalizing fuel s with
  | nil =>
      obtain ⟨fuel, rfl⟩ := Nat.exists_eq_add_one_of_ne_zero (Nat.ne_zero_of_lt enough)
      have last : fgets MAXLINE (inLines [] rest) = ⟨rest, [], true⟩ := fgets_last inner short
      rw [readEval, last]
      rfl
  | cons body bodies ih =>
      rw [List.length_cons] at enough
      obtain ⟨fuel, rfl⟩ := Nat.exists_eq_add_one_of_ne_zero (Nat.ne_zero_of_lt enough)
      obtain ⟨⟨noEnd, clear, narrow, room⟩, others⟩ := List.forall_mem_cons.mp fits
      have text : inLines (body :: bodies) rest = body ++ 10 :: inLines bodies rest := by
        simp only [inLines, List.flatMap_cons, List.append_assoc]
        rfl
      obtain ⟨s', turn⟩ := evalLine_run strcmp clear narrow room s
      have later := ih others (by omega : bodies.length < fuel) s'
      have kept (turn : Turn) : ((readEval strcmp fuel (inLines bodies rest) s').bind
          fun later => some (turn :: later)) = some (turn :: perform (bodies.map fun body =>
            takeTurn strcmp (outcome (lineWords (body ++ [newline]))))) := by
        rw [later]
        rfl
      rw [readEval, text, fgets_line noEnd narrow]
      simp only [Bool.false_eq_true, if_false]
      change (evalLine strcmp (body ++ [newline]) s).bind _ = _
      rw [turn, List.map_cons, Option.bind_some]
      dsimp only
      cases takeTurn strcmp (outcome (lineWords (body ++ [newline]))) with
      | quits => rfl
      | ignored => exact kept .ignored
      | lists => exact kept .lists
      | resumes argv => exact kept (.resumes argv)
      | runs bg argv => exact kept (.runs bg argv)

end Loop

/-! ## Scripts are carried out -/

section Scripts

variable {strcmp : Strcmp} {c : CommandLine} {word : Word UInt8}

theorem written_absent {d : UInt8} (other : d ≠ quote) (absent : d ∉ word.text) :
    d ∉ word.written quote := by
  cases word with
  | bare text => exact absent
  | quoted text => simpa [Word.written, Word.text, other] using absent

/-- A command line has its end behind it and nowhere else. -/
theorem WellFormed.one_line (wf : WellFormed c) : newline ∉ (Item.command c).body := by
  have spaces (n : Nat) : newline ∉ List.replicate n space :=
    fun member => absurd (List.eq_of_mem_replicate member) (by decide)
  unfold Item.body Word.line
  rw [List.mem_append, List.mem_flatMap]
  rintro (lead | ⟨item, member, inside⟩)
  · exact spaces _ lead
  rcases List.mem_append.mp inside with written | gap
  · refine written_absent (by decide) ?_ written
    rcases items_eq c with same | ⟨behind, -, extended⟩
    · rw [same] at member
      exact (wf.typed item member).newline
    · rw [extended, List.mem_append, List.mem_singleton] at member
      rcases member with typed | rfl
      · exact (wf.typed item typed).newline
      · exact (by decide : newline ∉ [ampersand])
  · exact spaces _ gap

theorem WellFormed.room (wf : WellFormed c) : (lineWords c.line).length < MAXARGS := by
  have count := wf.count
  rw [wf.lineWords_eq, List.length_map]
  unfold MAXARGS
  rcases items_eq c with same | ⟨gap, -, extended⟩
  · rw [same]
    omega
  · rw [extended, List.length_append, List.length_singleton]
    omega

/-- Spaces are no words. -/
theorem lineWords_blank (spaces : Nat) :
    lineWords (List.replicate spaces space ++ [newline]) = [] := by
  rw [lineWords, List.dropLast_concat, textWords,
    quotedWords_spaces fun d member => List.eq_of_mem_replicate member]
  rfl

/-- A line of a script fits the buffers and is split into its words. -/
theorem Item.Fits.line {item : Item} (fits : item.Fits) :
    (newline ∉ item.body ∧ 0 ∉ item.body ∧ item.body.length + 1 < MAXLINE ∧
      (lineWords (item.body ++ [newline])).length < MAXARGS) ∧
    takeTurn strcmp (outcome (lineWords (item.body ++ [newline]))) =
      takeTurn strcmp item.words := by
  cases item with
  | blank spaces =>
      have only (d : UInt8) (other : d ≠ space) : d ∉ List.replicate spaces space :=
        fun member => other (List.eq_of_mem_replicate member)
      change spaces < MAXLINE - 1 at fits
      simp only [Item.body, lineWords_blank]
      refine ⟨⟨only _ (by decide), only _ (by decide), ?_, by decide⟩, rfl⟩
      rw [List.length_replicate]
      omega
  | command c =>
      have whole : (Item.command c).body ++ [newline] = c.line := rfl
      have short := fits.short
      rw [← whole, List.length_append, List.length_singleton] at short
      refine ⟨⟨fits.one_line, ?_, ?_, whole ▸ fits.room⟩, ?_⟩
      · intro member
        exact fits.clear (whole ▸ List.mem_append_left _ member)
      · unfold MAXLINE at short ⊢
        omega
      · rw [whole, fits.outcome_eq]
        rfl

/-- A line whose first word `builtin_cmd` tells from `bg` and `fg` does what it names. -/
theorem Item.Fits.meaning {item : Item} (fits : item.Fits) (conforming : Conforming strcmp)
    (dispatched : item.Dispatched strcmp) :
    takeTurn strcmp item.words = Shell.meaning item.words := by
  cases item with
  | blank spaces => rfl
  | command c =>
      have clear : ∀ name ∈ c.texts, 0 ∉ name := by
        intro name member
        obtain ⟨word, written, rfl⟩ := List.mem_map.mp member
        exact (fits.typed word written).nul
      change takeTurn strcmp (_, c.texts) = Shell.meaning (_, c.texts)
      change ∀ name ∈ c.texts.head?, _ at dispatched
      cases texts : c.texts with
      | nil => rfl
      | cons name rest =>
          rw [texts] at clear dispatched
          exact takeTurn_meaning conforming (clear name List.mem_cons_self) (dispatched name rfl)

/-- A blank line, a command, and `quit` without a line end. -/
def shortScript : List Item := [.blank 3, .command quotedLine]

theorem shortScript_dispatched : ∀ item ∈ shortScript, item.Dispatched differenceStrcmp := by
  have echo : (Item.command quotedLine).Dispatched differenceStrcmp := by
    intro name first
    obtain rfl := Option.some.inj first
    exact .inr (by decide)
  exact List.forall_mem_cons.mpr ⟨nofun, List.forall_mem_singleton.mpr echo⟩

end Scripts

end SysProg.Shell

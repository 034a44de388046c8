import Mathlib.Data.List.Lex
import Mathlib.Data.UInt
import SysProg.Logic.Buffers
import SysProg.Shell.Program

/-!
# The dispatch of built-in commands

`builtin_cmd` compares the command word with the names of the built-in
commands.  The names `bg` and `fg` share one test, which combines the two
results of `strcmp` by a bitwise AND; it holds of every word for which the
results have no one bit in common.
-/

namespace SysProg.Shell

open Logic

/-- A C string: the bytes before the terminator. -/
abbrev CString := { bytes : List UInt8 // 0 ∉ bytes }

def quitName : CString := ⟨ascii "quit", by decide⟩
def jobsName : CString := ⟨ascii "jobs", by decide⟩
def bgName : CString := ⟨ascii "bg", by decide⟩
def fgName : CString := ⟨ascii "fg", by decide⟩
def ampersandName : CString := ⟨ascii "&", by decide⟩

/-- An implementation of `strcmp` with its `int` result. -/
abbrev Strcmp := CString → CString → BitVec 32

/-- What the C standard asks of `strcmp`: zero for equal strings, otherwise the
sign of the comparison of the first bytes that differ. -/
structure Conforming (strcmp : Strcmp) : Prop where
  zero_iff : ∀ s t, strcmp s t = 0#32 ↔ s = t
  negative_iff : ∀ s t, (strcmp s t).toInt < 0 ↔ s.val < t.val

/-- What `builtin_cmd` does: it exits, or runs a command or nothing and
returns. -/
inductive Builtin where
  | exit
  | listjobs
  | doBgfg
  | ignored
  | none
  deriving DecidableEq

/-- The returned value; `exit` does not return. -/
def Builtin.value : Builtin → Option Int
  | exit => Option.none
  | listjobs => some 1
  | doBgfg => some 1
  | ignored => some 1
  | none => some 0

/-- `builtin_cmd`, for the command word `argv[0]`. -/
def builtinCmd (strcmp : Strcmp) (argv0 : CString) : Builtin :=
  if strcmp argv0 quitName = 0#32 then .exit
  else if strcmp argv0 jobsName = 0#32 then .listjobs
  else if strcmp argv0 bgName &&& strcmp argv0 fgName = 0#32 then .doBgfg
  else if strcmp argv0 ampersandName = 0#32 then .ignored
  else .none

/-- The command that `eval` carries out for a nonempty line: it forks when
`builtin_cmd` returns 0. -/
def evalCommand (strcmp : Strcmp) (argv0 : CString) (name : String) (operand : Option (List Char))
    (bg : Bool) (cmdline : String) : Command :=
  match builtinCmd strcmp argv0 with
  | .exit => .quit
  | .listjobs => .jobs
  | .doBgfg => .bgfg name operand
  | .ignored => .ampersand
  | .none => .run bg cmdline

/-- The dispatch of a command word is exact. -/
structure Dispatches (strcmp : Strcmp) (argv0 : CString) : Prop where
  bgfg : builtinCmd strcmp argv0 = .doBgfg ↔ argv0 = bgName ∨ argv0 = fgName
  jobs : builtinCmd strcmp argv0 = .listjobs ↔ argv0 = jobsName
  quit : builtinCmd strcmp argv0 = .exit ↔ argv0 = quitName
  other : argv0 ≠ bgName → argv0 ≠ fgName → argv0 ≠ jobsName → argv0 ≠ quitName →
    argv0 ≠ ampersandName → (builtinCmd strcmp argv0).value = some 0 ∧
      ∀ name operand bg cmdline,
        evalCommand strcmp argv0 name operand bg cmdline = .run bg cmdline

/-- The word is one of the four names that `builtin_cmd` is meant to run. -/
def Named (argv0 : CString) : Prop :=
  argv0 = quitName ∨ argv0 = jobsName ∨ argv0 = bgName ∨ argv0 = fgName

section Exact

variable {strcmp : Strcmp} {argv0 : CString}

theorem Conforming.exit_iff (conforming : Conforming strcmp) :
    builtinCmd strcmp argv0 = .exit ↔ argv0 = quitName := by
  rw [← conforming.zero_iff]
  unfold builtinCmd
  split_ifs with isQuit <;> simp [isQuit]

theorem Conforming.listjobs_iff (conforming : Conforming strcmp) :
    builtinCmd strcmp argv0 = .listjobs ↔ argv0 = jobsName := by
  have differ : quitName ≠ jobsName := by decide
  unfold builtinCmd
  simp only [conforming.zero_iff]
  split_ifs with isQuit isJobs
  · subst isQuit
    simp [differ]
  · simp [isJobs]
  all_goals simp [isJobs]

/-- The shared test of `bg` and `fg` is passed by every word without a common one
bit, the other two names apart. -/
theorem Conforming.doBgfg_iff (conforming : Conforming strcmp) :
    builtinCmd strcmp argv0 = .doBgfg ↔ argv0 ≠ quitName ∧ argv0 ≠ jobsName ∧
      strcmp argv0 bgName &&& strcmp argv0 fgName = 0#32 := by
  unfold builtinCmd
  simp only [conforming.zero_iff]
  split_ifs with isQuit isJobs shared isAmpersand
  · simp [isQuit]
  · simp [isJobs]
  · simp [isQuit, isJobs, shared]
  · simp [shared]
  · simp [shared]

theorem Conforming.none_iff (conforming : Conforming strcmp) :
    builtinCmd strcmp argv0 = .none ↔ builtinCmd strcmp argv0 ≠ .exit ∧
      builtinCmd strcmp argv0 ≠ .listjobs ∧ builtinCmd strcmp argv0 ≠ .doBgfg ∧
        argv0 ≠ ampersandName := by
  unfold builtinCmd
  simp only [conforming.zero_iff]
  split_ifs with isQuit isJobs shared isAmpersand
  · simp
  · simp
  · simp
  · simp [isAmpersand]
  · simpa using isAmpersand

/-- The two names themselves pass the shared test. -/
theorem Conforming.and_zero_of_resumes (conforming : Conforming strcmp)
    (resumes : argv0 = bgName ∨ argv0 = fgName) :
    strcmp argv0 bgName &&& strcmp argv0 fgName = 0#32 := by
  rcases resumes with isBg | isFg
  · rw [(conforming.zero_iff argv0 bgName).mpr isBg]
    exact BitVec.zero_and
  · rw [(conforming.zero_iff argv0 fgName).mpr isFg]
    exact BitVec.and_zero

/-- For every conforming `strcmp` the dispatch of a word is exact when the word
is a name, or when its comparisons with `bg` and `fg` share a one bit. -/
theorem Conforming.dispatches_iff (conforming : Conforming strcmp) :
    Dispatches strcmp argv0 ↔
      Named argv0 ∨ strcmp argv0 bgName &&& strcmp argv0 fgName ≠ 0#32 := by
  constructor
  · intro exact_
    by_contra neither
    obtain ⟨unnamed, disjoint⟩ := not_or.mp neither
    simp only [Named, not_or] at unnamed
    obtain ⟨notQuit, notJobs, notBg, notFg⟩ := unnamed
    have ran := conforming.doBgfg_iff.mpr ⟨notQuit, notJobs, not_not.mp disjoint⟩
    exact (exact_.bgfg.mp ran).elim notBg notFg
  · intro condition
    have bgfg : builtinCmd strcmp argv0 = .doBgfg ↔ argv0 = bgName ∨ argv0 = fgName := by
      rw [conforming.doBgfg_iff]
      constructor
      · rintro ⟨notQuit, notJobs, disjoint⟩
        rcases condition with named | shared
        · exact (named.resolve_left notQuit).resolve_left notJobs
        · exact absurd disjoint shared
      · intro resumes
        refine ⟨?_, ?_, conforming.and_zero_of_resumes resumes⟩
        · rcases resumes with rfl | rfl <;> decide
        · rcases resumes with rfl | rfl <;> decide
    refine ⟨bgfg, conforming.listjobs_iff, conforming.exit_iff, ?_⟩
    intro notBg notFg notJobs notQuit notAmpersand
    have ran : builtinCmd strcmp argv0 = .none := by
      refine conforming.none_iff.mpr ⟨conforming.exit_iff.not.mpr notQuit,
        conforming.listjobs_iff.not.mpr notJobs, bgfg.not.mpr ?_, notAmpersand⟩
      exact not_or.mpr ⟨notBg, notFg⟩
    rw [ran]
    refine ⟨rfl, fun name operand bg cmdline => ?_⟩
    simp only [evalCommand, ran]

end Exact

/-! ## The words for which every implementation will do -/

/-- Two negative results share the sign bit. -/
theorem and_ne_zero_of_neg {x y : BitVec 32} (first : x.toInt < 0) (second : y.toInt < 0) :
    x &&& y ≠ 0#32 := by
  intro zero
  have bits : (x &&& y).msb = true := by
    rw [BitVec.msb_and, BitVec.msb_eq_toInt, BitVec.msb_eq_toInt]
    simp [first, second]
  rw [zero] at bits
  cases bits

/-- A word before `bg` in byte order is before `fg` too. -/
theorem Conforming.shared_of_lt {strcmp : Strcmp} {argv0 : CString} (conforming : Conforming strcmp)
    (before : argv0.val < bgName.val) : strcmp argv0 bgName &&& strcmp argv0 fgName ≠ 0#32 := by
  have order : bgName.val < fgName.val := by decide
  exact and_ne_zero_of_neg ((conforming.negative_iff _ _).mpr before)
    ((conforming.negative_iff _ _).mpr (List.lt_trans before order))

/-- A conforming `strcmp` whose results for `bg` and `fg` never share a one bit
unless both are negative. -/
def sparseStrcmp : Strcmp := fun s t =>
  if s = t then 0#32
  else if s.val < t.val then BitVec.ofInt 32 (-2)
  else if t = fgName then 2#32
  else 1#32

theorem sparseStrcmp_conforming : Conforming sparseStrcmp where
  zero_iff s t := by
    unfold sparseStrcmp
    split_ifs with same below isFg <;> simp [same]
  negative_iff s t := by
    unfold sparseStrcmp
    split_ifs with same below isFg
    · rw [same]
      exact iff_of_false (by decide) (List.lt_irrefl t.val)
    · simpa using below
    · simpa using below
    · simpa using below

/-- The dispatch of a word is exact in one implementation when it is a name or the
comparisons share a one bit, and in every implementation when it is a name or
comes before `bg`. -/
theorem builtinCmd_exact_iff (argv0 : CString) :
    (∀ strcmp, Conforming strcmp → (Dispatches strcmp argv0 ↔
      Named argv0 ∨ strcmp argv0 bgName &&& strcmp argv0 fgName ≠ 0#32)) ∧
    ((∀ strcmp, Conforming strcmp → Dispatches strcmp argv0) ↔
      Named argv0 ∨ argv0.val < bgName.val) := by
  refine ⟨fun strcmp conforming => conforming.dispatches_iff, ?_, ?_⟩
  · intro always
    have exact_ := always sparseStrcmp sparseStrcmp_conforming
    rcases sparseStrcmp_conforming.dispatches_iff.mp exact_ with named | shared
    · exact .inl named
    · by_contra neither
      obtain ⟨unnamed, notBefore⟩ := not_or.mp neither
      simp only [Named, not_or] at unnamed
      obtain ⟨-, -, notBg, notFg⟩ := unnamed
      have names : bgName ≠ fgName := by decide
      refine shared ?_
      simp only [sparseStrcmp, if_neg notBg, if_neg notBefore, if_neg names, if_neg notFg, if_true]
      split_ifs <;> decide
  · rintro (named | before) strcmp conforming
    · exact conforming.dispatches_iff.mpr (.inl named)
    · exact conforming.dispatches_iff.mpr (.inr (conforming.shared_of_lt before))

/-! ## The byte difference -/

/-- The difference of the first bytes that differ, where the terminator is 0. -/
def byteDifference : List UInt8 → List UInt8 → Int
  | [], [] => 0
  | a :: _, [] => a.toNat
  | [], b :: _ => -b.toNat
  | a :: s, b :: t => if a = b then byteDifference s t else a.toNat - b.toNat

/-- The `strcmp` of common libraries. -/
def differenceStrcmp : Strcmp := fun s t => BitVec.ofInt 32 (byteDifference s.val t.val)

theorem byteDifference_bounds (s t : List UInt8) :
    -256 < byteDifference s t ∧ byteDifference s t < 256 := by
  induction s, t using byteDifference.induct with
  | case1 => simp [byteDifference]
  | case2 a s =>
      have small := a.toNat_lt
      simp only [byteDifference]
      omega
  | case3 b t =>
      have small := b.toNat_lt
      simp only [byteDifference]
      omega
  | case4 a s t ih => simpa [byteDifference] using ih
  | case5 a s b t differ =>
      have small := a.toNat_lt
      have small' := b.toNat_lt
      simp only [byteDifference, if_neg differ]
      omega

theorem toNat_head_ne_zero {a : UInt8} {s : List UInt8} (whole : 0 ∉ a :: s) : a.toNat ≠ 0 := by
  intro zero
  have isZero : a = 0 := UInt8.toNat_inj.mp zero
  exact whole (by simp [isZero])

/-- It is zero for equal strings only. -/
theorem byteDifference_eq_zero_iff {s t : List UInt8} (whole : 0 ∉ s) (whole' : 0 ∉ t) :
    byteDifference s t = 0 ↔ s = t := by
  induction s, t using byteDifference.induct with
  | case1 => simp [byteDifference]
  | case2 a s =>
      have positive := toNat_head_ne_zero whole
      refine iff_of_false ?_ (by simp)
      simp only [byteDifference]
      omega
  | case3 b t =>
      have positive := toNat_head_ne_zero whole'
      refine iff_of_false ?_ (by simp)
      simp only [byteDifference]
      omega
  | case4 a s t ih =>
      simp only [List.mem_cons, not_or] at whole whole'
      simp [byteDifference, ih whole.2 whole'.2]
  | case5 a s b t differ =>
      have apart : a.toNat ≠ b.toNat := fun same => differ (UInt8.toNat_inj.mp same)
      refine iff_of_false ?_ (fun same => differ (List.cons.inj same).1)
      simp only [byteDifference, if_neg differ]
      omega

/-- It is negative when the first string comes first. -/
theorem byteDifference_neg_iff {s t : List UInt8} (whole : 0 ∉ s) (whole' : 0 ∉ t) :
    byteDifference s t < 0 ↔ s < t := by
  induction s, t using byteDifference.induct with
  | case1 => simp [byteDifference]
  | case2 a s => simp [byteDifference]
  | case3 b t =>
      have positive := toNat_head_ne_zero whole'
      refine iff_of_true ?_ (List.nil_lt_cons b t)
      simp only [byteDifference]
      omega
  | case4 a s t ih =>
      simp only [List.mem_cons, not_or] at whole whole'
      simp [byteDifference, ih whole.2 whole'.2]
  | case5 a s b t differ =>
      rw [List.cons_lt_cons_iff, UInt8.lt_iff_toNat_lt, or_iff_left (fun both => differ both.1)]
      simp only [byteDifference, if_neg differ]
      omega

theorem differenceStrcmp_toInt (s t : CString) :
    (differenceStrcmp s t).toInt = byteDifference s.val t.val := by
  have bounds := byteDifference_bounds s.val t.val
  rw [differenceStrcmp, BitVec.toInt_ofInt]
  exact Int.bmod_eq_of_le (by omega) (by omega)

theorem differenceStrcmp_conforming : Conforming differenceStrcmp where
  zero_iff s t := by
    rw [← BitVec.toInt_inj, differenceStrcmp_toInt, BitVec.toInt_zero,
      byteDifference_eq_zero_iff s.property t.property]
    exact Subtype.ext_iff.symm
  negative_iff s t := by
    rw [differenceStrcmp_toInt, byteDifference_neg_iff s.property t.property]

/-- The command word `rm`. -/
def rmWord : CString := ⟨ascii "rm", by decide⟩

theorem builtinCmd_exact_rm : Dispatches differenceStrcmp rmWord ↔
    Named rmWord ∨ differenceStrcmp rmWord bgName &&& differenceStrcmp rmWord fgName ≠ 0#32 :=
  (builtinCmd_exact_iff rmWord).1 differenceStrcmp differenceStrcmp_conforming

/-- With the byte difference as `strcmp`, `rm` is taken for `bg` or `fg`: the
results 16 and 12 have no one bit in common. -/
theorem rm_runs_bgfg : ¬ ∀ strcmp, Conforming strcmp → ∀ argv0 : CString, argv0.val ≠ [] →
    Dispatches strcmp argv0 := by
  intro claimed
  have exact_ := claimed differenceStrcmp differenceStrcmp_conforming rmWord (by decide)
  have ran : builtinCmd differenceStrcmp rmWord = .doBgfg := by decide
  have named : rmWord = bgName ∨ rmWord = fgName := exact_.bgfg.mp ran
  revert named
  decide

end SysProg.Shell

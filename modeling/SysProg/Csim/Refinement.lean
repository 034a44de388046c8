import Mathlib.Tactic.Linarith
import SysProg.Csim.Program
import SysProg.Logic.Recency

/-!
# The simulator is an LRU cache

The reference cache keeps, for each set index, a list of at most `E` distinct
tags from the most to the least recently used.  A set of the simulator
represents such a list through the timestamps of its valid lines, and each
access keeps this relation and counts the same outcome.
-/

namespace SysProg.Csim

open Logic

/-! ## The reference cache -/

/-- The reference cache with its counters. -/
structure Reference (E : Nat) where
  sets : Nat → RecencyList Nat E
  nHit : Nat
  nMiss : Nat
  nEvict : Nat

namespace Reference

variable {E : Nat}

/-- No tags and no accesses. -/
def start : Reference E := ⟨fun _ => .empty, 0, 0, 0⟩

/-- An access to a tag in a set. -/
def accessSet (r : Reference E) (set tag : Nat) : Reference E :=
  let (tags, outcome) := (r.sets set).access tag
  { sets := Function.update r.sets set tags
    nHit := r.nHit + if outcome = .hit then 1 else 0
    nMiss := r.nMiss + if outcome = .hit then 0 else 1
    nEvict := r.nEvict + if outcome = .eviction then 1 else 0 }

/-- An access to an address with `s` set bits above `b` block bits. -/
def access (s b : Nat) (r : Reference E) (addr : Nat) : Reference E :=
  r.accessSet (addr / 2 ^ b % 2 ^ s) (addr / 2 ^ (s + b))

end Reference

/-- The accesses of a record: `L` and `S` make one, `M` two, `I` none. -/
def Record.accesses (r : Record) : Nat :=
  match r.instr with
  | 'M' => 2
  | 'L' | 'S' => 1
  | _ => 0

/-- The accesses of a trace. -/
def accesses (trace : List Record) : Nat := (trace.map Record.accesses).sum

/-- The reference cache after a trace. -/
def Reference.run {E : Nat} (s b : Nat) (r : Reference E) (trace : List Record) : Reference E :=
  trace.foldl (fun r record => (fun r => r.access s b record.addr.toNat)^[record.accesses] r) r

/-! ## The loops -/

/-- What the search may find in the lines from line `Ei` on: the tag, or all
lines full of others, or the lowest empty line. -/
inductive Searched (Tag : UInt64) (lines : List LINE) (Ei emptyLine : Nat) (setFull : Bool) :
    Scan → Prop where
  | hit (before after : List LINE) (line : LINE) {scan : Scan}
      (split : lines = before ++ line :: after) (valid : line.valid = true) (same : line.tag = Tag)
      (found : scan.hit = some (Ei + before.length)) :
      Searched Tag lines Ei emptyLine setFull scan
  | full (absent : ∀ line ∈ lines, line.valid = true → line.tag ≠ Tag)
      (valid : ∀ line ∈ lines, line.valid = true) :
      Searched Tag lines Ei emptyLine setFull ⟨none, emptyLine, setFull⟩
  | room (before after : List LINE) (line : LINE)
      (absent : ∀ line ∈ lines, line.valid = true → line.tag ≠ Tag)
      (split : lines = before ++ line :: after) (invalid : line.valid = false) :
      Searched Tag lines Ei emptyLine setFull ⟨none, min emptyLine (Ei + before.length), false⟩

section Searched

variable {Tag : UInt64} {line : LINE} {rest : List LINE} {Ei emptyLine : Nat} {setFull : Bool}
  {scan : Scan}

/-- A hit behind the first line. -/
theorem Searched.hit_later {before after : List LINE} {l : LINE} (split : rest = before ++ l :: after)
    (valid : l.valid = true) (same : l.tag = Tag)
    (found : scan.hit = some (Ei + 1 + before.length)) :
    Searched Tag (line :: rest) Ei emptyLine setFull scan := by
  refine .hit (line :: before) after l (by rw [split, List.cons_append]) valid same ?_
  rw [found, List.length_cons, Nat.add_assoc, Nat.add_comm 1]

/-- Past a valid line with another tag. -/
theorem Searched.past_valid (valid : line.valid = true) (other : line.tag ≠ Tag)
    (found : Searched Tag rest (Ei + 1) emptyLine setFull scan) :
    Searched Tag (line :: rest) Ei emptyLine setFull scan := by
  have absent : (∀ l ∈ rest, l.valid = true → l.tag ≠ Tag) →
      ∀ l ∈ line :: rest, l.valid = true → l.tag ≠ Tag :=
    fun later => List.forall_mem_cons.mpr ⟨fun _ => other, later⟩
  cases found with
  | hit before after l split isValid same found => exact .hit_later split isValid same found
  | full others valids => exact .full (absent others) (List.forall_mem_cons.mpr ⟨valid, valids⟩)
  | room before after l others split invalid =>
      have place : Ei + 1 + before.length = Ei + (line :: before).length := by
        rw [List.length_cons, Nat.add_assoc, Nat.add_comm 1]
      rw [place]
      exact .room (line :: before) after l (absent others) (by rw [split, List.cons_append]) invalid

/-- Past an empty line, which is the lowest one unless one was met before. -/
theorem Searched.past_empty (invalid : line.valid = false)
    (found : Searched Tag rest (Ei + 1) (min emptyLine Ei) false scan) :
    Searched Tag (line :: rest) Ei emptyLine setFull scan := by
  have absent : (∀ l ∈ rest, l.valid = true → l.tag ≠ Tag) →
      ∀ l ∈ line :: rest, l.valid = true → l.tag ≠ Tag := by
    intro later
    refine List.forall_mem_cons.mpr ⟨fun valid => ?_, later⟩
    rw [invalid] at valid
    cases valid
  cases found with
  | hit before after l split isValid same found => exact .hit_later split isValid same found
  | full others valids => exact .room [] rest line (absent others) rfl invalid
  | room before after l others split later =>
      have least : min (min emptyLine Ei) (Ei + 1 + before.length) = min emptyLine Ei := by omega
      rw [least]
      exact .room [] rest line (absent others) rfl invalid

/-- The search loop. -/
theorem search_searched (Tag : UInt64) (lines : List LINE) (Ei emptyLine : Nat) (setFull : Bool) :
    Searched Tag lines Ei emptyLine setFull (search Tag lines Ei emptyLine setFull) := by
  induction lines generalizing Ei emptyLine setFull with
  | nil => exact .full (fun _ member => (nomatch member)) (fun _ member => (nomatch member))
  | cons line rest ih =>
      unfold search
      split
      · rename_i valid
        split
        · rename_i same
          exact .hit [] rest line rfl valid same rfl
        · rename_i other
          exact (ih (Ei + 1) emptyLine setFull).past_valid valid other
      · rename_i invalid
        have least : (if emptyLine < Ei then emptyLine else Ei) = min emptyLine Ei := by
          split <;> omega
        rw [least]
        exact (ih (Ei + 1) (min emptyLine Ei) false).past_empty (by simpa using invalid)

end Searched

/-- The victim is the line seen before, or a later one with the least
timestamp. -/
theorem leastRecentLine_cases (lines : List LINE) (Ei victimLine : Nat) (leastRecent : UInt32) :
    (leastRecentLine lines Ei victimLine leastRecent = victimLine ∧
      ∀ line ∈ lines, leastRecent ≤ line.useTime) ∨
    ∃ before victim after, lines = before ++ victim :: after ∧
      leastRecentLine lines Ei victimLine leastRecent = Ei + before.length ∧
      victim.useTime < leastRecent ∧ ∀ line ∈ lines, victim.useTime ≤ line.useTime := by
  induction lines generalizing Ei victimLine leastRecent with
  | nil => exact .inl ⟨rfl, fun _ member => (nomatch member)⟩
  | cons line rest ih =>
      by_cases smaller : leastRecent > line.useTime
      · have go : leastRecentLine (line :: rest) Ei victimLine leastRecent =
            leastRecentLine rest (Ei + 1) Ei line.useTime := by
          simp [leastRecentLine, smaller]
        rw [go]
        rcases ih (Ei + 1) Ei line.useTime with
          ⟨result, least⟩ | ⟨before, victim, after, rfl, result, below, least⟩
        · refine .inr ⟨[], line, rest, rfl, by simpa using result, smaller, ?_⟩
          intro other member
          rcases List.mem_cons.mp member with rfl | later
          · exact UInt32.le_refl _
          · exact least other later
        · refine .inr ⟨line :: before, victim, after, rfl, ?_, UInt32.lt_trans below smaller, ?_⟩
          · rw [result, List.length_cons]
            omega
          · intro other member
            rcases List.mem_cons.mp member with rfl | later
            · exact UInt32.le_of_lt below
            · exact least other later
      · have go : leastRecentLine (line :: rest) Ei victimLine leastRecent =
            leastRecentLine rest (Ei + 1) victimLine leastRecent := by
          simp [leastRecentLine, smaller]
        have atMost : leastRecent ≤ line.useTime := UInt32.not_lt.mp smaller
        rw [go]
        rcases ih (Ei + 1) victimLine leastRecent with
          ⟨result, least⟩ | ⟨before, victim, after, rfl, result, below, least⟩
        · refine .inl ⟨result, ?_⟩
          intro other member
          rcases List.mem_cons.mp member with rfl | later
          · exact atMost
          · exact least other later
        · refine .inr ⟨line :: before, victim, after, rfl, ?_, below, ?_⟩
          · rw [result, List.length_cons]
            omega
          · intro other member
            rcases List.mem_cons.mp member with rfl | later
            · exact UInt32.le_of_lt (UInt32.lt_of_lt_of_le below atMost)
            · exact least other later

/-- The second loop of `accessCache` finds a line with the least timestamp. -/
theorem exists_victim (first : LINE) (rest : List LINE) :
    ∃ before line after, first :: rest = before ++ line :: after ∧
      leastRecentLine rest 1 0 first.useTime = before.length ∧
      ∀ o ∈ first :: rest, line.useTime ≤ o.useTime := by
  rcases leastRecentLine_cases rest 1 0 first.useTime with
    ⟨found, least⟩ | ⟨before, line, after, rfl, found, below, least⟩
  · refine ⟨[], first, rest, rfl, found, ?_⟩
    intro o member
    rcases List.mem_cons.mp member with rfl | later
    · exact UInt32.le_refl _
    · exact least o later
  · refine ⟨first :: before, line, after, rfl, ?_, ?_⟩
    · rw [found, List.length_cons, Nat.add_comm]
    · intro o member
      rcases List.mem_cons.mp member with rfl | later
      · exact UInt32.le_of_lt below
      · exact least o later

/-! ## One set -/

/-- The time of the last use of a line. -/
def LINE.time (line : LINE) : Nat := line.useTime.toNat

/-- The tag of a line. -/
def LINE.key (line : LINE) : Nat := line.tag.toNat

/-- The valid lines of a set represent an ideal set, and the counter of the set
is not behind their timestamps. -/
structure Simulates {E : Nat} (set : SET) (tags : RecencyList Nat E) : Prop where
  size : set.lines.length = E
  represents : Represents LINE.time LINE.key (set.lines.filter LINE.valid) tags
  stamped : ∀ line ∈ set.lines, line.valid = true → line.time ≤ set.useCnt.toNat

/-- The parameters after an access with the given outcome. -/
def PARAM.count (param : PARAM) : Outcome → PARAM
  | .hit => { param with nHit := param.nHit + 1 }
  | .miss => { param with nMiss := param.nMiss + 1 }
  | .eviction => { param with nMiss := param.nMiss + 1, nEvict := param.nEvict + 1 }

theorem modify_middle {α : Type} (before after : List α) (e : α) (f : α → α) :
    (before ++ e :: after).modify before.length f = before ++ f e :: after := by
  induction before with
  | nil => simp
  | cons first rest ih => simpa using ih

theorem toNat_succ {n : UInt32} (small : n.toNat + 1 < 2 ^ 32) : (n + 1).toNat = n.toNat + 1 := by
  rw [UInt32.toNat_add]
  exact Nat.mod_eq_of_lt small

section Access

variable {E : Nat} {set : SET} {tags tags' : RecencyList Nat E} {before after : List LINE}
  {line : LINE}

/-- The line that a stamp leaves. -/
def SET.mark (set : SET) (line : LINE) : LINE := { line with useTime := set.useCnt + 1 }

/-- A stamped valid line is newer than all others. -/
theorem Simulates.later (sim : Simulates set tags) (small : set.useCnt.toNat + 1 < 2 ^ 32)
    (lines : set.lines = before ++ line :: after) (changed : LINE) :
    ∀ o ∈ before.filter LINE.valid ++ after.filter LINE.valid,
      o.time < (set.mark changed).time := by
  intro o member
  have present : o ∈ set.lines ∧ o.valid = true := by
    rw [lines]
    rw [← List.filter_append] at member
    obtain ⟨place, valid⟩ := List.mem_filter.mp member
    refine ⟨?_, valid⟩
    rcases List.mem_append.mp place with left | right
    · exact List.mem_append_left _ left
    · exact List.mem_append_right _ (List.mem_cons_of_mem _ right)
  have bound := sim.stamped o present.1 present.2
  have now : (set.mark changed).time = set.useCnt.toNat + 1 := toNat_succ small
  omega

/-- A stamp of a valid line leaves a set that represents what its valid lines
represent. -/
theorem Simulates.stamp (sim : Simulates set tags) (small : set.useCnt.toNat + 1 < 2 ^ 32)
    (lines : set.lines = before ++ line :: after) {change : LINE → LINE}
    (valid : (change line).valid = true)
    (represents : Represents LINE.time LINE.key
      (before.filter LINE.valid ++ set.mark (change line) :: after.filter LINE.valid) tags') :
    Simulates (set.stamp before.length change) tags' ∧
      (set.stamp before.length change).useCnt.toNat = set.useCnt.toNat + 1 := by
  have now : (set.useCnt + 1).toNat = set.useCnt.toNat + 1 := toNat_succ small
  have after' : (set.stamp before.length change).lines =
      before ++ set.mark (change line) :: after := by
    simp only [SET.stamp, lines]
    exact modify_middle before after line _
  refine ⟨⟨?_, ?_, ?_⟩, now⟩
  · rw [after', ← sim.size, lines]
    simp
  · rw [after', List.filter_append, List.filter_cons_of_pos (by exact valid)]
    exact represents
  · intro o member isValid
    change o.time ≤ (set.useCnt + 1).toNat
    rw [now]
    rw [after'] at member
    rcases List.mem_append.mp member with left | right
    · have bound := sim.stamped o (by rw [lines]; exact List.mem_append_left _ left) isValid
      omega
    · rcases List.mem_cons.mp right with rfl | right
      · exact now.le
      · have bound := sim.stamped o (by
          rw [lines]
          exact List.mem_append_right _ (List.mem_cons_of_mem _ right)) isValid
        omega

/-- A valid line with the tag is found again. -/
theorem Simulates.hit (sim : Simulates set tags) (small : set.useCnt.toNat + 1 < 2 ^ 32)
    (lines : set.lines = before ++ line :: after) (valid : line.valid = true) :
    (tags.access line.key).2 = .hit ∧
      Simulates (set.stamp before.length id) (tags.access line.key).1 ∧
      (set.stamp before.length id).useCnt.toNat = set.useCnt.toNat + 1 := by
  have represents := sim.represents
  rw [lines, List.filter_append, List.filter_cons_of_pos (by exact valid)] at represents
  obtain ⟨hit, touched⟩ := represents.touch (set.mark line) rfl (sim.later small lines line)
  exact ⟨hit, sim.stamp small lines valid touched⟩

/-- An empty line takes an absent tag. -/
theorem Simulates.miss (sim : Simulates set tags) (small : set.useCnt.toNat + 1 < 2 ^ 32)
    (lines : set.lines = before ++ line :: after) (invalid : line.valid = false) {Tag : UInt64}
    (absent : ∀ line ∈ set.lines, line.valid = true → line.tag ≠ Tag) :
    (tags.access Tag.toNat).2 = .miss ∧
      Simulates (set.stamp before.length fun line => { line with tag := Tag, valid := true })
        (tags.access Tag.toNat).1 ∧
      (set.stamp before.length fun line => { line with tag := Tag, valid := true }).useCnt.toNat =
        set.useCnt.toNat + 1 := by
  have represents := sim.represents
  have filtered : set.lines.filter LINE.valid =
      before.filter LINE.valid ++ after.filter LINE.valid := by
    rw [lines, List.filter_append, List.filter_cons_of_neg (by simpa using invalid)]
  rw [filtered] at represents
  have size := sim.size
  have shorter := List.length_filter_le LINE.valid before
  have shorter' := List.length_filter_le LINE.valid after
  rw [lines, List.length_append, List.length_cons] at size
  obtain ⟨miss, inserted⟩ := represents.insert
    (e := set.mark { line with tag := Tag, valid := true }) (by
      intro o member
      rw [← filtered] at member
      obtain ⟨place, valid⟩ := List.mem_filter.mp member
      intro same
      exact absent o place valid (UInt64.toNat_inj.mp same)) (by
      rw [List.length_append]
      omega) (sim.later small lines _)
  exact ⟨miss, sim.stamp small lines rfl inserted⟩

/-- The line with the least timestamp of a full set takes an absent tag. -/
theorem Simulates.evict (sim : Simulates set tags) (small : set.useCnt.toNat + 1 < 2 ^ 32)
    (lines : set.lines = before ++ line :: after) (full : ∀ line ∈ set.lines, line.valid = true)
    (oldest : ∀ o ∈ set.lines, line.useTime ≤ o.useTime) {Tag : UInt64}
    (absent : ∀ line ∈ set.lines, line.valid = true → line.tag ≠ Tag) :
    (tags.access Tag.toNat).2 = .eviction ∧
      Simulates (set.stamp before.length fun line => { line with tag := Tag })
        (tags.access Tag.toNat).1 ∧
      (set.stamp before.length fun line => { line with tag := Tag }).useCnt.toNat =
        set.useCnt.toNat + 1 := by
  have valid : line.valid = true := full line (by rw [lines]; simp)
  have all : set.lines.filter LINE.valid = set.lines := List.filter_eq_self.mpr full
  have filtered : set.lines =
      before.filter LINE.valid ++ line :: after.filter LINE.valid := by
    rw [← List.filter_cons_of_pos (by exact valid), ← List.filter_append, ← lines, all]
  have represents := sim.represents
  rw [all] at represents
  have size := sim.size
  rw [filtered] at represents
  obtain ⟨eviction, replaced⟩ := represents.replace (set.mark { line with tag := Tag }) (by
      intro o member same
      rw [← filtered] at member
      exact absent o member (full o member) (UInt64.toNat_inj.mp same))
    (by rw [← filtered, size]) (by
      intro o member
      rw [← filtered] at member
      exact UInt32.le_iff_toNat_le.mp (oldest o member)) (sim.later small lines _)
  exact ⟨eviction, sim.stamp small lines valid replaced⟩

/-- `accessCache` in a set counts the outcome of the ideal access and leaves a
set that represents its result. -/
theorem Simulates.access (sim : Simulates set tags) (small : set.useCnt.toNat + 1 < 2 ^ 32)
    {param : PARAM} (counts : param.nHit.toNat + 1 < 2 ^ 32) (lineCount : param.E.toNat = E)
    (some_line : 0 < E) (Tag : UInt64) :
    ∃ set', accessSet set param Tag = some (set', param.count (tags.access Tag.toNat).2) ∧
      Simulates set' (tags.access Tag.toNat).1 ∧ set'.useCnt.toNat = set.useCnt.toNat + 1 := by
  have size := sim.size
  have missed : ¬ param.nHit < param.nHit := UInt32.lt_irrefl _
  unfold accessSet
  have searched := search_searched Tag set.lines 0 param.E.toNat true
  generalize search Tag set.lines 0 param.E.toNat true = scan at searched ⊢
  cases searched with
  | hit before after line lines valid same found =>
      subst same
      obtain ⟨isHit, kept⟩ := sim.hit small lines valid
      have counted : param.nHit < param.nHit + 1 := by
        rw [UInt32.lt_iff_toNat_lt, toNat_succ counts]
        omega
      refine ⟨_, ?_, kept⟩
      simp only [found, Nat.zero_add]
      rw [if_pos counted, show line.tag.toNat = line.key from rfl, isHit]
      rfl
  | full absent valids =>
      simp only [if_neg missed, replaceLine, if_true]
      cases lines : set.lines with
      | nil =>
          rw [lines, List.length_nil] at size
          omega
      | cons first rest =>
          obtain ⟨before, line, after, split, found, oldest⟩ := exists_victim first rest
          rw [← lines] at split oldest
          obtain ⟨eviction, kept⟩ := sim.evict small split valids oldest absent
          refine ⟨_, ?_, kept⟩
          simp only [found, eviction]
          rfl
  | room before after line absent lines invalid =>
      obtain ⟨miss, kept⟩ := sim.miss small lines invalid absent
      have index : min param.E.toNat (0 + before.length) = before.length := by
        rw [lines, List.length_append, List.length_cons] at size
        omega
      simp only [if_neg missed, replaceLine, index]
      refine ⟨_, ?_, kept⟩
      rw [miss]
      rfl

end Access

/-! ## The whole cache -/

section Shifts

/-- A number shifted up by `t` and down by `t + b` in 64 bits loses all but `s`
bits above the lower `b`. -/
theorem shift_up_down {s b t x : Nat} (bits : s + b + t = 64) :
    x * 2 ^ t % 2 ^ 64 / 2 ^ (t + b) = x / 2 ^ b % 2 ^ s := by
  calc x * 2 ^ t % 2 ^ 64 / 2 ^ (t + b)
      = x * 2 ^ t % (2 ^ (s + b) * 2 ^ t) / (2 ^ b * 2 ^ t) := by
        rw [← Nat.pow_add, ← Nat.pow_add, bits, Nat.add_comm t b]
    _ = x % 2 ^ (s + b) / 2 ^ b := by
        rw [Nat.mul_mod_mul_right, Nat.mul_div_mul_right _ _ (Nat.two_pow_pos t)]
    _ = x / 2 ^ b % 2 ^ s := by
        rw [Nat.add_comm s b, Nat.pow_add, Nat.mod_mul_right_div_self]

variable {s b : UInt32}

/-- `Tag` is the address above the set and block bits. -/
theorem shr_tag (width : s.toNat + b.toNat < 64) (addr : UInt64) :
    ∃ Tag, shr addr (s + b) = some Tag ∧ Tag.toNat = addr.toNat / 2 ^ (s.toNat + b.toNat) := by
  have sum : (s + b).toNat = s.toNat + b.toNat := by
    rw [UInt32.toNat_add]
    omega
  have small : s + b < 64 := by
    rw [UInt32.lt_iff_toNat_lt, sum]
    exact width
  refine ⟨_, if_pos small, ?_⟩
  rw [UInt64.toNat_shiftRight, UInt32.toNat_toUInt64, sum, Nat.mod_eq_of_lt width,
    Nat.shiftRight_eq_div_pow]

/-- `Set` is the set bits of the address. -/
theorem shr_set (some_bit : 1 ≤ s.toNat) (width : s.toNat + b.toNat < 64) (addr : UInt64) :
    ∃ cleared, shl addr (64 - s - b) = some cleared ∧
      ∃ Set, shr cleared (64 - s - b + b) = some Set ∧
        Set.toNat = addr.toNat / 2 ^ b.toNat % 2 ^ s.toNat := by
  have up : (64 - s - b).toNat = 64 - s.toNat - b.toNat := by
    have first : (64 - s : UInt32).toNat = 64 - s.toNat := by
      rw [UInt32.toNat_sub_of_le]
      · rfl
      · exact UInt32.le_iff_toNat_le.mpr (by omega : s.toNat ≤ 64)
    rw [UInt32.toNat_sub_of_le, first]
    exact UInt32.le_iff_toNat_le.mpr (by omega)
  have down : (64 - s - b + b).toNat = 64 - s.toNat := by
    rw [UInt32.toNat_add, up]
    omega
  have upSmall : 64 - s - b < 64 := by
    rw [UInt32.lt_iff_toNat_lt, up]
    exact (by omega : 64 - s.toNat - b.toNat < 64)
  have downSmall : 64 - s - b + b < 64 := by
    rw [UInt32.lt_iff_toNat_lt, down]
    exact (by omega : 64 - s.toNat < 64)
  have upMod : (64 - s.toNat - b.toNat) % 64 = 64 - s.toNat - b.toNat :=
    Nat.mod_eq_of_lt (by omega)
  have downMod : (64 - s.toNat) % 64 = 64 - s.toNat := Nat.mod_eq_of_lt (by omega)
  refine ⟨_, if_pos upSmall, _, if_pos downSmall, ?_⟩
  rw [UInt64.toNat_shiftRight, UInt64.toNat_shiftLeft, UInt32.toNat_toUInt64, UInt32.toNat_toUInt64,
    up, down, upMod, downMod, Nat.shiftRight_eq_div_pow, Nat.shiftLeft_eq]
  have lower : 64 - s.toNat - b.toNat + b.toNat = 64 - s.toNat := by omega
  have cleared := shift_up_down (s := s.toNat) (b := b.toNat) (t := 64 - s.toNat - b.toNat)
    (x := addr.toNat) (by omega)
  rw [lower] at cleared
  exact cleared

/-- `Tag` and `Set` of `accessCache`. -/
def decompose (s b : UInt32) (addr : UInt64) : Option (UInt64 × UInt64) := do
  let t := 64 - s - b
  let Tag ← shr addr (s + b)
  let cleared ← shl addr t
  let Set ← shr cleared (t + b)
  some (Tag, Set)

/-- `accessCache` is an access for the tag in the set. -/
theorem accessCache_eq (cache : Nat → SET) (param : PARAM) (addr : UInt64) :
    accessCache cache param addr = (decompose param.s param.b addr).bind fun parts =>
      if parts.2.toNat < param.S.toNat then
        (accessSet (cache parts.2.toNat) param parts.1).map fun result =>
          (Function.update cache parts.2.toNat result.1, result.2)
      else none := by
  unfold accessCache decompose
  dsimp only
  cases shr addr (param.s + param.b) with
  | none => rfl
  | some Tag =>
      cases shl addr (64 - param.s - param.b) with
      | none => rfl
      | some cleared =>
          simp only [Option.bind_eq_bind, Option.bind_some]
          cases shr cleared (64 - param.s - param.b + param.b) with
          | none => rfl
          | some Set =>
              simp only [Option.bind_some]
              split
              · cases accessSet (cache Set.toNat) param Tag with
                | none => rfl
                | some result => rfl
              · rfl

/-- With a set bit all shifts are defined. -/
theorem exists_parts (some_bit : 1 ≤ s.toNat) (width : s.toNat + b.toNat < 64) (addr : UInt64) :
    ∃ Tag Set, decompose s b addr = some (Tag, Set) ∧
      Tag.toNat = addr.toNat / 2 ^ (s.toNat + b.toNat) ∧
      Set.toNat = addr.toNat / 2 ^ b.toNat % 2 ^ s.toNat := by
  obtain ⟨Tag, tagShift, tag⟩ := shr_tag width addr
  obtain ⟨cleared, up, Set, down, index⟩ := shr_set some_bit width addr
  refine ⟨Tag, Set, ?_, tag, index⟩
  unfold decompose
  simp only [tagShift, up, down, Option.bind_eq_bind, Option.bind_some]

end Shifts

/-- The simulator's sets and counters agree with the reference cache, and no
counter is ahead of the number of accesses. -/
structure Refines (s b E : UInt32) (cache : Nat → SET) (param : PARAM)
    (r : Reference E.toNat) : Prop where
  setBits : param.s = s
  blockBits : param.b = b
  lineCount : param.E = E
  setCount : param.S.toNat = 2 ^ s.toNat
  sets : ∀ i < 2 ^ s.toNat, Simulates (cache i) (r.sets i)
  used : ∀ i < 2 ^ s.toNat, (cache i).useCnt.toNat ≤ r.nHit + r.nMiss
  nHit : param.nHit.toNat = r.nHit
  nMiss : param.nMiss.toNat = r.nMiss
  nEvict : param.nEvict.toNat = r.nEvict
  evicted : r.nEvict ≤ r.nMiss

section Run

variable {s b E : UInt32} {cache : Nat → SET} {param : PARAM} {r : Reference E.toNat}

theorem Reference.accessSet_total (r : Reference E.toNat) (set tag : Nat) :
    (r.accessSet set tag).nHit + (r.accessSet set tag).nMiss = r.nHit + r.nMiss + 1 := by
  simp only [Reference.accessSet]
  split <;> omega

/-- Counting an outcome changes the counters only. -/
theorem PARAM.count_same (param : PARAM) (outcome : Outcome) :
    (param.count outcome).s = param.s ∧ (param.count outcome).b = param.b ∧
      (param.count outcome).E = param.E ∧ (param.count outcome).S = param.S := by
  cases outcome with
  | _ => exact ⟨rfl, rfl, rfl, rfl⟩

/-- The counters count up to `2 ^ 32`. -/
theorem PARAM.count_toNat (param : PARAM) (outcome : Outcome) (hits : param.nHit.toNat + 1 < 2 ^ 32)
    (misses : param.nMiss.toNat + 1 < 2 ^ 32) (evictions : param.nEvict.toNat + 1 < 2 ^ 32) :
    (param.count outcome).nHit.toNat = param.nHit.toNat + (if outcome = .hit then 1 else 0) ∧
      (param.count outcome).nMiss.toNat = param.nMiss.toNat + (if outcome = .hit then 0 else 1) ∧
      (param.count outcome).nEvict.toNat =
        param.nEvict.toNat + (if outcome = .eviction then 1 else 0) := by
  cases outcome with
  | hit => exact ⟨toNat_succ hits, rfl, rfl⟩
  | miss => exact ⟨rfl, toNat_succ misses, rfl⟩
  | eviction => exact ⟨rfl, toNat_succ misses, toNat_succ evictions⟩

/-- Counting the outcome of the ideal access in one set keeps the refinement. -/
theorem Refines.accessSet (refines : Refines s b E cache param r) {i tag : Nat} {set : SET}
    (sim : Simulates set ((r.sets i).access tag).1) (used : set.useCnt.toNat ≤ r.nHit + r.nMiss + 1)
    (few : r.nHit + r.nMiss + 1 < 2 ^ 32) :
    Refines s b E (Function.update cache i set) (param.count ((r.sets i).access tag).2)
      (r.accessSet i tag) := by
  have same := param.count_same ((r.sets i).access tag).2
  have total := r.accessSet_total i tag
  have hits := refines.nHit
  have misses := refines.nMiss
  have evictions := refines.nEvict
  have evicted := refines.evicted
  have counts := param.count_toNat ((r.sets i).access tag).2 (by omega) (by omega) (by omega)
  rw [hits, misses, evictions] at counts
  refine ⟨same.1.trans refines.setBits, same.2.1.trans refines.blockBits,
    same.2.2.1.trans refines.lineCount, same.2.2.2 ▸ refines.setCount, ?_, ?_,
    counts.1, counts.2.1, counts.2.2, ?_⟩
  · intro j valid
    simp only [Reference.accessSet]
    by_cases here : j = i
    · subst here
      simp only [Function.update_self]
      exact sim
    · simp only [Function.update_of_ne here]
      exact refines.sets j valid
  · intro j valid
    rw [total]
    by_cases here : j = i
    · subst here
      simp only [Function.update_self]
      exact used
    · simp only [Function.update_of_ne here]
      have bound := refines.used j valid
      omega
  · simp only [Reference.accessSet]
    cases ((r.sets i).access tag).2 with
    | hit => simpa using evicted
    | miss => simpa using evicted.trans (Nat.le_succ _)
    | eviction => simpa using evicted

/-- One access keeps the refinement. -/
theorem Refines.access (refines : Refines s b E cache param r) (some_bit : 1 ≤ s.toNat)
    (width : s.toNat + b.toNat < 64) (some_line : 0 < E.toNat) (addr : UInt64)
    (few : r.nHit + r.nMiss + 1 < 2 ^ 32) :
    ∃ cache' param', accessCache cache param addr = some (cache', param') ∧
      Refines s b E cache' param' (r.access s.toNat b.toNat addr.toNat) := by
  obtain ⟨Tag, Set, shifts, tag, index⟩ := exists_parts some_bit width addr
  have inside : Set.toNat < 2 ^ s.toNat := by
    rw [index]
    exact Nat.mod_lt _ (Nat.two_pow_pos _)
  have used := refines.used Set.toNat inside
  have hits := refines.nHit
  obtain ⟨set', accessed, sim, counted⟩ := (refines.sets Set.toNat inside).access (by omega)
    (by omega) (congrArg UInt32.toNat refines.lineCount) some_line Tag
  have kept := refines.accessSet sim (by omega) few
  rw [index, tag] at kept
  refine ⟨_, _, ?_, kept⟩
  rw [accessCache_eq, refines.setBits, refines.blockBits, shifts, Option.bind_some,
    if_pos (refines.setCount ▸ inside), accessed, index, tag]
  rfl

/-- A record makes two accesses to its address, or one, or none. -/
theorem simulateRecord_cases (cache : Nat → SET) (param : PARAM) (record : Record) :
    (record.accesses = 2 ∧ simulateRecord cache param record =
      (accessCache cache param record.addr).bind fun result =>
        accessCache result.1 result.2 record.addr) ∨
    (record.accesses = 1 ∧
      simulateRecord cache param record = accessCache cache param record.addr) ∨
    (record.accesses = 0 ∧ simulateRecord cache param record = some (cache, param)) := by
  unfold simulateRecord
  split
  · rename_i instr
    exact .inl ⟨by simp [Record.accesses, instr], rfl⟩
  · rename_i instr
    exact .inr (.inl ⟨by simp [Record.accesses, instr], rfl⟩)
  · rename_i instr
    exact .inr (.inl ⟨by simp [Record.accesses, instr], rfl⟩)
  · rename_i notM notL notS
    refine .inr (.inr ⟨?_, rfl⟩)
    unfold Record.accesses
    split
    · exact absurd ‹_› notM
    · exact absurd ‹_› notL
    · exact absurd ‹_› notS
    · rfl

/-- A record keeps the refinement. -/
theorem Refines.record (refines : Refines s b E cache param r) (some_bit : 1 ≤ s.toNat)
    (width : s.toNat + b.toNat < 64) (some_line : 0 < E.toNat) (record : Record)
    (few : r.nHit + r.nMiss + record.accesses < 2 ^ 32) :
    ∃ cache' param', simulateRecord cache param record = some (cache', param') ∧
      Refines s b E cache' param'
        ((fun r => r.access s.toNat b.toNat record.addr.toNat)^[record.accesses] r) := by
  rcases simulateRecord_cases cache param record with
    ⟨two, made⟩ | ⟨one, made⟩ | ⟨none, made⟩
  · rw [two] at few ⊢
    obtain ⟨cache', param', first, refines'⟩ :=
      refines.access some_bit width some_line record.addr (by omega)
    have total := r.accessSet_total (record.addr.toNat / 2 ^ b.toNat % 2 ^ s.toNat)
      (record.addr.toNat / 2 ^ (s.toNat + b.toNat))
    obtain ⟨cache'', param'', second, refines''⟩ :=
      refines'.access some_bit width some_line record.addr (by
        unfold Reference.access
        omega)
    refine ⟨cache'', param'', ?_, refines''⟩
    rw [made, first, Option.bind_some, second]
  · rw [one] at few ⊢
    rw [made]
    exact refines.access some_bit width some_line record.addr few
  · rw [none]
    exact ⟨cache, param, made, refines⟩

/-- The total of hits and misses grows by the accesses of a record. -/
theorem Reference.record_total (r : Reference E.toNat) (s b addr n : Nat) :
    ((fun r : Reference E.toNat => r.access s b addr)^[n] r).nHit +
      ((fun r : Reference E.toNat => r.access s b addr)^[n] r).nMiss = r.nHit + r.nMiss + n := by
  induction n generalizing r with
  | zero => rfl
  | succ n ih =>
      rw [Function.iterate_succ_apply, ih]
      have total := r.accessSet_total (addr / 2 ^ b % 2 ^ s) (addr / 2 ^ (s + b))
      unfold Reference.access
      omega

/-- A trace keeps the refinement. -/
theorem Refines.run (refines : Refines s b E cache param r) (some_bit : 1 ≤ s.toNat)
    (width : s.toNat + b.toNat < 64) (some_line : 0 < E.toNat) (trace : List Record)
    (few : r.nHit + r.nMiss + accesses trace < 2 ^ 32) :
    ∃ cache' param', simulate cache param trace = some (cache', param') ∧
      Refines s b E cache' param' (r.run s.toNat b.toNat trace) := by
  induction trace generalizing cache param r with
  | nil => exact ⟨cache, param, rfl, refines⟩
  | cons record rest ih =>
      have split : accesses (record :: rest) = record.accesses + accesses rest := by
        simp [accesses]
      obtain ⟨cache', param', first, refines'⟩ :=
        refines.record some_bit width some_line record (by omega)
      have total := r.record_total s.toNat b.toNat record.addr.toNat record.accesses
      obtain ⟨cache'', param'', later, refines''⟩ := ih refines' (by omega)
      exact ⟨cache'', param'', by simp [simulate, first, later], refines''⟩

end Run

/-- An allocated set before any access: the lines are not valid. -/
structure SET.Blank (E : Nat) (set : SET) : Prop where
  size : set.lines.length = E
  useCnt : set.useCnt = 0
  invalid : ∀ line ∈ set.lines, line.valid = false

theorem SET.Blank.simulates {E : Nat} {set : SET} (blank : set.Blank E) :
    Simulates set (RecencyList.empty : RecencyList Nat E) where
  size := blank.size
  represents := by
    have none : set.lines.filter LINE.valid = [] := by
      rw [List.filter_eq_nil_iff]
      intro line member
      simp [blank.invalid line member]
    rw [none]
    exact ⟨[], .nil, rfl⟩
  stamped line member valid := by
    rw [blank.invalid line member] at valid
    cases valid

/-- The number of sets. -/
theorem startParam_S {s : UInt32} (high : s.toNat ≤ 30) (b E : UInt32) :
    (startParam s b E).S.toNat = 2 ^ s.toNat := by
  have small : 2 ^ s.toNat < 2 ^ 32 := Nat.pow_lt_pow_right (by omega) (by omega)
  change ((1 : UInt32) <<< s).toNat = _
  rw [UInt32.toNat_shiftLeft, Nat.mod_eq_of_lt (by omega : s.toNat < 32)]
  rw [show (1 : UInt32).toNat = 1 from rfl, Nat.one_shiftLeft, Nat.mod_eq_of_lt small]

/-- A cache of blank sets refines the empty reference cache. -/
theorem Refines.start {s : UInt32} (high : s.toNat ≤ 30) (b : UInt32) {E : UInt32} {cache : Nat → SET}
    (blank : ∀ i < 2 ^ s.toNat, (cache i).Blank E.toNat) :
    Refines s b E cache (startParam s b E) Reference.start := by
  refine ⟨rfl, rfl, rfl, startParam_S high b E, fun i valid => (blank i valid).simulates, ?_, rfl,
    rfl, rfl, le_rfl⟩
  intro i valid
  rw [(blank i valid).useCnt]
  exact Nat.zero_le _

/-- For every geometry and every trace the simulator counts the hits, misses
and evictions of the reference cache. -/
theorem simulate_eq_reference (s b E : UInt32) (some_bit : 1 ≤ s) (bits : s ≤ 30)
    (width : s.toNat + b.toNat < 64) (some_line : 1 ≤ E) (cache : Nat → SET)
    (blank : ∀ i < 2 ^ s.toNat, (cache i).Blank E.toNat) (trace : List Record)
    (few : accesses trace < 2 ^ 32) :
    ∃ cache' param', simulate cache (startParam s b E) trace = some (cache', param') ∧
      param'.nHit.toNat = (Reference.start.run s.toNat b.toNat trace : Reference E.toNat).nHit ∧
      param'.nMiss.toNat = (Reference.start.run s.toNat b.toNat trace : Reference E.toNat).nMiss ∧
      param'.nEvict.toNat = (Reference.start.run s.toNat b.toNat trace : Reference E.toNat).nEvict := by
  have low : 1 ≤ s.toNat := UInt32.le_iff_toNat_le.mp some_bit
  have high : s.toNat ≤ 30 := UInt32.le_iff_toNat_le.mp bits
  obtain ⟨cache', param', run, refines⟩ := (Refines.start high b blank).run low width
    (UInt32.le_iff_toNat_le.mp some_line) trace (by simpa [Reference.start] using few)
  exact ⟨cache', param', run, refines.nHit, refines.nMiss, refines.nEvict⟩

/-- Two sets of one line each, never used, with arbitrary other contents. -/
def blankCache : Nat → SET := fun _ => ⟨[⟨7, false, 9⟩], 0⟩

/-- A modification and a load that evicts. -/
def shortTrace : List Record := [⟨'I', 0⟩, ⟨'M', 4⟩, ⟨'L', 6⟩]

theorem simulate_eq_reference_shortTrace :
    ∃ cache' param', simulate blankCache (startParam 1 0 1) shortTrace = some (cache', param') ∧
      param'.nHit.toNat = (Reference.start.run 1 0 shortTrace : Reference 1).nHit ∧
      param'.nMiss.toNat = (Reference.start.run 1 0 shortTrace : Reference 1).nMiss ∧
      param'.nEvict.toNat = (Reference.start.run 1 0 shortTrace : Reference 1).nEvict :=
  simulate_eq_reference 1 0 1 (by decide) (by decide) (by decide) (by decide) blankCache
    (fun _ _ => ⟨rfl, rfl, by simp [blankCache]⟩) shortTrace (by decide)

end SysProg.Csim

import SysProg.Csim.Refinement
import SysProg.Logic.Runs

/-!
# Traces that steer the simulator

Hits in one set bring the 32-bit hit counter to any value without touching the
other sets.  A hit at which the counter wraps is taken for a miss as well, so
that a trace can evict a line of its choice and set the access counter of a set
to any value on the way.
-/

namespace SysProg.Csim

open Logic

/-- One access as a step of the simulator. -/
def access (state : (Nat → SET) × PARAM) (addr : UInt64) : Option ((Nat → SET) × PARAM) :=
  accessCache state.1 state.2 addr

/-- The addresses that the records of a trace access. -/
def addresses (trace : List Record) : List UInt64 :=
  trace.flatMap fun r => List.replicate r.accesses r.addr

theorem addresses_length (trace : List Record) : (addresses trace).length = accesses trace := by
  simp [addresses, accesses, List.length_flatMap]

theorem addresses_first {past trace : List Record} (first : past <+: trace) :
    addresses past <+: addresses trace := by
  obtain ⟨later, rfl⟩ := first
  exact ⟨addresses later, List.flatMap_append.symm⟩

/-- A record makes its accesses. -/
theorem simulateRecord_eq_replay (state : (Nat → SET) × PARAM) (r : Record) :
    simulateRecord state.1 state.2 r =
      Machine.replay access state (List.replicate r.accesses r.addr) := by
  rcases simulateRecord_cases state.1 state.2 r with ⟨two, made⟩ | ⟨one, made⟩ | ⟨none, made⟩
  · rw [two, made]
    simp [List.replicate, Machine.replay, access]
  · rw [one, made]
    simp [Machine.replay, access]
  · rw [none, made]
    rfl

/-- A trace makes the accesses of its records. -/
theorem simulate_eq_replay_addresses (state : (Nat → SET) × PARAM) (trace : List Record) :
    simulate state.1 state.2 trace = Machine.replay access state (addresses trace) := by
  induction trace generalizing state with
  | nil => rfl
  | cons r rest ih =>
      have split : addresses (r :: rest) = List.replicate r.accesses r.addr ++ addresses rest := rfl
      rw [split, Machine.replay_append, ← simulateRecord_eq_replay, simulate]
      cases simulateRecord state.1 state.2 r with
      | none => rfl
      | some result => exact ih result

/-! ## The search -/

section Search

variable {Tag : UInt64} {line : LINE} {before after lines : List LINE} {Ei emptyLine : Nat}
  {setFull : Bool}

/-- Valid lines with other tags change nothing. -/
theorem search_past (others : ∀ line ∈ before, line.valid = true ∧ line.tag ≠ Tag) :
    search Tag (before ++ lines) Ei emptyLine setFull =
      search Tag lines (Ei + before.length) emptyLine setFull := by
  induction before generalizing Ei with
  | nil => rfl
  | cons line rest ih =>
      obtain ⟨valid, other⟩ := others line List.mem_cons_self
      have later := @ih (Ei + 1) fun l member => others l (List.mem_cons_of_mem _ member)
      rw [List.cons_append, search, if_pos valid, if_neg other, later, List.length_cons,
        Nat.add_assoc, Nat.add_comm 1]

/-- The search ends at a line with the tag. -/
theorem search_here (valid : line.valid = true) (same : line.tag = Tag) :
    search Tag (line :: after) Ei emptyLine setFull = ⟨some Ei, emptyLine, setFull⟩ := by
  rw [search, if_pos valid, if_pos same]

/-- Empty lines behind the lowest one change nothing. -/
theorem search_behind (invalid : ∀ line ∈ lines, line.valid = false) (lower : emptyLine ≤ Ei) :
    search Tag lines Ei emptyLine false = ⟨none, emptyLine, false⟩ := by
  induction lines generalizing Ei with
  | nil => rfl
  | cons line rest ih =>
      have least : (if emptyLine < Ei then emptyLine else Ei) = emptyLine := by
        split <;> omega
      rw [search, if_neg (by simp [invalid line List.mem_cons_self]), least]
      exact ih (fun l member => invalid l (List.mem_cons_of_mem _ member)) (by omega)

/-- Behind valid lines with other tags the first of the empty lines is found. -/
theorem search_empty (others : ∀ line ∈ before, line.valid = true ∧ line.tag ≠ Tag)
    (invalid : ∀ l ∈ line :: after, l.valid = false) (inside : before.length ≤ emptyLine) :
    search Tag (before ++ line :: after) 0 emptyLine true = ⟨none, before.length, false⟩ := by
  obtain ⟨here, behind⟩ := List.forall_mem_cons.mp invalid
  have least : (if emptyLine < 0 + before.length then emptyLine else 0 + before.length) =
      before.length := by
    split <;> omega
  rw [search_past others, search, if_neg (by simp [here]), least]
  exact search_behind behind (by omega)

end Search

/-! ## One access to a set -/

/-- A valid line of the set has the tag. -/
def SET.Has (set : SET) (Tag : UInt64) : Prop :=
  ∃ line ∈ set.lines, line.valid = true ∧ line.tag = Tag

/-- The line with the least timestamp that the second loop of `accessCache`
finds. -/
def SET.victim (set : SET) : Nat :=
  match set.lines with
  | [] => 0
  | first :: rest => leastRecentLine rest 1 0 first.useTime

section OneSet

variable {set set' : SET} {param param' : PARAM} {Tag : UInt64} {before after : List LINE}
  {line : LINE}

/-- A stamp that leaves a line with the tag as it is leaves the tag in the set. -/
theorem SET.Has.stamp (has : set.Has Tag) (Ei : Nat) {change : LINE → LINE}
    (keeps : ∀ line : LINE, line.valid = true → line.tag = Tag →
      (change line).valid = true ∧ (change line).tag = Tag) :
    (set.stamp Ei change).Has Tag := by
  obtain ⟨line, member, valid, same⟩ := has
  obtain ⟨j, inside, rfl⟩ := List.getElem_of_mem member
  refine ⟨_, List.getElem_mem (n := j) (by simpa [SET.stamp] using inside), ?_⟩
  simp only [SET.stamp, List.getElem_modify]
  split
  · exact keeps _ valid same
  · exact ⟨valid, same⟩

/-- A hit below the limit of the hit counter. -/
theorem accessSet_hit (lines : set.lines = before ++ line :: after)
    (others : ∀ l ∈ before, l.valid = true ∧ l.tag ≠ Tag) (valid : line.valid = true)
    (same : line.tag = Tag) (below : param.nHit < param.nHit + 1) :
    accessSet set param Tag =
      some (set.stamp before.length id, { param with nHit := param.nHit + 1 }) := by
  simp only [accessSet, lines, search_past others, search_here valid same, Nat.zero_add]
  rw [if_pos below]

/-- The hit at which the hit counter wraps evicts a line as well. -/
theorem accessSet_wrap (lines : set.lines = before ++ line :: after)
    (others : ∀ l ∈ before, l.valid = true ∧ l.tag ≠ Tag) (valid : line.valid = true)
    (same : line.tag = Tag) (wraps : param.nHit + 1 = 0) :
    accessSet set param Tag =
      some ((set.stamp before.length id).stamp (set.stamp before.length id).victim
          fun line => { line with tag := Tag },
        { param with nHit := 0, nMiss := param.nMiss + 1, nEvict := param.nEvict + 1 }) := by
  have notBelow : ¬ param.nHit < 0 := UInt32.not_lt_zero
  have stamped : (set.stamp before.length id).lines = before ++ set.mark line :: after := by
    simp only [SET.stamp, lines]
    exact modify_middle before after line _
  simp only [accessSet, lines, search_past others, search_here valid same, Nat.zero_add, wraps]
  rw [if_neg notBelow]
  simp only [replaceLine, SET.victim, if_true]
  cases first : (set.stamp before.length id).lines with
  | nil =>
      rw [stamped] at first
      simp at first
  | cons l rest => rfl

/-- A miss with an empty line behind valid ones. -/
theorem accessSet_fill (lines : set.lines = before ++ line :: after)
    (others : ∀ l ∈ before, l.valid = true ∧ l.tag ≠ Tag)
    (invalid : ∀ l ∈ line :: after, l.valid = false) (room : before.length ≤ param.E.toNat) :
    accessSet set param Tag =
      some (set.stamp before.length fun line => { line with tag := Tag, valid := true },
        { param with nMiss := param.nMiss + 1 }) := by
  have missed : ¬ param.nHit < param.nHit := UInt32.lt_irrefl _
  simp only [accessSet, lines, search_empty others invalid room]
  rw [if_neg missed]
  rfl

/-- An access to a tag that the set has counts a hit and leaves the tag. -/
theorem accessSet_has (has : set.Has Tag) (param : PARAM) :
    ∃ set' param', accessSet set param Tag = some (set', param') ∧
      param'.nHit = param.nHit + 1 ∧ set'.Has Tag := by
  obtain ⟨line, member, valid, same⟩ := has
  have searched := search_searched Tag set.lines 0 param.E.toNat true
  unfold accessSet
  generalize search Tag set.lines 0 param.E.toNat true = scan at searched ⊢
  cases searched with
  | full absent valids => exact absurd same (absent line member valid)
  | room before after l absent split invalid => exact absurd same (absent line member valid)
  | hit before after l split isValid isSame found =>
      have stamped : (set.stamp (0 + before.length) id).Has Tag :=
        SET.Has.stamp ⟨line, member, valid, same⟩ _ fun _ valid same => ⟨valid, same⟩
      simp only [found]
      by_cases below : param.nHit < param.nHit + 1
      · rw [if_pos below]
        exact ⟨_, _, rfl, rfl, stamped⟩
      · rw [if_neg below]
        unfold replaceLine
        by_cases full : scan.setFull = true
        · simp only [if_pos full]
          cases lines : (set.stamp (0 + before.length) id).lines with
          | nil =>
              obtain ⟨l, inside, -⟩ := stamped
              rw [lines] at inside
              cases inside
          | cons first rest =>
              exact ⟨_, _, rfl, rfl, stamped.stamp _ fun _ valid _ => ⟨valid, rfl⟩⟩
        · simp only [if_neg full]
          exact ⟨_, _, rfl, rfl, stamped.stamp _ fun _ _ _ => ⟨rfl, rfl⟩⟩

end OneSet

/-! ## Addresses -/

/-- An address in set `i` with the given tag. -/
def address (s b : UInt32) (i tag : Nat) : UInt64 :=
  UInt64.ofNat (tag * 2 ^ (s.toNat + b.toNat) + i * 2 ^ b.toNat)

/-- The geometry in the parameters. -/
structure Geometry (s b E : UInt32) (param : PARAM) : Prop where
  setBits : param.s = s
  blockBits : param.b = b
  lineCount : param.E = E
  setCount : param.S.toNat = 2 ^ s.toNat

section Addresses

variable {s b E : UInt32} {i tag : Nat} {set set' : SET} {param param' : PARAM} {Tag : UInt64}

/-- A miss is counted, with or without an eviction. -/
theorem replaceLine_param {scan : Scan}
    (replaced : replaceLine set param Tag scan = some (set', param')) :
    param' = { param with nMiss := param.nMiss + 1 } ∨
      param' = { param with nMiss := param.nMiss + 1, nEvict := param.nEvict + 1 } := by
  simp only [replaceLine] at replaced
  split at replaced
  · split at replaced
    · cases replaced
    · cases replaced
      exact .inr rfl
  · cases replaced
    exact .inl rfl

/-- An access changes only the counters of the parameters. -/
theorem Geometry.accessSet (geometry : Geometry s b E param)
    (accessed : accessSet set param Tag = some (set', param')) : Geometry s b E param' := by
  obtain ⟨setBits, blockBits, lineCount, setCount⟩ := geometry
  have replaced : ∀ (set : SET) (param : PARAM) (scan : Scan), Geometry s b E param →
      replaceLine set param Tag scan = some (set', param') → Geometry s b E param' := by
    rintro set param scan ⟨setBits, blockBits, lineCount, setCount⟩ replaced
    rcases replaceLine_param replaced with rfl | rfl
    · exact ⟨setBits, blockBits, lineCount, setCount⟩
    · exact ⟨setBits, blockBits, lineCount, setCount⟩
  simp only [Csim.accessSet] at accessed
  split at accessed
  · split at accessed
    · cases accessed
      exact ⟨setBits, blockBits, lineCount, setCount⟩
    · refine replaced _ _ _ ?_ accessed
      exact ⟨setBits, blockBits, lineCount, setCount⟩
  · rw [if_neg (UInt32.lt_irrefl _)] at accessed
    exact replaced _ _ _ ⟨setBits, blockBits, lineCount, setCount⟩ accessed

/-- An access takes place for the tag in the set. -/
theorem Geometry.accessCache (geometry : Geometry s b E param) {addr Set : UInt64}
    (shifts : decompose s b addr = some (Tag, Set)) (inside : Set.toNat < 2 ^ s.toNat)
    (cache : Nat → SET) :
    Csim.accessCache cache param addr = (Csim.accessSet (cache Set.toNat) param Tag).map fun result =>
      (Function.update cache Set.toNat result.1, result.2) := by
  rw [accessCache_eq, geometry.setBits, geometry.blockBits, shifts, Option.bind_some,
    if_pos (geometry.setCount ▸ inside)]

/-- An access in its set. -/
theorem access_eq {state : (Nat → SET) × PARAM} (geometry : Geometry s b E state.2)
    (some_bit : 1 ≤ s.toNat) (width : s.toNat + b.toNat < 64) (addr : UInt64) :
    ∃ Tag Set : UInt64, Tag.toNat = addr.toNat / 2 ^ (s.toNat + b.toNat) ∧
      Set.toNat = addr.toNat / 2 ^ b.toNat % 2 ^ s.toNat ∧
      access state addr = (accessSet (state.1 Set.toNat) state.2 Tag).map fun result =>
        (Function.update state.1 Set.toNat result.1, result.2) := by
  obtain ⟨Tag, Set, shifts, tag, index⟩ := exists_parts some_bit width addr
  have inside : Set.toNat < 2 ^ s.toNat := by
    rw [index]
    exact Nat.mod_lt _ (Nat.two_pow_pos _)
  exact ⟨Tag, Set, tag, index, geometry.accessCache shifts inside state.1⟩

/-- The set and the tag of an address. -/
theorem address_toNat (width : s.toNat + b.toNat < 64) (inside : i < 2 ^ s.toNat) (small : tag < 2) :
    (address s b i tag).toNat / 2 ^ (s.toNat + b.toNat) = tag ∧
      (address s b i tag).toNat / 2 ^ b.toNat % 2 ^ s.toNat = i := by
  have block := Nat.two_pow_pos b.toNat
  have whole : 2 ^ (s.toNat + b.toNat) = 2 ^ s.toNat * 2 ^ b.toNat := Nat.pow_add 2 _ _
  have below : i * 2 ^ b.toNat < 2 ^ (s.toNat + b.toNat) := by
    rw [whole]
    exact Nat.mul_lt_mul_of_pos_right inside block
  have half : 2 ^ (s.toNat + b.toNat) ≤ 2 ^ 63 := Nat.pow_le_pow_right (by decide) (by omega)
  have scaled : tag * 2 ^ (s.toNat + b.toNat) ≤ 2 ^ 63 :=
    le_trans (Nat.mul_le_mul_right _ (by omega : tag ≤ 1)) (by omega)
  have value : (address s b i tag).toNat =
      tag * 2 ^ (s.toNat + b.toNat) + i * 2 ^ b.toNat := by
    unfold address
    rw [UInt64.toNat_ofNat', Nat.mod_eq_of_lt]
    omega
  rw [value]
  constructor
  · rw [Nat.mul_comm tag, Nat.mul_add_div (Nat.two_pow_pos _), Nat.div_eq_of_lt below, Nat.add_zero]
  · rw [whole, ← Nat.mul_assoc, ← Nat.add_mul, Nat.mul_div_cancel _ block,
      Nat.mul_add_mod_of_lt inside]

/-- An access to an address in its set. -/
theorem access_address {state : (Nat → SET) × PARAM} (geometry : Geometry s b E state.2)
    (some_bit : 1 ≤ s.toNat) (width : s.toNat + b.toNat < 64) (inside : i < 2 ^ s.toNat)
    (small : tag < 2) :
    access state (address s b i tag) =
      (accessSet (state.1 i) state.2 (UInt64.ofNat tag)).map fun result =>
        (Function.update state.1 i result.1, result.2) := by
  obtain ⟨Tag, Set, isTag, isSet, accessed⟩ :=
    access_eq geometry some_bit width (address s b i tag)
  obtain ⟨tagValue, setValue⟩ := address_toNat width inside small
  rw [tagValue] at isTag
  rw [setValue] at isSet
  have same : Tag = UInt64.ofNat tag := by
    apply UInt64.toNat_inj.mp
    rw [isTag, UInt64.toNat_ofNat', Nat.mod_eq_of_lt (by omega)]
  rw [accessed, isSet, same]

end Addresses

/-! ## Steering one set by hits in another -/

/-- Two sets of a geometry. -/
structure TwoSets (s b : UInt32) (i o : Nat) : Prop where
  some_bit : 1 ≤ s.toNat
  width : s.toNat + b.toNat < 64
  inside : i < 2 ^ s.toNat
  away : o < 2 ^ s.toNat
  differ : o ≠ i

/-- The hit counter, the contents of set `i`, and a line with tag 0 in set
`o`. -/
structure Steered (s b E : UInt32) (i o : Nat) (hits : UInt32) (set : SET)
    (state : (Nat → SET) × PARAM) : Prop where
  geometry : Geometry s b E state.2
  nHit : state.2.nHit = hits
  here : state.1 i = set
  other : (state.1 o).Has 0

/-- The accesses to set `o` that bring the hit counter from `hits` to
`wanted`. -/
def pump (s b : UInt32) (o : Nat) (hits wanted : UInt32) : List UInt64 :=
  List.replicate (wanted - hits).toNat (address s b o 0)

/-- A hit on a tag in set `i` that does not wrap the hit counter. -/
def touch (s b : UInt32) (i o tag : Nat) : List UInt64 := address s b i tag :: pump s b o 1 0

/-- `n` touches. -/
def touches (s b : UInt32) (i o tag : Nat) : Nat → List UInt64
  | 0 => []
  | n + 1 => touch s b i o tag ++ touches s b i o tag n

/-- A hit on a tag in set `i` that wraps the hit counter while the access
counter of the set, now `useCnt`, goes from 0 to 2. -/
def turn (s b : UInt32) (i o tag : Nat) (useCnt : UInt32) : List UInt64 :=
  touches s b i o tag (0 - useCnt).toNat ++ (pump s b o 0 (-1) ++ [address s b i tag])

/-- The set after a turn of a line with the tag. -/
def turned (Tag : UInt64) (before : List LINE) (line : LINE) (after : List LINE) : SET :=
  let marked : SET := ⟨before ++ { line with useTime := 1 } :: after, 1⟩
  marked.stamp marked.victim fun line => { line with tag := Tag }

section Steering

variable {s b E : UInt32} {i o tag : Nat} {hits useCnt : UInt32} {set : SET}
  {before after : List LINE} {line : LINE} {state : (Nat → SET) × PARAM}

/-- A hit in the other set. -/
theorem Steered.other_hit (steered : Steered s b E i o hits set state) (sets : TwoSets s b i o) :
    ∃ state', access state (address s b o 0) = some state' ∧
      Steered s b E i o (hits + 1) set state' := by
  obtain ⟨geometry, nHit, here, other⟩ := steered
  obtain ⟨set', param', accessed, counted, has⟩ := accessSet_has other state.2
  have result := access_address geometry sets.some_bit sets.width sets.away (by decide : 0 < 2)
  rw [show UInt64.ofNat 0 = 0 from rfl, accessed] at result
  refine ⟨_, result, geometry.accessSet accessed, ?_, ?_, ?_⟩
  · exact counted.trans (by rw [nHit])
  · exact (Function.update_of_ne sets.differ.symm _ _).trans here
  · simpa using has

/-- An access to set `i`. -/
theorem Steered.access_here (steered : Steered s b E i o hits set state) (sets : TwoSets s b i o)
    (small : tag < 2) {set' : SET} {param' : PARAM}
    (accessed : accessSet set state.2 (UInt64.ofNat tag) = some (set', param')) :
    ∃ state', access state (address s b i tag) = some state' ∧
      Steered s b E i o param'.nHit set' state' := by
  obtain ⟨geometry, nHit, here, other⟩ := steered
  have result := access_address geometry sets.some_bit sets.width sets.inside small
  rw [here, accessed] at result
  refine ⟨_, result, geometry.accessSet accessed, rfl, ?_, ?_⟩
  · simp
  · simp only [Function.update_of_ne sets.differ]
    exact other

/-- Hits in the other set bring the hit counter to any value. -/
theorem Steered.pump (steered : Steered s b E i o hits set state) (sets : TwoSets s b i o)
    (wanted : UInt32) :
    ∃ state', Machine.replay access state (pump s b o hits wanted) = some state' ∧
      Steered s b E i o wanted set state' := by
  have some_hits : ∀ (n : Nat) {hits : UInt32} {state : (Nat → SET) × PARAM},
      Steered s b E i o hits set state →
      ∃ state', Machine.replay access state (List.replicate n (address s b o 0)) = some state' ∧
        Steered s b E i o (hits + UInt32.ofNat n) set state' := by
    intro n
    induction n with
    | zero =>
        intro hits state steered
        refine ⟨state, rfl, ?_⟩
        simpa using steered
    | succ n ih =>
        intro hits state steered
        obtain ⟨state1, first, next⟩ := steered.other_hit sets
        obtain ⟨state', later, last⟩ := ih next
        refine ⟨state', ?_, ?_⟩
        · rw [List.replicate_succ, Machine.replay, first]
          exact later
        · have total : hits + UInt32.ofNat (n + 1) = hits + 1 + UInt32.ofNat n := by
            rw [UInt32.ofNat_add, UInt32.add_comm (UInt32.ofNat n), ← UInt32.add_assoc]
            rfl
          rw [total]
          exact last
  obtain ⟨state', run, last⟩ := some_hits (wanted - hits).toNat steered
  have reached : hits + UInt32.ofNat (wanted - hits).toNat = wanted := by
    rw [UInt32.ofNat_toNat, UInt32.add_comm, UInt32.sub_add_cancel]
  rw [reached] at last
  exact ⟨state', run, last⟩

/-- A touch of a line. -/
theorem Steered.touch (steered : Steered s b E i o 0 ⟨before ++ line :: after, useCnt⟩ state)
    (sets : TwoSets s b i o) (small : tag < 2)
    (others : ∀ l ∈ before, l.valid = true ∧ l.tag ≠ UInt64.ofNat tag)
    (valid : line.valid = true) (same : line.tag = UInt64.ofNat tag) :
    ∃ state', Machine.replay access state (touch s b i o tag) = some state' ∧
      Steered s b E i o 0
        ⟨before ++ { line with useTime := useCnt + 1 } :: after, useCnt + 1⟩ state' := by
  have below : state.2.nHit < state.2.nHit + 1 := by
    rw [steered.nHit]
    decide
  obtain ⟨state1, hit, at1⟩ := steered.access_here sets small
    (accessSet_hit rfl others valid same below)
  simp only [SET.stamp, modify_middle, steered.nHit] at at1
  obtain ⟨state', pumped, last⟩ := at1.pump sets 0
  exact ⟨state', Machine.replay_trans (Machine.replay_one hit) pumped, last⟩

/-- Touches advance the access counter of the set. -/
theorem Steered.touches (n : Nat)
    (steered : Steered s b E i o 0 ⟨before ++ line :: after, useCnt⟩ state)
    (sets : TwoSets s b i o) (small : tag < 2)
    (others : ∀ l ∈ before, l.valid = true ∧ l.tag ≠ UInt64.ofNat tag)
    (valid : line.valid = true) (same : line.tag = UInt64.ofNat tag) :
    ∃ state' time, Machine.replay access state (touches s b i o tag n) = some state' ∧
      Steered s b E i o 0
        ⟨before ++ { line with useTime := time } :: after, useCnt + UInt32.ofNat n⟩ state' := by
  induction n generalizing line useCnt state with
  | zero =>
      have none : useCnt + UInt32.ofNat 0 = useCnt := by simp
      refine ⟨state, line.useTime, rfl, ?_⟩
      rw [none]
      exact steered
  | succ n ih =>
      obtain ⟨state1, first, next⟩ := steered.touch sets small others valid same
      obtain ⟨state', time, later, last⟩ := ih next valid same
      refine ⟨state', time, Machine.replay_trans first later, ?_⟩
      have total : useCnt + UInt32.ofNat (n + 1) = useCnt + 1 + UInt32.ofNat n := by
        rw [UInt32.ofNat_add, UInt32.add_comm (UInt32.ofNat n), ← UInt32.add_assoc]
        rfl
      rw [total]
      exact last

/-- Touches bring the access counter of the set to any value. -/
theorem Steered.touches_to (wanted : UInt32)
    (steered : Steered s b E i o 0 ⟨before ++ line :: after, useCnt⟩ state)
    (sets : TwoSets s b i o) (small : tag < 2)
    (others : ∀ l ∈ before, l.valid = true ∧ l.tag ≠ UInt64.ofNat tag)
    (valid : line.valid = true) (same : line.tag = UInt64.ofNat tag) :
    ∃ state' time,
      Machine.replay access state (Csim.touches s b i o tag (wanted - useCnt).toNat) = some state' ∧
      Steered s b E i o 0 ⟨before ++ { line with useTime := time } :: after, wanted⟩ state' := by
  have reached : useCnt + UInt32.ofNat (wanted - useCnt).toNat = wanted := by
    rw [UInt32.ofNat_toNat, UInt32.add_comm, UInt32.sub_add_cancel]
  have touched := steered.touches (wanted - useCnt).toNat sets small others valid same
  rw [reached] at touched
  exact touched

/-- A turn. -/
theorem Steered.turn (steered : Steered s b E i o 0 ⟨before ++ line :: after, useCnt⟩ state)
    (sets : TwoSets s b i o) (small : tag < 2)
    (others : ∀ l ∈ before, l.valid = true ∧ l.tag ≠ UInt64.ofNat tag)
    (valid : line.valid = true) (same : line.tag = UInt64.ofNat tag) :
    ∃ state', Machine.replay access state (turn s b i o tag useCnt) = some state' ∧
      Steered s b E i o 0 (turned (UInt64.ofNat tag) before line after) state' := by
  obtain ⟨state1, time, touched, next⟩ := steered.touches_to 0 sets small others valid same
  obtain ⟨state2, pumped, full⟩ := next.pump sets (-1)
  have wraps : state2.2.nHit + 1 = 0 := by
    rw [full.nHit]
    decide
  obtain ⟨state', hit, last⟩ := full.access_here sets small
    (accessSet_wrap rfl others (by exact valid) (by exact same) wraps)
  refine ⟨state', Machine.replay_trans touched
    (Machine.replay_trans pumped (Machine.replay_one hit)), ?_⟩
  have marked : (SET.stamp ⟨before ++ { line with useTime := time } :: after, 0⟩ before.length id) =
      ⟨before ++ { line with useTime := 1 } :: after, 1⟩ := by
    simp only [SET.stamp, modify_middle, UInt32.zero_add]
    rfl
  simp only [marked] at last
  exact last

/-- A miss that fills the first empty line behind valid ones. -/
theorem Steered.fill (steered : Steered s b E i o hits ⟨before ++ line :: after, useCnt⟩ state)
    (sets : TwoSets s b i o) (small : tag < 2)
    (others : ∀ l ∈ before, l.valid = true ∧ l.tag ≠ UInt64.ofNat tag)
    (invalid : ∀ l ∈ line :: after, l.valid = false) (room : before.length ≤ E.toNat) :
    ∃ state', access state (address s b i tag) = some state' ∧
      Steered s b E i o hits
        ⟨before ++ ⟨UInt64.ofNat tag, true, useCnt + 1⟩ :: after, useCnt + 1⟩ state' := by
  obtain ⟨state', missed, last⟩ := steered.access_here sets small
    (accessSet_fill rfl others invalid (by rw [steered.geometry.lineCount]; exact room))
  refine ⟨state', missed, ?_⟩
  simp only [SET.stamp, modify_middle, steered.nHit] at last
  exact last

end Steering

/-! ## What a turn evicts -/

/-- The lines with timestamp 0. -/
def zeros (lines : List LINE) : Nat := lines.countP fun line => line.useTime = 0

/-- A line with timestamp 0 has taken the tag at time 2. -/
def Recycled (Tag : UInt64) (lines lines' : List LINE) : Prop :=
  ∃ before line after, lines = before ++ line :: after ∧ line.useTime = 0 ∧
    lines' = before ++ { line with tag := Tag, useTime := 2 } :: after

section Turned

variable {Tag : UInt64} {before after lines lines' : List LINE} {line : LINE}

theorem Recycled.zeros_eq (recycled : Recycled Tag lines lines') : zeros lines = zeros lines' + 1 := by
  obtain ⟨before, line, after, rfl, zero, rfl⟩ := recycled
  simp [zeros, List.countP_append, zero]
  omega

/-- Recycling changes no valid field. -/
theorem Recycled.valid_eq (recycled : Recycled Tag lines lines') :
    lines'.map LINE.valid = lines.map LINE.valid := by
  obtain ⟨before, line, after, rfl, zero, rfl⟩ := recycled
  simp

/-- A property of the recycled lines. -/
theorem Recycled.forall (recycled : Recycled Tag lines lines') {P : LINE → Prop}
    (holds : ∀ line ∈ lines, P line)
    (keeps : ∀ line, P line → P { line with tag := Tag, useTime := 2 }) : ∀ line ∈ lines', P line := by
  obtain ⟨before, line, after, rfl, zero, rfl⟩ := recycled
  intro l member
  rcases List.mem_append.mp member with left | right
  · exact holds l (List.mem_append_left _ left)
  · rcases List.mem_cons.mp right with rfl | right
    · exact keeps line (holds line (by simp))
    · exact holds l (List.mem_append_right _ (List.mem_cons_of_mem _ right))

theorem zeros_eq_zero : zeros lines = 0 ↔ ∀ line ∈ lines, 1 ≤ line.useTime := by
  have positive : ∀ time : UInt32, ¬ time = 0 ↔ 1 ≤ time := by
    intro time
    rw [UInt32.le_iff_toNat_le, ← UInt32.toNat_inj]
    change ¬ time.toNat = 0 ↔ 1 ≤ time.toNat
    omega
  simp [zeros, List.countP_eq_zero, positive]

/-- The first line stays the victim when no later one is older. -/
theorem leastRecentLine_least {Ei victimLine : Nat} {leastRecent : UInt32}
    (least : ∀ line ∈ lines, leastRecent ≤ line.useTime) :
    leastRecentLine lines Ei victimLine leastRecent = victimLine := by
  rcases leastRecentLine_cases lines Ei victimLine leastRecent with
    ⟨result, -⟩ | ⟨before, victim, after, rfl, -, below, -⟩
  · exact result
  · exact absurd below (UInt32.not_lt.mpr (least victim (by simp)))

/-- While a line has timestamp 0, a turn recycles such a line. -/
theorem turned_recycles (Tag : UInt64) (line : LINE) (later : ∀ l ∈ before, l.useTime ≠ 0)
    (some_zero : zeros after ≠ 0) :
    ∃ after', Recycled Tag after after' ∧ turned Tag before line after =
      ⟨before ++ { line with useTime := 1 } :: after', 2⟩ := by
  obtain ⟨zero, member, isZero⟩ : ∃ zero ∈ after, zero.useTime = 0 := by
    simpa [zeros, List.countP_eq_zero] using some_zero
  let marked : SET := ⟨before ++ { line with useTime := 1 } :: after, 1⟩
  obtain ⟨front, victim, back, split, found, least⟩ :
      ∃ front victim back, marked.lines = front ++ victim :: back ∧
        marked.victim = front.length ∧ ∀ o ∈ marked.lines, victim.useTime ≤ o.useTime := by
    unfold SET.victim
    cases lines : marked.lines with
    | nil => simp [marked] at lines
    | cons first rest => exact exists_victim first rest
  have victimZero : victim.useTime = 0 := by
    have atMost := least zero (by simp [marked, member])
    rw [isZero] at atMost
    exact UInt32.le_zero_iff.mp atMost
  have behind : ∃ between, front = before ++ { line with useTime := 1 } :: between ∧
      after = between ++ victim :: back := by
    rcases List.append_eq_append_iff.mp split with ⟨between, split', rest⟩ | ⟨between, split', rest⟩
    · cases between with
      | nil =>
          cases rest
          cases victimZero
      | cons first between =>
          cases rest
          exact ⟨between, split', rfl⟩
    · cases between with
      | nil =>
          cases rest
          cases victimZero
      | cons first between =>
          cases rest
          exact absurd victimZero (later _ (by simp [split']))
  obtain ⟨between, isFront, isAfter⟩ := behind
  refine ⟨between ++ { victim with tag := Tag, useTime := 2 } :: back,
    ⟨between, victim, back, isAfter, victimZero, rfl⟩, ?_⟩
  change marked.stamp marked.victim _ = _
  simp only [SET.stamp, found, split, modify_middle]
  simp [isFront, marked]

/-- Without a timestamp 0 a turn of the first line evicts that line. -/
theorem turned_first (none_zero : zeros after = 0) :
    turned Tag [] line after = ⟨{ line with tag := Tag, useTime := 2 } :: after, 2⟩ := by
  have victim : leastRecentLine after 1 0 1 = 0 := leastRecentLine_least (zeros_eq_zero.mp none_zero)
  simp [turned, SET.victim, SET.stamp, victim]

/-- Without a timestamp 0 a turn of the second line evicts it when the first
one is newer. -/
theorem turned_second (first : LINE) (newer : first.useTime = 2) (none_zero : zeros after = 0) :
    turned Tag [first] line after =
      ⟨first :: { line with tag := Tag, useTime := 2 } :: after, 2⟩ := by
  have victim : leastRecentLine after 2 1 1 = 1 := leastRecentLine_least (zeros_eq_zero.mp none_zero)
  simp [turned, SET.victim, SET.stamp, leastRecentLine, newer, victim]

/-- Without a timestamp 0 a turn of the second line evicts the first one when
that is as old. -/
theorem turned_second_old (first : LINE) (same : first.useTime = 1) (none_zero : zeros after = 0) :
    turned Tag [first] line after =
      ⟨{ first with tag := Tag, useTime := 2 } :: { line with useTime := 1 } :: after, 2⟩ := by
  have victim : leastRecentLine after 2 0 1 = 0 := leastRecentLine_least (zeros_eq_zero.mp none_zero)
  simp [turned, SET.victim, SET.stamp, leastRecentLine, same, victim]

end Turned

/-! ## Several turns -/

/-- The access counter after `n` turns. -/
def turnedCnt (useCnt : UInt32) : Nat → UInt32
  | 0 => useCnt
  | _ + 1 => 2

/-- `n` turns. -/
def turns (s b : UInt32) (i o tag : Nat) (useCnt : UInt32) : Nat → List UInt64
  | 0 => []
  | n + 1 => turns s b i o tag useCnt n ++ turn s b i o tag (turnedCnt useCnt n)

section Turns

variable {s b E : UInt32} {i o tag : Nat} {useCnt : UInt32} {before after : List LINE} {line : LINE}
  {state : (Nat → SET) × PARAM}

/-- Turns recycle the lines with timestamp 0. -/
theorem Steered.turns (n : Nat)
    (steered : Steered s b E i o 0 ⟨before ++ line :: after, useCnt⟩ state)
    (sets : TwoSets s b i o) (small : tag < 2)
    (others : ∀ l ∈ before, l.valid = true ∧ l.tag ≠ UInt64.ofNat tag)
    (later : ∀ l ∈ before, l.useTime ≠ 0)
    (valid : line.valid = true) (same : line.tag = UInt64.ofNat tag) (enough : n ≤ zeros after) :
    ∃ state' time after', Machine.replay access state (turns s b i o tag useCnt n) = some state' ∧
      Steered s b E i o 0 ⟨before ++ { line with useTime := time } :: after', turnedCnt useCnt n⟩
        state' ∧
      Relation.ReflTransGen (Recycled (UInt64.ofNat tag)) after after' ∧
      zeros after' + n = zeros after ∧ (n ≠ 0 → time = 1) := by
  induction n with
  | zero =>
      exact ⟨state, line.useTime, after, rfl, steered, .refl, rfl, fun some_turn => absurd rfl some_turn⟩
  | succ n ih =>
      obtain ⟨state1, time, after1, run, next, recycled, count, -⟩ := ih (by omega)
      obtain ⟨state', turned, last⟩ := next.turn sets small others (by exact valid) (by exact same)
      obtain ⟨after', once, result⟩ := turned_recycles (UInt64.ofNat tag) { line with useTime := time }
        later (by omega : zeros after1 ≠ 0)
      rw [result] at last
      have fewer := once.zeros_eq
      exact ⟨state', 1, after', Machine.replay_trans run turned, last, recycled.tail once, by omega,
        fun _ => rfl⟩

/-- Recycling several times changes no valid field. -/
theorem recycled_valid {Tag : UInt64} {lines lines' : List LINE}
    (recycled : Relation.ReflTransGen (Recycled Tag) lines lines') :
    lines'.map LINE.valid = lines.map LINE.valid := by
  induction recycled with
  | refl => rfl
  | tail _ once ih => exact once.valid_eq.trans ih

theorem recycled_length {Tag : UInt64} {lines lines' : List LINE}
    (recycled : Relation.ReflTransGen (Recycled Tag) lines lines') :
    lines'.length = lines.length := by
  rw [← List.length_map LINE.valid, recycled_valid recycled, List.length_map]

/-- A property of lines recycled several times. -/
theorem recycled_forall {Tag : UInt64} {lines lines' : List LINE} {P : LINE → Prop}
    (recycled : Relation.ReflTransGen (Recycled Tag) lines lines') (holds : ∀ line ∈ lines, P line)
    (keeps : ∀ line, P line → P { line with tag := Tag, useTime := 2 }) : ∀ line ∈ lines', P line := by
  induction recycled with
  | refl => exact holds
  | tail _ once ih => exact once.forall ih keeps

end Turns

end SysProg.Csim

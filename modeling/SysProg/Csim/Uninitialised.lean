import SysProg.Csim.Steering

/-!
# What the lines hold before the first access

`main` sets the access counter of each set and leaves its lines as `malloc`
returns them.  What the simulator prints is independent of them exactly when
no valid field is set and only the first timestamp of a set is not zero.  Valid
fields and tags show at once; the other timestamps show when the hit counter
wraps and a set is evicted from while it has empty lines.
-/

namespace SysProg.Csim

open Logic

/-- The cache that `main` builds from the arrays of lines that `malloc`
returns. -/
def buildCache (memory : Nat → List LINE) : Nat → SET := fun Si => ⟨memory Si, 0⟩

/-- What `printSummary` is called with. -/
def PARAM.counts (param : PARAM) : UInt32 × UInt32 × UInt32 :=
  (param.nHit, param.nMiss, param.nEvict)

/-- The counts that `main` prints after a trace. -/
def summary (s b E : UInt32) (memory : Nat → List LINE) (trace : List Record) :
    Option (UInt32 × UInt32 × UInt32) :=
  (simulate (buildCache memory) (startParam s b E) trace).map fun result => result.2.counts

/-- Each set has its `E` lines. -/
def Allocated (s E : UInt32) (memory : Nat → List LINE) : Prop :=
  ∀ i < 2 ^ s.toNat, (memory i).length = E.toNat

/-- Lines of an empty cache. -/
def zeroed (E : UInt32) : Nat → List LINE := fun _ => List.replicate E.toNat ⟨0, false, 0⟩

/-- No valid field is set, and only the first timestamp may be. -/
structure Clean (lines : List LINE) : Prop where
  invalid : ∀ line ∈ lines, line.valid = false
  unused : ∀ line ∈ lines.tail, line.useTime = 0

section Zeroed

variable {s E : UInt32} {i : Nat}

theorem zeroed_allocated : Allocated s E (zeroed E) := fun _ _ => List.length_replicate

theorem eq_of_mem_zeroed {line : LINE} (member : line ∈ zeroed E i) : line = ⟨0, false, 0⟩ :=
  List.eq_of_mem_replicate member

theorem zeroed_clean : Clean (zeroed E i) where
  invalid line member := by rw [eq_of_mem_zeroed member]
  unused line member := by rw [eq_of_mem_zeroed (List.mem_of_mem_tail member)]

/-- The first line of an empty cache. -/
theorem zeroed_cons {others : Nat} (size : E.toNat = others + 1) :
    zeroed E i = ⟨0, false, 0⟩ :: List.replicate others ⟨0, false, 0⟩ := by
  rw [zeroed, size, List.replicate_succ]

end Zeroed

/-! ## Clean lines give the same counts -/

/-- Two lines that differ at most in the tag while they are empty. -/
structure LineAlike (line line' : LINE) : Prop where
  valid : line.valid = line'.valid
  useTime : line.useTime = line'.useTime
  tag : line.valid = true → line.tag = line'.tag

/-- Two sets whose lines are alike, but for the first timestamp of sets that are
empty. -/
structure SetAlike (set set' : SET) : Prop where
  useCnt : set.useCnt = set'.useCnt
  lines : ∃ line rest line' rest', set.lines = line :: rest ∧ set'.lines = line' :: rest' ∧
    List.Forall₂ LineAlike rest rest' ∧ (LineAlike line line' ∨
      (∀ l ∈ line :: rest, l.valid = false) ∧ ∀ l ∈ line' :: rest', l.valid = false)

section Alike

variable {set set' : SET} {lines lines' : List LINE} {Tag : UInt64}

theorem search_alike (alike : List.Forall₂ LineAlike lines lines') (Ei emptyLine : Nat)
    (setFull : Bool) :
    search Tag lines Ei emptyLine setFull = search Tag lines' Ei emptyLine setFull := by
  induction alike generalizing Ei emptyLine setFull with
  | nil => rfl
  | @cons line line' rest rest' same _ ih =>
      simp only [search, ← same.valid]
      by_cases valid : line.valid = true
      · rw [if_pos valid, if_pos valid, same.tag valid, ih]
      · rw [if_neg valid, if_neg valid, ih]

theorem leastRecentLine_alike (alike : List.Forall₂ LineAlike lines lines') (Ei victimLine : Nat)
    (leastRecent : UInt32) :
    leastRecentLine lines Ei victimLine leastRecent =
      leastRecentLine lines' Ei victimLine leastRecent := by
  induction alike generalizing Ei victimLine leastRecent with
  | nil => rfl
  | cons same _ ih => simp only [leastRecentLine, ← same.useTime, ih]

theorem modify_alike {change : LINE → LINE} (alike : List.Forall₂ LineAlike lines lines')
    (keeps : ∀ line line', LineAlike line line' → LineAlike (change line) (change line')) (Ei : Nat) :
    List.Forall₂ LineAlike (lines.modify Ei change) (lines'.modify Ei change) := by
  induction alike generalizing Ei with
  | nil => cases Ei <;> exact .nil
  | cons same rest ih =>
      cases Ei with
      | zero => exact .cons (keeps _ _ same) rest
      | succ Ei => exact .cons same (ih Ei)

/-- Sets of one size whose lines are all alike. -/
structure LinesAlike (set set' : SET) : Prop where
  useCnt : set.useCnt = set'.useCnt
  lines : List.Forall₂ LineAlike set.lines set'.lines
  some_line : set.lines ≠ []

theorem LinesAlike.setAlike (alike : LinesAlike set set') : SetAlike set set' := by
  obtain ⟨useCnt, lines, some_line⟩ := alike
  refine ⟨useCnt, ?_⟩
  generalize set.lines = left, set'.lines = right at lines some_line
  cases lines with
  | nil => exact absurd rfl some_line
  | cons first rest => exact ⟨_, _, _, _, rfl, rfl, rest, .inl first⟩

theorem LinesAlike.stamp (alike : LinesAlike set set') {change : LINE → LINE}
    (keeps : ∀ line line', LineAlike line line' → LineAlike (change line) (change line')) (Ei : Nat) :
    LinesAlike (set.stamp Ei change) (set'.stamp Ei change) := by
  obtain ⟨useCnt, lines, some_line⟩ := alike
  refine ⟨?_, ?_, ?_⟩
  · simp only [SET.stamp, useCnt]
  · simp only [SET.stamp, ← useCnt]
    refine modify_alike lines (fun line line' same => ?_) Ei
    exact ⟨(keeps _ _ same).valid, rfl, (keeps _ _ same).tag⟩
  · simpa [SET.stamp, List.modify_eq_nil_iff] using some_line

/-- A miss treats sets with the same lines alike. -/
theorem LinesAlike.replaceLine (alike : LinesAlike set set') (param : PARAM) (scan : Scan) :
    ∃ left right param', replaceLine set param Tag scan = some (left, param') ∧
      replaceLine set' param Tag scan = some (right, param') ∧ LinesAlike left right := by
  have lines := alike.lines
  have some_line := alike.some_line
  simp only [Csim.replaceLine]
  by_cases full : scan.setFull = true
  · simp only [if_pos full]
    cases left : set.lines with
    | nil => exact absurd left some_line
    | cons first rest =>
        cases right : set'.lines with
        | nil =>
            rw [left, right] at lines
            cases lines
        | cons first' rest' =>
            rw [left, right] at lines
            obtain ⟨same, others⟩ := List.forall₂_cons.mp lines
            dsimp only
            rw [← same.useTime, ← leastRecentLine_alike others]
            refine ⟨_, _, _, rfl, rfl, alike.stamp (fun line line' same => ?_) _⟩
            exact ⟨same.valid, same.useTime, fun _ => rfl⟩
  · simp only [if_neg full]
    refine ⟨_, _, _, rfl, rfl, alike.stamp (fun line line' same => ?_) _⟩
    exact ⟨rfl, same.useTime, fun _ => rfl⟩

/-- An access treats sets with the same lines alike. -/
theorem LinesAlike.accessSet (alike : LinesAlike set set') (param : PARAM) (Tag : UInt64) :
    ∃ left right param', accessSet set param Tag = some (left, param') ∧
      accessSet set' param Tag = some (right, param') ∧ LinesAlike left right := by
  simp only [Csim.accessSet, ← search_alike alike.lines]
  cases (search Tag set.lines 0 param.E.toNat true).hit with
  | none =>
      rw [if_neg (UInt32.lt_irrefl _), if_neg (UInt32.lt_irrefl _)]
      exact alike.replaceLine _ _
  | some Ei =>
      have stamped : LinesAlike (set.stamp Ei id) (set'.stamp Ei id) :=
        alike.stamp (fun _ _ same => same) Ei
      by_cases below : param.nHit < param.nHit + 1
      · simp only [if_pos below]
        exact ⟨_, _, _, rfl, rfl, stamped⟩
      · simp only [if_neg below]
        exact stamped.replaceLine _ _

/-- The first access to an empty set takes its first line. -/
theorem accessSet_first {line : LINE} {rest : List LINE} (lines : set.lines = line :: rest)
    (invalid : ∀ l ∈ line :: rest, l.valid = false) (param : PARAM) :
    accessSet set param Tag =
      some (⟨⟨Tag, true, set.useCnt + 1⟩ :: rest, set.useCnt + 1⟩,
        { param with nMiss := param.nMiss + 1 }) := by
  have split : set.lines = [] ++ line :: rest := lines
  have filled : accessSet set param Tag = _ :=
    accessSet_fill split (fun _ member => (nomatch member)) invalid (Nat.zero_le _)
  rw [filled]
  simp [SET.stamp, lines]

/-- An access treats alike sets alike. -/
theorem SetAlike.accessSet (alike : SetAlike set set') (param : PARAM) (Tag : UInt64) :
    ∃ left right param', accessSet set param Tag = some (left, param') ∧
      accessSet set' param Tag = some (right, param') ∧ SetAlike left right := by
  obtain ⟨useCnt, line, rest, line', rest', left, right, same, first⟩ := alike
  rcases first with first | ⟨invalid, invalid'⟩
  · have lines : LinesAlike set set' := by
      refine ⟨useCnt, ?_, ?_⟩
      · rw [left, right]
        exact .cons first same
      · rw [left]
        exact List.cons_ne_nil _ _
    obtain ⟨left', right', param', accessed, accessed', after⟩ := lines.accessSet param Tag
    exact ⟨left', right', param', accessed, accessed', after.setAlike⟩
  · refine ⟨_, _, _, accessSet_first left invalid param, accessSet_first right invalid' param, ?_⟩
    rw [useCnt]
    exact ⟨rfl, _, _, _, _, rfl, rfl, same, .inl ⟨rfl, rfl, fun _ => rfl⟩⟩

end Alike

/-! ## Whole traces -/

section Traces

variable {s b E : UInt32}

/-- A trace of loads replays the accesses. -/
theorem simulate_loads (cache : Nat → SET) (param : PARAM) (addrs : List UInt64) :
    simulate cache param (addrs.map fun addr => ⟨'L', addr⟩) =
      Machine.replay access (cache, param) addrs := by
  have loads : addresses (addrs.map fun addr => ⟨'L', addr⟩) = addrs := by
    simp [addresses, Record.accesses, List.flatMap_map]
  have replayed := simulate_eq_replay_addresses (cache, param) (addrs.map fun addr => ⟨'L', addr⟩)
  rw [loads] at replayed
  exact replayed

theorem startParam_geometry (bits : s ≤ 30) (b E : UInt32) :
    Geometry s b E (startParam s b E) :=
  ⟨rfl, rfl, rfl, startParam_S (UInt32.le_iff_toNat_le.mp bits) b E⟩

/-- Two states of the simulator with the same parameters and alike sets. -/
structure StateAlike (s b E : UInt32) (state state' : (Nat → SET) × PARAM) : Prop where
  geometry : Geometry s b E state.2
  param : state.2 = state'.2
  sets : ∀ i < 2 ^ s.toNat, SetAlike (state.1 i) (state'.1 i)

/-- An access treats alike states alike. -/
theorem StateAlike.access {state state' : (Nat → SET) × PARAM} (alike : StateAlike s b E state state')
    (some_bit : 1 ≤ s.toNat) (width : s.toNat + b.toNat < 64) (addr : UInt64) :
    ∃ left right, access state addr = some left ∧ access state' addr = some right ∧
      StateAlike s b E left right := by
  obtain ⟨geometry, param, sets⟩ := alike
  have inside : addr.toNat / 2 ^ b.toNat % 2 ^ s.toNat < 2 ^ s.toNat :=
    Nat.mod_lt _ (Nat.two_pow_pos _)
  obtain ⟨Tag, Set, isTag, isSet, left⟩ := access_eq geometry some_bit width addr
  obtain ⟨Tag', Set', isTag', isSet', right⟩ := access_eq (param ▸ geometry) some_bit width addr
  obtain rfl : Tag = Tag' := UInt64.toNat_inj.mp (isTag.trans isTag'.symm)
  obtain rfl : Set = Set' := UInt64.toNat_inj.mp (isSet.trans isSet'.symm)
  rw [← isSet] at inside
  obtain ⟨set, set', param', accessed, accessed', after⟩ :=
    (sets _ inside).accessSet state.2 Tag
  rw [accessed] at left
  rw [← param, accessed'] at right
  refine ⟨_, _, left, right, geometry.accessSet accessed, rfl, ?_⟩
  intro i valid
  by_cases here : i = Set.toNat
  · subst here
    simpa using after
  · simpa [Function.update_of_ne here] using sets i valid

/-- Clean lines of the same number are alike. -/
theorem Clean.setAlike {lines lines' : List LINE} (clean : Clean lines) (clean' : Clean lines')
    (same : lines.length = lines'.length) (some_line : 0 < lines.length) :
    SetAlike ⟨lines, 0⟩ ⟨lines', 0⟩ := by
  cases lines with
  | nil => cases some_line
  | cons line rest =>
      cases lines' with
      | nil => cases same
      | cons line' rest' =>
          refine ⟨rfl, line, rest, line', rest', rfl, rfl, ?_, .inr ⟨clean.invalid, clean'.invalid⟩⟩
          refine List.forall₂_iff_get.mpr ⟨Nat.succ.inj same, ?_⟩
          intro j inside inside'
          have invalid := clean.invalid _ (List.mem_cons_of_mem line (rest.get_mem ⟨j, inside⟩))
          have invalid' := clean'.invalid _ (List.mem_cons_of_mem line' (rest'.get_mem ⟨j, inside'⟩))
          refine ⟨invalid.trans invalid'.symm, ?_, ?_⟩
          · exact (clean.unused _ (rest.get_mem ⟨j, inside⟩)).trans
              (clean'.unused _ (rest'.get_mem ⟨j, inside'⟩)).symm
          · intro valid
            rw [invalid] at valid
            cases valid

/-- Two clean memories give the same counts after every trace. -/
theorem summary_clean (some_bit : 1 ≤ s) (bits : s ≤ 30) (width : s.toNat + b.toNat < 64)
    (some_line : 1 ≤ E) {memory memory' : Nat → List LINE} (allocated : Allocated s E memory)
    (allocated' : Allocated s E memory') (clean : ∀ i < 2 ^ s.toNat, Clean (memory i))
    (clean' : ∀ i < 2 ^ s.toNat, Clean (memory' i)) (trace : List Record) :
    ∃ counts, summary s b E memory trace = some counts ∧
      summary s b E memory' trace = some counts := by
  have positive : 0 < E.toNat := UInt32.le_iff_toNat_le.mp some_line
  have start : StateAlike s b E (buildCache memory, startParam s b E)
      (buildCache memory', startParam s b E) := by
    refine ⟨startParam_geometry bits b E, rfl, fun i valid => ?_⟩
    refine (clean i valid).setAlike (clean' i valid) ?_ ?_
    · rw [allocated i valid, allocated' i valid]
    · rw [allocated i valid]
      exact positive
  have keeps : ∀ state state' addr, StateAlike s b E state state' →
      ∃ left right, access state addr = some left ∧ access state' addr = some right ∧
        StateAlike s b E left right :=
    fun _ _ addr alike => alike.access (UInt32.le_iff_toNat_le.mp some_bit) width addr
  obtain ⟨left, right, run, run', last⟩ := Machine.replay_related keeps start (addresses trace)
  refine ⟨left.2.counts, ?_, ?_⟩
  · rw [summary, simulate_eq_replay_addresses (_, _), run]
    rfl
  · rw [summary, simulate_eq_replay_addresses (_, _), run', last.param]
    rfl

end Traces

/-! ## Set valid fields show -/

/-- The empty lines of a set. -/
def SET.empties (set : SET) : Nat := set.lines.countP fun line => !line.valid

section Empties

variable {set set' : SET} {param param' : PARAM} {Tag : UInt64} {lines : List LINE}
  {change : LINE → LINE}

theorem modify_empties (keeps : ∀ line, (change line).valid = line.valid) (Ei : Nat) :
    (lines.modify Ei change).countP (fun line => !line.valid) =
      lines.countP fun line => !line.valid := by
  induction lines generalizing Ei with
  | nil => simp
  | cons line rest ih =>
      cases Ei with
      | zero => simp [List.countP_cons, keeps]
      | succ Ei => simp [List.countP_cons, ih]

theorem stamp_empties (keeps : ∀ line, (change line).valid = line.valid) (Ei : Nat) :
    (set.stamp Ei change).empties = set.empties := by
  unfold SET.empties SET.stamp
  apply modify_empties
  exact keeps

theorem modify_fills {line : LINE} {Ei : Nat} (here : lines[Ei]? = some line)
    (invalid : line.valid = false) (fills : (change line).valid = true) :
    (lines.modify Ei change).countP (fun line => !line.valid) + 1 =
      lines.countP fun line => !line.valid := by
  induction lines generalizing Ei with
  | nil => cases here
  | cons first rest ih =>
      cases Ei with
      | zero =>
          cases here
          simp [invalid, fills]
      | succ Ei =>
          have later := ih (by simpa using here)
          simp only [List.modify_succ_cons, List.countP_cons]
          omega

/-- Once an empty line is met, the lowest one is known. -/
theorem search_settled {Ei emptyLine : Nat} {setFull : Bool} (lower : emptyLine ≤ Ei) :
    (search Tag lines Ei emptyLine setFull).emptyLine = emptyLine := by
  induction lines generalizing Ei setFull with
  | nil => rfl
  | cons line rest ih =>
      have least : (if emptyLine < Ei then emptyLine else Ei) = emptyLine := by
        split <;> omega
      unfold search
      rw [least]
      split
      · split
        · rfl
        · exact ih (by omega)
      · exact ih (by omega)

/-- A search that does not find the set full finds an empty line. -/
theorem search_room {Ei emptyLine : Nat}
    (room : (search Tag lines Ei emptyLine true).setFull = false) :
    ∃ j line, lines[j]? = some line ∧ line.valid = false ∧
      (search Tag lines Ei emptyLine true).emptyLine = min emptyLine (Ei + j) := by
  induction lines generalizing Ei with
  | nil => cases room
  | cons line rest ih =>
      by_cases valid : line.valid = true
      · by_cases same : line.tag = Tag
        · rw [search_here valid same] at room
          cases room
        · have go : search Tag (line :: rest) Ei emptyLine true =
              search Tag rest (Ei + 1) emptyLine true := by
            rw [search, if_pos valid, if_neg same]
          rw [go] at room ⊢
          obtain ⟨j, l, here, invalid, found⟩ := ih room
          refine ⟨j + 1, l, by simpa using here, invalid, ?_⟩
          rw [found, Nat.add_assoc, Nat.add_comm 1]
      · have least : (if emptyLine < Ei then emptyLine else Ei) = min emptyLine Ei := by
          split <;> omega
        refine ⟨0, line, rfl, by simpa using valid, ?_⟩
        rw [search, if_neg valid, least]
        exact search_settled (by omega)

theorem ne_succ (n : UInt32) : n ≠ n + 1 := by
  intro same
  have value := congrArg UInt32.toNat same
  rw [UInt32.toNat_add] at value
  change n.toNat = (n.toNat + 1) % 2 ^ 32 at value
  omega

/-- What an access does to the empty lines shows in the counts. -/
structure Fills (set set' : SET) (param param' : PARAM) : Prop where
  length : set'.lines.length = set.lines.length
  empties : (set'.empties + 1 = set.empties ∧ param'.nMiss = param.nMiss + 1 ∧
      param'.nEvict = param.nEvict) ∨
    (set'.empties = set.empties ∧
      ¬ (param'.nMiss = param.nMiss + 1 ∧ param'.nEvict = param.nEvict))

/-- A miss fills an empty line or evicts. -/
theorem replaceLine_fills {scan : Scan}
    (room : scan.setFull = false → ∃ line, set.lines[scan.emptyLine]? = some line ∧
      line.valid = false) (replaced : replaceLine set param Tag scan = some (set', param')) :
    Fills set set' param param' := by
  simp only [replaceLine] at replaced
  by_cases full : scan.setFull = true
  · rw [if_pos full] at replaced
    cases lines : set.lines with
    | nil =>
        rw [lines] at replaced
        cases replaced
    | cons first rest =>
        simp only [lines] at replaced
        cases replaced
        refine ⟨by simp [SET.stamp], .inr ⟨?_, fun both => ?_⟩⟩
        · apply stamp_empties
          exact fun _ => rfl
        · exact ne_succ _ both.2.symm
  · rw [if_neg full] at replaced
    cases replaced
    obtain ⟨line, here, invalid⟩ := room (by simpa using full)
    refine ⟨by simp [SET.stamp], .inl ⟨?_, rfl, rfl⟩⟩
    exact modify_fills here invalid rfl

/-- An access fills an empty line exactly when it counts a miss without an
eviction. -/
theorem accessSet_fills (size : set.lines.length ≤ param.E.toNat)
    (accessed : accessSet set param Tag = some (set', param')) : Fills set set' param param' := by
  have room : (search Tag set.lines 0 param.E.toNat true).setFull = false →
      ∃ line, set.lines[(search Tag set.lines 0 param.E.toNat true).emptyLine]? = some line ∧
        line.valid = false := by
    intro notFull
    obtain ⟨j, line, here, invalid, found⟩ := search_room notFull
    obtain ⟨inside, -⟩ := List.getElem?_eq_some_iff.mp here
    rw [found, show min param.E.toNat (0 + j) = j by omega]
    exact ⟨line, here, invalid⟩
  simp only [accessSet] at accessed
  cases hit : (search Tag set.lines 0 param.E.toNat true).hit with
  | none =>
      simp only [hit] at accessed
      rw [if_neg (UInt32.lt_irrefl _)] at accessed
      exact replaceLine_fills room accessed
  | some Ei =>
      simp only [hit] at accessed
      have same : (set.stamp Ei id).empties = set.empties := stamp_empties (fun _ => rfl) Ei
      by_cases below : param.nHit < param.nHit + 1
      · rw [if_pos below] at accessed
        cases accessed
        exact ⟨by simp [SET.stamp], .inr ⟨same, fun both => ne_succ _ both.1⟩⟩
      · rw [if_neg below] at accessed
        have roomStamped : (search Tag set.lines 0 param.E.toNat true).setFull = false →
            ∃ line, (set.stamp Ei id).lines[(search Tag set.lines 0 param.E.toNat
              true).emptyLine]? = some line ∧ line.valid = false := by
          intro notFull
          obtain ⟨line, here, invalid⟩ := room notFull
          simp only [SET.stamp, List.getElem?_modify, here]
          split
          · exact ⟨_, rfl, invalid⟩
          · exact ⟨_, rfl, invalid⟩
        have filled := replaceLine_fills roomStamped accessed
        refine ⟨filled.length.trans (by simp [SET.stamp]), ?_⟩
        rw [← same]
        exact filled.empties

end Empties

section Compare

variable {s b E : UInt32} {x y x' y' : (Nat → SET) × PARAM}

/-- Sets of `E` lines under a geometry. -/
structure Sized (s b E : UInt32) (state : (Nat → SET) × PARAM) : Prop where
  geometry : Geometry s b E state.2
  size : ∀ i < 2 ^ s.toNat, (state.1 i).lines.length = E.toNat

/-- One access fills an empty line of the set of its address or none. -/
theorem Sized.access (sized : Sized s b E x) (some_bit : 1 ≤ s.toNat)
    (width : s.toNat + b.toNat < 64) {addr : UInt64} (taken : access x addr = some x') :
    Sized s b E x' ∧
      Fills (x.1 (addr.toNat / 2 ^ b.toNat % 2 ^ s.toNat))
        (x'.1 (addr.toNat / 2 ^ b.toNat % 2 ^ s.toNat)) x.2 x'.2 ∧
      ∀ i, i ≠ addr.toNat / 2 ^ b.toNat % 2 ^ s.toNat → x'.1 i = x.1 i := by
  have inside : addr.toNat / 2 ^ b.toNat % 2 ^ s.toNat < 2 ^ s.toNat :=
    Nat.mod_lt _ (Nat.two_pow_pos _)
  obtain ⟨Tag, Set, -, isSet, result⟩ := access_eq sized.geometry some_bit width addr
  rw [← isSet] at inside ⊢
  rw [taken] at result
  obtain ⟨⟨set', param'⟩, accessed, same⟩ := Option.map_eq_some_iff.mp result.symm
  subst same
  have size := sized.size _ inside
  have filled := accessSet_fills
    (by rw [size, sized.geometry.lineCount]) accessed
  refine ⟨⟨sized.geometry.accessSet accessed, fun i valid => ?_⟩, by simpa using filled, ?_⟩
  · by_cases here : i = Set.toNat
    · subst here
      simpa using filled.length.trans size
    · simpa [Function.update_of_ne here] using sized.size i valid
  · intro i elsewhere
    simp [Function.update_of_ne elsewhere]

/-- Two states that look alike fill as many empty lines of each set. -/
theorem empties_of_alike (alike : Machine.Alike access (fun state => state.2.counts) x y)
    (left : Sized s b E x) (right : Sized s b E y) (some_bit : 1 ≤ s.toNat)
    (width : s.toNat + b.toNat < 64) {addrs : List UInt64}
    (run : Machine.replay access x addrs = some x') (run' : Machine.replay access y addrs = some y')
    (i : Nat) : (x'.1 i).empties + (y.1 i).empties = (y'.1 i).empties + (x.1 i).empties := by
  induction addrs generalizing x y with
  | nil =>
      cases run
      cases run'
      exact Nat.add_comm _ _
  | cons addr rest ih =>
      obtain ⟨x1, first, later⟩ := Option.bind_eq_some_iff.mp run
      obtain ⟨y1, first', later'⟩ := Option.bind_eq_some_iff.mp run'
      have alike1 := alike.after (Machine.replay_one first) (Machine.replay_one first')
      obtain ⟨left1, fills, others⟩ := left.access some_bit width first
      obtain ⟨right1, fills', others'⟩ := right.access some_bit width first'
      have rest_ := ih alike1 left1 right1 later later'
      by_cases here : i = addr.toNat / 2 ^ b.toNat % 2 ^ s.toNat
      · have before := alike.out_eq
        have after := alike1.out_eq
        simp only [PARAM.counts, Prod.mk.injEq] at before after
        rw [← here] at fills fills'
        have empties := fills.empties
        rw [before.2.1, before.2.2, after.2.1, after.2.2] at empties
        rcases empties with ⟨filled, shows_⟩ | ⟨kept, hidden⟩
        · rcases fills'.empties with ⟨filled', -⟩ | ⟨-, hidden'⟩
          · omega
          · exact absurd shows_ hidden'
        · rcases fills'.empties with ⟨-, shows_⟩ | ⟨kept', -⟩
          · exact absurd shows_ hidden
          · omega
      · rw [others i here, others' i here] at rest_
        exact rest_

end Compare

section Opening

variable {s b : UInt32} {i o : Nat} {memory : Nat → List LINE} {line line' : LINE}
  {rest rest' : List LINE}

/-- The first accesses of a steering trace: tag 0 in both sets. -/
def opening (s b : UInt32) (i o : Nat) : List UInt64 := [address s b o 0, address s b i 0]

/-- Sets without valid lines take tag 0 in their first lines. -/
theorem opened (E : UInt32) (sets : TwoSets s b i o) (bits : s ≤ 30)
    (here : memory i = line :: rest) (there : memory o = line' :: rest')
    (invalid : ∀ l ∈ line :: rest, l.valid = false)
    (invalid' : ∀ l ∈ line' :: rest', l.valid = false) :
    ∃ state, Machine.replay access (buildCache memory, startParam s b E) (opening s b i o) =
        some state ∧
      Steered s b E i o 0 ⟨⟨0, true, 1⟩ :: rest, 1⟩ state := by
  have geometry := startParam_geometry bits b E
  have result : access (buildCache memory, startParam s b E) (address s b o 0) = _ :=
    access_address geometry sets.some_bit sets.width sets.away (by decide : 0 < 2)
  have first : accessSet (buildCache memory o) (startParam s b E) (UInt64.ofNat 0) = _ :=
    accessSet_first there invalid' (startParam s b E)
  rw [first] at result
  have steered : Steered s b E i o 0 ⟨[] ++ line :: rest, 0⟩
      (Function.update (buildCache memory) o
        ⟨⟨0, true, 0 + 1⟩ :: rest', 0 + 1⟩, { startParam s b E with nMiss := 0 + 1 }) := by
    refine ⟨geometry.accessSet first, rfl, ?_, ?_⟩
    · refine (Function.update_of_ne sets.differ.symm _ _).trans ?_
      rw [buildCache, here]
      rfl
    · dsimp only
      rw [Function.update_self]
      exact ⟨⟨0, true, 0 + 1⟩, List.mem_cons_self, rfl, rfl⟩
  obtain ⟨state, filled, last⟩ := steered.fill sets (by decide : 0 < 2)
    (fun _ member => (nomatch member)) invalid (Nat.zero_le _)
  exact ⟨state, Machine.replay_trans (Machine.replay_one result) (Machine.replay_one filled), last⟩

end Opening

/-- `j` lines behind the first one are valid, and all valid lines have tag 0. -/
structure Filled (size j : Nat) (first : LINE) (rest : List LINE) : Prop where
  valid : first.valid = true
  tag : first.tag = 0
  fields : rest.map LINE.valid = List.replicate j true ++ List.replicate (size - 1 - j) false
  tags : ∀ line ∈ rest, line.valid = true → line.tag = 0

/-- Lines whose valid fields are all the same. -/
theorem valid_of_map {lines : List LINE} {n : Nat} {bit : Bool}
    (fields : lines.map LINE.valid = List.replicate n bit) : ∀ l ∈ lines, l.valid = bit := by
  intro l member
  have value := List.mem_map_of_mem (f := LINE.valid) member
  rw [fields] at value
  exact List.eq_of_mem_replicate value

section Fill

variable {s b E : UInt32} {i o j : Nat} {first : LINE} {rest : List LINE} {useCnt : UInt32}
  {state : (Nat → SET) × PARAM}

/-- The first empty line. -/
theorem Filled.exists_empty {size : Nat} (filled : Filled size j first rest)
    (room : j + 1 < size) :
    ∃ front line back, rest = front ++ line :: back ∧ line.valid = false ∧
      front.map LINE.valid = List.replicate j true ∧
      back.map LINE.valid = List.replicate (size - 1 - (j + 1)) false := by
  obtain ⟨front, back, rfl, isFront, isBack⟩ := List.map_eq_append_iff.mp filled.fields
  have emptyCount : size - 1 - j = size - 1 - (j + 1) + 1 := by omega
  rw [emptyCount, List.replicate_succ] at isBack
  obtain ⟨line, back, rfl, invalid, isBack⟩ := List.map_eq_cons_iff.mp isBack
  exact ⟨front, line, back, rfl, invalid, isFront, isBack⟩

/-- Tag 1 fills one more empty line, and turns of tag 0 evict it. -/
theorem Filled.more (filled : Filled E.toNat j first rest) (sets : TwoSets s b i o)
    (steered : Steered s b E i o 0 ⟨first :: rest, useCnt⟩ state) (room : j + 1 < E.toNat) :
    ∃ addrs state' first' rest' useCnt', Machine.replay access state addrs = some state' ∧
      Steered s b E i o 0 ⟨first' :: rest', useCnt'⟩ state' ∧
      Filled E.toNat (j + 1) first' rest' := by
  obtain ⟨front, line, back, rfl, invalid, isFront, isBack⟩ := filled.exists_empty room
  obtain ⟨valid, tag, -, tags⟩ := filled
  have frontValid := valid_of_map isFront
  have behind := valid_of_map isBack
  have frontTags : ∀ l ∈ front, l.tag = 0 := fun l member =>
    tags l (List.mem_append_left _ member) (frontValid l member)
  have frontLength : front.length = j := by
    rw [← List.length_map LINE.valid, isFront, List.length_replicate]
  -- The access counter is at its limit when tag 1 comes, so that its line gets timestamp 0.
  have at0 : Steered s b E i o 0 ⟨[] ++ first :: (front ++ line :: back), useCnt⟩ state := steered
  obtain ⟨state1, time, touched, at1⟩ := at0.touches_to (-1) sets (by decide : 0 < 2)
    (fun _ member => (nomatch member)) valid tag
  have at1 : Steered s b E i o 0
      ⟨({ first with useTime := time } :: front) ++ line :: back, -1⟩ state1 := at1
  have others : ∀ l ∈ { first with useTime := time } :: front,
      l.valid = true ∧ l.tag ≠ UInt64.ofNat 1 := by
    intro l member
    rcases List.mem_cons.mp member with rfl | member
    · exact ⟨valid, by simp [tag]⟩
    · exact ⟨frontValid l member, by simp [frontTags l member]⟩
  obtain ⟨state2, missed, at2⟩ := at1.fill sets (by decide : 1 < 2) others
    (List.forall_mem_cons.mpr ⟨invalid, behind⟩) (by rw [List.length_cons]; omega)
  have at2 : Steered s b E i o 0
      ⟨[] ++ { first with useTime := time } :: (front ++ ⟨1, true, 0⟩ :: back), 0⟩ state2 := at2
  obtain ⟨state3, time', rest', turned, at3, recycled, count, -⟩ :=
    at2.turns (zeros (front ++ ⟨1, true, 0⟩ :: back)) sets (by decide : 0 < 2)
      (fun _ member => (nomatch member)) (fun _ member => (nomatch member)) valid tag le_rfl
  refine ⟨_, state3, _, rest', _, Machine.replay_trans touched
    (Machine.replay_trans (Machine.replay_one missed) turned), at3, valid, tag, ?_, ?_⟩
  · rw [recycled_valid recycled, List.map_append, List.map_cons, isFront, isBack,
      List.replicate_succ']
    simp
  · have either : ∀ l ∈ rest', l.valid = true → l.tag = 0 ∨ l.useTime = 0 := by
      refine recycled_forall recycled ?_ (fun _ _ _ => .inl rfl)
      intro l member isValid
      rcases List.mem_append.mp member with inFront | member
      · exact .inl (frontTags l inFront)
      · rcases List.mem_cons.mp member with rfl | inBack
        · exact .inr rfl
        · rw [behind l inBack] at isValid
          cases isValid
    intro l member isValid
    rcases either l member isValid with zeroTag | zeroTime
    · exact zeroTag
    · have later := zeros_eq_zero.mp (by omega) l member
      rw [zeroTime] at later
      exact absurd later (by decide)

/-- Traces fill all lines of an empty set. -/
theorem exists_filled (sets : TwoSets s b i o) (bits : s ≤ 30) (size : j < E.toNat) :
    ∃ addrs state first rest useCnt,
      Machine.replay access (buildCache (zeroed E), startParam s b E) addrs = some state ∧
      Steered s b E i o 0 ⟨first :: rest, useCnt⟩ state ∧ Filled E.toNat j first rest := by
  induction j with
  | zero =>
      obtain ⟨others, lineCount⟩ : ∃ others, E.toNat = others + 1 := ⟨E.toNat - 1, by omega⟩
      have invalid := (zeroed_clean (E := E) (i := i)).invalid
      rw [zeroed_cons lineCount] at invalid
      obtain ⟨state, run, steered⟩ :=
        opened E sets bits (zeroed_cons lineCount) (zeroed_cons lineCount) invalid invalid
      refine ⟨_, state, _, _, _, run, steered, rfl, rfl, ?_, ?_⟩
      · simp [lineCount]
      · intro l member isValid
        rw [List.eq_of_mem_replicate member] at isValid
        cases isValid
  | succ j ih =>
      obtain ⟨addrs, state, first, rest, useCnt, run, steered, filled⟩ := ih (by omega)
      obtain ⟨more, state', first', rest', useCnt', run', steered', filled'⟩ :=
        filled.more sets steered size
      exact ⟨_, state', first', rest', useCnt', Machine.replay_trans run run', steered', filled'⟩

/-- A memory that cannot be told from an empty cache has no valid line. -/
theorem invalid_of_alike {memory : Nat → List LINE} (allocated : Allocated s E memory)
    (sets : TwoSets s b i o) (bits : s ≤ 30) (some_line : 0 < E.toNat)
    (alike : Machine.Alike access (fun state => state.2.counts)
      (buildCache memory, startParam s b E) (buildCache (zeroed E), startParam s b E)) :
    ∀ line ∈ memory i, line.valid = false := by
  have geometry := startParam_geometry bits b E
  obtain ⟨addrs, state, first, rest, useCnt, run, steered, filled⟩ :=
    exists_filled sets bits (by omega : E.toNat - 1 < E.toNat)
  have both := alike addrs
  rw [run] at both
  obtain ⟨state', run', -⟩ := Option.map_eq_some_iff.mp both
  have count : (state'.1 i).empties + (buildCache (zeroed E) i).empties =
      (state.1 i).empties + (memory i).countP fun line => !line.valid :=
    empties_of_alike alike ⟨geometry, allocated⟩ ⟨geometry, zeroed_allocated⟩
      sets.some_bit sets.width run' run i
  have none_left : (state.1 i).empties = 0 := by
    rw [steered.here]
    refine List.countP_eq_zero.mpr ?_
    intro l member
    rcases List.mem_cons.mp member with rfl | member
    · simp [filled.valid]
    · have fields := filled.fields
      rw [Nat.sub_self, List.replicate_zero, List.append_nil] at fields
      simp [valid_of_map fields l member]
  have all : (buildCache (zeroed E) i).empties = E.toNat := by
    simp [SET.empties, buildCache, zeroed, List.countP_replicate]
  have every : (memory i).countP (fun line => !line.valid) = (memory i).length := by
    have bound := List.countP_le_length (p := fun line : LINE => !line.valid) (l := memory i)
    rw [allocated i sets.inside] at bound ⊢
    omega
  intro line member
  simpa using List.countP_eq_length.mp every line member

end Fill

/-! ## Set timestamps show -/

section Timestamps

variable {s b E : UInt32} {i o : Nat} {useCnt : UInt32} {first line : LINE} {after rest : List LINE}
  {set set' : SET} {param param' : PARAM} {Tag : UInt64} {state x y : (Nat → SET) × PARAM}

/-- An access to an absent tag is no hit. -/
theorem accessSet_absent (absent : ¬ set.Has Tag)
    (accessed : accessSet set param Tag = some (set', param')) : param'.nHit = param.nHit := by
  have searched := search_searched Tag set.lines 0 param.E.toNat true
  have replaced : ∀ scan, replaceLine set param Tag scan = some (set', param') →
      param'.nHit = param.nHit := by
    intro scan replaced
    rcases replaceLine_param replaced with rfl | rfl
    · rfl
    · rfl
  simp only [accessSet] at accessed
  generalize search Tag set.lines 0 param.E.toNat true = scan at searched accessed
  cases searched with
  | hit before after line lines valid same found =>
      exact absurd ⟨line, by rw [lines]; simp, valid, same⟩ absent
  | full others valids =>
      rw [if_neg (UInt32.lt_irrefl _)] at accessed
      exact replaced _ accessed
  | room before after line others lines invalid =>
      rw [if_neg (UInt32.lt_irrefl _)] at accessed
      exact replaced _ accessed

/-- States that look alike have the same tags in their sets. -/
theorem has_of_alike (alike : Machine.Alike access (fun state => state.2.counts) x y)
    (sets : TwoSets s b i o) {left right : SET} (atLeft : Steered s b E i o 0 left x)
    (atRight : Steered s b E i o 0 right y) (has : left.Has 0) : right.Has 0 := by
  by_contra absent
  obtain ⟨set', param', hit, counted, -⟩ := accessSet_has has x.2
  obtain ⟨x', taken, atLeft'⟩ := atLeft.access_here sets (by decide : 0 < 2) hit
  have same := alike [address s b i 0]
  rw [Machine.replay_one taken] at same
  obtain ⟨y', taken', counts⟩ := Option.map_eq_some_iff.mp same.symm
  obtain ⟨y'', taken'', stop⟩ := Option.bind_eq_some_iff.mp taken'
  cases stop
  rw [access_address atRight.geometry sets.some_bit sets.width sets.inside (by decide),
    atRight.here] at taken''
  obtain ⟨⟨set'', param''⟩, missed, final⟩ := Option.map_eq_some_iff.mp taken''
  subst final
  have zero := accessSet_absent absent missed
  have one := atLeft'.nHit
  simp only [PARAM.counts, Prod.mk.injEq] at counts
  rw [atRight.nHit] at zero
  rw [counted, atLeft.nHit] at one
  rw [zero, one] at counts
  exact absurd counts.1 (by decide)

/-- Turns of tag 1 leave a first line that is newer alone. -/
theorem Steered.turns_keep (n : Nat)
    (steered : Steered s b E i o 0 ⟨[first] ++ line :: after, useCnt⟩ state)
    (sets : TwoSets s b i o) (firstValid : first.valid = true) (firstTag : first.tag = 0)
    (newer : first.useTime = 2) (valid : line.valid = true) (same : line.tag = 1)
    (none_zero : zeros after = 0) :
    ∃ state' line', Machine.replay access state (Csim.turns s b i o 1 useCnt n) = some state' ∧
      Steered s b E i o 0 ⟨[first] ++ line' :: after, turnedCnt useCnt n⟩ state' ∧
      line'.valid = true ∧ line'.tag = 1 := by
  have others : ∀ l ∈ [first], l.valid = true ∧ l.tag ≠ UInt64.ofNat 1 := by
    intro l member
    rw [List.mem_singleton.mp member, firstTag]
    exact ⟨firstValid, by decide⟩
  induction n with
  | zero => exact ⟨state, line, rfl, steered, valid, same⟩
  | succ n ih =>
      obtain ⟨state1, line1, run, next, valid1, same1⟩ := ih
      obtain ⟨state', turned, last⟩ := next.turn sets (by decide : 1 < 2) others valid1 same1
      rw [turned_second first newer none_zero] at last
      exact ⟨state', _, Machine.replay_trans run turned, last, valid1, rfl⟩

/-- A trace that shows how many timestamps of a set without valid lines are
zero: `k` turns of tag 0, tag 1, and `m` turns of tag 1. -/
def probe (s b : UInt32) (i o k m : Nat) : List UInt64 :=
  turns s b i o 0 1 k ++ (address s b i 1 :: turns s b i o 1 3 m)

/-- Tag 1 takes the second line. -/
theorem Steered.second (steered : Steered s b E i o 0 ⟨first :: line :: after, 2⟩ state)
    (sets : TwoSets s b i o) (valid : first.valid = true) (tag : first.tag = 0)
    (invalid : ∀ l ∈ line :: after, l.valid = false) (some_line : 1 ≤ E.toNat) :
    ∃ state', access state (address s b i 1) = some state' ∧
      Steered s b E i o 0 ⟨[first] ++ ⟨1, true, 3⟩ :: after, 3⟩ state' := by
  have split : Steered s b E i o 0 ⟨[first] ++ line :: after, 2⟩ state := steered
  refine split.fill sets (by decide : 1 < 2) ?_ invalid some_line
  intro l member
  rw [List.mem_singleton.mp member, tag]
  exact ⟨valid, by decide⟩

/-- One turn more than there are timestamps 0 renews the first line, and it
outlives the turns of tag 1. -/
theorem Steered.probe_stays (m : Nat) (steered : Steered s b E i o 0 ⟨⟨0, true, 1⟩ :: rest, 1⟩ state)
    (sets : TwoSets s b i o) (invalid : ∀ l ∈ rest, l.valid = false) (some_line : rest ≠ [])
    (size : 1 ≤ E.toNat) :
    ∃ state' set, Machine.replay access state (probe s b i o (zeros rest + 1) m) = some state' ∧
      Steered s b E i o 0 set state' ∧ set.Has 0 := by
  have start : Steered s b E i o 0 ⟨[] ++ ⟨0, true, 1⟩ :: rest, 1⟩ state := steered
  obtain ⟨state1, time, rest1, run, at1, recycled, count, -⟩ :=
    start.turns (zeros rest) sets (by decide : 0 < 2) (fun _ member => (nomatch member))
      (fun _ member => (nomatch member)) rfl rfl le_rfl
  obtain ⟨state2, turned, at2⟩ :=
    at1.turn sets (by decide : 0 < 2) (fun _ member => (nomatch member)) rfl rfl
  have none_zero : zeros rest1 = 0 := by omega
  rw [turned_first none_zero] at at2
  have invalid1 := recycled_forall recycled invalid (fun _ unset => unset)
  have length := recycled_length recycled
  cases rest1 with
  | nil => exact absurd (List.eq_nil_of_length_eq_zero length.symm) some_line
  | cons line after =>
      obtain ⟨state3, missed, at3⟩ := at2.second sets rfl rfl invalid1 size
      have behind : zeros after = 0 := zeros_eq_zero.mpr fun l member =>
        zeros_eq_zero.mp none_zero l (List.mem_cons_of_mem _ member)
      obtain ⟨state', line', kept, last, -⟩ :=
        at3.turns_keep m sets rfl rfl rfl rfl rfl behind
      exact ⟨state', _, Machine.replay_trans (Machine.replay_trans run turned)
        (Machine.replay_trans (Machine.replay_one missed) kept), last,
        ⟨0, true, 2⟩, by simp, rfl, rfl⟩

/-- With a timestamp 0 left, the turns of tag 1 evict the first line. -/
theorem Steered.probe_evicts (k : Nat)
    (steered : Steered s b E i o 0 ⟨⟨0, true, 1⟩ :: rest, 1⟩ state) (sets : TwoSets s b i o)
    (invalid : ∀ l ∈ rest, l.valid = false) (some_line : rest ≠ []) (size : 1 ≤ E.toNat)
    (enough : k + 1 ≤ zeros rest) :
    ∃ m state' set, Machine.replay access state (probe s b i o (k + 1) m) = some state' ∧
      Steered s b E i o 0 set state' ∧ ¬ set.Has 0 := by
  have start : Steered s b E i o 0 ⟨[] ++ ⟨0, true, 1⟩ :: rest, 1⟩ state := steered
  obtain ⟨state1, time, rest1, run, at1, recycled, count, isOne⟩ :=
    start.turns (k + 1) sets (by decide : 0 < 2) (fun _ member => (nomatch member))
      (fun _ member => (nomatch member)) rfl rfl enough
  obtain rfl := isOne (Nat.succ_ne_zero k)
  have invalid1 := recycled_forall recycled invalid (fun _ unset => unset)
  have length := recycled_length recycled
  cases rest1 with
  | nil => exact absurd (List.eq_nil_of_length_eq_zero length.symm) some_line
  | cons line after =>
      obtain ⟨state2, missed, at2⟩ := at1.second sets rfl rfl invalid1 size
      have others : ∀ l ∈ [(⟨0, true, 1⟩ : LINE)], l.valid = true ∧ l.tag ≠ UInt64.ofNat 1 := by
        intro l member
        rw [List.mem_singleton.mp member]
        exact ⟨rfl, by decide⟩
      have later : ∀ l ∈ [(⟨0, true, 1⟩ : LINE)], l.useTime ≠ 0 := by
        intro l member
        rw [List.mem_singleton.mp member]
        exact (by decide : (1 : UInt32) ≠ 0)
      obtain ⟨state3, time, after1, run', at3, recycled', count', -⟩ :=
        at2.turns (zeros after) sets (by decide : 1 < 2) others later rfl rfl le_rfl
      obtain ⟨state4, turned, at4⟩ := at3.turn sets (by decide : 1 < 2) others rfl rfl
      rw [turned_second_old _ rfl (by omega)] at at4
      refine ⟨zeros after + 1, state4, _, Machine.replay_trans run
        (Machine.replay_trans (Machine.replay_one missed) (Machine.replay_trans run' turned)), at4, ?_⟩
      rintro ⟨l, member, valid, same⟩
      rcases List.mem_cons.mp member with rfl | member
      · exact absurd same (by decide)
      · rcases List.mem_cons.mp member with rfl | member
        · exact absurd same (by decide : ¬ (1 : UInt64) = 0)
        · have unset := recycled_forall recycled'
            (fun l inside => invalid1 l (List.mem_cons_of_mem _ inside)) (fun _ unset => unset)
          rw [unset l member] at valid
          cases valid

/-- A memory without valid lines that cannot be told from an empty cache has no
timestamp behind the first line of a set. -/
theorem unused_of_alike {memory : Nat → List LINE} (allocated : Allocated s E memory)
    (sets : TwoSets s b i o) (bits : s ≤ 30) (some_line : 0 < E.toNat)
    (invalid : ∀ line ∈ memory i, line.valid = false)
    (invalid' : ∀ line ∈ memory o, line.valid = false)
    (alike : Machine.Alike access (fun state => state.2.counts)
      (buildCache memory, startParam s b E) (buildCache (zeroed E), startParam s b E)) :
    ∀ line ∈ (memory i).tail, line.useTime = 0 := by
  have sizeHere := allocated i sets.inside
  have sizeThere := allocated o sets.away
  obtain ⟨others, lineCount⟩ : ∃ others, E.toNat = others + 1 := ⟨E.toNat - 1, by omega⟩
  have unset := (zeroed_clean (E := E) (i := i)).invalid
  rw [zeroed_cons lineCount] at unset
  cases here : memory i with
  | nil => exact fun _ member => (nomatch member)
  | cons line rest =>
      cases there : memory o with
      | nil =>
          rw [there, List.length_nil] at sizeThere
          omega
      | cons line' rest' =>
          rw [here] at invalid sizeHere
          rw [there] at invalid'
          rw [List.length_cons] at sizeHere
          by_contra used
          have fewer : zeros rest < rest.length := by
            refine lt_of_le_of_ne List.countP_le_length fun all => used ?_
            intro l member
            simpa using List.countP_eq_length.mp all l member
          have all : zeros (List.replicate others (⟨0, false, 0⟩ : LINE)) = others := by
            simp [zeros, List.countP_replicate]
          obtain ⟨x, run, left⟩ := opened E sets bits here there invalid invalid'
          obtain ⟨y, run', right⟩ := opened E sets bits (zeroed_cons lineCount) (zeroed_cons lineCount)
            unset unset
          obtain ⟨m, y', set', probed', right', gone⟩ := right.probe_evicts (zeros rest) sets
            (fun l member => unset l (List.mem_cons_of_mem _ member))
            (by
              intro none
              have length := congrArg List.length none
              rw [List.length_replicate, List.length_nil] at length
              omega) (by omega) (by omega)
          obtain ⟨x', set, probed, left', has⟩ := left.probe_stays m sets
            (fun l member => invalid l (List.mem_cons_of_mem _ member))
            (by
              intro none
              rw [none] at fewer
              exact absurd fewer (Nat.lt_irrefl 0)) (by omega)
          have alike' := (alike.after run run').after probed probed'
          exact gone (has_of_alike alike' sets left' right' has)

end Timestamps

/-! ## The condition -/

section Condition

variable {s b E : UInt32} {memory memory' : Nat → List LINE}

/-- Another set of the cache. -/
theorem exists_other (some_bit : 1 ≤ s.toNat) (width : s.toNat + b.toNat < 64) {i : Nat}
    (inside : i < 2 ^ s.toNat) : ∃ o, TwoSets s b i o := by
  have two : 2 ^ 1 ≤ 2 ^ s.toNat := Nat.pow_le_pow_right (by decide) some_bit
  by_cases zero : i = 0
  · exact ⟨1, some_bit, width, inside, by omega, by omega⟩
  · exact ⟨0, some_bit, width, inside, by omega, by omega⟩

/-- A memory that gives the counts of an empty cache after every trace is
clean. -/
theorem clean_of_summaries (some_bit : 1 ≤ s) (bits : s ≤ 30) (width : s.toNat + b.toNat < 64)
    (some_line : 1 ≤ E) (allocated : Allocated s E memory)
    (same : ∀ trace, summary s b E memory trace = summary s b E (zeroed E) trace) :
    ∀ i < 2 ^ s.toNat, Clean (memory i) := by
  have low : 1 ≤ s.toNat := UInt32.le_iff_toNat_le.mp some_bit
  have positive : 0 < E.toNat := UInt32.le_iff_toNat_le.mp some_line
  have alike : Machine.Alike access (fun state => state.2.counts)
      (buildCache memory, startParam s b E) (buildCache (zeroed E), startParam s b E) := by
    intro addrs
    have loads := same (addrs.map fun addr => ⟨'L', addr⟩)
    rw [summary, summary, simulate_loads, simulate_loads] at loads
    exact loads
  have invalid : ∀ i < 2 ^ s.toNat, ∀ line ∈ memory i, line.valid = false := by
    intro i inside
    obtain ⟨o, sets⟩ := exists_other low width inside
    exact invalid_of_alike allocated sets bits positive alike
  intro i inside
  obtain ⟨o, sets⟩ := exists_other low width inside
  exact ⟨invalid i inside, unused_of_alike allocated sets bits positive (invalid i inside)
    (invalid o sets.away) alike⟩

/-- What the simulator prints is the same for two memories, and the same as for
an empty cache, after every trace exactly when both memories are clean. -/
theorem summary_independent_iff (some_bit : 1 ≤ s) (bits : s ≤ 30)
    (width : s.toNat + b.toNat < 64) (some_line : 1 ≤ E) (allocated : Allocated s E memory)
    (allocated' : Allocated s E memory') :
    (∀ trace, ∃ counts, summary s b E memory trace = some counts ∧
      summary s b E memory' trace = some counts ∧ summary s b E (zeroed E) trace = some counts) ↔
    ∀ i < 2 ^ s.toNat, Clean (memory i) ∧ Clean (memory' i) := by
  constructor
  · intro same i inside
    constructor
    · refine clean_of_summaries some_bit bits width some_line allocated (fun trace => ?_) i inside
      obtain ⟨counts, left, -, right⟩ := same trace
      rw [left, right]
    · refine clean_of_summaries some_bit bits width some_line allocated' (fun trace => ?_) i inside
      obtain ⟨counts, -, left, right⟩ := same trace
      rw [left, right]
  · intro clean trace
    obtain ⟨counts, left, right⟩ := summary_clean some_bit bits width some_line allocated allocated'
      (fun i inside => (clean i inside).1) (fun i inside => (clean i inside).2) trace
    obtain ⟨counts', left', right'⟩ := summary_clean some_bit bits width some_line allocated
      zeroed_allocated (fun i inside => (clean i inside).1) (fun _ _ => zeroed_clean) trace
    rw [left] at left'
    cases left'
    exact ⟨counts, left, right, right'⟩

/-- Two sets of one line each, with arbitrary tags and timestamps. -/
theorem summary_independent_unset :
    (∀ trace, ∃ counts, summary 1 0 1 (fun _ => [⟨7, false, 9⟩]) trace = some counts ∧
      summary 1 0 1 (fun _ => [⟨3, false, 4⟩]) trace = some counts ∧
        summary 1 0 1 (zeroed 1) trace = some counts) ↔
    ∀ i < 2 ^ (1 : UInt32).toNat, Clean [⟨7, false, 9⟩] ∧ Clean [⟨3, false, 4⟩] :=
  summary_independent_iff (by decide) (by decide) (by decide) (by decide) (fun _ _ => rfl)
    (fun _ _ => rfl)

/-- A valid field that is set at first turns the first load of address 0 into a
hit. -/
theorem summary_depends : ¬ ∀ (s b E : UInt32), 1 ≤ s → s ≤ 30 → s.toNat + b.toNat < 64 → 1 ≤ E →
    ∀ memory memory', Allocated s E memory → Allocated s E memory' → ∀ trace,
      ∃ counts, summary s b E memory trace = some counts ∧
        summary s b E memory' trace = some counts ∧
          summary s b E (zeroed E) trace = some counts := by
  intro claimed
  obtain ⟨counts, left, -, right⟩ := claimed 1 0 1 (by decide) (by decide) (by decide) (by decide)
    (fun _ => [⟨0, true, 0⟩]) (zeroed 1) (fun _ _ => rfl) (fun _ _ => rfl) [⟨'L', 0⟩]
  have hit : summary 1 0 1 (fun _ => [⟨0, true, 0⟩]) [⟨'L', 0⟩] = some (1, 0, 0) := by decide
  have miss : summary 1 0 1 (zeroed 1) [⟨'L', 0⟩] = some (0, 1, 0) := by decide
  rw [hit] at left
  rw [miss, ← left] at right
  exact absurd right (by decide)

end Condition

end SysProg.Csim

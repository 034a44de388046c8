import SysProg.Csim.Steering

/-!
# More lines keep what fewer lines keep

Two simulations of one trace differ in the number of lines of a set.  The tags
of the smaller set are at all times the most recently used ones of the larger
set, so that a hit in the smaller cache is one in the larger cache.
-/

namespace SysProg.Csim

open Logic

/-! ## The reference caches -/

namespace Reference

variable {E E' : Nat}

/-- The reference cache after a list of addresses. -/
def replay (s b : Nat) (r : Reference E) (addrs : List UInt64) : Reference E :=
  addrs.foldl (fun r addr => r.access s b addr.toNat) r

theorem replay_cons (s b : Nat) (r : Reference E) (addr : UInt64) (rest : List UInt64) :
    r.replay s b (addr :: rest) = (r.access s b addr.toNat).replay s b rest := rfl

/-- The sets of the larger cache begin with those of the smaller one, and it has
not missed more often. -/
structure Includes (large : Reference E') (small : Reference E) : Prop where
  sets : ∀ i, (large.sets i).Includes (small.sets i)
  misses : large.nMiss ≤ small.nMiss

section Includes

variable {large : Reference E'} {small : Reference E}

theorem includes_start : Includes (start : Reference E') (start : Reference E) where
  sets _ := RecencyList.includes_empty
  misses := le_rfl

/-- The same access in both caches. -/
theorem Includes.accessSet (includes : Includes large small) (more : E ≤ E') (set tag : Nat) :
    Includes (large.accessSet set tag) (small.accessSet set tag) where
  sets i := by
    simp only [Reference.accessSet]
    by_cases here : i = set
    · subst here
      rw [Function.update_self, Function.update_self]
      exact (includes.sets i).access more tag
    · rw [Function.update_of_ne here, Function.update_of_ne here]
      exact includes.sets i
  misses := by
    have misses := includes.misses
    simp only [Reference.accessSet]
    by_cases hit : ((small.sets set).access tag).2 = .hit
    · rw [if_pos hit, if_pos ((includes.sets set).hit hit)]
      exact misses
    · rw [if_neg hit]
      split <;> omega

/-- The same addresses in both caches. -/
theorem Includes.replay (includes : Includes large small) (more : E ≤ E') (s b : Nat)
    (addrs : List UInt64) : Includes (large.replay s b addrs) (small.replay s b addrs) := by
  induction addrs generalizing large small with
  | nil => exact includes
  | cons addr rest ih => exact ih (includes.accessSet more _ _)

end Includes

end Reference

/-! ## The simulator -/

/-- An access to the address is a hit. -/
def Hits (state : (Nat → SET) × PARAM) (addr : UInt64) : Prop :=
  ∃ state', access state addr = some state' ∧ state.2.nHit < state'.2.nHit

section Refines

variable {s b E : UInt32} {state : (Nat → SET) × PARAM} {r : Reference E.toNat}

/-- The valid lines of a set have the tags that the set represents. -/
theorem Simulates.has_iff {E : Nat} {set : SET} {tags : RecencyList Nat E}
    (sim : Simulates set tags) (Tag : UInt64) : set.Has Tag ↔ Tag.toNat ∈ tags.keys := by
  rw [sim.represents.mem_keys]
  constructor
  · rintro ⟨line, member, valid, same⟩
    exact ⟨line, List.mem_filter.mpr ⟨member, valid⟩, congrArg UInt64.toNat same⟩
  · rintro ⟨line, member, same⟩
    obtain ⟨present, valid⟩ := List.mem_filter.mp member
    exact ⟨line, present, valid, UInt64.toNat_inj.mp same⟩

/-- A list of addresses keeps the refinement. -/
theorem Refines.replay (refines : Refines s b E state.1 state.2 r) (some_bit : 1 ≤ s.toNat)
    (width : s.toNat + b.toNat < 64) (some_line : 0 < E.toNat) (addrs : List UInt64)
    (few : r.nHit + r.nMiss + addrs.length < 2 ^ 32) :
    ∃ state', Machine.replay Csim.access state addrs = some state' ∧
      Refines s b E state'.1 state'.2 (r.replay s.toNat b.toNat addrs) ∧
      (r.replay s.toNat b.toNat addrs).nHit + (r.replay s.toNat b.toNat addrs).nMiss =
        r.nHit + r.nMiss + addrs.length := by
  induction addrs generalizing state r with
  | nil => exact ⟨state, rfl, refines, rfl⟩
  | cons addr rest ih =>
      rw [List.length_cons] at few ⊢
      obtain ⟨cache', param', accessed, next⟩ :=
        refines.access some_bit width some_line addr (by omega)
      have total : (r.access s.toNat b.toNat addr.toNat).nHit +
          (r.access s.toNat b.toNat addr.toNat).nMiss = r.nHit + r.nMiss + 1 :=
        r.accessSet_total _ _
      obtain ⟨state', later, last, count⟩ := @ih (cache', param') _ next (by omega)
      refine ⟨state', ?_, last, ?_⟩
      · rw [Machine.replay, Csim.access, accessed, Option.bind_some, later]
      · rw [Reference.replay_cons, count]
        omega

/-- An access is a hit exactly when it is one in the reference cache. -/
theorem Refines.hits_iff (refines : Refines s b E state.1 state.2 r) (some_bit : 1 ≤ s.toNat)
    (width : s.toNat + b.toNat < 64) (some_line : 0 < E.toNat) (addr : UInt64)
    (few : r.nHit + r.nMiss + 1 < 2 ^ 32) :
    Hits state addr ↔ ((r.sets (addr.toNat / 2 ^ b.toNat % 2 ^ s.toNat)).access
      (addr.toNat / 2 ^ (s.toNat + b.toNat))).2 = .hit := by
  obtain ⟨cache', param', accessed, next⟩ := refines.access some_bit width some_line addr few
  have counted : Hits state addr ↔ r.nHit < (r.access s.toNat b.toNat addr.toNat).nHit := by
    rw [← refines.nHit, ← next.nHit, ← UInt32.lt_iff_toNat_lt]
    constructor
    · rintro ⟨state', taken, more⟩
      rw [Csim.access, accessed] at taken
      cases taken
      exact more
    · exact fun more => ⟨(cache', param'), accessed, more⟩
  rw [counted]
  simp only [Reference.access, Reference.accessSet]
  split
  · rename_i hit
    exact ⟨fun _ => hit, fun _ => Nat.lt_succ_self _⟩
  · rename_i missed
    exact ⟨fun more => absurd more (Nat.lt_irrefl _), fun hit => absurd hit missed⟩

end Refines

/-! ## Two associativities -/

/-- What a valid line of the smaller cache holds is held by a valid line of the
same set of the larger one. -/
def TagsIncluded (s : UInt32) (small large : (Nat → SET) × PARAM) : Prop :=
  ∀ i < 2 ^ s.toNat, ∀ Tag, (small.1 i).Has Tag → (large.1 i).Has Tag

/-- Along two simulations of a trace the smaller cache is included in the larger
one, after each record and before each access, and hits only where the larger
one hits. -/
structure Inclusion (s : UInt32) (trace : List Record) (small large : (Nat → SET) × PARAM) :
    Prop where
  records : ∀ past, past <+: trace → ∃ small' large',
    simulate small.1 small.2 past = some small' ∧ simulate large.1 large.2 past = some large' ∧
      TagsIncluded s small' large'
  hits : ∀ past addr, past ++ [addr] <+: addresses trace → ∃ small' large',
    Machine.replay access small past = some small' ∧
      Machine.replay access large past = some large' ∧
      TagsIncluded s small' large' ∧ (Hits small' addr → Hits large' addr)
  misses : ∃ small' large', simulate small.1 small.2 trace = some small' ∧
    simulate large.1 large.2 trace = some large' ∧ large'.2.nMiss ≤ small'.2.nMiss

/-- The two simulators after the same `n` accesses, each with its reference
cache. -/
structure Paired (s b E₁ E₂ : UInt32) (n : Nat) (small large : (Nat → SET) × PARAM)
    (r₁ : Reference E₁.toNat) (r₂ : Reference E₂.toNat) : Prop where
  refines₁ : Refines s b E₁ small.1 small.2 r₁
  refines₂ : Refines s b E₂ large.1 large.2 r₂
  includes : r₂.Includes r₁
  total₁ : r₁.nHit + r₁.nMiss = n
  total₂ : r₂.nHit + r₂.nMiss = n

namespace Paired

variable {s b E₁ E₂ : UInt32} {n : Nat} {small large : (Nat → SET) × PARAM}
  {r₁ : Reference E₁.toNat} {r₂ : Reference E₂.toNat}

theorem tags (paired : Paired s b E₁ E₂ n small large r₁ r₂) : TagsIncluded s small large := by
  intro i inside Tag has
  rw [(paired.refines₁.sets i inside).has_iff] at has
  rw [(paired.refines₂.sets i inside).has_iff]
  exact (paired.includes.sets i).subset has

theorem misses (paired : Paired s b E₁ E₂ n small large r₁ r₂) :
    large.2.nMiss ≤ small.2.nMiss := by
  rw [UInt32.le_iff_toNat_le, paired.refines₂.nMiss, paired.refines₁.nMiss]
  exact paired.includes.misses

/-- A hit with fewer lines is a hit with more lines. -/
theorem hits (paired : Paired s b E₁ E₂ n small large r₁ r₂) (some_bit : 1 ≤ s.toNat)
    (width : s.toNat + b.toNat < 64) (some_line : 0 < E₁.toNat) (more : E₁.toNat ≤ E₂.toNat)
    (few : n + 1 < 2 ^ 32) (addr : UInt64) (hit : Hits small addr) : Hits large addr := by
  have few₁ : r₁.nHit + r₁.nMiss + 1 < 2 ^ 32 := by
    rw [paired.total₁]
    exact few
  have few₂ : r₂.nHit + r₂.nMiss + 1 < 2 ^ 32 := by
    rw [paired.total₂]
    exact few
  rw [paired.refines₁.hits_iff some_bit width some_line addr few₁] at hit
  rw [paired.refines₂.hits_iff some_bit width (by omega) addr few₂]
  exact (paired.includes.sets _).hit hit

/-- The same accesses in both simulators. -/
theorem replay (paired : Paired s b E₁ E₂ n small large r₁ r₂) (some_bit : 1 ≤ s.toNat)
    (width : s.toNat + b.toNat < 64) (some_line : 0 < E₁.toNat) (more : E₁.toNat ≤ E₂.toNat)
    (addrs : List UInt64) (few : n + addrs.length < 2 ^ 32) :
    ∃ small' large' r₁' r₂', Machine.replay access small addrs = some small' ∧
      Machine.replay access large addrs = some large' ∧
      Paired s b E₁ E₂ (n + addrs.length) small' large' r₁' r₂' := by
  have total₁ := paired.total₁
  have total₂ := paired.total₂
  obtain ⟨small', played₁, refines₁, count₁⟩ :=
    paired.refines₁.replay some_bit width some_line addrs (by omega)
  obtain ⟨large', played₂, refines₂, count₂⟩ :=
    paired.refines₂.replay some_bit width (by omega) addrs (by omega)
  exact ⟨small', large', _, _, played₁, played₂, refines₁, refines₂,
    paired.includes.replay more s.toNat b.toNat addrs, by omega, by omega⟩

end Paired

/-- With more lines in each set the simulator keeps all that it keeps with fewer
lines, hits where it hits with fewer lines, and misses no more often. -/
theorem simulate_inclusion (s b E₁ E₂ : UInt32) (some_bit : 1 ≤ s) (bits : s ≤ 30)
    (width : s.toNat + b.toNat < 64) (some_line : 1 ≤ E₁) (more : E₁ ≤ E₂)
    (small large : Nat → SET) (blank₁ : ∀ i < 2 ^ s.toNat, (small i).Blank E₁.toNat)
    (blank₂ : ∀ i < 2 ^ s.toNat, (large i).Blank E₂.toNat) (trace : List Record)
    (few : accesses trace < 2 ^ 32) :
    Inclusion s trace (small, startParam s b E₁) (large, startParam s b E₂) := by
  have low : 1 ≤ s.toNat := UInt32.le_iff_toNat_le.mp some_bit
  have high : s.toNat ≤ 30 := UInt32.le_iff_toNat_le.mp bits
  have positive : 0 < E₁.toNat := UInt32.le_iff_toNat_le.mp some_line
  have wider : E₁.toNat ≤ E₂.toNat := UInt32.le_iff_toNat_le.mp more
  have start : Paired s b E₁ E₂ 0 (small, startParam s b E₁) (large, startParam s b E₂)
      Reference.start Reference.start :=
    ⟨.start high b blank₁, .start high b blank₂, Reference.includes_start, rfl, rfl⟩
  have run := start.replay low width positive wider
  have length := addresses_length trace
  refine ⟨?_, ?_, ?_⟩
  · intro past first
    have short := (addresses_first first).length_le
    obtain ⟨small', large', _, _, played₁, played₂, paired⟩ := run (addresses past) (by omega)
    refine ⟨small', large', ?_, ?_, paired.tags⟩
    · rw [simulate_eq_replay_addresses, played₁]
    · rw [simulate_eq_replay_addresses, played₂]
  · intro past addr first
    have short := first.length_le
    rw [List.length_append, List.length_singleton] at short
    obtain ⟨small', large', _, _, played₁, played₂, paired⟩ := run past (by omega)
    refine ⟨small', large', played₁, played₂, paired.tags, ?_⟩
    exact paired.hits low width positive wider (by omega) addr
  · obtain ⟨small', large', _, _, played₁, played₂, paired⟩ := run (addresses trace) (by omega)
    refine ⟨small', large', ?_, ?_, paired.misses⟩
    · rw [simulate_eq_replay_addresses, played₁]
    · rw [simulate_eq_replay_addresses, played₂]

/-- One line and three lines in each of two sets. -/
theorem simulate_inclusion_shortTrace :
    Inclusion 1 shortTrace (blankCache, startParam 1 0 1)
      (fun _ => ⟨[⟨7, false, 9⟩, ⟨7, false, 2⟩, ⟨0, false, 0⟩], 0⟩, startParam 1 0 3) :=
  simulate_inclusion 1 0 1 3 (by decide) (by decide) (by decide) (by decide) (by decide) blankCache
    _ (fun _ _ => ⟨rfl, rfl, by simp [blankCache]⟩) (fun _ _ => ⟨rfl, rfl, by simp⟩) shortTrace
    (by decide)

end SysProg.Csim

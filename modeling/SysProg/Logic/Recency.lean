import Mathlib.Data.List.Perm.Basic
import Mathlib.Data.List.Nodup
import Mathlib.Order.Lattice

/-!
# Least recently used

An ideal set of bounded size keeps its keys from the most to the least recently
used.  A store that keeps entries in any order, each with the time of its last
use, represents such a set through the list of its entries from the newest to
the oldest.  Of two ideal sets of different sizes that see the same accesses the
smaller one is the front of the larger one.
-/

namespace SysProg.Logic

/-- What an access finds: the key, room for it, or neither. -/
inductive Outcome where
  | hit
  | miss
  | eviction
  deriving DecidableEq

/-- At most `capacity` distinct keys, from the most to the least recently
used. -/
structure RecencyList (κ : Type) (capacity : Nat) where
  keys : List κ
  distinct : keys.Nodup
  bounded : keys.length ≤ capacity

namespace RecencyList

variable {κ : Type} [DecidableEq κ] {capacity : Nat}

/-- No keys. -/
def empty : RecencyList κ capacity := ⟨[], List.nodup_nil, Nat.zero_le _⟩

/-- An access to a present key moves it to the front; an access to an absent
key inserts it at the front and drops the last one from a full list. -/
def access (l : RecencyList κ capacity) (key : κ) : RecencyList κ capacity × Outcome :=
  if present : key ∈ l.keys then
    (⟨key :: l.keys.erase key,
      List.nodup_cons.mpr ⟨l.distinct.not_mem_erase, l.distinct.erase key⟩, by
        have shorter := List.length_erase_add_one present
        have bounded := l.bounded
        simp only [List.length_cons]
        omega⟩, .hit)
  else
    have longer : (key :: l.keys).Nodup := List.nodup_cons.mpr ⟨present, l.distinct⟩
    if full : l.keys.length = capacity then
      (⟨(key :: l.keys).dropLast, longer.sublist (List.dropLast_sublist _), by
        simp only [List.length_dropLast, List.length_cons]
        omega⟩, .eviction)
    else
      (⟨key :: l.keys, longer, by
        have bounded := l.bounded
        simp only [List.length_cons]
        omega⟩, .miss)

section Access

variable {l : RecencyList κ capacity} {k : κ}

theorem access_present (present : k ∈ l.keys) :
    (l.access k).2 = .hit ∧ (l.access k).1.keys = k :: l.keys.erase k := by
  unfold access
  rw [dif_pos present]
  exact ⟨rfl, rfl⟩

theorem access_full (absent : k ∉ l.keys) (full : l.keys.length = capacity) :
    (l.access k).2 = .eviction ∧ (l.access k).1.keys = (k :: l.keys).dropLast := by
  unfold access
  rw [dif_neg absent, dif_pos full]
  exact ⟨rfl, rfl⟩

theorem access_room (absent : k ∉ l.keys) (room : l.keys.length ≠ capacity) :
    (l.access k).2 = .miss ∧ (l.access k).1.keys = k :: l.keys := by
  unfold access
  rw [dif_neg absent, dif_neg room]
  exact ⟨rfl, rfl⟩

/-- An access hits exactly when the key is present. -/
theorem access_hit_iff : (l.access k).2 = .hit ↔ k ∈ l.keys := by
  constructor
  · intro hit
    by_contra absent
    by_cases full : l.keys.length = capacity
    · rw [(access_full absent full).1] at hit
      cases hit
    · rw [(access_room absent full).1] at hit
      cases hit
  · exact fun present => (access_present present).1

/-- After an access the accessed key comes first, as many of the others follow
as there is room for. -/
theorem access_keys (l : RecencyList κ capacity) (k : κ) :
    (l.access k).1.keys = (k :: l.keys.erase k).take capacity := by
  have bounded := l.bounded
  by_cases present : k ∈ l.keys
  · have shorter := List.length_erase_add_one present
    rw [(access_present present).2, List.take_of_length_le]
    rw [List.length_cons]
    omega
  · rw [List.erase_of_not_mem present]
    by_cases full : l.keys.length = capacity
    · rw [(access_full present full).2, List.dropLast_eq_take, List.length_cons, full,
        Nat.add_sub_cancel]
    · rw [(access_room present full).2, List.take_of_length_le]
      rw [List.length_cons]
      omega

/-- A key comes in with every access that is not a hit, and one goes out with
every eviction. -/
theorem access_length (l : RecencyList κ capacity) (k : κ) :
    (l.access k).1.keys.length + (if (l.access k).2 = .eviction then 1 else 0) =
      l.keys.length + if (l.access k).2 = .hit then 0 else 1 := by
  by_cases present : k ∈ l.keys
  · have shorter := List.length_erase_add_one present
    simp only [access_present present, List.length_cons, if_true, reduceCtorEq, if_false]
    omega
  · by_cases full : l.keys.length = capacity
    · simp [access_full present full]
    · simp [access_room present full]

end Access

/-! ## Two capacities -/

/-- The keys of the smaller list are the most recently used ones of the larger
list. -/
def Includes {larger : Nat} (l : RecencyList κ larger) (l' : RecencyList κ capacity) : Prop :=
  l'.keys = l.keys.take capacity

/-- Of the first keys that are left, all but the last do not depend on how many
there were. -/
theorem take_erase_take (keys : List κ) (k : κ) (n : Nat) :
    ((keys.take (n + 1)).erase k).take n = (keys.erase k).take n := by
  induction keys generalizing n with
  | nil => rfl
  | cons first rest ih =>
      rw [List.take_succ_cons]
      by_cases here : first = k
      · subst here
        rw [List.erase_cons_head, List.erase_cons_head, List.take_take, Nat.min_self]
      · rw [List.erase_cons_tail (by simpa using here), List.erase_cons_tail (by simpa using here)]
        cases n with
        | zero => rfl
        | succ n => rw [List.take_succ_cons, List.take_succ_cons, ih]

section Includes

variable {larger : Nat} {l : RecencyList κ larger} {l' : RecencyList κ capacity}

omit [DecidableEq κ] in
theorem includes_empty :
    Includes (empty : RecencyList κ larger) (empty : RecencyList κ capacity) :=
  List.take_nil.symm

omit [DecidableEq κ] in
theorem Includes.subset (includes : Includes l l') : l'.keys ⊆ l.keys := by
  rw [includes]
  exact List.take_subset capacity l.keys

/-- The same access keeps the inclusion. -/
theorem Includes.access (includes : Includes l l') (more : capacity ≤ larger) (k : κ) :
    Includes (l.access k).1 (l'.access k).1 := by
  unfold Includes at includes ⊢
  rw [access_keys, access_keys, includes, List.take_take, Nat.min_eq_left more]
  cases capacity with
  | zero => rfl
  | succ n => rw [List.take_succ_cons, List.take_succ_cons, take_erase_take]

/-- A hit in the smaller list is one in the larger list. -/
theorem Includes.hit (includes : Includes l l') {k : κ} (hit : (l'.access k).2 = .hit) :
    (l.access k).2 = .hit :=
  access_hit_iff.mpr (includes.subset (access_hit_iff.mp hit))

end Includes

end RecencyList

/-! ## Entries with times -/

section Recent

variable {α κ τ : Type} [LinearOrder τ] {time : α → τ} {key : α → κ}

/-- A list has the given entries, from the newest to the oldest. -/
structure Recent (time : α → τ) (entries recent : List α) : Prop where
  same : entries.Perm recent
  newest : recent.Pairwise fun later earlier => time earlier < time later

theorem Recent.nil : Recent time [] [] := ⟨.refl _, .nil⟩

/-- A new entry that is later than all others is the newest. -/
theorem Recent.insert {before after recent : List α} {e : α}
    (recency : Recent time (before ++ after) recent)
    (later : ∀ o ∈ before ++ after, time o < time e) :
    Recent time (before ++ e :: after) (e :: recent) where
  same := List.perm_middle.trans (recency.same.cons e)
  newest := by
    refine List.pairwise_cons.mpr ⟨?_, recency.newest⟩
    intro o member
    exact later o (recency.same.mem_iff.mpr member)

/-- Without one of its entries the others keep their order. -/
theorem Recent.remove {before after newer older : List α} {e : α}
    (recency : Recent time (before ++ e :: after) (newer ++ e :: older)) :
    Recent time (before ++ after) (newer ++ older) where
  same := (List.perm_middle.symm.trans (recency.same.trans List.perm_middle)).cons_inv
  newest := recency.newest.sublist (by simp)

/-- The oldest entry is the last one. -/
theorem Recent.oldest {entries newer older : List α} {e : α}
    (recency : Recent time entries (newer ++ e :: older))
    (oldest : ∀ o ∈ entries, time e ≤ time o) : older = [] := by
  cases older with
  | nil => rfl
  | cons o rest =>
      have ordered := (List.pairwise_append.mp recency.newest).2.1
      have earlier : time o < time e := (List.pairwise_cons.mp ordered).1 o List.mem_cons_self
      have member : o ∈ entries := recency.same.mem_iff.mpr (by simp)
      exact absurd (oldest o member) (not_le.mpr earlier)

end Recent

/-! ## Entries that represent an ideal set -/

section Represents

variable {α κ τ : Type} [LinearOrder τ] {time : α → τ} {key : α → κ} {capacity : Nat}

/-- The keys of the entries, from the newest to the oldest, are the ideal
set. -/
def Represents (time : α → τ) (key : α → κ) (entries : List α) (l : RecencyList κ capacity) : Prop :=
  ∃ recent, Recent time entries recent ∧ recent.map key = l.keys

theorem Represents.length {entries : List α} {l : RecencyList κ capacity}
    (represents : Represents time key entries l) : entries.length = l.keys.length := by
  obtain ⟨recent, recency, keys⟩ := represents
  rw [recency.same.length_eq, ← keys, List.length_map]

theorem Represents.mem_keys {entries : List α} {l : RecencyList κ capacity}
    (represents : Represents time key entries l) {k : κ} :
    k ∈ l.keys ↔ ∃ e ∈ entries, key e = k := by
  obtain ⟨recent, recency, keys⟩ := represents
  rw [← keys, List.mem_map]
  simp only [recency.same.mem_iff]

variable [DecidableEq κ] {before after : List α} {l : RecencyList κ capacity} {e : α}

/-- Using an entry again is a hit. -/
theorem Represents.touch (represents : Represents time key (before ++ e :: after) l) (e' : α)
    (same : key e' = key e) (later : ∀ o ∈ before ++ after, time o < time e') :
    (l.access (key e')).2 = .hit ∧
      Represents time key (before ++ e' :: after) (l.access (key e')).1 := by
  obtain ⟨hit, moved⟩ :=
    RecencyList.access_present (represents.mem_keys.mpr ⟨e, by simp, same.symm⟩)
  obtain ⟨recent, recency, keys⟩ := represents
  obtain ⟨newer, older, rfl⟩ := List.append_of_mem (recency.same.mem_iff.mp (by simp : e ∈ _))
  have notNewer : key e ∉ newer.map key := by
    have distinct := l.distinct
    rw [← keys, List.map_append, List.map_cons] at distinct
    intro member
    exact List.disjoint_of_nodup_append distinct member (by simp)
  refine ⟨hit, e' :: (newer ++ older), recency.remove.insert later, ?_⟩
  rw [moved, ← keys, same, List.map_cons, List.map_append, List.map_append, List.map_cons,
    List.erase_append_right _ notNewer, List.erase_cons_head, same]

/-- A new entry for an absent key is a miss while there is room. -/
theorem Represents.insert (represents : Represents time key (before ++ after) l)
    (absent : ∀ o ∈ before ++ after, key o ≠ key e) (room : (before ++ after).length < capacity)
    (later : ∀ o ∈ before ++ after, time o < time e) :
    (l.access (key e)).2 = .miss ∧
      Represents time key (before ++ e :: after) (l.access (key e)).1 := by
  have missing : key e ∉ l.keys := by
    rw [represents.mem_keys]
    rintro ⟨o, member, same⟩
    exact absent o member same
  have notFull : l.keys.length ≠ capacity := by
    have length := represents.length
    omega
  obtain ⟨miss, inserted⟩ := RecencyList.access_room missing notFull
  obtain ⟨recent, recency, keys⟩ := represents
  exact ⟨miss, e :: recent, recency.insert later, by rw [inserted, List.map_cons, keys]⟩

/-- Replacing the oldest entry for an absent key evicts. -/
theorem Represents.replace (represents : Represents time key (before ++ e :: after) l) (e' : α)
    (absent : ∀ o ∈ before ++ e :: after, key o ≠ key e')
    (full : (before ++ e :: after).length = capacity)
    (oldest : ∀ o ∈ before ++ e :: after, time e ≤ time o)
    (later : ∀ o ∈ before ++ after, time o < time e') :
    (l.access (key e')).2 = .eviction ∧
      Represents time key (before ++ e' :: after) (l.access (key e')).1 := by
  have missing : key e' ∉ l.keys := by
    rw [represents.mem_keys]
    rintro ⟨o, member, same⟩
    exact absent o member same
  obtain ⟨eviction, dropped⟩ :=
    RecencyList.access_full missing (represents.length.symm.trans full)
  obtain ⟨recent, recency, keys⟩ := represents
  obtain ⟨newer, older, rfl⟩ := List.append_of_mem (recency.same.mem_iff.mp (by simp : e ∈ _))
  obtain rfl := recency.oldest oldest
  refine ⟨eviction, e' :: (newer ++ []), recency.remove.insert later, ?_⟩
  rw [dropped, ← keys, List.map_cons, List.map_append, List.map_append, List.map_cons, List.map_nil,
    List.append_nil, ← List.cons_append, List.dropLast_concat]

end Represents

end SysProg.Logic

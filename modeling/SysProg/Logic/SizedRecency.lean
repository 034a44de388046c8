import Mathlib.Algebra.GroupWithZero.Nat
import Mathlib.Data.List.Nodup

/-!
# Least recently used, bounded by size

An ideal set of sized keys is kept from the most to the least recently used,
with a bounded total size.  A new key drops keys from the back, but only while
the remaining space is too small for it.
-/

namespace SysProg.Logic

variable {κ : Type}

/-- The total size of a list of keys. -/
def totalSize (entries : List (κ × Nat)) : Nat := (entries.map Prod.snd).sum

/-- Distinct keys of a total size of at most `capacity`, from the most to the
least recently used. -/
structure SizedList (κ : Type) (capacity : Nat) where
  entries : List (κ × Nat)
  distinct : (entries.map Prod.fst).Nodup
  bounded : totalSize entries ≤ capacity

/-- The keys that are left, the least recently used first, when there is room
for a new one. -/
def dropOldest (capacity size : Nat) : List (κ × Nat) → List (κ × Nat)
  | [] => []
  | e :: rest =>
      if capacity - totalSize (e :: rest) < size then dropOldest capacity size rest else e :: rest

/-- The keys that a new one leaves in place. -/
def keepRecent (capacity size : Nat) (entries : List (κ × Nat)) : List (κ × Nat) :=
  (dropOldest capacity size entries.reverse).reverse

section Keep

variable {capacity size : Nat} {entries : List (κ × Nat)}

@[simp] theorem totalSize_cons (e : κ × Nat) (entries : List (κ × Nat)) :
    totalSize (e :: entries) = e.2 + totalSize entries := by
  simp [totalSize]

@[simp] theorem totalSize_append (front back : List (κ × Nat)) :
    totalSize (front ++ back) = totalSize front + totalSize back := by
  simp [totalSize]

@[simp] theorem totalSize_reverse (entries : List (κ × Nat)) :
    totalSize entries.reverse = totalSize entries := by
  simp [totalSize, List.sum_reverse]

theorem dropOldest_suffix (capacity size : Nat) (entries : List (κ × Nat)) :
    dropOldest capacity size entries <:+ entries := by
  induction entries with
  | nil => exact List.suffix_refl _
  | cons e rest ih =>
      rw [dropOldest]
      split
      · exact ih.trans (List.suffix_cons e rest)
      · exact List.suffix_refl _

/-- What is left has room for the new key. -/
theorem dropOldest_room (fits : size ≤ capacity) (bounded : totalSize entries ≤ capacity) :
    size + totalSize (dropOldest capacity size entries) ≤ capacity := by
  induction entries with
  | nil => simpa [dropOldest, totalSize] using fits
  | cons e rest ih =>
      rw [dropOldest]
      split
      · apply ih
        rw [totalSize_cons] at bounded
        omega
      · omega

theorem keepRecent_recent (capacity size : Nat) (entries : List (κ × Nat)) :
    keepRecent capacity size entries <+: entries := by
  have suffix := dropOldest_suffix capacity size entries.reverse
  rw [← List.reverse_prefix, List.reverse_reverse] at suffix
  exact suffix

theorem keepRecent_room (fits : size ≤ capacity) (bounded : totalSize entries ≤ capacity) :
    size + totalSize (keepRecent capacity size entries) ≤ capacity := by
  rw [keepRecent, totalSize_reverse]
  apply dropOldest_room fits
  rw [totalSize_reverse]
  exact bounded

/-- Nothing is dropped while there is room. -/
theorem keepRecent_all (room : size ≤ capacity - totalSize entries) :
    keepRecent capacity size entries = entries := by
  rw [keepRecent]
  cases reversed : entries.reverse with
  | nil =>
      rw [List.reverse_eq_nil_iff.mp reversed]
      rfl
  | cons e rest =>
      rw [dropOldest, ← reversed, totalSize_reverse, if_neg (by omega), List.reverse_reverse]

/-- Only the last key is dropped if that makes room. -/
theorem keepRecent_dropLast {init : List (κ × Nat)} {last : κ × Nat}
    (tight : capacity - totalSize (init ++ [last]) < size)
    (room : size ≤ capacity - totalSize init) :
    keepRecent capacity size (init ++ [last]) = init := by
  have kept := keepRecent_all room
  rw [keepRecent] at kept ⊢
  have again : capacity - totalSize (last :: init.reverse) < size := by
    rw [totalSize_append] at tight
    rw [totalSize_cons, totalSize_reverse]
    simp only [totalSize_cons] at tight
    have none : totalSize ([] : List (κ × Nat)) = 0 := rfl
    omega
  rw [List.reverse_append, List.reverse_singleton, List.singleton_append, dropOldest,
    if_pos again]
  exact kept

end Keep

namespace SizedList

variable {capacity : Nat}

/-- No keys. -/
def empty : SizedList κ capacity := ⟨[], List.nodup_nil, Nat.zero_le _⟩

/-- A key is moved to the front. -/
def touch [DecidableEq κ] (l : SizedList κ capacity) (e : κ × Nat) (present : e ∈ l.entries) :
    SizedList κ capacity where
  entries := e :: l.entries.erase e
  distinct := ((List.perm_cons_erase present).map Prod.fst).nodup_iff.mp l.distinct
  bounded := by
    have same : totalSize l.entries = totalSize (e :: l.entries.erase e) :=
      ((List.perm_cons_erase present).map Prod.snd).sum_nat
    rw [← same]
    exact l.bounded

/-- A new key is inserted at the front. -/
def insert (l : SizedList κ capacity) (e : κ × Nat) (absent : e.1 ∉ l.entries.map Prod.fst)
    (fits : e.2 ≤ capacity) : SizedList κ capacity where
  entries := e :: keepRecent capacity e.2 l.entries
  distinct := by
    have kept := (keepRecent_recent capacity e.2 l.entries).sublist.map Prod.fst
    rw [List.map_cons, List.nodup_cons]
    exact ⟨fun member => absent (kept.subset member), l.distinct.sublist kept⟩
  bounded := by
    rw [totalSize_cons]
    exact keepRecent_room fits l.bounded

variable [DecidableEq κ]

/-- An access to a present key returns its size and moves it to the front; an
access to an absent key inserts it. -/
def access (l : SizedList κ capacity) (e : κ × Nat) (fits : e.2 ≤ capacity) :
    Option Nat × SizedList κ capacity :=
  match found : l.entries.find? fun d => d.1 = e.1 with
  | some d => (some d.2, l.touch d (List.mem_of_find?_eq_some found))
  | none => (none, l.insert e (fun member => by
      obtain ⟨d, inList, same⟩ := List.mem_map.mp member
      exact List.find?_eq_none.mp found d inList (by simpa using same)) fits)

section Access

variable (l : SizedList κ capacity) {front back : List (κ × Nat)} {e : κ × Nat}
  (fits : e.2 ≤ capacity)

theorem access_present {n : Nat} (here : l.entries = front ++ (e.1, n) :: back) :
    (l.access e fits).1 = some n ∧
      (l.access e fits).2.entries = (e.1, n) :: (front ++ back) := by
  have distinct := l.distinct
  rw [here, List.map_append, List.map_cons, List.nodup_append, List.nodup_cons] at distinct
  have before : ∀ d ∈ front, d.1 ≠ e.1 := fun d member same =>
    distinct.2.2 d.1 (List.mem_map_of_mem member) e.1 List.mem_cons_self same
  have first : l.entries.find? (fun d => d.1 = e.1) = some (e.1, n) := by
    rw [here, List.find?_append]
    have none : front.find? (fun d => d.1 = e.1) = none := by
      simpa [List.find?_eq_none] using fun a b member => before (a, b) member
    rw [none]
    simp
  have erased : l.entries.erase (e.1, n) = front ++ back := by
    rw [here, List.erase_append_right _ fun member => before (e.1, n) member rfl,
      List.erase_cons_head]
  unfold access
  split
  · rename_i d found
    rw [first] at found
    cases found
    exact ⟨rfl, congrArg ((e.1, n) :: ·) erased⟩
  · rename_i found
    rw [first] at found
    cases found

theorem access_absent (absent : ∀ d ∈ l.entries, d.1 ≠ e.1) :
    (l.access e fits).1 = none ∧
      (l.access e fits).2.entries = e :: keepRecent capacity e.2 l.entries := by
  unfold access
  split
  · rename_i d found
    have same : d.1 = e.1 := by simpa using List.find?_some found
    exact absurd same (absent d (List.mem_of_find?_eq_some found))
  · exact ⟨rfl, rfl⟩

end Access

end SizedList

end SysProg.Logic

import Mathlib.Data.List.Induction
import SysProg.Logic.Smallest

/-!
# The K-best scheme of `fcyc.c`

`fcyc` runs a function again and again, keeps the `kbest` shortest times and stops
when they lie close together or after `maxsamples` runs.  A time is an element of a
linear order, and `close first last` stands for `(1 + epsilon)*first >= last`.  An
access outside the array of the times fails.
-/

namespace SysProg.Mdriver

open Logic

section Runs

variable {α : Type} {times : Nat → α} {n : Nat} {x : α}

/-- The times of the first runs, the last one first. -/
def measured (times : Nat → α) : Nat → List α
  | 0 => []
  | n + 1 => times n :: measured times n

theorem measured_length (times : Nat → α) (n : Nat) : (measured times n).length = n := by
  induction n with
  | zero => rfl
  | succ n ih => rw [measured, List.length_cons, ih]

theorem mem_measured : x ∈ measured times n ↔ ∃ i < n, times i = x := by
  induction n with
  | zero => simp [measured]
  | succ n ih =>
      rw [measured, List.mem_cons, ih]
      constructor
      · rintro (rfl | ⟨i, before, rfl⟩)
        · exact ⟨n, Nat.lt_succ_self n, rfl⟩
        · exact ⟨i, Nat.lt_succ_of_lt before, rfl⟩
      · rintro ⟨i, before, rfl⟩
        rcases Nat.lt_succ_iff_lt_or_eq.mp before with earlier | rfl
        · exact .inr ⟨i, earlier, rfl⟩
        · exact .inl rfl

end Runs

section Fcyc

variable {α : Type} [LinearOrder α]

/-- `values` and `samplecount`. -/
structure Sampler (α : Type) where
  values : List α
  samplecount : Nat

/-- `init_sampler`. -/
def initSampler (kbest : Nat) (zero : α) : Sampler α := ⟨List.replicate kbest zero, 0⟩

/-- `values[i] = val`. -/
def setValue (values : List α) (i : Nat) (val : α) : Option (List α) :=
  if i < values.length then some (values.set i val) else none

/-- The loop of `add_sample` that exchanges `values[pos-1]` and `values[pos]`. -/
def moveDown : Nat → List α → Option (List α)
  | 0, values => some values
  | pos + 1, values => do
      let left ← values[pos]?
      let right ← values[pos + 1]?
      if left > right then moveDown pos ((values.set pos right).set (pos + 1) left)
      else some values

/-- `add_sample`. -/
def addSample (kbest : Nat) (val : α) (s : Sampler α) : Option (Sampler α) := do
  let (pos, values) ←
    if s.samplecount < kbest then
      (setValue s.values s.samplecount val).map fun values => (s.samplecount, values)
    else do
      let last ← s.values[kbest - 1]?
      if val < last then
        (setValue s.values (kbest - 1) val).map fun values => (kbest - 1, values)
      else some (0, s.values)
  let values ← moveDown pos values
  some ⟨values, s.samplecount + 1⟩

/-- `has_converged`. -/
def hasConverged (close : α → α → Bool) (kbest : Nat) (s : Sampler α) : Option Bool :=
  if s.samplecount < kbest then some false
  else do
    let first ← s.values[0]?
    let last ← s.values[kbest - 1]?
    some (close first last)

/-- The loop of `fcyc`, cut off after `fuel` rounds: `values[0]` and the number of runs. -/
def sampleRounds (close : α → α → Bool) (kbest maxsamples : Nat) (times : Nat → α) :
    Nat → Sampler α → Option (α × Nat)
  | 0, _ => none
  | fuel + 1, s => do
      let s ← addSample kbest (times s.samplecount) s
      let converged ← hasConverged close kbest s
      if !converged && s.samplecount < maxsamples then
        sampleRounds close kbest maxsamples times fuel s
      else do
        let result ← s.values[0]?
        some (result, s.samplecount)

/-- `fcyc`, where run `n` takes the time `times n`. -/
def fcyc (close : α → α → Bool) (kbest maxsamples : Nat) (zero : α) (times : Nat → α) :
    Option (α × Nat) :=
  sampleRounds close kbest maxsamples times (maxsamples + 1) (initSampler kbest zero)

/-! ## Adding a sample -/

/-- The array begins with the smallest of the samples so far. -/
structure Keeps (kbest : Nat) (samples : List α) (s : Sampler α) : Prop where
  size : s.values.length = kbest
  count : s.samplecount = samples.length
  kept : s.values.take samples.length = smallest kbest samples

variable {kbest : Nat} {samples front back : List α} {s : Sampler α} {x : α}

/-- A value moves down to its place in a sorted front. -/
theorem moveDown_run (sorted : front.Pairwise (· ≤ ·)) :
    moveDown front.length (front ++ x :: back) = some (front.orderedInsert (· ≤ ·) x ++ back) := by
  induction front using List.reverseRecOn generalizing back with
  | nil => rfl
  | append_singleton front y ih =>
      obtain ⟨lower, -, ends⟩ := List.pairwise_append.mp sorted
      have left : (front ++ [y] ++ x :: back)[front.length]? = some y := by simp
      have right : (front ++ [y] ++ x :: back)[front.length + 1]? = some x := by simp
      rw [List.length_append, List.length_singleton, moveDown, left, right, Option.bind_eq_bind,
        Option.bind_some, Option.bind_some]
      split
      · rename_i larger
        have exchanged : ((front ++ [y] ++ x :: back).set front.length x).set (front.length + 1) y =
            front ++ x :: (y :: back) := by simp
        rw [exchanged, ih lower, orderedInsert_append (le_of_lt larger), List.append_assoc]
        rfl
      · rename_i inOrder
        have above : ∀ z ∈ front ++ [y], z ≤ x := by
          intro z member
          rcases List.mem_append.mp member with before | here
          · exact (ends z before y (List.mem_singleton_self y)).trans (not_lt.mp inOrder)
          · rw [List.mem_singleton.mp here]
            exact not_lt.mp inOrder
        rw [orderedInsert_above sorted above, List.append_assoc _ [x]]
        rfl

theorem initSampler_keeps (kbest : Nat) (zero : α) : Keeps kbest [] (initSampler kbest zero) where
  size := List.length_replicate
  count := rfl
  kept := by
    rw [List.length_nil, List.take_zero]
    exact (List.take_nil).symm

/-- While there is room a sample is inserted into all that are kept. -/
theorem Keeps.insert (keeps : Keeps kbest samples s) (room : samples.length < kbest) (x : α) :
    ∃ s', addSample kbest x s = some s' ∧ Keeps kbest (x :: samples) s' := by
  have inside : samples.length < s.values.length := keeps.size ▸ room
  have length : (smallest kbest samples).length = samples.length := by
    rw [smallest_length, Nat.min_eq_right room.le]
  have split : s.values.set samples.length x =
      smallest kbest samples ++ x :: s.values.drop (samples.length + 1) := by
    rw [← keeps.kept, List.set_eq_take_append_cons_drop, if_pos inside]
  refine ⟨⟨(smallest kbest samples).orderedInsert (· ≤ ·) x ++ s.values.drop (samples.length + 1),
    samples.length + 1⟩, ?_, ⟨?_, rfl, ?_⟩⟩
  · have moved : moveDown (smallest kbest samples).length
        (smallest kbest samples ++ x :: s.values.drop (samples.length + 1)) = some _ :=
      moveDown_run (smallest_sorted kbest samples)
    rw [length, ← split] at moved
    rw [addSample, keeps.count, if_pos room, setValue, if_pos inside]
    simp only [Option.map_some, Option.bind_eq_bind, Option.bind_some, moved]
  · rw [List.length_append, List.orderedInsert_length, length, List.length_drop, keeps.size]
    omega
  · have whole : ((smallest kbest samples).orderedInsert (· ≤ ·) x).length = samples.length + 1 := by
      rw [List.orderedInsert_length, length]
    rw [smallest_cons, List.take_of_length_le (by omega : _ ≤ kbest)]
    exact List.take_left' whole

/-- In a full array a sample replaces the largest one, or is dropped. -/
theorem Keeps.replace (keeps : Keeps kbest samples s) (positive : 0 < kbest)
    (full : kbest ≤ samples.length) (x : α) :
    ∃ s', addSample kbest x s = some s' ∧ Keeps kbest (x :: samples) s' := by
  have all : s.values = smallest kbest samples := by
    rw [← keeps.kept, List.take_of_length_le (keeps.size.trans_le full)]
  have nonempty : s.values ≠ [] := List.ne_nil_of_length_pos (keeps.size ▸ positive)
  obtain ⟨front, y, split⟩ : ∃ front y, s.values = front ++ [y] :=
    ⟨_, _, (List.dropLast_concat_getLast nonempty).symm⟩
  have size : front.length + 1 = kbest := by
    rw [← keeps.size, split, List.length_append, List.length_singleton]
  have sorted : (front ++ [y]).Pairwise (· ≤ ·) := by
    rw [← split, all]
    exact smallest_sorted kbest samples
  have next := take_orderedInsert_full (x := x) sorted
  rw [size, ← split, all, ← smallest_cons] at next
  have read : (front ++ [y])[kbest - 1]? = some y := by
    rw [← size, Nat.add_sub_cancel]
    exact List.getElem?_concat_length
  by_cases smaller : x < y
  · rw [if_pos smaller] at next
    have inside : kbest - 1 < (front ++ [y]).length := by
      rw [List.length_append, List.length_singleton]
      omega
    have exchanged : (front ++ [y]).set (kbest - 1) x = front ++ [x] := by
      rw [← size, Nat.add_sub_cancel]
      simp
    have moved : moveDown (kbest - 1) (front ++ [x]) = some (front.orderedInsert (· ≤ ·) x) := by
      rw [← size, Nat.add_sub_cancel,
        moveDown_run (List.pairwise_append.mp sorted).1, List.append_nil]
    refine ⟨⟨front.orderedInsert (· ≤ ·) x, samples.length + 1⟩, ?_, ⟨?_, rfl, ?_⟩⟩
    · rw [addSample, keeps.count, if_neg (not_lt.mpr full), split, read]
      simp only [Option.bind_eq_bind, Option.bind_some]
      rw [if_pos smaller, setValue, if_pos inside, exchanged]
      simp only [Option.map_some, Option.bind_some, moved]
    · rw [List.orderedInsert_length, size]
    · rw [next]
      exact List.take_of_length_le (by rw [List.orderedInsert_length, List.length_cons]; omega)
  · rw [if_neg smaller, ← all] at next
    refine ⟨⟨s.values, samples.length + 1⟩, ?_, ⟨keeps.size, rfl, ?_⟩⟩
    · rw [addSample, keeps.count, if_neg (not_lt.mpr full), split, read]
      simp only [Option.bind_eq_bind, Option.bind_some]
      rw [if_neg smaller]
      rfl
    · rw [next]
      exact List.take_of_length_le (by rw [keeps.size, List.length_cons]; omega)

/-- A sample is added. -/
theorem Keeps.add (keeps : Keeps kbest samples s) (positive : 0 < kbest) (x : α) :
    ∃ s', addSample kbest x s = some s' ∧ Keeps kbest (x :: samples) s' := by
  by_cases room : samples.length < kbest
  · exact keeps.insert room x
  · exact keeps.replace positive (not_lt.mp room) x

/-- The first of the values is the smallest sample. -/
theorem Keeps.first (keeps : Keeps kbest samples s) (positive : 0 < kbest) (sampled : samples ≠ []) :
    ∃ result, s.values[0]? = some result ∧ (smallest kbest samples)[0]? = some result := by
  have count := List.length_pos_iff.mpr sampled
  have inside : 0 < s.values.length := keeps.size ▸ positive
  refine ⟨s.values[0], List.getElem?_eq_getElem inside, ?_⟩
  rw [← keeps.kept, List.getElem?_take_of_lt count, List.getElem?_eq_getElem inside]

/-! ## The rounds -/

/-- The smallest times are as many as asked for and close together. -/
def Converged (close : α → α → Bool) (kbest : Nat) (samples : List α) : Prop :=
  ∃ first last, (smallest kbest samples)[0]? = some first ∧
    (smallest kbest samples)[kbest - 1]? = some last ∧ close first last = true

/-- The loop ends behind run `n`. -/
def Ends (close : α → α → Bool) (kbest maxsamples : Nat) (times : Nat → α) (n : Nat) : Prop :=
  maxsamples ≤ n ∨ Converged close kbest (measured times n)

variable {close : α → α → Bool} {maxsamples n : Nat} {times : Nat → α}

/-- The test looks at the smallest and the largest of the times that are kept. -/
theorem Keeps.converged (keeps : Keeps kbest samples s) (positive : 0 < kbest)
    (close : α → α → Bool) :
    ∃ converged, hasConverged close kbest s = some converged ∧
      (converged = true ↔ Converged close kbest samples) := by
  rw [hasConverged, keeps.count]
  split
  · rename_i few
    refine ⟨false, rfl, ⟨fun wrong => absurd wrong Bool.false_ne_true, ?_⟩⟩
    rintro ⟨first, last, -, read, -⟩
    have missing : (smallest kbest samples)[kbest - 1]? = none := by
      rw [List.getElem?_eq_none_iff, smallest_length]
      omega
    rw [missing] at read
    cases read
  · rename_i many
    have all : s.values = smallest kbest samples := by
      rw [← keeps.kept, List.take_of_length_le (keeps.size.trans_le (not_lt.mp many))]
    have inside : kbest - 1 < s.values.length := by
      rw [keeps.size]
      omega
    have first : s.values[0]? = some _ := List.getElem?_eq_getElem (keeps.size ▸ positive)
    have last : s.values[kbest - 1]? = some _ := List.getElem?_eq_getElem inside
    rw [first, last]
    refine ⟨_, rfl, ⟨fun near => ⟨_, _, all ▸ first, all ▸ last, near⟩, ?_⟩⟩
    rintro ⟨first', last', read, read', near⟩
    rw [← all, first] at read
    rw [← all, last] at read'
    cases read
    cases read'
    exact near

/-- From a sampler on, the rounds go on up to the first run behind which they end. -/
theorem sampleRounds_run (positive : 0 < kbest) {fuel : Nat} (enough : maxsamples < n + fuel)
    (some_round : 0 < fuel) (keeps : Keeps kbest (measured times n) s) :
    ∃ result m, sampleRounds close kbest maxsamples times fuel s = some (result, m) ∧ n < m ∧
      Ends close kbest maxsamples times m ∧
      (∀ i, n < i → i < m → ¬ Ends close kbest maxsamples times i) ∧
      (smallest kbest (measured times m))[0]? = some result := by
  induction fuel generalizing n s with
  | zero => exact absurd some_round (Nat.lt_irrefl 0)
  | succ fuel ih =>
      obtain ⟨s', added, keeps'⟩ := keeps.add positive (times n)
      change Keeps kbest (measured times (n + 1)) s' at keeps'
      obtain ⟨converged, tested, meaning⟩ := keeps'.converged positive close
      obtain ⟨result, read, least⟩ := keeps'.first positive (List.cons_ne_nil _ _)
      have count : s'.samplecount = n + 1 := by
        rw [keeps'.count, measured_length]
      rw [sampleRounds, keeps.count, measured_length, added]
      simp only [Option.bind_eq_bind, Option.bind_some, tested, count, read]
      split
      · rename_i more
        obtain ⟨apart, few⟩ : converged = false ∧ n + 1 < maxsamples := by simpa using more
        have unfinished : ¬ Ends close kbest maxsamples times (n + 1) := by
          rintro (many | near)
          · exact absurd many (Nat.not_le.mpr few)
          · rw [meaning.mpr near] at apart
            cases apart
        obtain ⟨result, m, run, later, ends, first, least⟩ := ih (by omega) (by omega) keeps'
        refine ⟨result, m, run, (Nat.lt_succ_self n).trans later, ends, ?_, least⟩
        intro i after before
        rcases Nat.lt_or_eq_of_le (Nat.succ_le_of_lt after) with beyond | rfl
        · exact first i beyond before
        · exact unfinished
      · rename_i done
        refine ⟨result, n + 1, rfl, Nat.lt_succ_self n, ?_, ?_, least⟩
        · by_cases near : converged = true
          · exact .inr (meaning.mp near)
          · refine .inl (Nat.not_lt.mp fun few => done ?_)
            simp [near, few]
        · intro i after before
          omega

/-- `fcyc` ends behind the first run after which the times are enough or close
together, and answers the shortest time so far. -/
theorem fcyc_shortest (positive : 0 < kbest) (close : α → α → Bool) (maxsamples : Nat) (zero : α)
    (times : Nat → α) :
    ∃ result n, fcyc close kbest maxsamples zero times = some (result, n) ∧ 0 < n ∧
      Ends close kbest maxsamples times n ∧
      (∀ i, 0 < i → i < n → ¬ Ends close kbest maxsamples times i) ∧
      (∀ i < n, result ≤ times i) ∧ ∃ i < n, times i = result := by
  obtain ⟨result, n, run, some_run, ends, first, least⟩ :=
    @sampleRounds_run α _ kbest (initSampler kbest zero) close maxsamples 0 times positive
      (maxsamples + 1) (by omega) (Nat.succ_pos _) (initSampler_keeps kbest zero)
  refine ⟨result, n, run, some_run, ends, first, ?_, ?_⟩
  · intro i before
    exact le_of_smallest least (mem_measured.mpr ⟨i, before, rfl⟩)
  · exact mem_measured.mp (mem_of_mem_smallest (List.mem_of_getElem? least))

/-- Three runs, of which the last two are within a tenth of the shortest one. -/
theorem fcyc_shortest_three :
    ∃ result n, fcyc (fun first last => last * 10 ≤ first * 11) 2 20 0
        (fun i => if i = 0 then 130 else 100 + i) = some (result, n) ∧ 0 < n ∧
      Ends (fun first last => last * 10 ≤ first * 11) 2 20 (fun i => if i = 0 then 130 else 100 + i) n ∧
      (∀ i, 0 < i → i < n → ¬ Ends (fun first last => last * 10 ≤ first * 11) 2 20
        (fun i => if i = 0 then 130 else 100 + i) i) ∧
      (∀ i < n, result ≤ if i = 0 then 130 else 100 + i) ∧
      ∃ i < n, (if i = 0 then 130 else 100 + i) = result :=
  fcyc_shortest (by decide) _ 20 0 fun i => if i = 0 then 130 else 100 + i

end Fcyc

end SysProg.Mdriver

import SysProg.Memtrace.Shield

/-!
# Failed allocations

The tracer counts the requested bytes before it looks at the answer of the
allocator, and a `realloc` to a larger size retires the entry of its block
whatever the answer.  So a failure leaves the books alone only where no bytes
are counted.
-/

namespace SysProg.Memtrace

open Logic Machine

/-! ## The property and the condition -/

/-- A request for some bytes that the allocator answers with `NULL`. -/
def Fails : Call × Nat → Prop
  | (.malloc size, res) => size ≠ 0 ∧ res = 0
  | (.calloc nmemb size, res) => (nmemb ≠ 0 ∧ size ≠ 0) ∧ res = 0
  | (.realloc _ size, res) => size ≠ 0 ∧ res = 0
  | (.free _, _) => False

/-- `free` passes an address on without logging a fault. -/
def Accepts (t : Tracer) (ptr : Nat) : Prop := (t.free ptr).request = some (.free ptr)

/-- The list and the totals are those from before, and what could be freed
still can be. -/
structure SameBooks (t t' : Tracer) : Prop where
  items : t'.items = t.items
  allocated : t'.n_allocb = t.n_allocb
  freed : t'.n_freeb = t.n_freeb
  accepted : ∀ ptr, Accepts t ptr → Accepts t' ptr

/-- A step that fails keeps the books. -/
def KeepsBooks (w : Shielded) (e : Call × Nat) : Prop :=
  Fails e → ∀ w', shielding.step w e w' → SameBooks w.tracer w'.tracer

/-- If a step fails, it is a `calloc` whose size wraps to 0 or a `realloc` of an
active entry to a size that is not larger than the recorded one. -/
def Uncounted (w : Shielded) (e : Call × Nat) : Prop :=
  Fails e → match e.1 with
    | .malloc _ => False
    | .calloc nmemb size => nmemb * size = 0
    | .realloc ptr size =>
        ptr ≠ 0 ∧ ∃ i, find w.tracer.items ptr = some i ∧ i.cnt ≠ 0 ∧ size ≤ i.size
    | .free _ => True

/-! ## One failed call -/

section Books

variable {t t' : Tracer} {w w' : Shielded} {call : Call} {ptr : Nat} {size : UInt64}

theorem accepts_iff : Accepts t ptr ↔ ptr ≠ 0 ∧ ¬ Inactive t.items ptr := by
  unfold Accepts
  rcases t.free_cases ptr with ⟨null, branch⟩ | ⟨block, inactive, fault, -, branch⟩ |
    ⟨i, block, found, active, branch⟩
  · rw [branch]
    simp [null]
  · simp [branch, inactive]
  · simp [branch, block, Inactive, found, active]

/-- What can be freed depends on the list only. -/
theorem SameBooks.of_eq (items : t'.items = t.items) (allocated : t'.n_allocb = t.n_allocb)
    (freed : t'.n_freeb = t.n_freeb) : SameBooks t t' where
  items := items
  allocated := allocated
  freed := freed
  accepted ptr accepts := by
    rw [accepts_iff] at accepts ⊢
    rw [items]
    exact accepts

/-- The totals show every byte that is counted. -/
theorem not_sameBooks (counted : t'.n_allocb = t.n_allocb + size) (some : size ≠ 0) :
    ¬ SameBooks t t' := by
  intro same
  have allocated := same.allocated
  rw [counted] at allocated
  exact some (by grind)

/-- The state after a step that was answered with `NULL`. -/
theorem tracer_after {res : Nat} (taken : shielding.step w (call, res) w') :
    w'.tracer = (intercept w.tracer call).finish res := by
  cases called : (intercept w.tracer call).request with
  | none => rw [pass_kept taken rfl called]
  | some request => rw [(pass_passed taken rfl called).2]

/-- A failed `realloc` keeps the books only of an active entry that is large
enough. -/
theorem sameBooks_realloc (some : size ≠ 0) :
    SameBooks t ((t.realloc ptr size).finish 0) ↔
      ptr ≠ 0 ∧ ∃ i, find t.items ptr = .some i ∧ i.cnt ≠ 0 ∧ size ≤ i.size := by
  rcases t.realloc_cases ptr size with ⟨null, branch⟩ | ⟨block, inactive, fault, -, branch⟩ |
    ⟨i, block, found, active, ⟨zero, -⟩ | ⟨-, fits, branch⟩ | ⟨-, branch⟩⟩
  · rw [branch]
    exact iff_of_false (not_sameBooks rfl some) fun spared => spared.1 null
  · rw [branch]
    refine iff_of_false (not_sameBooks rfl some) ?_
    rintro ⟨-, i, found, active, -⟩
    exact active (inactive i found)
  · exact absurd zero some
  · rw [branch]
    exact iff_of_true (.of_eq rfl rfl rfl) ⟨block, i, found, active, fits⟩
  · rw [branch]
    by_cases fits : size ≤ i.size
    · have shrinks : t.realloc ptr size = t.reallocShrink ptr size := by
        simp [Tracer.realloc, block, found, active, some, fits]
      rw [← branch, shrinks]
      exact iff_of_true (.of_eq rfl rfl rfl) ⟨block, i, found, active, fits⟩
    · refine iff_of_false (not_sameBooks rfl some) ?_
      rintro ⟨-, j, same, -, small⟩
      rw [found] at same
      exact fits (Option.some.inj same ▸ small)

/-- A failed call keeps the books exactly when no bytes are counted for it. -/
theorem sameBooks_iff {e : Call × Nat} (fails : Fails e) (taken : shielding.step w e w') :
    SameBooks w.tracer w'.tracer ↔ Uncounted w e := by
  have stated : Uncounted w e ↔ match e.1 with
      | .malloc _ => False
      | .calloc nmemb size => nmemb * size = 0
      | .realloc ptr size =>
          ptr ≠ 0 ∧ ∃ i, find w.tracer.items ptr = some i ∧ i.cnt ≠ 0 ∧ size ≤ i.size
      | .free _ => True := ⟨fun uncounted => uncounted fails, fun holds _ => holds⟩
  obtain ⟨call, res⟩ := e
  rw [stated, tracer_after taken]
  cases call with
  | malloc size =>
      obtain ⟨some, rfl⟩ := fails
      exact iff_of_false (not_sameBooks rfl some) id
  | calloc nmemb size =>
      obtain ⟨-, rfl⟩ := fails
      by_cases wraps : nmemb * size = 0
      · refine iff_of_true (.of_eq rfl ?_ rfl) wraps
        simp [intercept, Tracer.calloc, wraps]
      · exact iff_of_false (not_sameBooks rfl wraps) wraps
  | realloc ptr size =>
      obtain ⟨some, rfl⟩ := fails
      exact sameBooks_realloc some
  | free ptr => exact fails.elim

end Books

/-! ## Runs -/

/-- The failed calls of a run keep the books exactly when no bytes are counted
for any of them. -/
theorem keepsBooks_iff {past : List (Shielded × (Call × Nat))} {w : Shielded}
    (run : shielding.Run past w) : AllSteps KeepsBooks past ↔ AllSteps Uncounted past := by
  refine forall₂_congr fun b member => ?_
  obtain ⟨w', taken⟩ := run.taken b member
  constructor
  · intro keeps fails
    exact (sameBooks_iff fails taken).mp (keeps fails w' taken) fails
  · intro uncounted fails after taken'
    exact (sameBooks_iff fails taken').mpr uncounted

/-- A failed `realloc` to a smaller size is no loss. -/
def failedShrink : List (Call × Nat) := [(.malloc 100, 16), (.realloc 16 50, 0), (.free 16, 0)]

theorem keepsBooks_iff_failedShrink :
    AllSteps KeepsBooks (record pass [] unshielded failedShrink).1 ↔
      AllSteps Uncounted (record pass [] unshielded failedShrink).1 :=
  keepsBooks_iff (Run.of_record (.start rfl) (fun _ _ _ taken => taken) _)

/-- A block cannot be made larger. -/
def failedGrowth : List (Call × Nat) := [(.malloc 100, 16), (.realloc 16 200, 0)]

/-- Its entry is retired all the same, and freeing it is refused. -/
theorem block_retired : ¬ ∀ past w, shielding.Run past w → AllSteps KeepsBooks past := by
  intro claimed
  have run : shielding.Run _ _ :=
    Run.of_record (.start (s := unshielded) rfl) (fun _ _ _ taken => taken) failedGrowth
  have keeps := claimed _ _ run _ List.mem_cons_self ⟨by decide, rfl⟩ _ rfl
  have accepts : Accepts _ 16 := keeps.accepted 16 (by unfold Accepts; decide +kernel)
  revert accepts
  unfold Accepts
  decide +kernel

end SysProg.Memtrace

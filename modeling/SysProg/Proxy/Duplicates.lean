import Mathlib.Data.List.Dedup
import SysProg.Proxy.Threads
import SysProg.Proxy.Unlinked

/-!
# One item for each URL

The threads of `run_thread` over the linked list itself.  A lookup that misses
has walked to the end of the list, and while the list ends all items are in
it; so no item has the URL.  An add makes no duplicate if that has not changed
since, and if the lookup was a real miss and not a hit on an empty object.
-/

namespace SysProg.Proxy

open Logic Machine

/-- The cache and the threads that use it. -/
structure Pool where
  cache : CacheList
  thread : Nat → Thread

/-- A section of a thread, with the response and the answer of `Malloc` for an
add. -/
inductive Turn where
  | search (t : Nat) (url : List UInt8)
  | moveToHead (t : Nat)
  | add (t : Nat) (object : List UInt8) (objectlen item : Nat)
  | leave (t : Nat)

/-- A section, carried out on the list.  A lookup that returns 0 is a miss. -/
def turn (s : Pool) : Turn → Option Pool
  | .search t url =>
      match s.thread t with
      | .idle =>
          (search url s.cache).map fun r => { s with
            thread := Function.update s.thread t
              (if r.1 = NULL then .missed url
              else .found r.1 url (s.cache.item r.1).objectlen) }
      | _ => none
  | .moveToHead t =>
      match s.thread t with
      | .found item url len =>
          (moveToHead item s.cache).map fun r =>
            { cache := r.2
              thread := Function.update s.thread t (if len = 0 then .missed url else .idle) }
      | _ => none
  | .add t object objectlen item =>
      match s.thread t with
      | .missed url =>
          if objectlen ≤ MAX_OBJECT_SIZE then
            (cacheAdd url object objectlen item s.cache).map fun r =>
              { cache := r.2, thread := Function.update s.thread t .idle }
          else none
      | _ => none
  | .leave t =>
      match s.thread t with
      | .missed _ => some { s with thread := Function.update s.thread t .idle }
      | _ => none

/-- The threads before the first request. -/
def idlePool : Pool := ⟨cacheInit, fun _ => .idle⟩

/-- All interleavings of the sections of any number of threads.  None goes on
after a section that follows a pointer to a freed item or copies an object
beyond a buffer. -/
def pooled : Machine Pool Turn where
  init s := s = idlePool
  step s e s' := turn s e = some s'

/-! ## The property -/

/-- The item is in the list. -/
def Listed (c : CacheList) (x : Nat) : Prop := (∃ front, Path c c.head front x) ∧ x ∈ c.allocated

/-- The URLs that have been requested. -/
def requested : List (Pool × Turn) → List (List UInt8)
  | [] => []
  | (_, .search _ url) :: past => url :: requested past
  | _ :: past => requested past

/-- No two items of the list have the same tag, and there are no more of them
than URLs. -/
structure OnePerUrl (past : List (Pool × Turn)) (s : Pool) : Prop where
  distinct : ∀ x y, Listed s.cache x → Listed s.cache y →
    (s.cache.item x).tag = (s.cache.item y).tag → x = y
  bounded : ∀ items : List Nat, items.Nodup → (∀ x ∈ items, Listed s.cache x) →
    items.length ≤ (requested past).dedup.length

/-! ## The condition -/

/-- Since the last search of the thread an item with the URL has been added, or
the search was a hit on an empty object. -/
def stale (t : Nat) (url : List UInt8) : List (Pool × Turn) → Bool
  | [] => false
  | (_, .search t' _) :: past => t' ≠ t && stale t url past
  | (_, .moveToHead t') :: past => t' = t || stale t url past
  | (s, .add t' _ _ _) :: past => s.thread t' = .missed url || stale t url past
  | (_, .leave _) :: past => stale t url past

/-- Every add follows a miss that is not stale. -/
def NoneStale : List (Pool × Turn) → Prop
  | [] => True
  | (s, .add t _ _ _) :: past =>
      (∀ url, s.thread t = .missed url → stale t url past = false) ∧ NoneStale past
  | _ :: past => NoneStale past

/-! ## The list that occurs -/

/-- While the list ends in null it holds all items. -/
structure Complete (c : CacheList) : Prop where
  unlinked : NoBack c
  notNull : NULL ∉ c.allocated
  once : c.allocated.Nodup
  whole : ∀ nodes, Path c c.head nodes NULL → ∀ x ∈ c.allocated, x ∈ nodes
  head : c.head ∈ c.allocated ∨ c.allocated = []
  tail : c.tail = NULL ∨ c.tail ∈ c.allocated
  single : c.tail ∈ c.allocated → c.head = c.tail → c.allocated = [c.tail]

theorem complete_init : Complete cacheInit where
  unlinked _ := rfl
  notNull := by simp [cacheInit]
  once := List.nodup_nil
  whole _ _ x member := by cases member
  head := .inr rfl
  tail := .inl rfl
  single member := by cases member

namespace Complete

variable {c : CacheList} {x : Nat} {nodes : List Nat}

/-- The part of a path after the last visit of an item. -/
theorem after_last {p q : Nat} (path : Path c p nodes q) (member : x ∈ nodes) :
    ∃ before after, nodes = before ++ x :: after ∧ x ∉ after ∧
      Path c (c.item x).next after q := by
  obtain ⟨after, before, reversed, absent⟩ :=
    List.eq_append_cons_of_mem (List.mem_reverse.mpr member)
  have split : nodes = before.reverse ++ x :: after.reverse := by
    have back := congrArg List.reverse reversed
    simpa using back
  rw [split] at path
  obtain ⟨m, -, rfl, -, path⟩ := path_append.mp path
  exact ⟨before.reverse, after.reverse, split, by simpa using absent, path⟩

theorem pushFront (complete : Complete c) (live : x ∈ c.allocated) (notHead : c.head ≠ x) :
    Complete (pushFront c x) where
  unlinked y := by
    by_cases here : y = x
    · subst here
      simpa [Proxy.pushFront] using complete.unlinked y
    · simpa [Proxy.pushFront, here] using complete.unlinked y
  notNull := complete.notNull
  once := complete.once
  whole nodes path := by
    -- the list cannot end any more: after the last visit of `x` it would end in the old list
    have first : x ∈ nodes := by
      cases nodes with
      | nil => exact absurd (path ▸ live) complete.notNull
      | cons y rest => rw [show x = y from path.1]; exact List.mem_cons_self
    obtain ⟨before, after, rfl, absent, ends⟩ := after_last path first
    have next : ((Proxy.pushFront c x).item x).next = c.head := by simp [Proxy.pushFront]
    rw [next] at ends
    have old : Path c c.head after NULL := by
      refine ends.congr (fun y member => ends.live member) fun y member => ?_
      have differ : y ≠ x := fun same => absent (same ▸ member)
      simp [Proxy.pushFront, differ]
    exact absurd (complete.whole after old x live) absent
  head := .inl live
  tail := by
    show (if c.tail = x then NULL else c.tail) = NULL ∨ (if c.tail = x then NULL else c.tail) ∈ _
    split
    · exact .inl rfl
    · exact complete.tail
  single := by
    show (if c.tail = x then NULL else c.tail) ∈ c.allocated →
      x = (if c.tail = x then NULL else c.tail) → _
    split
    · exact fun member => absurd member complete.notNull
    · rename_i differ
      exact fun _ same => absurd same.symm differ

/-- A move of an item that was found in the list. -/
theorem moveToHead {result : Unit × CacheList} (complete : Complete c) (notEmpty : c.head ≠ NULL)
    (moved : moveToHead x c = some result) : result.2 = c ∨
      (x ∈ c.allocated ∧ c.head ≠ x ∧ result.2 = Proxy.pushFront c x) := by
  by_cases first : c.head = x
  · left
    rw [moveToHead_head first] at moved
    cases moved
    rfl
  · by_cases live : x ∈ c.allocated
    · right
      rw [moveToHead_eq complete.unlinked live, if_neg first, if_neg notEmpty] at moved
      split at moved
      · cases moved
        exact ⟨live, first, rfl⟩
      · cases moved
    · rw [moveToHead_freed live first notEmpty] at moved
      cases moved

/-- After an eviction the list does not end in null. -/
theorem evicted (complete : Complete c) (live : c.tail ∈ c.allocated) : Complete (evicted c) where
  unlinked := complete.unlinked
  notNull member := complete.notNull (List.mem_of_mem_erase member)
  once := complete.once.erase _
  whole nodes path := by
    have kept : ∀ x ∈ nodes, x ∈ c.allocated.erase c.tail := fun x member => path.live member
    have old : Path c c.head nodes NULL :=
      path.congr (fun x member => List.mem_of_mem_erase (kept x member)) fun _ _ => rfl
    have inside := kept c.tail (complete.whole nodes old c.tail live)
    exact absurd inside complete.once.not_mem_erase
  head := by
    show c.head ∈ c.allocated.erase c.tail ∨ c.allocated.erase c.tail = []
    rcases complete.head with headLive | none
    · by_cases same : c.head = c.tail
      · right
        rw [complete.single live same]
        simp
      · exact .inl ((List.mem_erase_of_ne same).mpr headLive)
    · rw [none] at live
      cases live
  tail := .inl rfl
  single member := absurd (List.mem_of_mem_erase member) complete.notNull

/-- A new item keeps the list complete. -/
theorem added (complete : Complete c) {url object : List UInt8} {objectlen : Nat}
    (notNull : x ≠ NULL) (fresh : x ∉ c.allocated) :
    Complete (added c url object objectlen x) where
  unlinked := added_unlinked complete.unlinked
  notNull := by
    rw [added_allocated]
    simp [complete.notNull, notNull.symm]
  once := by
    rw [added_allocated]
    exact List.nodup_cons.mpr ⟨fresh, complete.once⟩
  whole nodes path := by
    have inside : x ∈ nodes := by
      cases nodes with
      | nil =>
          have null : (Proxy.added c url object objectlen x).head = NULL := path
          rw [added_head] at null
          exact absurd null notNull
      | cons y rest =>
          have here := path.1
          rw [added_head] at here
          rw [here]
          exact List.mem_cons_self
    rw [added_allocated]
    rcases complete.head with live | none
    · have notHead : c.head ≠ x := fun same => fresh (same ▸ live)
      obtain ⟨before, after, rfl, absent, ends⟩ := after_last path inside
      rw [added_next notHead] at ends
      have old : Path c c.head after NULL := by
        have others := (added_item c x url object objectlen).1
        refine ends.congr (fun y member => ?_) fun y member => ?_
        · have inUse := ends.live member
          rw [added_allocated] at inUse
          exact (List.mem_cons.mp inUse).resolve_left fun same => absent (same ▸ member)
        · rw [others y fun same => absent (same ▸ member)]
      intro y member
      rcases List.mem_cons.mp member with rfl | older
      · exact inside
      · exact List.mem_append_right _ (List.mem_cons_of_mem _ (complete.whole after old y older))
    · rw [none]
      simpa using inside
  head := by
    rw [added_head, added_allocated]
    exact .inl List.mem_cons_self
  tail := by
    have old := complete.tail.imp_right (List.mem_cons_of_mem x)
    rw [added_allocated, added_tail]
    split
    · exact old
    · split
      · exact .inr List.mem_cons_self
      · split
        · exact .inl rfl
        · exact old
  single := by
    rw [added_allocated, added_head, added_tail]
    split
    · intro member here
      exact absurd (complete.tail.resolve_left fun null => notNull (here.trans null))
        (here ▸ fresh)
    · split
      · rename_i null
        intro _ _
        have none := complete.head.resolve_left (null ▸ complete.notNull)
        rw [none]
      · split
        · exact fun _ same => absurd same notNull
        · rename_i differ
          exact fun _ same => absurd same.symm differ

/-- An add that comes to its end puts a new item in front of a complete list with
no other items than before. -/
theorem cacheAdd {url object : List UInt8} {objectlen : Nat} {result : Unit × CacheList}
    (complete : Complete c) (grown : cacheAdd url object objectlen x c = some result) :
    Complete result.2 ∧ result.2.head = x ∧ x ≠ NULL ∧ (result.2.item x).tag = url ∧
      ∀ y ∈ result.2.allocated, y = x ∨
        (y ∈ c.allocated ∧ (result.2.item y).tag = (c.item y).tag) := by
  have new : ∀ c', Complete c' → c'.item = c.item → (∀ y ∈ c'.allocated, y ∈ c.allocated) →
      x ≠ NULL → x ∉ c'.allocated → result.2 = Proxy.added c' url object objectlen x →
      Complete result.2 ∧ result.2.head = x ∧ x ≠ NULL ∧ (result.2.item x).tag = url ∧
        ∀ y ∈ result.2.allocated, y = x ∨
          (y ∈ c.allocated ∧ (result.2.item y).tag = (c.item y).tag) := by
    intro c' complete' items fewer notNull unused after
    obtain ⟨others, tag, -, -⟩ := added_item c' x url object objectlen
    rw [after, added_head]
    refine ⟨complete'.added notNull unused, rfl, notNull, tag, fun y member => ?_⟩
    rw [added_allocated] at member
    rcases List.mem_cons.mp member with rfl | old
    · exact .inl rfl
    · refine .inr ⟨fewer y old, ?_⟩
      rw [others y fun same => unused (same ▸ old), items]
  obtain ⟨c', left, notNull, unused, after⟩ :=
    cacheAdd_some complete.unlinked complete.notNull grown
  rcases left with rfl | ⟨live, rfl⟩
  · exact new _ complete rfl (fun _ => id) notNull unused after
  · exact new _ (complete.evicted live) rfl (fun _ => List.mem_of_mem_erase) notNull unused after

end Complete

/-! ## Searches -/

section Search

variable {c : CacheList} {url : List UInt8}

theorem searchFrom_result {fuel p : Nat} {result : Nat × CacheList}
    (ends : searchFrom url fuel p c = some result) :
    result.2 = c ∧ (result.1 ≠ NULL → p ≠ NULL) ∧ (result.1 = NULL →
      ∃ nodes, Path c p nodes NULL ∧ ∀ x ∈ nodes, (c.item x).tag ≠ url) := by
  induction fuel generalizing p with
  | zero => cases ends
  | succ fuel ih =>
      rw [searchFrom_succ] at ends
      split at ends
      · rename_i null
        cases ends
        refine ⟨rfl, fun apart => absurd rfl apart, fun _ => ⟨[], null, ?_⟩⟩
        exact fun _ member => nomatch member
      · rename_i notNull
        split at ends
        · rename_i live
          split at ends
          · cases ends
            exact ⟨rfl, id, fun null => absurd null notNull⟩
          · rename_i other
            obtain ⟨same, -, path⟩ := ih ends
            refine ⟨same, fun _ => notNull, fun null => ?_⟩
            obtain ⟨nodes, rest, others⟩ := path null
            refine ⟨p :: nodes, ⟨rfl, live, rest⟩, fun x member => ?_⟩
            rcases List.mem_cons.mp member with rfl | later
            · exact other
            · exact others x later
        · cases ends

/-- A search that misses has seen every item. -/
theorem search_result {result : Nat × CacheList} (complete : Complete c)
    (ends : search url c = some result) :
    result.2 = c ∧ (result.1 ≠ NULL → c.head ≠ NULL) ∧
      (result.1 = NULL → ∀ x ∈ c.allocated, (c.item x).tag ≠ url) := by
  obtain ⟨same, head, path⟩ := searchFrom_result ends
  refine ⟨same, head, fun null x live => ?_⟩
  obtain ⟨nodes, all, others⟩ := path null
  exact others x (complete.whole nodes all x live)

end Search

/-! ## The invariant -/

/-- The URL that a thread is serving. -/
def serving : Thread → Option (List UInt8)
  | .idle => none
  | .found _ url _ => some url
  | .missed url => some url

/-- The invariant of the runs without stale adds.  All items in use have
different tags; after a miss that is not stale none has the URL. -/
structure Unique (past : List (Pool × Turn)) (s : Pool) : Prop where
  complete : Complete s.cache
  tags : ∀ x ∈ s.cache.allocated, ∀ y ∈ s.cache.allocated,
    (s.cache.item x).tag = (s.cache.item y).tag → x = y
  missing : ∀ t url, s.thread t = .missed url → stale t url past = false →
    ∀ x ∈ s.cache.allocated, (s.cache.item x).tag ≠ url
  known : ∀ x ∈ s.cache.allocated, (s.cache.item x).tag ∈ requested past
  asked : ∀ t, ∀ url ∈ serving (s.thread t), url ∈ requested past
  found : ∀ t item url len, s.thread t = .found item url len → s.cache.head ≠ NULL

theorem update_cases {f : Nat → Thread} {t t' : Nat} {th th' : Thread}
    (same : Function.update f t th t' = th') : (t' = t ∧ th = th') ∨ (t' ≠ t ∧ f t' = th') := by
  by_cases here : t' = t
  · subst here
    rw [Function.update_self] at same
    exact .inl ⟨rfl, same⟩
  · rw [Function.update_of_ne here] at same
    exact .inr ⟨here, same⟩

theorem asked_update {f : Nat → Thread} {th : Thread} {urls : List (List UInt8)} {t : Nat}
    (asked : ∀ t, ∀ url ∈ serving (f t), url ∈ urls) (new : ∀ url ∈ serving th, url ∈ urls) :
    ∀ t', ∀ url ∈ serving (Function.update f t th t'), url ∈ urls := by
  intro t' url serves
  by_cases here : t' = t
  · subst here
    rw [Function.update_self] at serves
    exact new url serves
  · rw [Function.update_of_ne here] at serves
    exact asked t' url serves

namespace Unique

variable {past : List (Pool × Turn)} {s s' : Pool} {t : Nat}

/-- A step of a thread that leaves the cache alone. -/
theorem search {url : List UInt8} (inv : Unique past s)
    (taken : turn s (.search t url) = some s') : Unique ((s, .search t url) :: past) s' := by
  simp only [turn] at taken
  split at taken
  · obtain ⟨result, ends, rfl⟩ := Option.map_eq_some_iff.mp taken
    obtain ⟨-, head, missed⟩ := search_result inv.complete ends
    refine ⟨inv.complete, inv.tags, ?_, ?_, ?_, ?_⟩
    · intro t' url' missing fresh
      rcases update_cases missing with ⟨rfl, new⟩ | ⟨other, old⟩
      · split at new
        · rename_i null
          cases new
          exact missed null
        · cases new
      · apply inv.missing t' url' old
        simpa [stale, other.symm] using fresh
    · exact fun x live => List.mem_cons_of_mem _ (inv.known x live)
    · apply asked_update fun t' url' serves => List.mem_cons_of_mem _ (inv.asked t' url' serves)
      intro url' serves
      have same : url' = url := by
        split at serves
        · exact (Option.some.inj serves).symm
        · exact (Option.some.inj serves).symm
      exact same ▸ List.mem_cons_self
    · intro t' item url' len found
      rcases update_cases found with ⟨rfl, new⟩ | ⟨other, old⟩
      · split at new
        · cases new
        · rename_i notNull
          exact head notNull
      · exact inv.found t' item url' len old
  · cases taken

/-- A move changes neither the items in use nor their tags. -/
theorem moveToHead (inv : Unique past s) (taken : turn s (.moveToHead t) = some s') :
    Unique ((s, .moveToHead t) :: past) s' := by
  simp only [turn] at taken
  split at taken
  · rename_i item url len found
    obtain ⟨result, moved, rfl⟩ := Option.map_eq_some_iff.mp taken
    have notEmpty := inv.found t item url len found
    have kept : Complete result.2 ∧ result.2.allocated = s.cache.allocated ∧
        (∀ x, (result.2.item x).tag = (s.cache.item x).tag) ∧ result.2.head ≠ NULL := by
      rcases inv.complete.moveToHead notEmpty moved with same | ⟨live, notHead, same⟩
      · rw [same]
        exact ⟨inv.complete, rfl, fun _ => rfl, notEmpty⟩
      · rw [same]
        refine ⟨inv.complete.pushFront live notHead, rfl, fun x => ?_, ?_⟩
        · by_cases here : x = item
          · subst here
            simp [Proxy.pushFront]
          · simp [Proxy.pushFront, here]
        · exact fun null => inv.complete.notNull (null ▸ live)
    obtain ⟨complete, allocated, tag, head⟩ := kept
    refine ⟨complete, ?_, ?_, ?_, ?_, ?_⟩
    · intro x inUse y inUse'
      rw [tag, tag]
      rw [allocated] at inUse inUse'
      exact inv.tags x inUse y inUse'
    · intro t' url' missing fresh x inUse
      rw [tag]
      rw [allocated] at inUse
      rcases update_cases missing with ⟨rfl, -⟩ | ⟨other, old⟩
      · simp [stale] at fresh
      · refine inv.missing t' url' old ?_ x inUse
        simpa [stale, other.symm] using fresh
    · intro x inUse
      rw [tag]
      rw [allocated] at inUse
      exact inv.known x inUse
    · apply asked_update inv.asked
      intro url' serves
      have same : url' = url := by
        split at serves
        · exact (Option.some.inj serves).symm
        · cases serves
      apply inv.asked t
      rw [found, same]
      rfl
    · intro t' item' url' len' found'
      exact head
  · cases taken

/-- An add after a miss that is not stale. -/
theorem add {object : List UInt8} {objectlen item : Nat} (inv : Unique past s)
    (fresh : ∀ url, s.thread t = .missed url → stale t url past = false)
    (taken : turn s (.add t object objectlen item) = some s') :
    Unique ((s, .add t object objectlen item) :: past) s' := by
  simp only [turn] at taken
  split at taken
  · rename_i url missed
    split at taken
    · obtain ⟨result, grown, rfl⟩ := Option.map_eq_some_iff.mp taken
      have absent := inv.missing t url missed (fresh url missed)
      obtain ⟨complete, head, notNull, tag, inUse⟩ := inv.complete.cacheAdd grown
      refine ⟨complete, ?_, ?_, ?_, ?_, ?_⟩
      · intro x first y second same
        rcases inUse x first with rfl | ⟨old, kept⟩
        · rcases inUse y second with rfl | ⟨old', kept'⟩
          · rfl
          · rw [tag, kept'] at same
            exact absurd same.symm (absent y old')
        · rcases inUse y second with rfl | ⟨old', kept'⟩
          · rw [tag, kept] at same
            exact absurd same (absent x old)
          · rw [kept, kept'] at same
            exact inv.tags x old y old' same
      · intro t' url' missing fresh' x member
        rcases update_cases missing with ⟨-, new⟩ | ⟨other, before⟩
        · cases new
        · simp only [stale, missed, Bool.or_eq_false_iff, decide_eq_false_iff_not] at fresh'
          rcases inUse x member with rfl | ⟨old, kept⟩
          · rw [tag]
            rintro rfl
            exact fresh'.1 rfl
          · rw [kept]
            exact inv.missing t' url' before fresh'.2 x old
      · intro x member
        rcases inUse x member with rfl | ⟨old, kept⟩
        · rw [tag]
          apply inv.asked t
          rw [missed]
          rfl
        · rw [kept]
          exact inv.known x old
      · exact asked_update inv.asked fun _ serves => nomatch serves
      · intro t' item' url' len found
        rw [head]
        exact notNull
    · cases taken
  · cases taken

theorem leave (inv : Unique past s) (taken : turn s (.leave t) = some s') :
    Unique ((s, .leave t) :: past) s' := by
  simp only [turn] at taken
  split at taken
  · cases taken
    refine ⟨inv.complete, inv.tags, ?_, inv.known, ?_, ?_⟩
    · intro t' url' missing fresh
      rcases update_cases missing with ⟨-, new⟩ | ⟨other, old⟩
      · cases new
      · exact inv.missing t' url' old fresh
    · exact asked_update inv.asked fun _ serves => nomatch serves
    · intro t' item url len found
      rcases update_cases found with ⟨-, new⟩ | ⟨other, old⟩
      · cases new
      · exact inv.found t' item url len old
  · cases taken

/-- The items of the list are in use, so their tags are distinct and requested. -/
theorem atMostOnce (inv : Unique past s) : OnePerUrl past s where
  distinct x y first second same := inv.tags x first.2 y second.2 same
  bounded items once listed := by
    have tags : (items.map fun x => (s.cache.item x).tag).Nodup := by
      apply List.Nodup.map_on _ once
      intro x first y second same
      exact inv.tags x (listed x first).2 y (listed y second).2 same
    have known : ∀ tag ∈ items.map fun x => (s.cache.item x).tag, tag ∈ (requested past).dedup := by
      intro tag member
      obtain ⟨x, inside, rfl⟩ := List.mem_map.mp member
      exact List.mem_dedup.mpr (inv.known x (listed x inside).2)
    have shorter := (List.subperm_of_subset tags known).length_le
    rwa [List.length_map] at shorter

end Unique

/-- In every run in which every add follows a miss that is not stale, no two
items of the list have the same tag. -/
theorem onePerUrl {past : List (Pool × Turn)} {s : Pool} (run : pooled.Run past s)
    (fresh : NoneStale past) : OnePerUrl past s := by
  suffices inv : Unique past s from inv.atMostOnce
  induction run with
  | start initial =>
      cases initial
      exact ⟨complete_init, fun _ member => (nomatch member), fun _ _ missing => (nomatch missing),
        fun _ member => (nomatch member), fun _ _ serves => (nomatch serves),
        fun _ _ _ _ found => (nomatch found)⟩
  | @next s s' e past before taken ih =>
      cases e with
      | search t url => exact (ih fresh).search taken
      | moveToHead t => exact (ih fresh).moveToHead taken
      | add t object objectlen item => exact (ih fresh.2).add fresh.1 taken
      | leave t => exact (ih fresh).leave taken

/-- One thread misses on a URL and adds it. -/
def oneAdd : List Turn := [.search 0 [97], .add 0 [120, 0] 1 1]

theorem onePerUrl_oneAdd :
    OnePerUrl (record turn [] idlePool oneAdd).1 (record turn [] idlePool oneAdd).2 :=
  onePerUrl (Run.of_record (.start rfl) (fun _ _ _ taken => taken) _)
    ⟨fun _ _ => rfl, trivial⟩

/-- Two threads miss on one URL before either of them adds it. -/
def twoAdds : List Turn :=
  [.search 0 [97], .search 1 [97], .add 0 [120, 0] 1 1, .add 1 [120, 0] 1 2]

/-- Then the list holds it twice. -/
theorem url_twice : ¬ ∀ past s, pooled.Run past s → OnePerUrl past s := by
  intro claimed
  have run : pooled.Run _ _ :=
    Run.of_record (.start rfl) (fun _ _ _ taken => taken) twoAdds
  have first : Listed (record turn [] idlePool twoAdds).2.cache 1 :=
    ⟨⟨[2], by decide +kernel⟩, by decide +kernel⟩
  have second : Listed (record turn [] idlePool twoAdds).2.cache 2 :=
    ⟨⟨[], by decide +kernel⟩, by decide +kernel⟩
  have same := (claimed _ _ run).distinct 1 2 first second (by decide +kernel)
  exact absurd same (by decide)

end SysProg.Proxy

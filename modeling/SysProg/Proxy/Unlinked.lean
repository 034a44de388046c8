import Mathlib.Data.List.Perm.Subperm
import SysProg.Proxy.Cache

/-!
# The cache without back links

No statement of `cache.c` ever stores an item in a `prev` field, so every
`prev` is null.  With that, `move_to_head` only pushes an item in front of the
list, and `cache_evict` can take one item, the first one ever added.
-/

namespace SysProg.Proxy

open Logic

/-- No item points back. -/
def NoBack (c : CacheList) : Prop := ∀ x, (c.item x).prev = NULL

theorem bind_run {α β : Type} (x : CM α) (f : α → CM β) (c : CacheList) :
    (x >>= f) c = (x c).bind fun r => f r.1 r.2 := rfl

section Routines

variable {c : CacheList} {x : Nat}

/-- Storing null into a `prev` that is null changes nothing. -/
theorem setPrev_null (unlinked : NoBack c) (live : x ∈ c.allocated) :
    setPrev x NULL c = some ((), c) := by
  have same : Function.update c.item x { c.item x with prev := NULL } = c.item := by
    have here : { c.item x with prev := NULL } = c.item x := by
      rw [← unlinked x]
    rw [here, Function.update_eq_self]
  simp only [setPrev, store, if_pos live, same]

/-- `move_to_head` puts an item in front; the item before it is not told. -/
def pushFront (c : CacheList) (x : Nat) : CacheList :=
  { c with
    head := x
    tail := if c.tail = x then NULL else c.tail
    item := Function.update c.item x { c.item x with next := c.head } }

theorem deref_eq (live : x ∈ c.allocated) : deref x c = some (c.item x, c) := if_pos live

theorem cutTail_eq (unlinked : NoBack c) (live : x ∈ c.allocated) :
    cutTail x c = some ((), { c with tail := if c.tail = x then NULL else c.tail }) := by
  show (if c.tail = x then (deref x >>= fun i => setTail i.prev) else pure ()) c = _
  by_cases last : c.tail = x
  · rw [if_pos last, if_pos last, bind_run, deref_eq live]
    simp only [Option.bind_some, setTail, unlinked x]
  · rw [if_neg last, if_neg last]
    rfl

theorem cutPrev_eq (unlinked : NoBack c) (live : x ∈ c.allocated) :
    cutPrev x c = some ((), c) := by
  rw [cutPrev, bind_run, deref_eq live, Option.bind_some, if_pos (unlinked x)]
  rfl

theorem cutNext_eq (unlinked : NoBack c) (live : x ∈ c.allocated) :
    cutNext x c =
      if (c.item x).next = NULL ∨ (c.item x).next ∈ c.allocated then some ((), c) else none := by
  rw [cutNext, bind_run, deref_eq live, Option.bind_some]
  by_cases none : (c.item x).next = NULL
  · rw [if_pos none, if_pos (.inl none)]
    rfl
  · rw [if_neg none, bind_run, deref_eq live, Option.bind_some, bind_run, deref_eq live,
      Option.bind_some, unlinked x]
    by_cases inUse : (c.item x).next ∈ c.allocated
    · rw [if_pos (.inr inUse)]
      exact setPrev_null unlinked inUse
    · rw [if_neg (by simp [none, inUse])]
      exact if_neg inUse

theorem moveToHead_eq (unlinked : NoBack c) (live : x ∈ c.allocated) :
    moveToHead x c =
      if c.head = x then some ((), c)
      else if c.head = NULL then some ((), { c with head := x, tail := x })
      else if (c.item x).next = NULL ∨ (c.item x).next ∈ c.allocated then some ((), pushFront c x)
      else none := by
  let cut : CacheList := { c with tail := if c.tail = x then NULL else c.tail }
  have unlinked' : NoBack cut := unlinked
  have live' : x ∈ cut.allocated := live
  show (if c.head = x then pure () else listHead >>= fun head => if head = NULL then
    (setTail x >>= fun _ => setHead x) else (cutTail x >>= fun _ => cutPrev x >>= fun _ =>
      cutNext x >>= fun _ => setPrev x NULL >>= fun _ => listHead >>= fun head =>
        setNext x head >>= fun _ => setHead x)) c = _
  by_cases first : c.head = x
  · rw [if_pos first, if_pos first]
    rfl
  rw [if_neg first, if_neg first]
  show (if c.head = NULL then (setTail x >>= fun _ => setHead x) else (cutTail x >>= fun _ =>
    cutPrev x >>= fun _ => cutNext x >>= fun _ => setPrev x NULL >>= fun _ => listHead >>=
      fun head => setNext x head >>= fun _ => setHead x)) c = _
  by_cases none : c.head = NULL
  · rw [if_pos none, if_pos none]
    rfl
  rw [if_neg none, if_neg none, bind_run, cutTail_eq unlinked live, Option.bind_some, bind_run,
    cutPrev_eq unlinked' live', Option.bind_some, bind_run, cutNext_eq unlinked' live']
  by_cases next : (c.item x).next = NULL ∨ (c.item x).next ∈ c.allocated
  · rw [if_pos next, if_pos next, Option.bind_some, bind_run, setPrev_null unlinked' live']
    show (setNext x c.head >>= fun _ => setHead x) cut = _
    rw [bind_run]
    simp only [setNext, store, if_pos live', Option.bind_some, setHead]
    rfl
  · rw [if_neg next, if_neg next]
    rfl

theorem moveToHead_head (first : c.head = x) : moveToHead x c = some ((), c) := by
  show (if c.head = x then (pure () : CM Unit) else _) c = _
  rw [if_pos first]
  rfl

/-- An item that has been freed cannot be moved. -/
theorem moveToHead_freed (freed : x ∉ c.allocated) (notHead : c.head ≠ x)
    (notEmpty : c.head ≠ NULL) : moveToHead x c = none := by
  have stops : ∀ c', c'.allocated = c.allocated → cutPrev x c' = none := by
    intro c' same
    rw [cutPrev, bind_run, deref, if_neg (by rw [same]; exact freed)]
    rfl
  show (if c.head = x then pure () else listHead >>= fun head => if head = NULL then
    (setTail x >>= fun _ => setHead x) else (cutTail x >>= fun _ => cutPrev x >>= fun _ =>
      cutNext x >>= fun _ => setPrev x NULL >>= fun _ => listHead >>= fun head =>
        setNext x head >>= fun _ => setHead x)) c = _
  rw [if_neg notHead]
  show (if c.head = NULL then (setTail x >>= fun _ => setHead x) else (cutTail x >>= fun _ =>
    cutPrev x >>= fun _ => cutNext x >>= fun _ => setPrev x NULL >>= fun _ => listHead >>=
      fun head => setNext x head >>= fun _ => setHead x)) c = _
  rw [if_neg notEmpty, bind_run]
  by_cases last : c.tail = x
  · have cut : cutTail x c = none := by
      show (if c.tail = x then (deref x >>= fun i => setTail i.prev) else pure ()) c = _
      rw [if_pos last, bind_run, deref, if_neg freed]
      rfl
    rw [cut]
    rfl
  · have cut : cutTail x c = some ((), c) := by
      show (if c.tail = x then (deref x >>= fun i => setTail i.prev) else pure ()) c = _
      rw [if_neg last]
      rfl
    rw [cut, Option.bind_some, bind_run, stops c rfl]
    rfl

/-- The list without its last item, whose end is forgotten. -/
def evicted (c : CacheList) : CacheList :=
  { c with
    tail := NULL
    remainlen := c.remainlen + (c.item c.tail).objectlen
    allocated := c.allocated.erase c.tail }

theorem cacheEvict_eq (unlinked : NoBack c) :
    cacheEvict c = if c.tail ∈ c.allocated then some ((), evicted c) else none := by
  show (deref c.tail >>= fun i => setTail i.prev >>= fun _ => remainlen >>= fun n =>
    deref c.tail >>= fun i => setRemainlen (n + i.objectlen) >>= fun _ => freeItem c.tail) c = _
  by_cases live : c.tail ∈ c.allocated
  · rw [if_pos live, bind_run, deref_eq live, Option.bind_some, unlinked c.tail]
    show (deref c.tail >>= fun i => setRemainlen (c.remainlen + i.objectlen) >>= fun _ =>
      freeItem c.tail) { c with tail := NULL } = _
    rw [bind_run, deref_eq (by exact live), Option.bind_some]
    exact if_pos live
  · rw [if_neg live, bind_run, deref, if_neg live]
    rfl

/-- The eviction loop goes round at most once. -/
theorem makeRoom_eq {n : Nat} (unlinked : NoBack c) (notNull : NULL ∉ c.allocated) :
    makeRoom n c =
      if n ≤ c.remainlen then some ((), c)
      else if c.tail ∈ c.allocated ∧ n ≤ (evicted c).remainlen then some ((), evicted c)
      else none := by
  have round : ∀ (c : CacheList) (fuel : Nat), evictUntil n (fuel + 1) c =
      if c.remainlen < n then (cacheEvict >>= fun _ => evictUntil n fuel) c else some ((), c) := by
    intro c fuel
    show (if c.remainlen < n then (cacheEvict >>= fun _ => evictUntil n fuel) else pure ()) c = _
    split <;> rfl
  show evictUntil n (c.allocated.length + 1) c = _
  rw [round]
  by_cases room : n ≤ c.remainlen
  · rw [if_neg (by omega), if_pos room]
  rw [if_pos (by omega), if_neg room, bind_run, cacheEvict_eq unlinked]
  by_cases live : c.tail ∈ c.allocated
  · obtain ⟨fuel, enough⟩ : ∃ fuel, c.allocated.length = fuel + 1 :=
      ⟨c.allocated.length - 1, by have positive := List.length_pos_of_mem live; omega⟩
    rw [if_pos live, Option.bind_some, enough, round]
    by_cases room' : n ≤ (evicted c).remainlen
    · rw [if_neg (show ¬ (evicted c).remainlen < n by omega), if_pos ⟨live, room'⟩]
    · have dead : NULL ∉ (evicted c).allocated :=
        fun member => notNull (List.mem_of_mem_erase member)
      rw [if_pos (show (evicted c).remainlen < n by omega), if_neg (by simp [room']), bind_run,
        cacheEvict_eq (by exact unlinked)]
      exact congrArg (Option.bind · _) (if_neg dead)
  · rw [if_neg live, if_neg (by simp [live])]
    rfl

/-- Making room leaves items that were there. -/
theorem makeRoom_base {c' : CacheList} {n : Nat} (unlinked : NoBack c)
    (notNull : NULL ∉ c.allocated) (room : makeRoom n c = some ((), c')) :
    NoBack c' ∧ NULL ∉ c'.allocated := by
  rw [makeRoom_eq unlinked notNull] at room
  split at room
  · cases room
    exact ⟨unlinked, notNull⟩
  · split at room
    · cases room
      exact ⟨unlinked, fun member => notNull (List.mem_of_mem_erase member)⟩
    · cases room

/-- The new item of `cache_add` in place, before it is moved to the front. -/
def placed (c : CacheList) (url object : List UInt8) (objectlen x : Nat) : CacheList :=
  { c with
    item := Function.update c.item x
      ⟨url, stringOver (List.replicate (objectlen + 1) none) object, NULL, NULL, objectlen⟩
    allocated := x :: c.allocated
    remainlen := c.remainlen - objectlen }

/-- The new item of `cache_add` in front. -/
def added (c : CacheList) (url object : List UInt8) (objectlen x : Nat) : CacheList :=
  if c.head = x then placed c url object objectlen x
  else if c.head = NULL then { placed c url object objectlen x with head := x, tail := x }
  else pushFront (placed c url object objectlen x) x

/-- The new item is made when `Malloc` answers and the copy stays inside. -/
theorem makeItem_eq {url object : List UInt8} {objectlen : Nat} :
    makeItem url object objectlen x c =
      if (x ≠ NULL ∧ x ∉ c.allocated) ∧ CopiesInside object objectlen then
        some ((), { placed c url object objectlen x with remainlen := c.remainlen })
      else none := by
  rw [makeItem, bind_run]
  by_cases refused : x = NULL ∨ x ∈ c.allocated
  · rw [mallocItem, if_pos refused, if_neg fun new => (not_or.mpr new.1) refused]
    rfl
  · rw [mallocItem, if_neg refused, Option.bind_some]
    simp only [strcpyObject, Function.update_self, strcpy_fresh]
    by_cases inside : CopiesInside object objectlen
    · rw [if_pos inside, if_pos ⟨not_or.mp refused, inside⟩, Option.bind_some]
      simp [store, placed]
    · rw [if_neg inside, if_neg fun new => inside new.2]
      rfl

theorem cacheAdd_run {url object : List UInt8} {objectlen : Nat} {c' : CacheList}
    (room : makeRoom objectlen c = some ((), c')) :
    cacheAdd url object objectlen x c =
      if (x ≠ NULL ∧ x ∉ c'.allocated) ∧ CopiesInside object objectlen then
        moveToHead x (placed c' url object objectlen x)
      else none := by
  rw [cacheAdd, bind_run, room, Option.bind_some, bind_run, makeItem_eq]
  split <;> rfl

theorem cacheAdd_eq {url object : List UInt8} {objectlen : Nat} {c' : CacheList}
    (unlinked : NoBack c') (room : makeRoom objectlen c = some ((), c')) (notNull : x ≠ NULL)
    (fresh : x ∉ c'.allocated) (inside : CopiesInside object objectlen) :
    cacheAdd url object objectlen x c = some ((), added c' url object objectlen x) := by
  have unlinked' : NoBack (placed c' url object objectlen x) := by
    intro y
    by_cases here : y = x
    · subst here
      simp [placed]
    · simpa [placed, here] using unlinked y
  rw [cacheAdd_run room, if_pos ⟨⟨notNull, fresh⟩, inside⟩,
    moveToHead_eq unlinked' (by simp [placed])]
  unfold added
  by_cases first : c'.head = x
  · rw [if_pos first, if_pos (by exact first)]
  · rw [if_neg first, if_neg (by exact first)]
    by_cases empty : c'.head = NULL
    · rw [if_pos empty, if_pos (by exact empty)]
    · rw [if_neg empty, if_neg (by exact empty), if_pos (.inl (by simp [placed]))]

/-- A copy that leaves its buffers has no end, whatever was evicted for it. -/
theorem cacheAdd_overrun {url object : List UInt8} {objectlen : Nat}
    (outside : ¬ CopiesInside object objectlen) : cacheAdd url object objectlen x c = none := by
  cases room : makeRoom objectlen c with
  | none =>
      rw [cacheAdd, bind_run, room]
      rfl
  | some r => rw [cacheAdd_run room, if_neg fun new => outside new.2]

/-- What an add that comes to its end has done. -/
theorem cacheAdd_some {url object : List UInt8} {objectlen : Nat} {result : Unit × CacheList}
    (unlinked : NoBack c) (notNull : NULL ∉ c.allocated)
    (ends : cacheAdd url object objectlen x c = some result) :
    ∃ c', (c' = c ∨ c.tail ∈ c.allocated ∧ c' = evicted c) ∧ x ≠ NULL ∧ x ∉ c'.allocated ∧
      result.2 = added c' url object objectlen x := by
  obtain ⟨c', room, left⟩ : ∃ c', makeRoom objectlen c = some ((), c') ∧
      (c' = c ∨ c.tail ∈ c.allocated ∧ c' = evicted c) := by
    have made := makeRoom_eq (n := objectlen) unlinked notNull
    rw [made]
    split
    · exact ⟨c, rfl, .inl rfl⟩
    · rename_i tight
      split
      · rename_i evicts
        exact ⟨_, rfl, .inr ⟨evicts.1, rfl⟩⟩
      · rename_i stuck
        rw [if_neg tight, if_neg stuck] at made
        rw [cacheAdd, bind_run, made] at ends
        cases ends
  have unlinked' : NoBack c' := by
    rcases left with rfl | ⟨-, rfl⟩
    · exact unlinked
    · exact unlinked
  by_cases new : (x ≠ NULL ∧ x ∉ c'.allocated) ∧ CopiesInside object objectlen
  · obtain ⟨⟨apart, fresh⟩, inside⟩ := new
    rw [cacheAdd_eq unlinked' room apart fresh inside] at ends
    cases ends
    exact ⟨c', left, apart, fresh, rfl⟩
  · rw [cacheAdd_run room, if_neg new] at ends
    cases ends

/-- The items after an add: the new one, which may point to the old head, and the
others as they were. -/
theorem added_item (c : CacheList) (x : Nat) (url object : List UInt8) (objectlen : Nat) :
    (∀ y, y ≠ x → (added c url object objectlen x).item y = c.item y) ∧
      ((added c url object objectlen x).item x).tag = url ∧
      ((added c url object objectlen x).item x).objectlen = objectlen ∧
      ((added c url object objectlen x).item x).prev = NULL := by
  have placed_other : ∀ y, y ≠ x → (placed c url object objectlen x).item y = c.item y :=
    fun y differ => Function.update_of_ne differ _ _
  unfold added
  split
  · exact ⟨placed_other, by simp [placed]⟩
  · split
    · exact ⟨placed_other, by simp [placed]⟩
    · refine ⟨fun y differ => ?_, by simp [pushFront, placed]⟩
      exact (Function.update_of_ne differ _ _).trans (placed_other y differ)

/-- The new item has the copy of the object. -/
theorem added_object (c : CacheList) (x : Nat) (url object : List UInt8) (objectlen : Nat) :
    ((added c url object objectlen x).item x).object =
      stringOver (List.replicate (objectlen + 1) none) object := by
  unfold added
  split
  · simp [placed]
  · split
    · simp [placed]
    · simp [pushFront, placed]

/-- Unless it was the head already, the new item points to the old head. -/
theorem added_next {url object : List UInt8} {objectlen : Nat} (headNe : c.head ≠ x) :
    ((added c url object objectlen x).item x).next = c.head := by
  unfold added
  rw [if_neg headNe]
  split
  · rename_i null
    simp [placed, null]
  · simp [pushFront, placed]

theorem added_tail {url object : List UInt8} {objectlen : Nat} :
    (added c url object objectlen x).tail =
      if c.head = x then c.tail
      else if c.head = NULL then x
      else if c.tail = x then NULL else c.tail := by
  unfold added
  split
  · rfl
  · split <;> rfl

theorem added_unlinked {url object : List UInt8} {objectlen : Nat} (unlinked : NoBack c) :
    NoBack (added c url object objectlen x) := by
  obtain ⟨others, -, -, new⟩ := added_item c x url object objectlen
  intro y
  by_cases here : y = x
  · subst here
    exact new
  · rw [others y here]
    exact unlinked y

theorem added_allocated (c : CacheList) (x : Nat) (url object : List UInt8) (objectlen : Nat) :
    (added c url object objectlen x).allocated = x :: c.allocated := by
  unfold added
  split
  · rfl
  · split <;> rfl

theorem added_remainlen {url object : List UInt8} {objectlen : Nat} :
    (added c url object objectlen x).remainlen = c.remainlen - objectlen := by
  unfold added
  split
  · rfl
  · split <;> rfl

/-- A lookup that finds an item returns its bytes once the item has been moved. -/
theorem cacheLookup_found {url : List UInt8} (found : search url c = some (x, c))
    (notNull : x ≠ NULL) (live : x ∈ c.allocated) :
    cacheLookup url c = (moveToHead x c).map fun m =>
      (((c.item x).objectlen, (c.item x).object.take (c.item x).objectlen), m.2) := by
  rw [cacheLookup, bind_run, found, Option.bind_some, if_neg notNull, bind_run, deref_eq live,
    Option.bind_some, bind_run]
  cases moveToHead x c <;> rfl

theorem cacheLookup_missed {url : List UInt8} (missed : search url c = some (NULL, c)) :
    cacheLookup url c = some ((0, []), c) := by
  rw [cacheLookup, bind_run, missed, Option.bind_some, if_pos rfl]
  rfl

theorem cacheLookup_stuck {url : List UInt8} (stuck : search url c = none) :
    cacheLookup url c = none := by
  rw [cacheLookup, bind_run, stuck]
  rfl

end Routines

/-! ## Following the links -/

/-- Following `next` from `p` leads through the items `nodes` to `q`. -/
def Path (c : CacheList) : Nat → List Nat → Nat → Prop
  | p, [], q => p = q
  | p, x :: rest, q => p = x ∧ x ∈ c.allocated ∧ Path c (c.item x).next rest q

instance decidablePath (c : CacheList) : (p : Nat) → (nodes : List Nat) → (q : Nat) →
    Decidable (Path c p nodes q)
  | p, [], q => inferInstanceAs (Decidable (p = q))
  | p, x :: rest, q =>
      have := decidablePath c (c.item x).next rest q
      inferInstanceAs (Decidable (p = x ∧ x ∈ c.allocated ∧ Path c (c.item x).next rest q))

section Path

variable {c c' : CacheList} {p q x : Nat} {nodes front rest : List Nat} {url : List UInt8}

theorem path_append : Path c p (front ++ rest) q ↔ ∃ m, Path c p front m ∧ Path c m rest q := by
  induction front generalizing p with
  | nil => simp [Path]
  | cons x front ih =>
      simp only [List.cons_append, Path, ih]
      constructor
      · rintro ⟨here, live, m, before, after⟩
        exact ⟨m, ⟨here, live, before⟩, after⟩
      · rintro ⟨m, ⟨here, live, before⟩, after⟩
        exact ⟨here, live, m, before, after⟩

theorem Path.live (path : Path c p nodes q) (member : x ∈ nodes) : x ∈ c.allocated := by
  induction nodes generalizing p with
  | nil => cases member
  | cons y nodes ih =>
      rcases List.mem_cons.mp member with rfl | later
      · exact path.2.1
      · exact ih path.2.2 later

/-- A path sees only its own items. -/
theorem Path.congr (path : Path c p nodes q)
    (live : ∀ x ∈ nodes, x ∈ c'.allocated)
    (next : ∀ x ∈ nodes, (c'.item x).next = (c.item x).next) : Path c' p nodes q := by
  induction nodes generalizing p with
  | nil => exact path
  | cons y nodes ih =>
      refine ⟨path.1, live y List.mem_cons_self, ?_⟩
      rw [next y List.mem_cons_self]
      exact ih path.2.2 (fun x member => live x (List.mem_cons_of_mem _ member))
        (fun x member => next x (List.mem_cons_of_mem _ member))

theorem searchFrom_succ (fuel : Nat) : searchFrom url (fuel + 1) p c =
    if p = NULL then some (NULL, c)
    else if p ∈ c.allocated then
      if (c.item p).tag = url then some (p, c) else searchFrom url fuel (c.item p).next c
    else none := by
  show (if p = NULL then pure NULL else deref p >>= fun i => if i.tag = url then pure p else
    deref p >>= fun i => searchFrom url fuel i.next) c = _
  by_cases null : p = NULL
  · rw [if_pos null, if_pos null]
    rfl
  rw [if_neg null, if_neg null, bind_run]
  by_cases live : p ∈ c.allocated
  · rw [if_pos live, deref_eq live, Option.bind_some]
    by_cases tagged : (c.item p).tag = url
    · rw [if_pos tagged, if_pos tagged]
      rfl
    · rw [if_neg tagged, if_neg tagged, bind_run, deref_eq live, Option.bind_some]
  · rw [if_neg live, deref, if_neg live]
    rfl

/-- The search passes the items with other tags. -/
theorem searchFrom_path (notNull : NULL ∉ c.allocated) (path : Path c p nodes q)
    (others : ∀ x ∈ nodes, (c.item x).tag ≠ url) (fuel : Nat) :
    searchFrom url (nodes.length + fuel) p c = searchFrom url fuel q c := by
  induction nodes generalizing p with
  | nil =>
      rw [show p = q from path]
      simp
  | cons y nodes ih =>
      obtain ⟨rfl, live, path⟩ := path
      have apart : p ≠ NULL := by
        rintro rfl
        exact notNull live
      rw [List.length_cons, show nodes.length + 1 + fuel = (nodes.length + fuel) + 1 by omega,
        searchFrom_succ, if_neg apart, if_pos live, if_neg (others p List.mem_cons_self)]
      exact ih path fun x member => others x (List.mem_cons_of_mem _ member)

/-- A search among items that lead only to each other never ends. -/
theorem searchFrom_loop (notNull : NULL ∉ c.allocated)
    (closed : ∀ x ∈ nodes, x ∈ c.allocated ∧ (c.item x).tag ≠ url ∧ (c.item x).next ∈ nodes)
    (member : p ∈ nodes) (fuel : Nat) : searchFrom url fuel p c = none := by
  induction fuel generalizing p with
  | zero => rfl
  | succ fuel ih =>
      obtain ⟨live, other, next⟩ := closed p member
      have apart : p ≠ NULL := by
        rintro rfl
        exact notNull live
      rw [searchFrom_succ, if_neg apart, if_pos live, if_neg other]
      exact ih next

theorem added_head {url object : List UInt8} {objectlen : Nat} :
    (added c url object objectlen x).head = x := by
  unfold added
  split
  · rename_i same
    exact same
  · split <;> rfl

/-- A new item in front of a path that starts at the head. -/
theorem Path.behind {url object : List UInt8} {objectlen : Nat} (path : Path c c.head nodes q)
    (fresh : x ∉ c.allocated) (headNe : c.head ≠ x) :
    Path (added c url object objectlen x) (added c url object objectlen x).head (x :: nodes) q := by
  have others := (added_item c x url object objectlen).1
  have live := added_allocated c x url object objectlen
  rw [added_head]
  refine ⟨rfl, by rw [live]; exact List.mem_cons_self, ?_⟩
  rw [added_next headNe]
  refine path.congr (fun y member => ?_) fun y member => ?_
  · rw [live]
    exact List.mem_cons_of_mem _ (path.live member)
  · rw [others y fun same => fresh (same ▸ path.live member)]

end Path

end SysProg.Proxy

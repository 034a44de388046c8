import Mathlib.Data.List.Perm.Subperm
import SysProg.Proxy.Cache

/-!
# Sequential runs of the cache

A list of at most one item is proper, and so stays every list that only
receives items while it is empty.  An item that is added to a nonempty list
leaves the old head without its back link.
-/

namespace SysProg.Proxy

open Logic Machine

section Rules

variable {c : CacheList} {p n : Nat}

@[simp] theorem wp_listHead (post : Nat → CacheList → Prop) :
    wp listHead post c ↔ post c.head c := by
  simp [wp, listHead]

@[simp] theorem wp_listTail (post : Nat → CacheList → Prop) :
    wp listTail post c ↔ post c.tail c := by
  simp [wp, listTail]

@[simp] theorem wp_remainlen (post : Nat → CacheList → Prop) :
    wp remainlen post c ↔ post c.remainlen c := by
  simp [wp, remainlen]

@[simp] theorem wp_setHead (post : Unit → CacheList → Prop) :
    wp (setHead p) post c ↔ post () { c with head := p } := by
  simp [wp, setHead]

@[simp] theorem wp_setTail (post : Unit → CacheList → Prop) :
    wp (setTail p) post c ↔ post () { c with tail := p } := by
  simp [wp, setTail]

@[simp] theorem wp_setRemainlen (post : Unit → CacheList → Prop) :
    wp (setRemainlen n) post c ↔ post () { c with remainlen := n } := by
  simp [wp, setRemainlen]

theorem wp_deref (live : p ∈ c.allocated) (post : CacheItem → CacheList → Prop) :
    wp (deref p) post c ↔ post (c.item p) c := by
  simp [wp, deref, live]

theorem wp_store {f : CacheItem → CacheItem} (live : p ∈ c.allocated)
    (post : Unit → CacheList → Prop) :
    wp (store p f) post c ↔ post () { c with item := Function.update c.item p (f (c.item p)) } := by
  simp [wp, store, live]

theorem wp_mallocItem {i : CacheItem} (notNull : p ≠ NULL) (fresh : p ∉ c.allocated)
    (post : Unit → CacheList → Prop) :
    wp (mallocItem p i) post c ↔
      post () { c with item := Function.update c.item p i, allocated := p :: c.allocated } := by
  simp [wp, mallocItem, notNull, fresh]

theorem wp_cutTail (live : p ∈ c.allocated) (post : Unit → CacheList → Prop) :
    wp (cutTail p) post c ↔
      post () { c with tail := if c.tail = p then (c.item p).prev else c.tail } := by
  simp only [cutTail, wp_bind, wp_listTail, wp_ite, wp_pure]
  by_cases same : c.tail = p
  · rw [if_pos same, wp_deref live, wp_setTail, if_pos same]
  · rw [if_neg same, if_neg same]

theorem wp_cutPrev (live : p ∈ c.allocated)
    (prevLive : (c.item p).prev ≠ NULL → (c.item p).prev ∈ c.allocated)
    (post : Unit → CacheList → Prop) :
    wp (cutPrev p) post c ↔
      post () (if (c.item p).prev = NULL then c else { c with
        item := Function.update c.item (c.item p).prev
          { c.item (c.item p).prev with next := (c.item p).next } }) := by
  simp only [cutPrev, wp_bind]
  rw [wp_deref live, wp_ite]
  by_cases none : (c.item p).prev = NULL
  · rw [if_pos none, wp_pure, if_pos none]
  · simp only [if_neg none, wp_bind]
    rw [wp_deref live, wp_deref live, setNext, wp_store (prevLive none)]

theorem wp_cutNext (live : p ∈ c.allocated)
    (nextLive : (c.item p).next ≠ NULL → (c.item p).next ∈ c.allocated)
    (post : Unit → CacheList → Prop) :
    wp (cutNext p) post c ↔
      post () (if (c.item p).next = NULL then c else { c with
        item := Function.update c.item (c.item p).next
          { c.item (c.item p).next with prev := (c.item p).prev } }) := by
  simp only [cutNext, wp_bind]
  rw [wp_deref live, wp_ite]
  by_cases none : (c.item p).next = NULL
  · rw [if_pos none, wp_pure, if_pos none]
  · simp only [if_neg none, wp_bind]
    rw [wp_deref live, wp_deref live, setPrev, wp_store (nextLive none)]

/-- A copy that stays inside fills the new item. -/
theorem wp_makeItem {url object : List UInt8} (notNull : p ≠ NULL) (fresh : p ∉ c.allocated)
    (inside : CopiesInside object n) (post : Unit → CacheList → Prop) :
    wp (makeItem url object n p) post c ↔ post () { c with
      item := Function.update c.item p
        ⟨url, stringOver (List.replicate (n + 1) none) object, NULL, NULL, n⟩
      allocated := p :: c.allocated } := by
  have copied : strcpy (List.replicate (n + 1) none) object =
      some (stringOver (List.replicate (n + 1) none) object) := by
    rw [strcpy_fresh, if_pos inside]
  rw [makeItem, wp_bind, wp_mallocItem notNull fresh]
  simp [wp, strcpyObject, copied, store]

/-- Nothing is evicted while there is room. -/
theorem wp_makeRoom (room : n ≤ c.remainlen) (post : Unit → CacheList → Prop) :
    wp (makeRoom n) post c ↔ post () c := by
  have enough : ¬ c.remainlen < n := by omega
  change wp (evictUntil n (c.allocated.length + 1)) post c ↔ _
  simp only [evictUntil, wp_bind, wp_remainlen, wp_ite, if_neg enough, wp_pure]

end Rules

/-! ## Lookups in a proper list -/

section Proper

variable {c : CacheList} {nodes : List Nat} {url : List UInt8} {x : Nat}

/-- The search loop ends at a node with the tag, or at the end of the list. -/
theorem wp_searchFrom {fuel : Nat} (live : ∀ x ∈ nodes, x ≠ NULL ∧ x ∈ c.allocated)
    (linked : Linked (fun x => (c.item x).next) (fun x => (c.item x).prev) nodes)
    (last : ∀ x ∈ nodes.getLast?, (c.item x).next = NULL) (enough : nodes.length < fuel) :
    wp (searchFrom url fuel (nodes.headD NULL))
      (fun r c' => c' = c ∧ (r = NULL ∨ r ∈ nodes ∧ (c.item r).tag = url)) c := by
  induction nodes generalizing fuel with
  | nil =>
      cases fuel with
      | zero => cases enough
      | succ fuel => simp [searchFrom]
  | cons x rest ih =>
      cases fuel with
      | zero => cases enough
      | succ fuel =>
          obtain ⟨notNull, inUse⟩ := live x List.mem_cons_self
          have next : (c.item x).next = rest.headD NULL := by
            cases rest with
            | nil => exact last x rfl
            | cons y rest => exact linked.1
          change wp (searchFrom url (fuel + 1) x) _ c
          simp only [searchFrom, wp_ite, if_neg notNull, wp_bind]
          rw [wp_deref inUse]
          by_cases same : (c.item x).tag = url
          · rw [if_pos same, wp_pure]
            exact ⟨rfl, .inr ⟨List.mem_cons_self, same⟩⟩
          · rw [if_neg same, wp_deref inUse, next]
            refine wp_mono (ih (fun y member => live y (List.mem_cons_of_mem _ member)) linked.tail
              ?_ (by simpa using enough)) ?_
            · intro y end_
              refine last y ?_
              cases rest with
              | nil => cases end_
              | cons z rest => simpa using end_
            · rintro r c' ⟨rfl, null | ⟨member, tagged⟩⟩
              · exact ⟨rfl, .inl null⟩
              · exact ⟨rfl, .inr ⟨List.mem_cons_of_mem _ member, tagged⟩⟩

/-- The search ends within as many rounds as there are items. -/
theorem ProperList.wp_search (proper : ProperList c nodes) :
    wp (search url) (fun r c' => c' = c ∧ (r = NULL ∨ r ∈ nodes ∧ (c.item r).tag = url)) c := by
  have fewer : nodes.length ≤ c.allocated.length :=
    (List.subperm_of_subset proper.distinct fun x member => (proper.live x member).2).length_le
  have found : wp (searchFrom url (c.allocated.length + 1) (nodes.headD NULL)) _ c :=
    wp_searchFrom proper.live proper.linked proper.last (by omega)
  rw [← proper.head] at found
  exact found

/-- The links of a node lead to nodes or to null. -/
theorem ProperList.neighbours (proper : ProperList c nodes) (member : x ∈ nodes) :
    ((c.item x).prev ≠ NULL → (c.item x).prev ∈ c.allocated) ∧
      ((c.item x).next ≠ NULL → (c.item x).next ∈ c.allocated) := by
  obtain ⟨front, back, rfl⟩ := List.append_of_mem member
  obtain ⟨before, after⟩ := (linked_append front x back).mp proper.linked
  constructor
  · intro notNull
    rcases List.eq_nil_or_concat front with rfl | ⟨init, y, rfl⟩
    · exact absurd (proper.first x rfl) notNull
    · rw [List.concat_eq_append, List.append_assoc] at before
      have prev : (c.item x).prev = y := ((linked_append init y [x]).mp before).2.2.1
      rw [prev]
      exact (proper.live y (by simp)).2
  · intro notNull
    cases back with
    | nil => exact absurd (proper.last x (by simp)) notNull
    | cons y rest =>
        have next : (c.item x).next = y := after.1
        rw [next]
        exact (proper.live y (by simp)).2

/-- Moving a node of a proper list follows no pointer to a freed item. -/
theorem ProperList.wp_moveToHead (proper : ProperList c nodes) (member : x ∈ nodes) :
    wp (moveToHead x) (fun _ _ => True) c := by
  have inUse := (proper.live x member).2
  obtain ⟨prevLive, nextLive⟩ := proper.neighbours member
  simp only [moveToHead, wp_bind, wp_listHead, wp_ite, wp_pure, wp_setHead, wp_setTail]
  by_cases first : c.head = x
  · rw [if_pos first]
    trivial
  by_cases none : c.head = NULL
  · rw [if_neg first, if_pos none]
    trivial
  rw [if_neg first, if_neg none, wp_cutTail inUse]
  generalize (if c.tail = x then (c.item x).prev else c.tail) = tail
  rw [wp_cutPrev (c := { c with tail := tail }) inUse prevLive]
  generalize cut : (if (c.item x).prev = NULL then _ else _ : CacheList) = c'
  have allocated : c'.allocated = c.allocated := by
    rw [← cut]
    split <;> rfl
  have next : (c'.item x).next = (c.item x).next := by
    rw [← cut]
    split
    · rfl
    · by_cases own : x = (c.item x).prev
      · simp only [Function.update_apply, if_pos own]
      · simp only [Function.update_of_ne own]
  rw [wp_cutNext (by rw [allocated]; exact inUse) (by rw [allocated, next]; exact nextLive)]
  generalize cut' : (if (c'.item x).next = NULL then _ else _ : CacheList) = c''
  have allocated' : x ∈ c''.allocated := by
    rw [← cut']
    split <;> (rw [allocated]; exact inUse)
  rw [setPrev, wp_store allocated', setNext, wp_store (by exact allocated')]
  trivial

/-- Every lookup in a proper list ends and follows no pointer to a freed item. -/
theorem Proper.wp_cacheLookup (proper : Proper c) (url : List UInt8) :
    wp (cacheLookup url) (fun _ _ => True) c := by
  obtain ⟨nodes, p⟩ := proper
  unfold cacheLookup
  rw [wp_bind]
  refine wp_mono p.wp_search ?_
  rintro r c' ⟨rfl, rfl | ⟨member, -⟩⟩
  · rw [wp_ite, if_pos rfl, wp_pure]
    trivial
  · obtain ⟨notNull, inUse⟩ := p.live r member
    rw [wp_ite, if_neg notNull, wp_bind, wp_deref inUse, wp_bind]
    refine wp_mono (p.wp_moveToHead member) ?_
    intro _ _ _
    rw [wp_pure]
    trivial

end Proper

/-! ## Lists of at most one item -/

/-- The list of no item. -/
structure Empty (c : CacheList) : Prop where
  head : c.head = NULL
  tail : c.tail = NULL
  space : c.remainlen = MAX_CACHE_SIZE
  none : c.allocated = []

/-- The list of the one item `x`. -/
structure Single (c : CacheList) (x : Nat) : Prop where
  notNull : x ≠ NULL
  head : c.head = x
  tail : c.tail = x
  only : c.allocated = [x]
  prev : (c.item x).prev = NULL
  next : (c.item x).next = NULL
  small : (c.item x).objectlen ≤ MAX_OBJECT_SIZE
  space : c.remainlen + (c.item x).objectlen = MAX_CACHE_SIZE

/-- The invariant of the runs that add items to the empty list only. -/
def AtMostOne (c : CacheList) : Prop := Empty c ∨ ∃ x, Single c x

theorem Empty.properList {c : CacheList} (e : Empty c) : ProperList c [] :=
  ⟨e.head, e.tail, by simp, List.nodup_nil, trivial, by simp, by simp, by simpa using e.space⟩

theorem Single.properList {c : CacheList} {x : Nat} (s : Single c x) : ProperList c [x] :=
  ⟨s.head, s.tail, by simp [s.notNull, s.only], List.nodup_singleton x, trivial,
    by simpa using s.prev, by simpa using s.next, by simpa using s.space⟩

theorem AtMostOne.proper {c : CacheList} (one : AtMostOne c) : Proper c := by
  rcases one with e | ⟨x, s⟩
  · exact ⟨[], e.properList⟩
  · exact ⟨[x], s.properList⟩

/-- A lookup ends, and leaves a list of at most one item as it is. -/
theorem AtMostOne.lookup {c : CacheList} (one : AtMostOne c) (url : List UInt8) :
    wp (cacheLookup url) (fun _ c' => c' = c) c := by
  unfold cacheLookup
  rw [wp_bind]
  rcases one with e | ⟨x, s⟩
  · refine wp_mono e.properList.wp_search ?_
    rintro r c' ⟨rfl, rfl | ⟨member, -⟩⟩
    · rw [wp_ite, if_pos rfl, wp_pure]
    · cases member
  · refine wp_mono s.properList.wp_search ?_
    rintro r c' ⟨rfl, rfl | ⟨member, -⟩⟩
    · rw [wp_ite, if_pos rfl, wp_pure]
    · rw [List.mem_singleton] at member
      subst member
      have live : r ∈ c'.allocated := by simp [s.only]
      rw [wp_ite, if_neg s.notNull, wp_bind, wp_deref live]
      simp only [moveToHead, wp_bind, wp_listHead, wp_ite, if_pos s.head, wp_pure]

/-- An add to the empty list makes it the list of the new item. -/
theorem Empty.add {c : CacheList} (e : Empty c) {url object : List UInt8} {objectlen x : Nat}
    (notNull : x ≠ NULL) (small : objectlen ≤ MAX_OBJECT_SIZE)
    (inside : CopiesInside object objectlen) :
    wp (cacheAdd url object objectlen x) (fun _ c' => Single c' x) c := by
  have space := e.space
  have room : objectlen ≤ c.remainlen := by
    unfold MAX_OBJECT_SIZE at small
    unfold MAX_CACHE_SIZE at space
    omega
  unfold cacheAdd
  rw [wp_bind, wp_makeRoom room, wp_bind, wp_makeItem notNull (by simp [e.none]) inside]
  have notHead : ¬ c.head = x := by
    rw [e.head]
    exact fun same => notNull same.symm
  simp only [wp_bind, wp_remainlen, wp_setRemainlen, moveToHead, wp_listHead, wp_ite,
    if_neg notHead, if_pos e.head, wp_setTail, wp_setHead]
  refine ⟨notNull, rfl, rfl, by simp [e.none], by simp, by simp, by simpa using small, ?_⟩
  simp only [Function.update_self]
  omega

/-- The state of a list whose old head `x` was not linked back to the new one. -/
theorem not_proper {c : CacheList} {x y : Nat} (differ : x ≠ y) (head : c.head = y)
    (tail : c.tail = x) (next : (c.item y).next = x) (prev : (c.item x).prev = NULL) :
    ¬ Proper c := by
  rintro ⟨nodes, p⟩
  have first := p.head
  have last := p.tail
  rw [head] at first
  rw [tail] at last
  match nodes, p with
  | [], _ =>
      exact differ (last.trans first.symm)
  | [z], _ =>
      exact differ (last.trans first.symm)
  | z :: w :: rest, p =>
      simp only [List.headD_cons] at first
      subst first
      have here : (c.item y).next = w := p.linked.1
      have back : (c.item w).prev = y := p.linked.2.1
      rw [next] at here
      subst here
      rw [prev] at back
      exact (p.live y List.mem_cons_self).1 back.symm

/-- An add to a list of one item forgets the back link of that item. -/
theorem Single.add {c : CacheList} {x y objectlen : Nat} (s : Single c x)
    {url object : List UInt8} (room : objectlen ≤ c.remainlen) (notNull : y ≠ NULL)
    (fresh : y ∉ c.allocated) (inside : CopiesInside object objectlen) :
    wp (cacheAdd url object objectlen y) (fun _ c' => ¬ Proper c') c := by
  have differ : x ≠ y := by
    rintro rfl
    exact fresh (by simp [s.only])
  have notHead : ¬ c.head = y := fun same => differ (s.head.symm.trans same)
  have notEmpty : ¬ c.head = NULL := fun null => s.notNull (s.head.symm.trans null)
  have notTail : ¬ c.tail = y := fun same => differ (s.tail.symm.trans same)
  unfold cacheAdd
  rw [wp_bind, wp_makeRoom room, wp_bind, wp_makeItem notNull fresh inside]
  simp only [wp_bind, wp_remainlen, wp_setRemainlen, moveToHead, wp_listHead, wp_ite,
    if_neg notHead, if_neg notEmpty, wp_setHead]
  rw [wp_cutTail (by simp), wp_cutPrev (by simp) (by simp), wp_cutNext (by simp) (by simp), setPrev,
    wp_store (by simp), setNext, wp_store (by simp)]
  refine not_proper differ rfl ?_ ?_ ?_
  · simp [s.tail, differ]
  · simp [s.head]
  · simp [differ, s.prev]

/-! ## Adds that end -/

section Ends

variable {c : CacheList} {url object : List UInt8} {objectlen x : Nat}
  {result : Unit × CacheList}

/-- There is room in a list of at most one item. -/
theorem AtMostOne.room (one : AtMostOne c) (small : objectlen ≤ MAX_OBJECT_SIZE) :
    objectlen ≤ c.remainlen := by
  unfold MAX_OBJECT_SIZE at small
  rcases one with e | ⟨y, s⟩
  · have space := e.space
    unfold MAX_CACHE_SIZE at space
    omega
  · have space := s.space
    have smallOld := s.small
    unfold MAX_OBJECT_SIZE at smallOld
    unfold MAX_CACHE_SIZE at space
    omega

/-- An answer of `Malloc` where nothing has to be evicted. -/
theorem Answered.fresh (answered : Answered c (.add url object objectlen x))
    (room : objectlen ≤ c.remainlen) : x ≠ NULL ∧ x ∉ c.allocated := by
  obtain ⟨result, made, same⟩ : wp (makeRoom objectlen) (fun _ c' => c' = c) c :=
    (wp_makeRoom room _).mpr rfl
  have unused := answered result made
  rwa [same] at unused

/-- An add that comes to its end has copied the object inside its buffers. -/
theorem cacheAdd_inside (added : cacheAdd url object objectlen x c = some result) :
    CopiesInside object objectlen := by
  obtain ⟨made, -, rest⟩ := Option.bind_eq_some_iff.mp added
  obtain ⟨_, item, -⟩ := Option.bind_eq_some_iff.mp rest
  obtain ⟨placed, malloc, copied⟩ := Option.bind_eq_some_iff.mp item
  obtain ⟨copy, string, -⟩ := Option.bind_eq_some_iff.mp copied
  unfold mallocItem at malloc
  split at malloc
  · cases malloc
  · cases malloc
    simp only [Function.update_self] at string
    rw [strcpy_fresh] at string
    split at string
    · rename_i inside
      exact inside
    · cases string

end Ends

/-! ## The exact condition -/

/-- The calls executed one after another from `cache_init`.  There is no state
after a call that follows a pointer to a freed item, leaves a buffer or never
ends. -/
def sequential : Machine (Option CacheList) Call where
  init c := c = some cacheInit
  step c e c' := ∃ list, c = some list ∧ e.Small ∧ Answered list e ∧ c' = call list e

/-- The cache is a proper list, and every lookup ends without following a pointer
to a freed item. -/
structure Sound (c : Option CacheList) : Prop where
  proper : ∃ list, c = some list ∧ Proper list
  ends : ∀ url, ∀ list ∈ c, ∃ result, cacheLookup url list = some result

/-- An item is added only while the list is empty, and its object has a zero byte
among those that are copied. -/
def AddsToEmpty (c : Option CacheList) : Call → Prop
  | .add _ object objectlen _ =>
      (∀ list ∈ c, list.head = NULL) ∧ CopiesInside object objectlen
  | .lookup _ => True

/-- The invariant of the runs that meet the condition. -/
def Kept (c : Option CacheList) : Prop := ∃ list, c = some list ∧ AtMostOne list

namespace Kept

variable {c c' : Option CacheList} {e : Call}

theorem sound (one : Kept c) : Sound c := by
  obtain ⟨list, rfl, one⟩ := one
  constructor
  · exact ⟨list, rfl, one.proper⟩
  · intro url list' here
    cases here
    obtain ⟨result, looked, -⟩ := one.proper.wp_cacheLookup url
    exact ⟨result, looked⟩

/-- Adding to the empty list and looking up keep a list of at most one item. -/
theorem keeps (one : Kept c) (condition : AddsToEmpty c e) (step : sequential.step c e c') :
    Kept c' := by
  obtain ⟨list, rfl, one⟩ := one
  obtain ⟨list', here, small, answered, rfl⟩ := step
  cases here
  cases e with
  | add url object objectlen x =>
      obtain ⟨empty, inside⟩ := condition
      rcases id one with e | ⟨y, s⟩
      · obtain ⟨notNull, -⟩ := answered.fresh (one.room small)
        obtain ⟨result, added, single⟩ : ∃ result,
            cacheAdd url object objectlen x list = some result ∧ Single result.2 x :=
          e.add notNull small inside
        exact ⟨result.2, by simp [call, added], .inr ⟨x, single⟩⟩
      · exact absurd (s.head.symm.trans (empty list rfl)) s.notNull
  | lookup url =>
      obtain ⟨result, looked, same⟩ := one.lookup url
      exact ⟨result.2, by simp [call, looked], same ▸ one⟩

/-- Adding to a list of one item breaks it, and so does a copy that leaves its
buffers. -/
theorem breaks (one : Kept c) (against : ¬ AddsToEmpty c e)
    (step : sequential.step c e c') : ¬ Sound c' := by
  obtain ⟨list, rfl, one⟩ := one
  obtain ⟨list', here, small, answered, rfl⟩ := step
  cases here
  intro sound
  cases e with
  | add url object objectlen x =>
      obtain ⟨after, ends, proper⟩ := sound.proper
      obtain ⟨result, added, rfl⟩ := Option.map_eq_some_iff.mp ends
      have inside := cacheAdd_inside added
      have room := one.room small
      obtain ⟨notNull, fresh⟩ := answered.fresh room
      rcases one with e | ⟨y, s⟩
      · refine against ⟨?_, inside⟩
        intro list' here
        cases here
        exact e.head
      · exact wp_elim (s.add room notNull fresh inside) added proper
  | lookup url => exact against trivial

end Kept

/-- A run from `cache_init` has a proper list in every state, with lookups that
end, exactly when it adds to the empty list only and every copy stays inside. -/
theorem cache_proper_iff {past : List (Option CacheList × Call)} {c : Option CacheList}
    (run : sequential.Run past c) : Throughout Sound past c ↔ AllSteps AddsToEmpty past := by
  refine run.exact (I := Kept) ?_ (fun _ one => one.sound)
    (fun _ _ _ one condition step => one.keeps condition step)
    (fun _ _ _ one against step => one.breaks against step)
  rintro c rfl
  exact ⟨cacheInit, rfl, .inl ⟨rfl, rfl, rfl, rfl⟩⟩

/-- A call that is made only when `Malloc` answers. -/
def answeredCall (c : Option CacheList) (e : Call) : Option (Option CacheList) :=
  c.bind fun list => if e.Small ∧ Answered list e then some (call list e) else none

theorem step_of_answeredCall {c c' : Option CacheList} {e : Call}
    (taken : answeredCall c e = some c') : sequential.step c e c' := by
  obtain ⟨list, rfl, made⟩ := Option.bind_eq_some_iff.mp taken
  split at made
  · rename_i enabled
    cases made
    exact ⟨list, rfl, enabled.1, enabled.2, rfl⟩
  · cases made

/-- The URL `a` with the object `x`, its lookup, and the URL `b` with the object
`y`. -/
def twoObjects : List Call :=
  [.add [97] [120, 0] 1 1, .lookup [97], .add [98] [121, 0] 1 2]

theorem cache_proper_iff_twoObjects :
    Throughout Sound (record answeredCall [] (some cacheInit) twoObjects).1
        (record answeredCall [] (some cacheInit) twoObjects).2 ↔
      AllSteps AddsToEmpty (record answeredCall [] (some cacheInit) twoObjects).1 :=
  cache_proper_iff (Run.of_record (.start rfl) (fun _ _ _ taken => step_of_answeredCall taken) _)

/-- After two adds the first item is behind the second one but does not point
back at it. -/
theorem cache_not_proper : ¬ ∀ past c, sequential.Run past c → Sound c := by
  intro claimed
  have run : sequential.Run _ _ := Run.of_record (.start rfl : sequential.Run [] (some cacheInit))
    (fun _ _ _ taken => step_of_answeredCall taken) twoObjects
  obtain ⟨list, ends, proper⟩ := (claimed _ _ run).proper
  refine not_proper (x := 1) (y := 2) (c := list) (by decide) ?_ ?_ ?_ ?_ proper
  all_goals
    cases ends
    rfl

end SysProg.Proxy

import SysProg.Logic.SizedRecency
import SysProg.Proxy.Unlinked

/-!
# The cache against an ideal one

A request looks its URL up and adds an object on a miss.  The first hit on an
item that is not the head ties the list into a loop, and an eviction leaves it
ending at a freed item; from then on only items that can still be reached hit,
and a miss never ends.  Up to that, the cache is the ideal one.
-/

namespace SysProg.Proxy

open Logic Machine

/-! ## Requests -/

/-- A request of a URL, with the object that a server would answer and the
address that `Malloc` would find for it. -/
structure Request where
  url : List UInt8
  object : List UInt8
  objectlen : Nat
  item : Nat
  sized : 1 ≤ objectlen ∧ objectlen ≤ MAX_OBJECT_SIZE

/-- The lookup of `run_thread`, and its add on a miss; a miss returns 0. -/
def serve (q : Request) : CM Nat := do
  let found ← cacheLookup q.url
  if found.1 > 0 then pure found.1
  else do
    cacheAdd q.url q.object q.objectlen q.item
    pure 0

/-- The ideal cache. -/
abbrev Ideal := SizedList (List UInt8) MAX_CACHE_SIZE

theorem Request.fits (q : Request) : q.objectlen ≤ MAX_CACHE_SIZE :=
  Nat.le_trans q.sized.2 (by decide)

/-- What the ideal cache answers. -/
def answer (r : Ideal) (q : Request) : Option Nat × Ideal := r.access (q.url, q.objectlen) q.fits

/-- The cache, which has crashed or hangs when there is no state, next to the
ideal one, and what both returned last. -/
structure Compared where
  code : Option CacheList
  ideal : Ideal
  returned : Option Nat
  expected : Nat

/-- Both caches after a request. -/
def compare (s : Compared) (q : Request) : Compared :=
  let result := s.code.bind (serve q)
  { code := result.map Prod.snd
    ideal := (answer s.ideal q).2
    returned := result.map Prod.fst
    expected := (answer s.ideal q).1.getD 0 }

/-- Both caches after `cache_init`. -/
def bothEmpty : Compared := ⟨some cacheInit, .empty, some 0, 0⟩

/-- `Malloc` finds an address that is not in use once there is room. -/
def Mallocs (s : Compared) (q : Request) : Prop :=
  ∀ c ∈ s.code, ∀ r ∈ makeRoom q.objectlen c, q.item ≠ NULL ∧ q.item ∉ r.2.allocated

instance (s : Compared) (q : Request) : Decidable (Mallocs s q) :=
  inferInstanceAs (Decidable (∀ c ∈ s.code, ∀ r ∈ makeRoom q.objectlen c, _))

/-- All sequences of requests from `cache_init`. -/
def compared : Machine Compared Request where
  init s := s = bothEmpty
  step s q t := Mallocs s q ∧ compare s q = t

/-- The cache has returned what the ideal one returned. -/
def Agrees (s : Compared) : Prop := s.returned = some s.expected

/-! ## The condition -/

/-- The links lead from `head` to an item with the URL; unless it is the head,
its own `next` does not lead to a freed item. -/
def Found (c : CacheList) (q : Request) : Prop :=
  ∃ front x, Path c c.head front x ∧ x ∈ c.allocated ∧ (c.item x).tag = q.url ∧
    (x = c.head ∨ (c.item x).next = NULL ∨ (c.item x).next ∈ c.allocated)

/-- The links lead from `head` to null, past no item with the URL, at most one
item must be evicted, and the object has a zero byte among those that are
copied. -/
structure Fits (c : CacheList) (q : Request) : Prop where
  absent : ∃ nodes, Path c c.head nodes NULL ∧ ∀ x ∈ nodes, (c.item x).tag ≠ q.url
  room : q.objectlen ≤ c.remainlen ∨
    c.tail ∈ c.allocated ∧ q.objectlen ≤ c.remainlen + (c.item c.tail).objectlen
  inside : CopiesInside q.object q.objectlen

/-- The request is served by the list as it is linked. -/
def Served (s : Compared) (q : Request) : Prop :=
  ∀ c ∈ s.code, Found c q ∨ Fits c q

/-! ## One request, from the result of its search -/

section Serve

variable {c : CacheList} {q : Request} {x : Nat}

theorem serve_hit (found : search q.url c = some (x, c)) (notNull : x ≠ NULL)
    (live : x ∈ c.allocated) (sized : 1 ≤ (c.item x).objectlen) :
    serve q c = (moveToHead x c).map fun m => ((c.item x).objectlen, m.2) := by
  rw [serve, bind_run, cacheLookup_found found notNull live]
  cases moveToHead x c with
  | none => rfl
  | some m => exact congrFun (if_pos (by exact sized)) m.2

theorem serve_miss (missed : search q.url c = some (NULL, c)) :
    serve q c = (cacheAdd q.url q.object q.objectlen q.item c).map fun m => (0, m.2) := by
  rw [serve, bind_run, cacheLookup_missed missed, Option.bind_some, if_neg (by simp), bind_run]
  cases cacheAdd q.url q.object q.objectlen q.item c <;> rfl

theorem serve_stuck (stuck : search q.url c = none) : serve q c = none := by
  rw [serve, bind_run, cacheLookup_stuck stuck]
  rfl

end Serve

/-! ## The lists that occur -/

/-- The keys and sizes of items. -/
def entries (c : CacheList) (nodes : List Nat) : List (List UInt8 × Nat) :=
  nodes.map fun x => ((c.item x).tag, (c.item x).objectlen)

/-- The list from `head` through `nodes` to `last`, next to the ideal cache:
nothing is missing when it ends in null; otherwise it ends at a freed item or
loops, and may have lost the least recently used items. -/
structure Linkage (c : CacheList) (r : Ideal) (nodes : List Nat) (last : Nat) : Prop where
  unlinked : NoBack c
  notNull : NULL ∉ c.allocated
  once : c.allocated.Nodup
  path : Path c c.head nodes last
  recent : entries c nodes <+: r.entries
  sizes : ∀ e ∈ r.entries, 1 ≤ e.2 ∧ e.2 ≤ MAX_OBJECT_SIZE
  ending : last = NULL ∨ last ∈ nodes ∨ last ∉ c.allocated
  whole : last = NULL → entries c nodes = r.entries ∧ c.tail = nodes.getLastD NULL ∧
    c.remainlen + totalSize r.entries = MAX_CACHE_SIZE

section Linkage

variable {c : CacheList} {r : Ideal} {nodes : List Nat} {last : Nat} {q : Request}

/-- Two items of the list have different tags. -/
theorem Linkage.tags (l : Linkage c r nodes last) :
    (nodes.map fun x => (c.item x).tag).Nodup := by
  have kept := l.recent.sublist.map Prod.fst
  rw [entries, List.map_map] at kept
  exact r.distinct.sublist kept

theorem Linkage.distinct (l : Linkage c r nodes last) : nodes.Nodup :=
  l.tags.of_map _

/-- The links never leave the list. -/
theorem Path.stays {p m : Nat} {front : List Nat}
    (closed : ∀ x ∈ nodes, (c.item x).next ∈ nodes ∨ (c.item x).next = last)
    (ending : last = NULL ∨ last ∈ nodes ∨ last ∉ c.allocated) (notNull : NULL ∉ c.allocated)
    (inside : p ∈ nodes ∨ p = last) (path : Path c p front m) : m ∈ nodes ∨ m = last := by
  induction front generalizing p with
  | nil =>
      rw [← show p = m from path]
      exact inside
  | cons y front ih =>
      obtain ⟨rfl, live, path⟩ := path
      have member : p ∈ nodes := by
        rcases inside with member | rfl
        · exact member
        · rcases ending with rfl | member | dead
          · exact absurd live notNull
          · exact member
          · exact absurd live dead
      exact ih (closed p member) path

theorem Path.closed {p : Nat} (path : Path c p nodes last) :
    ∀ x ∈ nodes, (c.item x).next ∈ nodes ∨ (c.item x).next = last := by
  intro x member
  obtain ⟨front, back, rfl⟩ := List.append_of_mem member
  obtain ⟨m, -, rfl, -, after⟩ := path_append.mp path
  cases back with
  | nil => exact .inr after
  | cons y back => exact .inl (by rw [after.1]; simp)

theorem Path.start {p : Nat} (path : Path c p nodes last) : p ∈ nodes ∨ p = last := by
  cases nodes with
  | nil => exact .inr path
  | cons y nodes => exact .inl (by rw [path.1]; simp)

theorem Linkage.fewer (l : Linkage c r nodes last) : nodes.length ≤ c.allocated.length :=
  (List.subperm_of_subset l.distinct fun _ member => l.path.live member).length_le

/-- The search finds the first item with the tag. -/
theorem Linkage.search_found {front back : List Nat} {x : Nat} {url : List UInt8}
    (l : Linkage c r (front ++ x :: back) last) (tagged : (c.item x).tag = url)
    (others : ∀ y ∈ front, (c.item y).tag ≠ url) : search url c = some (x, c) := by
  have fewer := l.fewer
  obtain ⟨m, before, rfl, live, -⟩ := path_append.mp l.path
  have apart : m ≠ NULL := by
    rintro rfl
    exact l.notNull live
  obtain ⟨fuel, enough⟩ : ∃ fuel, c.allocated.length + 1 = front.length + (fuel + 1) :=
    ⟨c.allocated.length - front.length, by simp at fewer; omega⟩
  show searchFrom url (c.allocated.length + 1) c.head c = _
  rw [enough, searchFrom_path l.notNull before others, searchFrom_succ, if_neg apart, if_pos live,
    if_pos tagged]

/-- A search for another tag ends only if the list does. -/
theorem Linkage.search_other {url : List UInt8} (l : Linkage c r nodes last)
    (others : ∀ y ∈ nodes, (c.item y).tag ≠ url) :
    search url c = if last = NULL then some (NULL, c) else none := by
  have fewer := l.fewer
  obtain ⟨fuel, enough⟩ : ∃ fuel, c.allocated.length + 1 = nodes.length + (fuel + 1) :=
    ⟨c.allocated.length - nodes.length, by omega⟩
  show searchFrom url (c.allocated.length + 1) c.head c = _
  rw [enough, searchFrom_path l.notNull l.path others]
  by_cases null : last = NULL
  · rw [if_pos null, null, searchFrom_succ, if_pos rfl]
  · rw [if_neg null]
    rcases l.ending with end_ | member | dead
    · exact absurd end_ null
    · have closed : ∀ x ∈ nodes,
          x ∈ c.allocated ∧ (c.item x).tag ≠ url ∧ (c.item x).next ∈ nodes := by
        intro x inside
        refine ⟨l.path.live inside, others x inside, ?_⟩
        rcases l.path.closed x inside with next | next
        · exact next
        · rw [next]
          exact member
      exact searchFrom_loop l.notNull closed member _
    · rw [searchFrom_succ, if_neg null, if_neg dead]

/-- Another ideal cache with the same entries. -/
theorem Linkage.ideal {r' : Ideal} (l : Linkage c r nodes last) (same : r'.entries = r.entries) :
    Linkage c r' nodes last := by
  obtain ⟨unlinked, notNull, once, path, recent, sizes, ending, whole⟩ := l
  refine ⟨unlinked, notNull, once, path, ?_, ?_, ending, ?_⟩
  · rw [same]
    exact recent
  · rw [same]
    exact sizes
  · rw [same]
    exact whole

/-- Where the first item with the tag is, if there is one. -/
theorem first_tagged (c : CacheList) (nodes : List Nat) (url : List UInt8) :
    (∀ x ∈ nodes, (c.item x).tag ≠ url) ∨
      ∃ front x back, nodes = front ++ x :: back ∧ (c.item x).tag = url ∧
        ∀ y ∈ front, (c.item y).tag ≠ url := by
  cases found : nodes.find? fun x => (c.item x).tag = url with
  | none =>
      left
      simpa [List.find?_eq_none] using found
  | some x =>
      right
      obtain ⟨tagged, front, back, rfl, others⟩ := List.find?_eq_some_iff_append.mp found
      exact ⟨front, x, back, rfl, by simpa using tagged, by simpa using others⟩

section Hit

variable {front back : List Nat} {x : Nat}

/-- The ideal cache hits as well, and has the item in front. -/
theorem Linkage.answer_hit (l : Linkage c r (front ++ x :: back) last)
    (tagged : (c.item x).tag = q.url) :
    ∃ rest, r.entries = entries c front ++ (q.url, (c.item x).objectlen) :: rest ∧
      (answer r q).1 = some (c.item x).objectlen ∧
      (answer r q).2.entries = (q.url, (c.item x).objectlen) :: (entries c front ++ rest) := by
  obtain ⟨more, listed⟩ := l.recent
  have here : r.entries =
      entries c front ++ (q.url, (c.item x).objectlen) :: (entries c back ++ more) := by
    rw [← listed]
    simp [entries, tagged]
  obtain ⟨size, moved⟩ := r.access_present (e := (q.url, q.objectlen)) q.fits here
  exact ⟨_, here, size, moved⟩

/-- A hit on the head changes nothing. -/
theorem Linkage.hit_head (l : Linkage c r (x :: back) last) (tagged : (c.item x).tag = q.url) :
    moveToHead x c = some ((), c) ∧ Linkage c (answer r q).2 (x :: back) last := by
  have spelled : Linkage c r ([] ++ x :: back) last := l
  obtain ⟨rest, here, -, moved⟩ := spelled.answer_hit tagged
  constructor
  · rw [moveToHead_eq l.unlinked (l.path.live List.mem_cons_self), if_pos l.path.1]
  · exact l.ideal (moved.trans here.symm)

/-- A hit on another item ties the list into a loop. -/
theorem Linkage.hit_other (l : Linkage c r (front ++ x :: back) last)
    (tagged : (c.item x).tag = q.url) (other : front ≠ []) :
    moveToHead x c =
        (if (c.item x).next = NULL ∨ (c.item x).next ∈ c.allocated then some ((), pushFront c x)
        else none) ∧
      Linkage (pushFront c x) (answer r q).2 (x :: front) x := by
  obtain ⟨rest, here, -, moved⟩ := l.answer_hit tagged
  obtain ⟨m, before, rfl, live, -⟩ := path_append.mp l.path
  have apart : m ≠ NULL := by
    rintro rfl
    exact l.notNull live
  have absent : m ∉ front := by
    have distinct := l.distinct
    rw [List.nodup_middle, List.nodup_cons] at distinct
    exact fun member => distinct.1 (List.mem_append_left _ member)
  have headLive : c.head ∈ front := by
    cases front with
    | nil => exact absurd rfl other
    | cons y front => rw [before.1]; exact List.mem_cons_self
  have notHead : c.head ≠ m := fun same => absent (same ▸ headLive)
  have notEmpty : c.head ≠ NULL := fun null => l.notNull (null ▸ before.live headLive)
  constructor
  · rw [moveToHead_eq l.unlinked live, if_neg notHead, if_neg notEmpty]
  · refine ⟨?_, l.notNull, l.once, ⟨rfl, live, ?_⟩, ?_, ?_, .inr (.inl List.mem_cons_self),
      fun null => absurd null apart⟩
    · intro y
      by_cases same : y = m
      · subst same
        simpa [pushFront] using l.unlinked y
      · simpa [pushFront, same] using l.unlinked y
    · have next : ((pushFront c m).item m).next = c.head := by simp [pushFront]
      rw [next]
      refine before.congr (fun y member => before.live member) fun y member => ?_
      have differ : y ≠ m := fun same => absent (same ▸ member)
      simp [pushFront, differ]
    · have kept : entries (pushFront c m) (m :: front) =
          (q.url, (c.item m).objectlen) :: entries c front := by
        rw [entries, List.map_cons]
        congr 1
        · simp [pushFront, tagged]
        · refine List.map_congr_left fun y member => ?_
          have differ : y ≠ m := fun same => absent (same ▸ member)
          simp [pushFront, differ]
      rw [kept, moved]
      exact List.prefix_cons_inj _ |>.mpr (List.prefix_append ..)
    · intro e member
      rw [moved] at member
      apply l.sizes
      rw [here]
      simp only [List.mem_cons, List.mem_append] at member ⊢
      tauto

end Hit

section Miss

/-- The ideal cache misses as well. -/
theorem answer_miss (absent : ∀ e ∈ r.entries, e.1 ≠ q.url) :
    (answer r q).1 = none ∧ (answer r q).2.entries =
      (q.url, q.objectlen) :: keepRecent MAX_CACHE_SIZE q.objectlen r.entries :=
  r.access_absent (e := (q.url, q.objectlen)) q.fits absent

theorem Linkage.absent (l : Linkage c r nodes NULL)
    (others : ∀ x ∈ nodes, (c.item x).tag ≠ q.url) : ∀ e ∈ r.entries, e.1 ≠ q.url := by
  intro e member
  rw [← (l.whole rfl).1] at member
  obtain ⟨x, inside, rfl⟩ := List.mem_map.mp member
  exact others x inside

/-- A new item in front of the items `nodes` of a list. -/
theorem entries_added {c' : CacheList} {x : Nat} (url object : List UInt8) (objectlen : Nat)
    (same : c'.item = c.item) (fresh : x ∉ nodes) :
    entries (added c' url object objectlen x) (x :: nodes) =
      (url, objectlen) :: entries c nodes := by
  obtain ⟨others, tag, len, -⟩ := added_item c' x url object objectlen
  rw [entries, List.map_cons, tag, len]
  congr 1
  refine List.map_congr_left fun y member => ?_
  rw [others y fun same => fresh (same ▸ member), same]

/-- Without an eviction the list stays whole. -/
theorem Linkage.miss (l : Linkage c r nodes NULL) (others : ∀ x ∈ nodes, (c.item x).tag ≠ q.url)
    (room : q.objectlen ≤ c.remainlen) (notNull : q.item ≠ NULL) (fresh : q.item ∉ c.allocated) :
    (answer r q).1 = none ∧
      Linkage (added c q.url q.object q.objectlen q.item) (answer r q).2 (q.item :: nodes)
        NULL := by
  obtain ⟨none, inserted⟩ := answer_miss (l.absent others)
  obtain ⟨listed, tail, space⟩ := l.whole rfl
  rw [keepRecent_all (by omega)] at inserted
  have new : q.item ∉ nodes := fun member => fresh (l.path.live member)
  have kept := entries_added q.url q.object q.objectlen (rfl : c.item = c.item) new
  have notHead : c.head ≠ q.item := by
    intro same
    rcases l.path.start with member | null
    · exact new (same ▸ member)
    · exact notNull (same.symm.trans null)
  refine ⟨none, added_unlinked l.unlinked, ?_, ?_, ?_, ?_, ?_, .inl rfl, fun _ => ⟨?_, ?_, ?_⟩⟩
  · rw [added_allocated]
    simp [l.notNull, notNull.symm]
  · rw [added_allocated]
    exact List.nodup_cons.mpr ⟨fresh, l.once⟩
  · exact l.path.behind fresh notHead
  · exact ⟨[], by rw [List.append_nil, kept, inserted, listed]⟩
  · intro e member
    rw [inserted] at member
    rcases List.mem_cons.mp member with rfl | old
    · exact q.sized
    · exact l.sizes e old
  · rw [kept, inserted, listed]
  · rw [added_tail, if_neg notHead]
    cases nodes with
    | nil =>
        have empty : c.head = NULL := l.path
        rw [if_pos empty]
        rfl
    | cons y rest =>
        have notEmpty : c.head ≠ NULL := by
          rw [l.path.1]
          exact fun null => l.notNull (null ▸ l.path.live List.mem_cons_self)
        have tailNe : c.tail ≠ q.item := by
          rw [tail, List.getLastD_cons]
          exact fun same => new (same ▸ List.getLastD_mem_cons)
        rw [if_neg notEmpty, if_neg tailNe]
        exact tail
  · rw [inserted, totalSize_cons, added_remainlen]
    simp only
    omega

/-- One eviction leaves the item before the last one pointing at freed memory. -/
theorem Linkage.evict (l : Linkage c r nodes NULL) (others : ∀ x ∈ nodes, (c.item x).tag ≠ q.url)
    (tight : ¬ q.objectlen ≤ c.remainlen) (live : c.tail ∈ c.allocated)
    (room : q.objectlen ≤ c.remainlen + (c.item c.tail).objectlen) (notNull : q.item ≠ NULL)
    (fresh : q.item ∉ (evicted c).allocated) :
    (answer r q).1 = none ∧ ∃ nodes' last',
      Linkage (added (evicted c) q.url q.object q.objectlen q.item) (answer r q).2 nodes'
        last' := by
  obtain ⟨none, inserted⟩ := answer_miss (l.absent others)
  obtain ⟨listed, tail, space⟩ := l.whole rfl
  refine ⟨none, ?_⟩
  rcases List.eq_nil_or_concat nodes with rfl | ⟨init, last, rfl⟩
  · rw [tail] at live
    exact absurd live l.notNull
  rw [List.concat_eq_append] at l others listed tail
  rw [List.getLastD_concat] at tail
  have split : r.entries = entries c init ++ [((c.item last).tag, (c.item last).objectlen)] := by
    rw [← listed]
    simp [entries]
  have sizes : totalSize r.entries = totalSize (entries c init) + (c.item last).objectlen := by
    rw [split, totalSize_append, totalSize_cons]
    rfl
  rw [tail] at room
  rw [split, keepRecent_dropLast (by rw [← split]; omega) (by omega)] at inserted
  obtain ⟨m, before, rfl, lastLive, -⟩ := path_append.mp l.path
  have distinct := l.distinct
  rw [List.nodup_append] at distinct
  have apart : ∀ y ∈ init, y ≠ m := fun y member => distinct.2.2 y member m List.mem_cons_self
  have kept : ∀ y ∈ init, y ∈ (evicted c).allocated := fun y member => by
    rw [evicted, tail]
    exact (List.mem_erase_of_ne (apart y member)).mpr (before.live member)
  have new : q.item ∉ init := fun member => fresh (kept q.item member)
  have notEmpty : init ≠ [] := by
    rintro rfl
    have small := (l.sizes _ (split ▸ List.mem_append_right _ List.mem_cons_self)).2
    have request := q.sized.2
    simp only [entries, List.map_nil, totalSize, List.sum_nil] at sizes
    simp only [totalSize] at space
    unfold MAX_OBJECT_SIZE at small request
    unfold MAX_CACHE_SIZE at space
    omega
  have headNe : (evicted c).head ≠ q.item := by
    intro same
    cases init with
    | nil => exact absurd rfl notEmpty
    | cons y rest =>
        have head : c.head = y := before.1
        exact new (same ▸ head ▸ List.mem_cons_self)
  have path : Path (evicted c) (evicted c).head init m := before.congr kept fun _ _ => rfl
  have gone : m ∉ (evicted c).allocated := by
    rw [evicted, tail]
    exact l.once.not_mem_erase
  have listed' := entries_added q.url q.object q.objectlen (rfl : (evicted c).item = c.item) new
  have dangling : m ≠ NULL := fun null => l.notNull (null ▸ lastLive)
  refine ⟨q.item :: init, m, added_unlinked l.unlinked, ?_, ?_, path.behind fresh headNe, ?_, ?_,
    ?_, fun null => absurd null dangling⟩
  · rw [added_allocated]
    simp only [List.mem_cons, not_or]
    exact ⟨notNull.symm, fun member => l.notNull (List.mem_of_mem_erase member)⟩
  · rw [added_allocated]
    exact List.nodup_cons.mpr ⟨fresh, l.once.erase _⟩
  · refine ⟨[], ?_⟩
    rw [List.append_nil, listed', inserted]
    rfl
  · intro e member
    rw [inserted] at member
    rcases List.mem_cons.mp member with rfl | old
    · exact q.sized
    · exact l.sizes e (split ▸ List.mem_append_left _ old)
  · by_cases reused : m = q.item
    · exact .inr (.inl (by rw [reused]; exact List.mem_cons_self))
    · rw [added_allocated]
      simp [reused, gone]

end Miss

/-! ### What a request does -/

section Answers

variable {front back : List Nat} {x : Nat}

/-- Every item that the links lead to is in the list. -/
theorem Linkage.reached (l : Linkage c r nodes last)
    (path : Path c c.head front x) (live : x ∈ c.allocated) : x ∈ nodes := by
  rcases path.stays l.path.closed l.ending l.notNull l.path.start with member | rfl
  · exact member
  · rcases l.ending with rfl | member | dead
    · exact absurd live l.notNull
    · exact member
    · exact absurd live dead

/-- If the links lead to null, the list ends there. -/
theorem Linkage.ends (l : Linkage c r nodes last)
    (path : Path c c.head front NULL) : last = NULL := by
  rcases path.stays l.path.closed l.ending l.notNull l.path.start with member | null
  · exact absurd (l.path.live member) l.notNull
  · exact null.symm

/-- A request is served as by the ideal cache, or not at all. -/
def ServedAlike (c : CacheList) (r : Ideal) (q : Request) : Prop :=
  ((Found c q ∨ Fits c q) ∧ ∃ c' nodes' last',
      serve q c = some ((answer r q).1.getD 0, c') ∧ Linkage c' (answer r q).2 nodes' last') ∨
    (¬ (Found c q ∨ Fits c q) ∧ serve q c = none)

/-- A request whose URL no item of the list has. -/
theorem Linkage.request_missed (l : Linkage c r nodes last)
    (mallocs : ∀ c', makeRoom q.objectlen c = some ((), c') →
      q.item ≠ NULL ∧ q.item ∉ c'.allocated)
    (others : ∀ x ∈ nodes, (c.item x).tag ≠ q.url) : ServedAlike c r q := by
  have unfound : ¬ Found c q := by
    rintro ⟨front, x, path, live, tagged, -⟩
    exact others x (l.reached path live) tagged
  have search := l.search_other others
  by_cases null : last = NULL
  · subst null
    rw [if_pos rfl] at search
    have room := makeRoom_eq (n := q.objectlen) l.unlinked l.notNull
    by_cases inside : CopiesInside q.object q.objectlen
    · by_cases fits : q.objectlen ≤ c.remainlen
      · rw [if_pos fits] at room
        obtain ⟨notNull, fresh⟩ := mallocs c room
        obtain ⟨none, after⟩ := l.miss others fits notNull fresh
        refine .inl ⟨.inr ⟨⟨nodes, l.path, others⟩, .inl fits, inside⟩, _, _, _, ?_, after⟩
        rw [serve_miss search, cacheAdd_eq l.unlinked room notNull fresh inside, none]
        rfl
      rw [if_neg fits] at room
      by_cases evicts : c.tail ∈ c.allocated ∧ q.objectlen ≤ (evicted c).remainlen
      · rw [if_pos evicts] at room
        obtain ⟨notNull, fresh⟩ := mallocs _ room
        obtain ⟨none, nodes', last', after⟩ := l.evict others fits evicts.1 evicts.2 notNull fresh
        refine .inl ⟨.inr ⟨⟨nodes, l.path, others⟩, .inr evicts, inside⟩, _, _, _, ?_, after⟩
        rw [serve_miss search, cacheAdd_eq (by exact l.unlinked) room notNull fresh inside, none]
        rfl
      · rw [if_neg evicts] at room
        refine .inr ⟨?_, ?_⟩
        · rintro (found | ⟨-, fits' | evicts', -⟩)
          · exact unfound found
          · exact fits fits'
          · exact evicts evicts'
        · rw [serve_miss search, cacheAdd, bind_run, room]
          rfl
    · refine .inr ⟨?_, ?_⟩
      · rintro (found | fits)
        · exact unfound found
        · exact inside fits.inside
      · rw [serve_miss search, cacheAdd_overrun inside]
        rfl
  · rw [if_neg null] at search
    refine .inr ⟨?_, serve_stuck search⟩
    rintro (found | ⟨⟨nodes', path, -⟩, -⟩)
    · exact unfound found
    · exact null (l.ends path)

/-- An item in the middle of the list whose next one has been freed cannot be
moved, and the links lead neither to another item with its tag nor to null. -/
theorem Linkage.unserved (l : Linkage c r (front ++ x :: back) last)
    (tagged : (c.item x).tag = q.url) (first : front ≠ [])
    (next : ¬ ((c.item x).next = NULL ∨ (c.item x).next ∈ c.allocated)) :
    ¬ (Found c q ∨ Fits c q) := by
  have inside : x ∈ front ++ x :: back := by simp
  rintro (⟨front', y, path, live, tagged', safe⟩ | ⟨⟨nodes', path, -⟩, -⟩)
  · obtain rfl := List.inj_on_of_nodup_map l.tags (l.reached path live) inside
      (tagged'.trans tagged.symm)
    rcases safe with head | safe
    · have distinct := l.distinct
      rw [List.nodup_middle, List.nodup_cons] at distinct
      cases front with
      | nil => exact first rfl
      | cons z front =>
          rw [head, show c.head = z from l.path.1] at distinct
          exact distinct.1 (by simp)
    · exact next safe
  · have null := l.ends path
    rcases l.path.closed x inside with member | ending
    · exact next (.inr (l.path.live member))
    · exact next (.inl (ending.trans null))

/-- A request whose URL is that of an item of the list. -/
theorem Linkage.request_found (l : Linkage c r (front ++ x :: back) last)
    (tagged : (c.item x).tag = q.url) (others : ∀ y ∈ front, (c.item y).tag ≠ q.url) :
    ServedAlike c r q := by
  have search := l.search_found tagged others
  have live := l.path.live (x := x) (by simp)
  have notNull : x ≠ NULL := fun null => l.notNull (null ▸ live)
  obtain ⟨rest, here, size, -⟩ := l.answer_hit tagged
  have sized := (l.sizes _ (here ▸ List.mem_append_right _ List.mem_cons_self)).1
  have hit := serve_hit search notNull live sized
  by_cases first : front = []
  · subst first
    obtain ⟨moved, after⟩ := l.hit_head tagged
    refine .inl ⟨.inl ⟨[], x, l.path.1, live, tagged, .inl l.path.1.symm⟩, c, _, _, ?_, after⟩
    rw [hit, size, moved]
    rfl
  · obtain ⟨moved, after⟩ := l.hit_other tagged first
    obtain ⟨m, before, same, -⟩ := path_append.mp l.path
    rw [same] at before
    by_cases next : (c.item x).next = NULL ∨ (c.item x).next ∈ c.allocated
    · rw [if_pos next] at moved
      refine .inl ⟨.inl ⟨front, x, before, live, tagged, .inr next⟩, _, _, _, ?_, after⟩
      rw [hit, size, moved]
      rfl
    · rw [if_neg next] at moved
      refine .inr ⟨l.unserved tagged first next, ?_⟩
      rw [hit, moved]
      rfl

theorem Linkage.request (l : Linkage c r nodes last)
    (mallocs : ∀ c', makeRoom q.objectlen c = some ((), c') →
      q.item ≠ NULL ∧ q.item ∉ c'.allocated) : ServedAlike c r q := by
  rcases first_tagged c nodes q.url with others | ⟨front, x, back, rfl, tagged, others⟩
  · exact l.request_missed mallocs others
  · exact l.request_found tagged others

end Answers

end Linkage

/-! ## The exact condition -/

/-- The invariant of the runs whose requests are all served. -/
structure Alike (s : Compared) : Prop where
  agrees : Agrees s
  linkage : ∃ c nodes last, s.code = some c ∧ Linkage c s.ideal nodes last

theorem Alike.request {s t : Compared} {q : Request} (alike : Alike s)
    (step : compared.step s q t) : (Served s q ∧ Alike t) ∨ (¬ Served s q ∧ ¬ Agrees t) := by
  obtain ⟨-, c, nodes, last, code, linkage⟩ := alike
  obtain ⟨mallocs, rfl⟩ := step
  have fresh : ∀ c', makeRoom q.objectlen c = some ((), c') →
      q.item ≠ NULL ∧ q.item ∉ c'.allocated := fun c' room => mallocs c code _ room
  have served : Served s q ↔ Found c q ∨ Fits c q := by
    constructor
    · exact fun served => served c code
    · intro served c' code'
      rw [code] at code'
      cases code'
      exact served
  rcases linkage.request fresh with ⟨here, c', nodes', last', result, after⟩ | ⟨not, result⟩
  · left
    refine ⟨served.mpr here, ?_, c', nodes', last', ?_, after⟩
    · simp [Agrees, compare, code, result]
    · simp [compare, code, result]
  · right
    refine ⟨fun here => not (served.mp here), ?_⟩
    simp [Agrees, compare, code, result]

/-- In a run of requests the cache returns what the ideal cache returns exactly
when every request either finds its item through the links from `head` or is
added to a list that still ends in null, with at most one eviction and a copy
that stays inside. -/
theorem agrees_iff {past : List (Compared × Request)} {s : Compared}
    (run : compared.Run past s) : Throughout Agrees past s ↔ AllSteps Served past := by
  refine run.exact (I := Alike) ?_ (fun _ alike => alike.agrees) ?_ ?_
  · rintro s rfl
    refine ⟨rfl, cacheInit, [], NULL, rfl, fun _ => rfl, ?_, ?_, rfl, ?_, ?_, .inl rfl, ?_⟩
    · simp [cacheInit]
    · exact List.nodup_nil
    · exact List.prefix_rfl
    · exact fun _ member => nomatch member
    · exact fun _ => ⟨rfl, rfl, rfl⟩
  · intro s q t alike served step
    exact (alike.request step).elim And.right fun not => absurd served not.1
  · intro s q t alike against step
    exact (alike.request step).elim (fun yes => absurd yes.1 against) And.right

/-- A request of the URL `[k]`, whose object is one byte long. -/
def smallRequest (k : UInt8) (item : Nat) : Request := ⟨[k], [120, 0], 1, item, by decide⟩

/-- Two objects are added, the first one hits, and a third URL is looked up. -/
def knottedRequests : List Request :=
  [smallRequest 97 1, smallRequest 98 2, smallRequest 97 3, smallRequest 99 4]

/-- A request for which `Malloc` finds an unused address. -/
def request (s : Compared) (q : Request) : Option Compared :=
  if Mallocs s q then some (compare s q) else none

theorem step_of_request {s t : Compared} {q : Request} (taken : request s q = some t) :
    compared.step s q t := by
  unfold request at taken
  split at taken
  · rename_i mallocs
    exact ⟨mallocs, Option.some.inj taken⟩
  · cases taken

/-- Two objects are added, and the second one hits. -/
def servedRequests : List Request := [smallRequest 97 1, smallRequest 98 2, smallRequest 98 3]

theorem agrees_iff_servedRequests :
    Throughout Agrees (record request [] bothEmpty servedRequests).1
        (record request [] bothEmpty servedRequests).2 ↔
      AllSteps Served (record request [] bothEmpty servedRequests).1 :=
  agrees_iff (Run.of_record (.start rfl) (fun _ _ _ taken => step_of_request taken) _)

/-- The last lookup never ends. -/
theorem cache_not_lru : ¬ ∀ past s, compared.Run past s → Agrees s := by
  intro claimed
  have run : compared.Run _ _ := Run.of_record (.start rfl : compared.Run [] bothEmpty)
    (fun _ _ _ taken => step_of_request taken) knottedRequests
  have agrees := claimed _ _ run
  unfold Agrees at agrees
  exact absurd agrees (by decide +kernel)

end SysProg.Proxy

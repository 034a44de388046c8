import SysProg.Proxy.Duplicates

/-!
# What a lookup returns of what was stored

`cache_add` copies the object as a string and `cache_lookup` copies it back by
its length.  The copy ends at the first zero byte of the caller's buffer, so
that the bytes behind it are lost, and it leaves the buffer when there is none.
An item that the links still reach is the one that a lookup finds first.
-/

namespace SysProg.Proxy

open Logic Machine

/-! ## The copy -/

/-- The caller's buffer: the data, and zeros up to its end. -/
def objectBuffer (data : List UInt8) : List UInt8 :=
  data ++ List.replicate (MAX_OBJECT_SIZE - data.length) 0

section Copy

variable {data : List UInt8}

/-- The copy of a buffer stays inside exactly when the buffer has a zero byte. -/
theorem copiesInside_iff (small : data.length ≤ MAX_OBJECT_SIZE) :
    CopiesInside (objectBuffer data) data.length ↔ 0 ∈ data ∨ data.length < MAX_OBJECT_SIZE := by
  rw [CopiesInside, objectBuffer, List.take_append, List.take_of_length_le (Nat.le_succ _),
    List.mem_append, Nat.add_sub_cancel_left, List.take_replicate, List.mem_replicate,
    and_iff_left rfl]
  refine or_congr_right ?_
  omega

/-- A copy over fresh bytes leaves those behind the zero byte unknown. -/
theorem stringOver_fresh {src front : List UInt8} (string : src.takeWhile (· ≠ 0) = front) (n : Nat) :
    stringOver (List.replicate (n + 1) none) src =
      (front ++ [0]).map some ++ List.replicate (n - front.length) none := by
  simp only [stringOver, string, List.drop_replicate, List.length_append, List.length_singleton,
    Nat.add_sub_add_right]

/-- The stored bytes are the data exactly when no byte before the last is zero. -/
theorem stored_eq_iff :
    (stringOver (List.replicate (data.length + 1) none) (objectBuffer data)).take data.length =
      data.map some ↔ 0 ∉ data.dropLast := by
  have nonzero : ∀ {front : List UInt8}, 0 ∉ front → ∀ byte ∈ front, decide (byte ≠ 0) = true := by
    intro front absent byte member
    have other : byte ≠ 0 := fun same => absent (same ▸ member)
    simpa using other
  by_cases zero : 0 ∈ data
  · obtain ⟨front, back, rfl, first⟩ := List.eq_append_cons_of_mem zero
    have string : (objectBuffer (front ++ 0 :: back)).takeWhile (· ≠ 0) = front := by
      rw [objectBuffer, List.append_assoc, List.takeWhile_append_of_pos (nonzero first)]
      simp
    have stored : (stringOver (List.replicate ((front ++ 0 :: back).length + 1) none)
        (objectBuffer (front ++ 0 :: back))).take (front ++ 0 :: back).length =
          (front ++ [0]).map some ++ List.replicate back.length none := by
      have total : (front ++ 0 :: back).length =
          ((front ++ [0]).map (some : UInt8 → Option UInt8)).length + back.length := by
        simp only [List.length_append, List.length_cons, List.length_map, List.length_nil]
        omega
      rw [stringOver_fresh string, total, List.take_length_add_append, List.take_replicate]
      congr 2
      simp only [List.length_append, List.length_cons, List.length_map, List.length_nil]
      omega
    rw [stored]
    cases back with
    | nil => simpa using first
    | cons byte back =>
        refine iff_of_false ?_ ?_
        · simp [List.replicate_succ]
        · intro none
          exact none (by simp)
  · have string : (objectBuffer data).takeWhile (· ≠ 0) = data := by
      rw [objectBuffer, List.takeWhile_append_of_pos (nonzero zero)]
      simp
    have absent : 0 ∉ data.dropLast := fun member => zero (List.dropLast_subset _ member)
    refine iff_of_true ?_ absent
    rw [stringOver_fresh string, List.map_append, List.append_assoc, List.take_left' (by simp)]

end Copy

/-! ## Histories -/

/-- All sequential histories of the cache, as far as the calls come to an end. -/
def storing : Machine CacheList Call where
  init c := c = cacheInit
  step c e c' := e.Small ∧ call c e = some c'

/-- The cache has gone on from `c` without an eviction of the item `x` and
without another add of its URL.  An add may free an item and get its address
again. -/
inductive Since (url : List UInt8) (x : Nat) (c : CacheList) : CacheList → Prop where
  | start : Since url x c c
  | lookup {c1 c2 : CacheList} {url' : List UInt8} (since : Since url x c c1)
      (taken : storing.step c1 (.lookup url') c2) : Since url x c c2
  | add {c1 c2 : CacheList} {url' object : List UInt8} {objectlen item : Nat}
      (since : Since url x c c1) (taken : storing.step c1 (.add url' object objectlen item) c2)
      (otherUrl : url' ≠ url) (kept : x ∈ c2.allocated) (notReused : item ≠ x) : Since url x c c2

/-- A lookup of the URL returns the length of the data and copies the data to the
caller's buffer. -/
def LoadsBack (url data : List UInt8) (c : CacheList) : Prop :=
  ∃ c', cacheLookup url c = some ((data.length, data.map some), c')

/-- The data are stored: the add comes to its end, so that its copy has left neither
the caller's buffer nor the bytes allocated for it. -/
def StoredInside (before : CacheList) (url data : List UInt8) (x : Nat) : Prop :=
  ∃ added, call before (.add url (objectBuffer data) data.length x) = some added

/-- The links lead from `head` to the item; unless it is the head, its own `next`
does not lead to a freed item. -/
def Reaches (c : CacheList) (url : List UInt8) (x : Nat) : Prop :=
  (∃ front, Path c c.head front x ∧ ∀ y ∈ front, (c.item y).tag ≠ url) ∧
    (x = c.head ∨ (c.item x).next = NULL ∨ (c.item x).next ∈ c.allocated)

section Paths

variable {c : CacheList} {url : List UInt8} {p x : Nat} {front : List Nat}

/-- An item other than the head is moved exactly when its `next` can be
followed. -/
theorem moveToHead_ends_iff (unlinked : NoBack c) (live : x ∈ c.allocated)
    (some_head : c.head ≠ NULL) :
    (∃ moved, moveToHead x c = some moved) ↔
      x = c.head ∨ (c.item x).next = NULL ∨ (c.item x).next ∈ c.allocated := by
  rw [moveToHead_eq unlinked live, if_neg some_head]
  by_cases first : c.head = x
  · rw [if_pos first]
    exact iff_of_true ⟨_, rfl⟩ (.inl first.symm)
  · rw [if_neg first, or_iff_right (Ne.symm first)]
    by_cases next : (c.item x).next = NULL ∨ (c.item x).next ∈ c.allocated
    · rw [if_pos next]
      exact iff_of_true ⟨_, rfl⟩ next
    · rw [if_neg next]
      exact iff_of_false (by simp) next

/-- A search that finds an item has passed only items with other tags. -/
theorem searchFrom_found {fuel : Nat} {result : Nat × CacheList}
    (ends : searchFrom url fuel p c = some result) (notNull : result.1 ≠ NULL) :
    (∃ front, Path c p front result.1 ∧ ∀ y ∈ front, (c.item y).tag ≠ url) ∧
      result.1 ∈ c.allocated ∧ (c.item result.1).tag = url := by
  induction fuel generalizing p with
  | zero => cases ends
  | succ fuel ih =>
      rw [searchFrom_succ] at ends
      split at ends
      · cases ends
        exact absurd rfl notNull
      · split at ends
        · rename_i live
          split at ends
          · rename_i tagged
            cases ends
            exact ⟨⟨[], rfl, fun _ member => nomatch member⟩, live, tagged⟩
          · rename_i other
            obtain ⟨⟨front, path, others⟩, inUse, tagged⟩ := ih ends
            refine ⟨⟨p :: front, ⟨rfl, live, path⟩, ?_⟩, inUse, tagged⟩
            intro y member
            rcases List.mem_cons.mp member with rfl | later
            · exact other
            · exact others y later
        · cases ends

/-- A lookup finds nothing and changes nothing, or it finds an item and moves
it. -/
theorem Complete.lookup_cases (complete : Complete c)
    {result : (Nat × List (Option UInt8)) × CacheList} (looked : cacheLookup url c = some result) :
    result = ((0, []), c) ∨ ∃ r moved, r ≠ NULL ∧ search url c = some (r, c) ∧ c.head ≠ NULL ∧
      Proxy.moveToHead r c = some moved ∧ result.2 = moved.2 := by
  cases ends : search url c with
  | none =>
      rw [cacheLookup_stuck ends] at looked
      cases looked
  | some found =>
      obtain ⟨same, headNe, -⟩ := search_result complete ends
      obtain ⟨r, c'⟩ := found
      obtain rfl : c' = c := same
      by_cases null : r = NULL
      · subst null
        rw [cacheLookup_missed ends] at looked
        cases looked
        exact .inl rfl
      · obtain ⟨-, live, -⟩ := searchFrom_found ends null
        rw [cacheLookup_found ends null live] at looked
        obtain ⟨moved, move, rfl⟩ := Option.map_eq_some_iff.mp looked
        exact .inr ⟨r, moved, null, rfl, headNe null, move, rfl⟩

/-- A path without its loops. -/
theorem Path.simple (path : Path c p front x) :
    ∃ simple, simple.Nodup ∧ (∀ y ∈ simple, y ∈ front) ∧ Path c p simple x := by
  induction front generalizing p with
  | nil => exact ⟨[], List.nodup_nil, fun _ member => (nomatch member), path⟩
  | cons y front ih =>
      obtain ⟨rfl, live, path⟩ := path
      obtain ⟨simple, distinct, inside, path⟩ := ih path
      by_cases again : p ∈ simple
      · obtain ⟨before, after, split, absent, rest⟩ := Complete.after_last path again
        refine ⟨p :: after, ?_, ?_, rfl, live, rest⟩
        · rw [split] at distinct
          exact List.Nodup.of_append_right distinct
        · intro z member
          rcases List.mem_cons.mp member with rfl | later
          · exact List.mem_cons_self
          · exact List.mem_cons_of_mem _ (inside z (by rw [split]; simp [later]))
      · refine ⟨p :: simple, List.nodup_cons.mpr ⟨again, distinct⟩, ?_, rfl, live, path⟩
        intro z member
        rcases List.mem_cons.mp member with rfl | later
        · exact List.mem_cons_self
        · exact List.mem_cons_of_mem _ (inside z later)

/-- An item that the links reach past other tags is found. -/
theorem search_reached (notNull : NULL ∉ c.allocated) (path : Path c c.head front x)
    (others : ∀ y ∈ front, (c.item y).tag ≠ url) (live : x ∈ c.allocated)
    (tagged : (c.item x).tag = url) : search url c = some (x, c) := by
  obtain ⟨simple, distinct, inside, path⟩ := path.simple
  have fewer : simple.length ≤ c.allocated.length :=
    (List.subperm_of_subset distinct fun _ member => path.live member).length_le
  have apart : x ≠ NULL := by
    rintro rfl
    exact notNull live
  have enough : c.allocated.length + 1 =
      simple.length + (c.allocated.length - simple.length + 1) := by omega
  unfold search
  rw [enough, searchFrom_path notNull path (fun y member => others y (inside y member)),
    searchFrom_succ, if_neg apart, if_pos live, if_pos tagged]

end Paths

/-! ## The entry -/

/-- The item `x` holds the copy of the data, and the links reach no other item of
the URL before it. -/
structure Stored (url data : List UInt8) (x : Nat) (c : CacheList) : Prop where
  complete : Complete c
  live : x ∈ c.allocated
  tag : (c.item x).tag = url
  objectlen : (c.item x).objectlen = data.length
  object : (c.item x).object =
    stringOver (List.replicate (data.length + 1) none) (objectBuffer data)
  first : ∀ front y, Path c c.head front y → y ∈ c.allocated → (c.item y).tag = url →
    (∀ z ∈ front, (c.item z).tag ≠ url) → y = x

namespace Stored

variable {c c' : CacheList} {url url' data object : List UInt8} {x w objectlen : Nat}

/-- No other item of the URL comes before the head. -/
theorem first_of_head (head : c.head = x) (tag : (c.item x).tag = url) {front : List Nat} {y : Nat}
    (path : Path c c.head front y) (others : ∀ z ∈ front, (c.item z).tag ≠ url) : y = x := by
  cases front with
  | nil => exact (show c.head = y from path).symm.trans head
  | cons z front =>
      have here : c.head = z := path.1
      exact absurd tag (others x (by rw [← head, here]; exact List.mem_cons_self))

/-- The item that `cache_add` puts in front. -/
theorem of_added (complete : Complete c) {result : Unit × CacheList}
    (grown : cacheAdd url (objectBuffer data) data.length x c = some result) :
    Stored url data x result.2 := by
  obtain ⟨complete', head, notNull, tag, -⟩ := complete.cacheAdd grown
  obtain ⟨c', -, -, -, after⟩ := cacheAdd_some complete.unlinked complete.notNull grown
  obtain ⟨-, -, objectlen, -⟩ := added_item c' x url (objectBuffer data) data.length
  refine ⟨complete', ?_, tag, ?_, ?_, fun front y path _ _ others => ?_⟩
  · rw [after, added_allocated]
    exact List.mem_cons_self
  · rw [after]
    exact objectlen
  · rw [after]
    exact added_object c' x url (objectBuffer data) data.length
  · exact first_of_head head tag path others

/-- Another item in front changes nothing for the entry. -/
theorem behind (stored : Stored url data x c) (complete : Complete c') (head : c'.head = w)
    (next : (c'.item w).next = c.head) (tag : (c'.item w).tag ≠ url) (differ : w ≠ x)
    (others : ∀ y, y ≠ w → c'.item y = c.item y)
    (fewer : ∀ y ∈ c'.allocated, y = w ∨ y ∈ c.allocated) (live : x ∈ c'.allocated) :
    Stored url data x c' := by
  have same : c'.item x = c.item x := others x differ.symm
  refine ⟨complete, live, same ▸ stored.tag, same ▸ stored.objectlen, same ▸ stored.object, ?_⟩
  intro front y path inUse tagged passed
  have apart : y ≠ w := fun same => tag (same ▸ tagged)
  have inside : w ∈ front := by
    cases front with
    | nil => exact absurd ((show c'.head = y from path).symm.trans head) apart
    | cons z front =>
        have here : c'.head = z := path.1
        rw [← here, head]
        exact List.mem_cons_self
  -- behind the last visit of the new head the path is one of the old list
  obtain ⟨before, after, rfl, absent, rest⟩ := Complete.after_last path inside
  rw [next] at rest
  have notW : ∀ z ∈ after, z ≠ w := fun z member same => absent (same ▸ member)
  have old : Path c c.head after y := by
    refine rest.congr (fun z member => ?_) fun z member => ?_
    · exact (fewer z (rest.live member)).resolve_left (notW z member)
    · rw [others z (notW z member)]
  refine stored.first after y old ((fewer y inUse).resolve_left apart) ?_ ?_
  · rw [← others y apart]
    exact tagged
  · intro z member
    rw [← others z (notW z member)]
    exact passed z (by simp [member])

/-- A lookup keeps the entry. -/
theorem lookup (stored : Stored url data x c) {result : (Nat × List (Option UInt8)) × CacheList}
    (looked : cacheLookup url' c = some result) : Stored url data x result.2 := by
  rcases stored.complete.lookup_cases looked with
    rfl | ⟨r, moved, notNull, found, headNe, move, same⟩
  · exact stored
  · obtain ⟨⟨front, path, others⟩, live, tagged⟩ := searchFrom_found found notNull
    rcases stored.complete.moveToHead headNe move with still | ⟨-, notHead, pushed⟩
    · rw [same, still]
      exact stored
    · rw [same, pushed]
      have complete := stored.complete.pushFront live notHead
      by_cases own : r = x
      · subst own
        have tag : ((pushFront c r).item r).tag = url := by simpa [pushFront] using stored.tag
        refine ⟨complete, stored.live, tag, ?_, ?_, fun front y path _ _ others => ?_⟩
        · simpa [pushFront] using stored.objectlen
        · simpa [pushFront] using stored.object
        · exact first_of_head rfl tag path others
      · have other : (c.item r).tag ≠ url := by
          intro same
          refine own (stored.first front r path live same fun z member => ?_)
          rw [← same, tagged]
          exact others z member
        refine stored.behind complete rfl (by simp [pushFront]) (by simpa [pushFront] using other)
          own (fun y apart => ?_) (fun y member => .inr member) stored.live
        exact Function.update_of_ne apart _ _

/-- An add of another URL that does not evict the entry keeps it. -/
theorem add (stored : Stored url data x c) {result : Unit × CacheList}
    (grown : cacheAdd url' object objectlen w c = some result) (otherUrl : url' ≠ url)
    (kept : x ∈ result.2.allocated) (differ : w ≠ x) : Stored url data x result.2 := by
  obtain ⟨complete, head, notNull, tag, -⟩ := stored.complete.cacheAdd grown
  have behind_ : ∀ c', Complete c' → c'.item = c.item → c'.head = c.head →
      (∀ y ∈ c'.allocated, y ∈ c.allocated) → w ∉ c'.allocated →
      result.2 = Proxy.added c' url' object objectlen w → Stored url data x result.2 := by
    intro c' complete' items heads fewer fresh after
    rw [after, added_allocated] at kept
    have inUse := (List.mem_cons.mp kept).resolve_left differ.symm
    have headNe : c'.head ≠ w := by
      rcases complete'.head with live | none
      · exact fun same => fresh (same ▸ live)
      · rw [none] at inUse
        cases inUse
    have others := (added_item c' w url' object objectlen).1
    refine stored.behind complete head ?_ (by rw [tag]; exact otherUrl) differ ?_ ?_ ?_
    · rw [after, added_next headNe, heads]
    · intro y apart
      rw [after, others y apart, items]
    · intro y member
      rw [after, added_allocated] at member
      exact (List.mem_cons.mp member).imp_right (fewer y)
    · rw [after, added_allocated]
      exact kept
  obtain ⟨c', left, -, fresh, after⟩ :=
    cacheAdd_some stored.complete.unlinked stored.complete.notNull grown
  rcases left with rfl | ⟨live, rfl⟩
  · exact behind_ _ stored.complete rfl rfl (fun _ => id) fresh after
  · exact behind_ _ (stored.complete.evicted live) rfl rfl (fun _ => List.mem_of_mem_erase) fresh after

/-- The entry is kept while it is not evicted and its URL not added again. -/
theorem since (stored : Stored url data x c) (since : Since url x c c') : Stored url data x c' := by
  induction since with
  | start => exact stored
  | lookup _ taken ih =>
      obtain ⟨result, looked, rfl⟩ := Option.map_eq_some_iff.mp taken.2
      exact ih.lookup looked
  | add _ taken otherUrl kept notReused ih =>
      obtain ⟨result, grown, rfl⟩ := Option.map_eq_some_iff.mp taken.2
      exact ih.add grown otherUrl kept notReused

/-- A lookup that returns bytes has found the entry. -/
theorem search_of_lookup (stored : Stored url data x c) {n : Nat} {bytes : List (Option UInt8)}
    (positive : 0 < n) (looked : cacheLookup url c = some ((n, bytes), c')) :
    search url c = some (x, c) := by
  rcases stored.complete.lookup_cases looked with missed | ⟨r, moved, notNull, found, -, -, -⟩
  · cases missed
    cases positive
  · obtain ⟨⟨front, path, others⟩, live, tagged⟩ := searchFrom_found found notNull
    obtain rfl : r = x := stored.first front r path live tagged others
    exact found

/-- A lookup returns the data exactly when they were copied whole and the links
reach the entry. -/
theorem loadsBack_iff (stored : Stored url data x c) (some_bytes : 0 < data.length) :
    LoadsBack url data c ↔ 0 ∉ data.dropLast ∧ Reaches c url x := by
  have notNull : x ≠ NULL := by
    rintro rfl
    exact stored.complete.notNull stored.live
  have bytes : (stringOver (List.replicate (data.length + 1) none)
      (objectBuffer data)).take data.length = data.map some ↔ 0 ∉ data.dropLast := stored_eq_iff
  rw [← stored.object, ← stored.objectlen] at bytes
  have moves := moveToHead_ends_iff stored.complete.unlinked stored.live
  constructor
  · rintro ⟨c', looked⟩
    have found := stored.search_of_lookup some_bytes looked
    obtain ⟨-, headNe, -⟩ := search_result stored.complete found
    rw [cacheLookup_found found notNull stored.live] at looked
    obtain ⟨moved, move, same⟩ := Option.map_eq_some_iff.mp looked
    simp only [Prod.mk.injEq] at same
    exact ⟨bytes.mp same.1.2, (searchFrom_found found notNull).1,
      (moves (headNe notNull)).mp ⟨moved, move⟩⟩
  · rintro ⟨whole, ⟨front, path, others⟩, next⟩
    have found := search_reached stored.complete.notNull path others stored.live stored.tag
    obtain ⟨-, headNe, -⟩ := search_result stored.complete found
    obtain ⟨moved, move⟩ := (moves (headNe notNull)).mpr next
    refine ⟨moved.2, ?_⟩
    rw [cacheLookup_found found notNull stored.live, move, Option.map_some, bytes.mpr whole,
      stored.objectlen]

end Stored

/-! ## The condition -/

/-- A lookup keeps a complete list. -/
theorem Complete.cacheLookup {c : CacheList} {url : List UInt8}
    {result : (Nat × List (Option UInt8)) × CacheList} (complete : Complete c)
    (looked : cacheLookup url c = some result) : Complete result.2 := by
  rcases complete.lookup_cases looked with rfl | ⟨r, moved, notNull, found, headNe, move, same⟩
  · exact complete
  · obtain ⟨-, live, -⟩ := searchFrom_found found notNull
    rcases complete.moveToHead headNe move with still | ⟨-, notHead, pushed⟩
    · rw [same, still]
      exact complete
    · rw [same, pushed]
      exact complete.pushFront live notHead

/-- Every reachable cache holds all items while its list ends in null. -/
theorem storing_complete {c : CacheList} (reached : storing.Reachable c) : Complete c := by
  refine reached.invariant ?_ ?_
  · rintro c rfl
    exact complete_init
  · rintro c e c' - complete ⟨-, taken⟩
    cases e with
    | add url object objectlen x =>
        obtain ⟨result, grown, rfl⟩ := Option.map_eq_some_iff.mp taken
        exact (complete.cacheAdd grown).1
    | lookup url =>
        obtain ⟨result, looked, rfl⟩ := Option.map_eq_some_iff.mp taken
        exact complete.cacheLookup looked

/-- With room and an answer of `Malloc` the data are stored when the copy stays
inside. -/
theorem storedInside_iff {before roomy : CacheList} {url data : List UInt8} {x : Nat}
    (complete : Complete before) (room : makeRoom data.length before = some ((), roomy))
    (notNull : x ≠ NULL) (fresh : x ∉ roomy.allocated) :
    StoredInside before url data x ↔ CopiesInside (objectBuffer data) data.length := by
  constructor
  · rintro ⟨added, taken⟩
    obtain ⟨result, grown, -⟩ := Option.map_eq_some_iff.mp taken
    by_contra outside
    rw [cacheAdd_overrun outside] at grown
    cases grown
  · intro inside
    have unlinked := (makeRoom_base complete.unlinked complete.notNull room).1
    refine ⟨added roomy url (objectBuffer data) data.length x, ?_⟩
    rw [call, cacheAdd_eq unlinked room notNull fresh inside]
    rfl

/-- After every history in which there is room for data, the entry is not evicted
and no other one of its URL is added: the data are stored and a lookup returns
them exactly when no byte before the last is zero, the buffer has a zero byte at
all, and the links reach the entry. -/
theorem roundTrip_iff {before roomy after : CacheList} {url data : List UInt8} {x : Nat}
    (history : storing.Reachable before) (some_bytes : 0 < data.length)
    (small : data.length ≤ MAX_OBJECT_SIZE)
    (room : makeRoom data.length before = some ((), roomy)) (notNull : x ≠ NULL)
    (fresh : x ∉ roomy.allocated)
    (since : ∀ added, call before (.add url (objectBuffer data) data.length x) = some added →
      Since url x added after) :
    (StoredInside before url data x ∧ LoadsBack url data after) ↔
      0 ∉ data.dropLast ∧ (0 ∈ data ∨ data.length < MAX_OBJECT_SIZE) ∧ Reaches after url x := by
  have complete := storing_complete history
  rw [storedInside_iff complete room notNull fresh, copiesInside_iff small]
  have loads : CopiesInside (objectBuffer data) data.length →
      (LoadsBack url data after ↔ 0 ∉ data.dropLast ∧ Reaches after url x) := by
    intro inside
    have stored : StoredInside before url data x :=
      (storedInside_iff complete room notNull fresh).mpr inside
    obtain ⟨added, taken⟩ := stored
    obtain ⟨result, grown, rfl⟩ := Option.map_eq_some_iff.mp taken
    exact ((Stored.of_added complete grown).since (since _ taken)).loadsBack_iff some_bytes
  constructor
  · rintro ⟨inside, back⟩
    obtain ⟨whole, reaches⟩ := (loads ((copiesInside_iff small).mpr inside)).mp back
    exact ⟨whole, inside, reaches⟩
  · rintro ⟨whole, inside, reaches⟩
    exact ⟨inside, (loads ((copiesInside_iff small).mpr inside)).mpr ⟨whole, reaches⟩⟩

/-- The byte `x`. -/
def oneByte : List UInt8 := [120]

/-- One byte, looked up right after it was added. -/
theorem roundTrip_oneByte : ∃ after,
    call cacheInit (.add [97] (objectBuffer oneByte) oneByte.length 1) = some after ∧
      ((StoredInside cacheInit [97] oneByte 1 ∧ LoadsBack [97] oneByte after) ↔
        0 ∉ oneByte.dropLast ∧ (0 ∈ oneByte ∨ oneByte.length < MAX_OBJECT_SIZE) ∧
          Reaches after [97] 1) := by
  have inside : CopiesInside (objectBuffer oneByte) oneByte.length :=
    (copiesInside_iff (by decide)).mpr (.inr (by decide))
  have stored : StoredInside cacheInit [97] oneByte 1 :=
    (storedInside_iff complete_init rfl (by decide) List.not_mem_nil).mpr inside
  obtain ⟨after, taken⟩ := stored
  refine ⟨after, taken, roundTrip_iff (.start rfl) (by decide) (by decide) rfl (by decide)
    List.not_mem_nil ?_⟩
  intro added same
  cases taken.symm.trans same
  exact .start

/-- Of two bytes of which the first is zero only that one comes back. -/
theorem zeroByte_lost : ¬ ∀ (before roomy after : CacheList) (url data : List UInt8) (x : Nat),
    storing.Reachable before → 0 < data.length → data.length ≤ MAX_OBJECT_SIZE →
      makeRoom data.length before = some ((), roomy) → x ≠ NULL → x ∉ roomy.allocated →
        (∀ added, call before (.add url (objectBuffer data) data.length x) = some added →
          Since url x added after) →
            StoredInside before url data x ∧ LoadsBack url data after := by
  intro claimed
  have inside : CopiesInside (objectBuffer [0, 1]) 2 :=
    (copiesInside_iff (by decide)).mpr (.inl (by decide))
  have stored : StoredInside cacheInit [97] [0, 1] 1 :=
    (storedInside_iff complete_init rfl (by decide) List.not_mem_nil).mpr inside
  obtain ⟨after, taken⟩ := stored
  obtain ⟨-, c', looked⟩ := claimed cacheInit cacheInit after [97] [0, 1] 1 (.start rfl) (by decide)
    (by decide) rfl (by decide) List.not_mem_nil fun added same => by
      cases taken.symm.trans same
      exact .start
  cases taken
  cases looked

end SysProg.Proxy

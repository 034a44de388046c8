import SysProg.Logic.Runs
import SysProg.Proxy.Cache

/-!
# Proxy threads between the sections of the cache

The threads of `run_thread` interleave the sections that hold the lock: the
search of `cache_lookup`, its `move_to_head`, and `cache_add`.  The list itself
is taken to be kept properly, most recently used item first; an item is named
by the number of the add that made it.
-/

namespace SysProg.Proxy

open Logic Machine

/-- An item of the list. -/
structure Entry where
  id : Nat
  tag : List UInt8
  objectlen : Nat
  deriving DecidableEq

/-- Where a thread is between two sections. -/
inductive Thread where
  | idle
  | found (item : Nat) (url : List UInt8) (len : Nat)
  | missed (url : List UInt8)
  deriving DecidableEq

/-- The cache and the threads. -/
structure Server where
  items : List Entry
  adds : Nat
  thread : Nat → Thread

/-- A section of a thread, or the end of a request whose response is not cached. -/
inductive Section where
  | search (t : Nat) (url : List UInt8)
  | moveToHead (t : Nat)
  | add (t objectlen : Nat)
  | leave (t : Nat)

/-- The bytes that the items occupy. -/
def used (items : List Entry) : Nat := (items.map Entry.objectlen).sum

/-- The field `remainlen` of the list. -/
def remaining (items : List Entry) : Nat := MAX_CACHE_SIZE - used items

/-- The eviction loop over the items, least recently used first. -/
def evictOldest (objectlen : Nat) : List Entry → List Entry
  | [] => []
  | e :: rest =>
      if remaining (e :: rest) < objectlen then evictOldest objectlen rest else e :: rest

/-- The items that the eviction loop of `cache_add` leaves. -/
def keptItems (objectlen : Nat) (items : List Entry) : List Entry :=
  (evictOldest objectlen items.reverse).reverse

/-- A section, carried out by its thread; following the pointer to an item
that has been freed has no defined continuation. -/
def perform (s : Server) : Section → Option Server
  | .search t url =>
      match s.thread t with
      | .idle =>
          match s.items.find? fun e => e.tag = url with
          | none => some { s with thread := Function.update s.thread t (.missed url) }
          | some e =>
              some { s with thread := Function.update s.thread t (.found e.id url e.objectlen) }
      | _ => none
  | .moveToHead t =>
      match s.thread t with
      | .found item url len =>
          match s.items.find? fun e => e.id = item with
          | none => none
          | some e =>
              some { s with
                items := e :: s.items.erase e
                thread := Function.update s.thread t (if len = 0 then .missed url else .idle) }
      | _ => none
  | .add t objectlen =>
      match s.thread t with
      | .missed url =>
          if objectlen ≤ MAX_OBJECT_SIZE then
            some
              { items := ⟨s.adds, url, objectlen⟩ :: keptItems objectlen s.items
                adds := s.adds + 1
                thread := Function.update s.thread t .idle }
          else none
      | _ => none
  | .leave t =>
      match s.thread t with
      | .missed _ => some { s with thread := Function.update s.thread t .idle }
      | _ => none

/-- The empty cache with all threads idle. -/
def idleServer : Server := ⟨[], 0, fun _ => .idle⟩

/-- All interleavings of the sections of any number of threads. -/
def interleaved : Machine Server Section where
  init s := s = idleServer
  step s e s' := perform s e = some s'

/-- The thread `t` is about to move the item `item`. -/
def Holds (s : Server) (t item : Nat) : Prop := ∃ url len, s.thread t = .found item url len

/-- Every item that a thread is about to move is a member of the list. -/
def NoneFreed (s : Server) : Prop := ∀ t item, Holds s t item → item ∈ s.items.map Entry.id

/-- Behind every item that a thread is about to move there are enough bytes: what
remains and what the less recently used items occupy make room for the object. -/
def RoomBehindHeld (s : Server) : Section → Prop
  | .add _ objectlen => ∀ front e back, s.items = front ++ e :: back → (∃ t, Holds s t e.id) →
      objectlen ≤ remaining s.items + used back
  | _ => True

/-! ## The eviction loop -/

section Eviction

variable {objectlen : Nat} {items front back : List Entry} {e : Entry}

@[simp] theorem used_cons (e : Entry) (items : List Entry) :
    used (e :: items) = e.objectlen + used items := rfl

@[simp] theorem used_append (front back : List Entry) :
    used (front ++ back) = used front + used back := by
  simp [used]

theorem used_perm {items' : List Entry} (perm : items.Perm items') : used items = used items' :=
  (perm.map Entry.objectlen).sum_nat

@[simp] theorem used_reverse (items : List Entry) : used items.reverse = used items :=
  used_perm (List.reverse_perm items)

theorem used_suffix {items' : List Entry} (suffix : items' <:+ items) :
    used items' ≤ used items := by
  obtain ⟨front, rfl⟩ := suffix
  rw [used_append]
  exact Nat.le_add_left ..

theorem evictOldest_suffix (objectlen : Nat) (items : List Entry) :
    evictOldest objectlen items <:+ items := by
  induction items with
  | nil => exact List.suffix_refl _
  | cons e rest ih =>
      unfold evictOldest
      split
      · exact ih.trans (List.suffix_cons e rest)
      · exact List.suffix_refl _

/-- The kept items are the most recently used ones. -/
theorem keptItems_front (objectlen : Nat) (items : List Entry) :
    keptItems objectlen items <+: items := by
  have suffix := evictOldest_suffix objectlen items.reverse
  rw [← List.reverse_prefix, List.reverse_reverse] at suffix
  exact suffix

/-- The loop stops in front of an item with which there is room. -/
theorem evictOldest_keeps (room : objectlen ≤ remaining (e :: front)) :
    e :: front <:+ evictOldest objectlen (back ++ e :: front) := by
  induction back with
  | nil =>
      have all : evictOldest objectlen (e :: front) = e :: front := if_neg (by omega)
      exact ⟨[], all.symm⟩
  | cons d back ih =>
      rw [List.cons_append, evictOldest]
      split
      · exact ih
      · exact (List.suffix_append back _).trans (List.suffix_cons d _)

/-- The loop goes past an item with which there is no room. -/
theorem evictOldest_drops (tight : remaining (e :: front) < objectlen) :
    evictOldest objectlen (back ++ e :: front) = evictOldest objectlen front := by
  induction back with
  | nil => rw [List.nil_append, evictOldest, if_pos tight]
  | cons d back ih =>
      have more : remaining (d :: (back ++ e :: front)) ≤ remaining (e :: front) := by
        simp only [remaining, used_cons, used_append]
        omega
      rw [List.cons_append, evictOldest, if_pos (by omega), ih]

/-- After the loop there is room for the object. -/
theorem evictOldest_room (fits : objectlen ≤ MAX_CACHE_SIZE) (items : List Entry) :
    objectlen ≤ remaining (evictOldest objectlen items) := by
  induction items with
  | nil => exact fits
  | cons e rest ih =>
      unfold evictOldest
      split
      · exact ih
      · omega

/-- An item is kept when the bytes that remain and those of the items behind it
make room for the object. -/
theorem mem_keptItems_iff (bounded : used (front ++ e :: back) ≤ MAX_CACHE_SIZE)
    (absent : e ∉ front) : e ∈ keptItems objectlen (front ++ e :: back) ↔
      objectlen ≤ remaining (front ++ e :: back) + used back := by
  have reversed : (front ++ e :: back).reverse = back.reverse ++ e :: front.reverse := by simp
  have behind : remaining (e :: front.reverse) = remaining (front ++ e :: back) + used back := by
    simp only [remaining, used_cons, used_append, used_reverse] at bounded ⊢
    omega
  rw [keptItems, List.mem_reverse, reversed, ← behind]
  constructor
  · intro kept
    by_contra tight
    rw [evictOldest_drops (by omega)] at kept
    exact absent (List.mem_reverse.mp ((evictOldest_suffix _ _).subset kept))
  · intro room
    exact (evictOldest_keeps room).subset List.mem_cons_self

end Eviction

/-! ## The invariant -/

/-- Items have distinct names below the number of adds, and they fit the cache. -/
structure Named (s : Server) : Prop where
  distinct : (s.items.map Entry.id).Nodup
  below : ∀ e ∈ s.items, e.id < s.adds
  bounded : used s.items ≤ MAX_CACHE_SIZE

/-- The invariant of the runs in which no held item is evicted. -/
structure Held (s : Server) : Prop where
  named : Named s
  members : NoneFreed s

/-- Moving a member to the front keeps the items and their names. -/
theorem perm_moved {items : List Entry} {e : Entry} (member : e ∈ items) :
    List.Perm (e :: items.erase e) items :=
  (List.perm_cons_erase member).symm

section Step

variable {s s' : Server} {t : Nat}

/-- A search leaves the list alone and may make its thread hold a member. -/
theorem perform_search {url : List UInt8} (step : perform s (.search t url) = some s') :
    s'.items = s.items ∧ s'.adds = s.adds ∧ ∃ th, s'.thread = Function.update s.thread t th ∧
      ∀ item u len, th = .found item u len → item ∈ s.items.map Entry.id := by
  unfold perform at step
  simp only at step
  split at step
  · split at step
    · cases step
      refine ⟨rfl, rfl, _, rfl, ?_⟩
      intro item u len same
      cases same
    · rename_i e found
      cases step
      refine ⟨rfl, rfl, _, rfl, ?_⟩
      intro item u len same
      cases same
      exact List.mem_map_of_mem (List.mem_of_find?_eq_some found)
  · cases step

/-- A move puts the held member in front and ends its thread's hold. -/
theorem perform_moveToHead (step : perform s (.moveToHead t) = some s') :
    (∃ e ∈ s.items, s'.items = e :: s.items.erase e) ∧ s'.adds = s.adds ∧
      ∃ th, s'.thread = Function.update s.thread t th ∧ ∀ item u len, th ≠ .found item u len := by
  unfold perform at step
  simp only at step
  split at step
  · split at step
    · cases step
    · rename_i e found
      cases step
      refine ⟨⟨e, List.mem_of_find?_eq_some found, rfl⟩, rfl, _, rfl, ?_⟩
      intro item u len
      split <;> exact nofun
  · cases step

/-- An add puts a new item in front of those that the eviction loop leaves. -/
theorem perform_add {objectlen : Nat} (step : perform s (.add t objectlen) = some s') :
    ∃ url, s.thread t = .missed url ∧ objectlen ≤ MAX_OBJECT_SIZE ∧ s' =
      { items := ⟨s.adds, url, objectlen⟩ :: keptItems objectlen s.items
        adds := s.adds + 1
        thread := Function.update s.thread t .idle } := by
  unfold perform at step
  simp only at step
  split at step
  · rename_i url missed
    split at step
    · rename_i small
      cases step
      exact ⟨url, missed, small, rfl⟩
    · cases step
  · cases step

theorem perform_leave (step : perform s (.leave t) = some s') :
    s' = { s with thread := Function.update s.thread t .idle } := by
  unfold perform at step
  simp only at step
  split at step
  · cases step
    rfl
  · cases step

/-- A thread that holds an item after another thread's section held it before. -/
theorem Holds.before {t' item : Nat} {th : Thread} (holds : Holds s' t' item)
    (thread : s'.thread = Function.update s.thread t th) :
    (t' = t ∧ ∃ url len, th = .found item url len) ∨ Holds s t' item := by
  obtain ⟨url, len, at_⟩ := holds
  rw [thread] at at_
  by_cases same : t' = t
  · subst same
    rw [Function.update_self] at at_
    exact .inl ⟨rfl, url, len, at_⟩
  · rw [Function.update_of_ne same] at at_
    exact .inr ⟨url, len, at_⟩

end Step

/-- The names stay distinct, whatever is evicted, and the items fit. -/
theorem Named.step {s s' : Server} {e : Section} (named : Named s)
    (step : perform s e = some s') : Named s' := by
  cases e with
  | search t url =>
      obtain ⟨items, adds, -⟩ := perform_search step
      constructor
      · exact items ▸ named.distinct
      · rw [items, adds]
        exact named.below
      · exact items ▸ named.bounded
  | moveToHead t =>
      obtain ⟨⟨e, member, items⟩, adds, -⟩ := perform_moveToHead step
      have perm := perm_moved member
      rw [← items] at perm
      constructor
      · exact (perm.map Entry.id).nodup_iff.mpr named.distinct
      · intro d inItems
        rw [adds]
        exact named.below d (perm.mem_iff.mp inItems)
      · rw [used_perm perm]
        exact named.bounded
  | add t objectlen =>
      obtain ⟨url, -, small, rfl⟩ := perform_add step
      have kept := (keptItems_front objectlen s.items).sublist
      constructor
      · rw [List.map_cons, List.nodup_cons]
        refine ⟨?_, named.distinct.sublist (kept.map Entry.id)⟩
        intro member
        obtain ⟨d, inKept, same⟩ := List.mem_map.mp member
        have below := named.below d (kept.subset inKept)
        simp only at same
        omega
      · intro d member
        rcases List.mem_cons.mp member with rfl | inKept
        · exact Nat.lt_succ_self _
        · exact Nat.lt_succ_of_lt (named.below d (kept.subset inKept))
      · have fits : objectlen ≤ MAX_CACHE_SIZE := Nat.le_trans small (by decide)
        have room := evictOldest_room fits s.items.reverse
        have fewer := used_suffix (evictOldest_suffix objectlen s.items.reverse)
        have bounded := named.bounded
        rw [used_reverse] at fewer
        show objectlen + used (keptItems objectlen s.items) ≤ MAX_CACHE_SIZE
        rw [keptItems, used_reverse]
        simp only [remaining] at room
        omega
  | leave t =>
      cases perform_leave step
      exact ⟨named.distinct, named.below, named.bounded⟩

/-- A member is kept when there are enough bytes behind it. -/
theorem Named.kept_iff {s : Server} {objectlen : Nat} {front back : List Entry} {e : Entry}
    (named : Named s) (split : s.items = front ++ e :: back) :
    e ∈ keptItems objectlen s.items ↔ objectlen ≤ remaining s.items + used back := by
  have distinct := named.distinct.of_map
  rw [split, List.nodup_middle, List.nodup_cons] at distinct
  rw [split]
  apply mem_keptItems_iff
  · exact split ▸ named.bounded
  · exact fun member => distinct.1 (List.mem_append_left _ member)

/-- While there is room behind the held items, they stay members. -/
theorem Held.keeps {s s' : Server} {e : Section} (held : Held s) (condition : RoomBehindHeld s e)
    (step : perform s e = some s') : Held s' := by
  refine ⟨held.named.step step, ?_⟩
  intro t' item holds
  cases e with
  | search t url =>
      obtain ⟨items, -, th, thread, member⟩ := perform_search step
      rw [items]
      rcases holds.before thread with ⟨-, u, len, same⟩ | old
      · exact member item u len same
      · exact held.members t' item old
  | moveToHead t =>
      obtain ⟨⟨e, member, items⟩, -, th, thread, none⟩ := perform_moveToHead step
      rcases holds.before thread with ⟨-, u, len, same⟩ | old
      · exact absurd same (none item u len)
      · rw [items, ((perm_moved member).map Entry.id).mem_iff]
        exact held.members t' item old
  | add t objectlen =>
      obtain ⟨url, -, -, rfl⟩ := perform_add step
      rcases holds.before rfl with ⟨-, u, len, same⟩ | old
      · cases same
      · obtain ⟨d, member, rfl⟩ := List.mem_map.mp (held.members t' item old)
        obtain ⟨front, back, split⟩ := List.append_of_mem member
        have room := condition front d back split ⟨t', old⟩
        have kept := (held.named.kept_iff split).mpr room
        exact List.mem_map.mpr ⟨d, List.mem_cons_of_mem _ kept, rfl⟩
  | leave t =>
      cases perform_leave step
      rcases holds.before rfl with ⟨-, u, len, same⟩ | old
      · cases same
      · exact held.members t' item old

/-- Without that room a held item is evicted, and its thread is left with a freed
one. -/
theorem Held.breaks {s s' : Server} {e : Section} (held : Held s) (against : ¬ RoomBehindHeld s e)
    (step : perform s e = some s') : ¬ NoneFreed s' := by
  intro members
  cases e with
  | add t objectlen =>
      obtain ⟨url, missed, -, rfl⟩ := perform_add step
      apply against
      intro front d back split held'
      obtain ⟨t', u, len, holds⟩ := held'
      have other : t' ≠ t := by
        rintro rfl
        rw [missed] at holds
        cases holds
      have later : Function.update s.thread t .idle t' = .found d.id u len :=
        (Function.update_of_ne other _ _).trans holds
      have member : d ∈ s.items := by simp [split]
      obtain ⟨d', member', same⟩ := List.mem_map.mp (members t' d.id ⟨u, len, later⟩)
      rcases List.mem_cons.mp member' with rfl | inKept
      · have below := held.named.below d member
        simp only at same
        omega
      · have kept := (keptItems_front objectlen s.items).sublist.subset inKept
        rw [← held.named.kept_iff split]
        exact List.inj_on_of_nodup_map held.named.distinct kept member same ▸ inKept
  | search t url => exact against trivial
  | moveToHead t => exact against trivial
  | leave t => exact against trivial

/-! ## The exact condition -/

/-- In a run every item passed to `move_to_head` is still a member exactly when
behind every item that a thread is about to move there is always enough room for
the object that is added. -/
theorem noneFreed_iff {past : List (Server × Section)} {s : Server}
    (run : interleaved.Run past s) :
    Throughout NoneFreed past s ↔ AllSteps RoomBehindHeld past := by
  refine run.exact (I := Held) ?_ (fun _ held => held.members)
    (fun _ _ _ held condition step => held.keeps condition step)
    (fun _ _ _ held against step => held.breaks against step)
  rintro s rfl
  refine ⟨⟨List.nodup_nil, by simp [idleServer], Nat.zero_le _⟩, ?_⟩
  rintro t item ⟨url, len, holds⟩
  cases holds

/-- Thread 0 adds an object and finds it again, and thread 1 adds another one
before thread 0 moves it. -/
def sharedCache : List Section :=
  [.search 0 [97], .add 0 100, .search 0 [97], .search 1 [98], .add 1 MAX_OBJECT_SIZE,
    .moveToHead 0]

theorem noneFreed_iff_sharedCache :
    Throughout NoneFreed (record perform [] idleServer sharedCache).1
        (record perform [] idleServer sharedCache).2 ↔
      AllSteps RoomBehindHeld (record perform [] idleServer sharedCache).1 :=
  noneFreed_iff (Run.of_record (.start rfl) (fun _ _ _ taken => taken) _)

/-- Ten requests fill the cache, thread 0 finds the first of their objects, and
an eleventh request evicts it before thread 0 moves it. -/
def evictingRun : List Section :=
  ((List.range 10).flatMap fun k => [.search 1 [UInt8.ofNat k], .add 1 MAX_OBJECT_SIZE]) ++
    [.search 0 [0], .search 1 [10], .add 1 MAX_OBJECT_SIZE]

theorem held_item_freed : ¬ ∀ past s, interleaved.Run past s → NoneFreed s := by
  intro claimed
  have ends : (replay perform idleServer evictingRun).map
      (fun s => (s.thread 0, (0 ∈ s.items.map Entry.id : Bool))) =
      some (.found 0 [0] MAX_OBJECT_SIZE, false) := by decide +kernel
  obtain ⟨s, played, shape⟩ := Option.map_eq_some_iff.mp ends
  obtain ⟨past, run⟩ := Run.of_replay (M := interleaved) (.start rfl) (fun _ _ _ _ step => step)
    played
  simp only [Prod.mk.injEq, decide_eq_false_iff_not] at shape
  exact shape.2 (claimed past s run 0 0 ⟨_, _, shape.1⟩)

end SysProg.Proxy

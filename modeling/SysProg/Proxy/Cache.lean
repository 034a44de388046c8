import Mathlib.Algebra.GroupWithZero.Nat
import SysProg.Logic.LinkedNodes
import SysProg.Logic.Runs
import SysProg.Logic.StateOption

/-!
# The object cache of `cache.c`

The cache is a doubly linked list of allocated items behind the pointers
`head` and `tail`.  Following a pointer to an item that is not allocated
fails, and so does a loop that never ends.
-/

namespace SysProg.Proxy

open Logic

def MAX_CACHE_SIZE : Nat := 1049000
def MAX_OBJECT_SIZE : Nat := 102400
def NULL : Nat := 0

/-- A cache item; the stored bytes are unknown where nothing was written. -/
structure CacheItem where
  tag : List UInt8
  object : List (Option UInt8)
  prev : Nat
  next : Nat
  objectlen : Nat

/-- The global list together with the items that `Malloc` has handed out and
that have not been freed. -/
structure CacheList where
  head : Nat
  tail : Nat
  remainlen : Nat
  item : Nat → CacheItem
  allocated : List Nat

/-- A cache routine. -/
abbrev CM := Prog CacheList

/-! ## Primitive accesses -/

/-- The item behind a pointer. -/
def deref (p : Nat) : CM CacheItem := fun c =>
  if p ∈ c.allocated then some (c.item p, c) else none

/-- A store into the item behind a pointer. -/
def store (p : Nat) (f : CacheItem → CacheItem) : CM Unit := fun c =>
  if p ∈ c.allocated then some ((), { c with item := Function.update c.item p (f (c.item p)) })
  else none

def setPrev (p q : Nat) : CM Unit := store p fun i => { i with prev := q }

def setNext (p q : Nat) : CM Unit := store p fun i => { i with next := q }

def listHead : CM Nat := fun c => some (c.head, c)

def listTail : CM Nat := fun c => some (c.tail, c)

def remainlen : CM Nat := fun c => some (c.remainlen, c)

def setHead (p : Nat) : CM Unit := fun c => some ((), { c with head := p })

def setTail (p : Nat) : CM Unit := fun c => some ((), { c with tail := p })

def setRemainlen (n : Nat) : CM Unit := fun c => some ((), { c with remainlen := n })

/-- `Malloc` answers with the address `p`, which it may do only when `p` is
neither null nor in use. -/
def mallocItem (p : Nat) (i : CacheItem) : CM Unit := fun c =>
  if p = NULL ∨ p ∈ c.allocated then none
  else some ((), { c with item := Function.update c.item p i, allocated := p :: c.allocated })

/-- `free` of the item at `p`. -/
def freeItem (p : Nat) : CM Unit := fun c =>
  if p ∈ c.allocated then some ((), { c with allocated := c.allocated.erase p }) else none

/-! ## Copying a string -/

/-- The loop of `strcpy`, which fails when it reads beyond `src` or writes beyond
`dst`. -/
def strcpy : List (Option UInt8) → List UInt8 → Option (List (Option UInt8))
  | _, [] => none
  | [], _ :: _ => none
  | _ :: dst, byte :: src =>
      if byte = 0 then some (some 0 :: dst) else (strcpy dst src).map (some byte :: ·)

/-- What a copy that stays inside leaves: the string at the start of `src` over
the first bytes of `dst`. -/
def stringOver (dst : List (Option UInt8)) (src : List UInt8) : List (Option UInt8) :=
  let string := src.takeWhile (· ≠ 0) ++ [0]
  string.map some ++ dst.drop string.length

/-- The copy of an object neither reads beyond the caller's buffer nor writes
beyond the `objectlen + 1` bytes allocated for it. -/
def CopiesInside (object : List UInt8) (objectlen : Nat) : Prop :=
  0 ∈ object.take (objectlen + 1)

instance (object : List UInt8) (objectlen : Nat) : Decidable (CopiesInside object objectlen) :=
  inferInstanceAs (Decidable (_ ∈ _))

/-- A copy stays inside when `src` has a zero byte that fits `dst`. -/
theorem strcpy_eq (dst : List (Option UInt8)) (src : List UInt8) :
    strcpy dst src = if 0 ∈ src.take dst.length then some (stringOver dst src) else none := by
  induction dst generalizing src with
  | nil => cases src <;> rfl
  | cons old dst ih =>
      cases src with
      | nil => rfl
      | cons byte src =>
          by_cases zero : byte = 0
          · simp [strcpy, stringOver, zero]
          · have other : ¬ 0 = byte := fun same => zero same.symm
            have copied : stringOver (old :: dst) (byte :: src) =
                some byte :: stringOver dst src := by
              simp [stringOver, zero]
            simp only [strcpy, if_neg zero, ih, copied, List.length_cons, List.take_succ_cons,
              List.mem_cons, other, false_or]
            split <;> rfl

theorem strcpy_fresh (object : List UInt8) (n : Nat) :
    strcpy (List.replicate (n + 1) none) object =
      if CopiesInside object n then some (stringOver (List.replicate (n + 1) none) object)
      else none := by
  rw [strcpy_eq, List.length_replicate]
  rfl

/-- `strcpy(item->object, object)` -/
def strcpyObject (p : Nat) (object : List UInt8) : CM Unit := fun c =>
  (strcpy (c.item p).object object).bind fun copy =>
    store p (fun i => { i with object := copy }) c

/-! ## The routines -/

/-- `cache_init`. -/
def cacheInit : CacheList where
  head := NULL
  tail := NULL
  remainlen := MAX_CACHE_SIZE
  item := fun _ => ⟨[], [], NULL, NULL, 0⟩
  allocated := []

/-- `if(list->tail == item) list->tail = item->prev;` -/
def cutTail (item : Nat) : CM Unit := do
  if (← listTail) = item then setTail (← deref item).prev else pure ()

/-- `if(item->prev) item->prev->next = item->next;` -/
def cutPrev (item : Nat) : CM Unit := do
  if (← deref item).prev = NULL then pure ()
  else setNext (← deref item).prev (← deref item).next

/-- `if(item->next) item->next->prev = item->prev;` -/
def cutNext (item : Nat) : CM Unit := do
  if (← deref item).next = NULL then pure ()
  else setPrev (← deref item).next (← deref item).prev

/-- `move_to_head`. -/
def moveToHead (item : Nat) : CM Unit := do
  if (← listHead) = item then pure ()
  else if (← listHead) = NULL then do
    setTail item
    setHead item
  else do
    cutTail item
    cutPrev item
    cutNext item
    setPrev item NULL
    setNext item (← listHead)
    setHead item

/-- `cache_evict`. -/
def cacheEvict : CM Unit := do
  let temp ← listTail
  setTail (← deref temp).prev
  setRemainlen ((← remainlen) + (← deref temp).objectlen)
  freeItem temp

/-- The eviction loop of `cache_add`, cut off after `fuel` rounds. -/
def evictUntil (objectlen : Nat) : Nat → CM Unit
  | 0 => fun _ => none
  | fuel + 1 => do
      if (← remainlen) < objectlen then do
        cacheEvict
        evictUntil objectlen fuel
      else pure ()

/-- Every round frees an item, so the loop ends or fails within the fuel. -/
def makeRoom (objectlen : Nat) : CM Unit := fun c =>
  evictUntil objectlen (c.allocated.length + 1) c

/-- The statements of `cache_add` that make the item, with `Malloc` answering
`item`. -/
def makeItem (url object : List UInt8) (objectlen item : Nat) : CM Unit := do
  mallocItem item ⟨url, List.replicate (objectlen + 1) none, NULL, NULL, objectlen⟩
  strcpyObject item object

/-- `cache_add`. -/
def cacheAdd (url object : List UInt8) (objectlen item : Nat) : CM Unit := do
  makeRoom objectlen
  makeItem url object objectlen item
  setRemainlen ((← remainlen) - objectlen)
  moveToHead item

/-- The search loop of `cache_lookup`, cut off after `fuel` rounds. -/
def searchFrom (url : List UInt8) : Nat → Nat → CM Nat
  | 0, _ => fun _ => none
  | fuel + 1, item => do
      if item = NULL then pure NULL
      else if (← deref item).tag = url then pure item
      else searchFrom url fuel (← deref item).next

/-- A search that visits more items than there are repeats itself forever. -/
def search (url : List UInt8) : CM Nat := fun c =>
  searchFrom url (c.allocated.length + 1) c.head c

/-- `cache_lookup`: the returned length and the bytes copied to the buffer. -/
def cacheLookup (url : List UInt8) : CM (Nat × List (Option UInt8)) := do
  let item ← search url
  if item = NULL then pure (0, [])
  else do
    let found ← deref item
    moveToHead item
    pure (found.objectlen, found.object.take found.objectlen)

/-! ## Sequential runs -/

/-- A call of the cache's interface. -/
inductive Call where
  | add (url object : List UInt8) (objectlen item : Nat)
  | lookup (url : List UInt8)

/-- The state after a call. -/
def call (c : CacheList) : Call → Option CacheList
  | .add url object objectlen item => (cacheAdd url object objectlen item c).map Prod.snd
  | .lookup url => (cacheLookup url c).map Prod.snd

/-- `Malloc` answers the call with an address that is not in use once there is
room. -/
def Answered (c : CacheList) : Call → Prop
  | .add _ _ objectlen item =>
      ∀ r ∈ makeRoom objectlen c, item ≠ NULL ∧ item ∉ r.2.allocated
  | .lookup _ => True

instance (c : CacheList) : (e : Call) → Decidable (Answered c e)
  | .add _ _ objectlen _ => inferInstanceAs (Decidable (∀ r ∈ makeRoom objectlen c, _))
  | .lookup _ => inferInstanceAs (Decidable True)

/-- Objects are no longer than the proxy's buffer. -/
def Call.Small : Call → Prop
  | .add _ _ objectlen _ => objectlen ≤ MAX_OBJECT_SIZE
  | .lookup _ => True

instance : (e : Call) → Decidable e.Small
  | .add _ _ objectlen _ => inferInstanceAs (Decidable (objectlen ≤ MAX_OBJECT_SIZE))
  | .lookup _ => inferInstanceAs (Decidable True)

/-- The list behind `head` and `tail` consists of the items `nodes`. -/
structure ProperList (c : CacheList) (nodes : List Nat) : Prop where
  head : c.head = nodes.headD NULL
  tail : c.tail = nodes.getLastD NULL
  live : ∀ x ∈ nodes, x ≠ NULL ∧ x ∈ c.allocated
  distinct : nodes.Nodup
  linked : Linked (fun x => (c.item x).next) (fun x => (c.item x).prev) nodes
  first : ∀ x ∈ nodes.head?, (c.item x).prev = NULL
  last : ∀ x ∈ nodes.getLast?, (c.item x).next = NULL
  space : c.remainlen + (nodes.map fun x => (c.item x).objectlen).sum = MAX_CACHE_SIZE

/-- The cache is a proper doubly linked list. -/
def Proper (c : CacheList) : Prop := ∃ nodes, ProperList c nodes

end SysProg.Proxy

import CStudy.LruCache.Refinement
import CStudy.Foundation.Ownership

/-! The same functions with every block they take from `malloc`: the cache struct, its array, the
item structs, and one buffer for the key and one for the value of each item. A block can be read,
assigned and freed until it is freed, and `LRUCacheGet` gives out the address of a buffer. -/
namespace CStudy.LruCache.Blocks
open CStudy.Foundation

/-- `struct LRUCacheItem`, with the addresses of its two buffers. -/
structure Item where
  key : Ptr
  value : Ptr
  valueLength : ℕ
  age : ℕ
  next : Option Ptr

/-- `cache` with its `items` are the contents of two blocks, and the flags say whether these are
allocated. -/
structure Memory where
  cache : LRUCache
  cacheAllocated : Bool
  itemsAllocated : Bool
  structs : Heap Item
  buffers : Heap (List UInt8)
  staleNext : Ptr → Option Ptr

/-- An access to a field of `*cache`. -/
def Memory.readCache (m : Memory) : Option LRUCache :=
  if m.cacheAllocated then some m.cache else none

/-- `cache->items[index]` -/
def Memory.readSlot (m : Memory) (index : ℕ) : Option (Option Ptr) :=
  if m.itemsAllocated ∧ index < m.cache.hashTableSize then some (m.cache.items index) else none

/-- `cache->items[index] = item` -/
def Memory.writeSlot (m : Memory) (index : ℕ) (item : Option Ptr) : Option Memory :=
  if m.itemsAllocated ∧ index < m.cache.hashTableSize then
    some { m with cache := { m.cache with items := Function.update m.cache.items index item } }
  else none

/-- `if (prev != NULL) prev->next = item; else cache->items[index] = item;` -/
def Memory.writeLink (m : Memory) (prev : Option Ptr) (index : ℕ) (item : Option Ptr) :
    Option Memory :=
  match prev with
  | some q =>
    (m.structs.store q fun d => { d with next := item }).map fun structs => { m with structs := structs }
  | none => m.writeSlot index item

/-- `malloc` of a buffer, together with the copy into it. -/
def Memory.malloc (m : Memory) (bytes : List UInt8) : Memory × Ptr :=
  ({ m with buffers := m.buffers.alloc bytes },m.buffers.top)

/-- `free` of a buffer. -/
def Memory.free (m : Memory) (p : Ptr) : Option Memory :=
  (m.buffers.release p).map fun buffers => { m with buffers := buffers }

/-- The distance of the terminator, which has to be inside the buffer. -/
def strlen : List UInt8 → Option ℕ
  | [] => none
  | b::bytes => if b = 0 then some 0 else (strlen bytes).map (·+1)

def lruCacheCompareKey (m : Memory) (item : Item) (key : CString) : Option ℤ := do
  let bytes ← m.buffers.read item.key
  let len ← strlen bytes
  return if LruCache.strlen key ≠ len then 1 else memcmp key.val bytes

/-- `while (item != NULL && LRUCacheCompareKey(item, key) != 0)` -/
def findItem (m : Memory) (key : CString) :
    ℕ → Option Ptr → Option Ptr → Option (Option Ptr × Option Ptr)
  | _,prev,none => some (prev,none)
  | 0,_,some _ => none
  | fuel+1,prev,some p => do
    let c ← m.structs.read p
    let differs ← lruCacheCompareKey m c key
    if differs = 0 then return (prev,some p) else findItem m key fuel (some p) c.next

/-- The struct is not freed. -/
def lruCacheRemoveItem (m : Memory) (prev : Option Ptr) (item : Ptr) (index : ℕ) :
    Option Memory := do
  let c ← m.structs.read item
  let m ← m.writeLink prev index c.next
  let m ← m.free c.value
  m.free c.key

/-- The inner loop of the eviction scan. -/
def scanChain (structs : Heap Item) (i : ℕ) :
    ℕ → Option Ptr → Option Ptr → Least → Option Least
  | _,_,none,least => some least
  | 0,_,some _,_ => none
  | fuel+1,prev,some p,least =>
    match structs.read p with
    | none => none
    | some c =>
      scanChain structs i fuel (some p) c.next
        (if c.age < intToUInt64 least.leastAge then ⟨some p,prev,i,uint64ToInt c.age⟩ else least)

/-- The outer loop over the buckets below `n`. -/
def scanBuckets (m : Memory) : ℕ → Option Least
  | 0 => some ⟨none,none,0,intMax⟩
  | i+1 => do
    let least ← scanBuckets m i
    let head ← m.readSlot i
    scanChain m.structs i m.structs.top none head least

def lruCacheRemoveLeastUsedItem (m : Memory) : Option Memory := do
  let cache ← m.readCache
  let least ← scanBuckets m cache.hashTableSize
  match least.leastUsed with
  | none => return m
  | some item =>
    let m ← lruCacheRemoveItem m least.leastPrev item least.leastIndex
    return { m with cache := { m.cache with currentEntries := decr64 m.cache.currentEntries } }

def lruCacheNew (entries : ℕ) (seed : Int64) (stale : Stale) : Memory where
  cache := (LruCache.lruCacheNew entries seed stale).cache
  cacheAllocated := true
  itemsAllocated := true
  structs := Heap.empty
  buffers := Heap.empty
  staleNext := stale.next

/-- `item->age = cache->age; ++cache->age;` -/
def stampItem (m : Memory) (item : Ptr) : Option Memory := do
  let cache ← m.readCache
  let structs ← m.structs.store item fun c => { c with age := cache.age }
  return { m with structs := structs, cache := { m.cache with age := incr64 cache.age } }

def makeRoom (m : Memory) : Option Memory := do
  let cache ← m.readCache
  if cache.currentEntries ≥ cache.capacity then lruCacheRemoveLeastUsedItem m else return m

/-- The branch of `LRUCacheSet` for a key that is not in the table: a struct, a buffer for the key
with its terminator, and a buffer for the value. -/
def insertItem (m : Memory) (prev : Option Ptr) (index : ℕ) (key : CString) (value : List UInt8)
    (valueLength : ℕ) : Option (Memory × Ptr) := do
  let m ← makeRoom m
  let (m,k) := m.malloc (key.val++[0])
  let (m,v) := m.malloc (memcpy value valueLength)
  let item := m.structs.top
  let m := { m with structs := m.structs.alloc ⟨k,v,valueLength,0,m.staleNext item⟩ }
  let m ← m.writeLink prev index (some item)
  return ({ m with cache := { m.cache with currentEntries := incr64 m.cache.currentEntries } },item)

/-- The branch for a key that is in the table: the old buffer is freed and a new one taken. -/
def overwriteItem (m : Memory) (item : Ptr) (value : List UInt8) (valueLength : ℕ) :
    Option (Memory × Ptr) := do
  let c ← m.structs.read item
  let m ← m.free c.value
  let (m,v) := m.malloc (memcpy value valueLength)
  let structs ← m.structs.store item fun c => { c with value := v, valueLength := valueLength }
  return ({ m with structs := structs },item)

/-- The first statements of all three operations: the bucket, and the item with its predecessor. -/
def locate (m : Memory) (key : CString) : Option (ℕ × Option Ptr × Option Ptr) := do
  let cache ← m.readCache
  let index ← lruCacheGetHashIndex cache key
  let head ← m.readSlot index
  let (prev,item) ← findItem m key m.structs.top none head
  return (index,prev,item)

def lruCacheSet (m : Memory) (key : CString) (value : List UInt8) (valueLength : ℕ) :
    Option Memory := do
  let (index,prev,item) ← locate m key
  let (m,item) ← match item with
    | some p => overwriteItem m p value valueLength
    | none => insertItem m prev index key value valueLength
  stampItem m item

/-- `*value` is the address of the buffer in the item. -/
def lruCacheGet (m : Memory) (key : CString) :
    Option (Memory × LRUCacheError × Option Ptr × ℕ) := do
  let (_,_,item) ← locate m key
  match item with
  | some p =>
    let c ← m.structs.read p
    let m ← stampItem m p
    return (m,.ok,some c.value,c.valueLength)
  | none => return (m,.keyMissing,none,0)

def lruCacheDelete (m : Memory) (key : CString) : Option (Memory × LRUCacheError) := do
  let (index,prev,item) ← locate m key
  match item with
  | some p =>
    let m ← lruCacheRemoveItem m prev p index
    return (m,.ok)
  | none => return (m,.keyMissing)

/-- The loop of `LRUCacheFree` over the chain of one bucket. -/
def freeChain (m : Memory) : ℕ → Option Ptr → Option Memory
  | _,none => some m
  | 0,some _ => none
  | fuel+1,some p => do
    let c ← m.structs.read p
    let m ← m.free c.key
    let m ← m.free c.value
    let structs ← m.structs.release p
    freeChain { m with structs := structs } fuel c.next

/-- The loop over the buckets below `n`. -/
def freeBuckets (m : Memory) : ℕ → Option Memory
  | 0 => some m
  | i+1 => do
    let m ← freeBuckets m i
    let head ← m.readSlot i
    freeChain m m.structs.top head

def lruCacheFree (m : Memory) : Option Memory := do
  let cache ← m.readCache
  let m ← freeBuckets m cache.hashTableSize
  if m.itemsAllocated ∧ m.cacheAllocated then
    return { m with itemsAllocated := false, cacheAllocated := false }
  else none

/-- What a call returns to its caller, a value as the address of its buffer. -/
inductive Reply
  | done
  | got (error : LRUCacheError) (value : Option Ptr) (valueLength : ℕ)
  | deleted (error : LRUCacheError)
  deriving DecidableEq, Repr

def step : Machine Memory Call Reply
  | m,.set key value => (lruCacheSet m key value value.length).map fun t => (t,.done)
  | m,.get key => (lruCacheGet m key).map fun r => (r.1,.got r.2.1 r.2.2.1 r.2.2.2)
  | m,.delete key => (lruCacheDelete m key).map fun r => (r.1,.deleted r.2)

/-- What a caller finds that reads the value of a reply at once. -/
def Reply.follow (m : Memory) : Reply → Option LruCache.Reply
  | .done => some .done
  | .got error none len => some (.got error none len)
  | .got error (some p) len => (m.buffers.read p).map fun bytes => .got error (some bytes) len
  | .deleted error => some (.deleted error)

/-- Calls by such a caller. -/
def readingStep : Machine Memory Call LruCache.Reply := fun m c => do
  let (t,o) ← step m c
  let reply ← o.follow t
  return (t,reply)

end CStudy.LruCache.Blocks

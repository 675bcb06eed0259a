import CStudy.Foundation.Heap
import CStudy.Foundation.Machine

/-! The cache of `lru_cache01` as the C code computes it: a table of singly linked bucket
chains in a heap of items, an eviction scan over the whole table, and 64-bit counters.
`malloc` is taken to succeed; what its memory held before is a parameter. An operation that
dereferences a wild pointer, divides by zero or never returns has no result. -/
namespace CStudy.LruCache
open CStudy.Foundation

/-- A NUL-terminated string, given by the bytes before its terminator. -/
abbrev CString := {bytes : List UInt8 // 0 ∉ bytes}

def strlen (key : CString) : ℕ := key.val.length

/-- The first difference of two byte blocks of the same length. -/
def memcmp : List UInt8 → List UInt8 → ℤ
  | a::as,b::bs => if a = b then memcmp as bs else (a.toNat : ℤ)-b.toNat
  | _,_ => 0

def memcpy (src : List UInt8) (n : ℕ) : List UInt8 := src.take n

def intMax : ℕ := 2147483647

/-- The conversion of an `int` operand to `uint64_t`. -/
def intToUInt64 (x : ℤ) : ℕ := (x % 2^64).toNat

/-- The assignment of a `uint64_t` to an `int`. -/
def uint64ToInt (x : ℕ) : ℤ := Int.bmod x (2^32)

/-- `++` and `--` of a `size_t` or `uint64_t` variable. -/
def incr64 (x : ℕ) : ℕ := (x+1) % 2^64
def decr64 (x : ℕ) : ℕ := (x+(2^64-1)) % 2^64

inductive LRUCacheError
  | ok
  | keyMissing
  deriving DecidableEq, Repr

structure LRUCacheItem where
  key : CString
  value : List UInt8
  valueLength : ℕ
  age : ℕ
  next : Option Ptr

/-- `items` is the array of bucket heads, read at any index below `hashTableSize`. -/
structure LRUCache where
  items : ℕ → Option Ptr
  hashTableSize : ℕ
  capacity : ℕ
  currentEntries : ℕ
  age : ℕ
  seed : Int64

/-- What the memory returned by `malloc` held before: the slots of the items array, the
`age` field of the cache, and the `next` field of the item struct at each address. -/
structure Stale where
  items : ℕ → Option Ptr
  age : UInt64
  next : Ptr → Option Ptr

/-- Fresh pages of the operating system. -/
def Stale.zeroed : Stale := ⟨fun _ => none,0,fun _ => none⟩

/-- The cache, the item structs, and the stale `next` fields of structs not yet allocated. -/
structure State where
  cache : LRUCache
  heap : Heap LRUCacheItem
  staleNext : Ptr → Option Ptr

/-- `*(uint32_t *)data` on a little-endian machine. -/
def readWord (a b c d : UInt8) : UInt32 :=
  a.toUInt32 ||| (b.toUInt32 <<< 8) ||| (c.toUInt32 <<< 16) ||| (d.toUInt32 <<< 24)

/-- A `char` operand: signed, promoted to `int` and converted to `uint32_t`. -/
def charToUInt32 (c : UInt8) : UInt32 := c.toInt8.toInt32.toUInt32

/-- The `while (key_len >= 4)` loop, with the bytes it leaves over. -/
def hashWords (m r : UInt32) : UInt32 → List UInt8 → UInt32 × List UInt8
  | h,a::b::c::d::data =>
    let k := readWord a b c d
    let k := k*m
    let k := k ^^^ (k >>> r)
    let k := k*m
    hashWords m r ((h*m) ^^^ k) data
  | h,data => (h,data)

/-- The `switch (key_len)` with its fallthroughs. -/
def hashTail (m : UInt32) : UInt32 × List UInt8 → UInt32
  | (h,[a,b,c]) =>
    (h ^^^ (charToUInt32 c <<< 16) ^^^ (charToUInt32 b <<< 8) ^^^ charToUInt32 a)*m
  | (h,[a,b]) => (h ^^^ (charToUInt32 b <<< 8) ^^^ charToUInt32 a)*m
  | (h,[a]) => (h ^^^ charToUInt32 a)*m
  | (h,_) => h

/-- The hash before its reduction to a bucket index. -/
def hashKey (seed : Int64) (key : CString) : UInt32 :=
  let m : UInt32 := 0x5bd1e995
  let r : UInt32 := 24
  let h := (seed.toUInt64 ^^^ UInt64.ofNat (strlen key)).toUInt32
  let h := hashTail m (hashWords m r h key.val)
  let h := h ^^^ (h >>> 13)
  let h := h*m
  h ^^^ (h >>> 16)

def lruCacheGetHashIndex (cache : LRUCache) (key : CString) : Option ℕ :=
  if cache.hashTableSize = 0 then none
  else some ((hashKey cache.seed key).toNat % cache.hashTableSize)

/-- Zero exactly if the item has this key. -/
def lruCacheCompareKey (item : LRUCacheItem) (key : CString) : ℤ :=
  if strlen key ≠ strlen item.key then 1 else memcmp key.val item.key.val

/-- `while (item != NULL && LRUCacheCompareKey(item, key) != 0)`, started at a bucket head. -/
def findItem (heap : Heap LRUCacheItem) (key : CString) (item : Option Ptr) :
    Option (Option Ptr × Option Ptr) :=
  heap.search LRUCacheItem.next (fun c => lruCacheCompareKey c key == 0) heap.top none item

/-- The item struct itself is not freed: it stays in the heap, out of reach. -/
def lruCacheRemoveItem (s : State) (prev : Option Ptr) (item : Ptr) (index : ℕ) : Option State := do
  let c ← s.heap.read item
  match prev with
  | some q =>
    let heap ← s.heap.store q fun d => { d with next := c.next }
    return { s with heap := heap }
  | none =>
    return { s with cache := { s.cache with items := Function.update s.cache.items index c.next } }

/-- The local variables of the eviction scan. -/
structure Least where
  leastUsed : Option Ptr
  leastPrev : Option Ptr
  leastIndex : ℕ
  leastAge : ℤ

/-- The inner loop over the chain of bucket `i`. -/
def scanChain (heap : Heap LRUCacheItem) (i : ℕ) :
    ℕ → Option Ptr → Option Ptr → Least → Option Least
  | _,_,none,least => some least
  | 0,_,some _,_ => none
  | fuel+1,prev,some p,least =>
    match heap.read p with
    | none => none
    | some c =>
      scanChain heap i fuel (some p) c.next
        (if c.age < intToUInt64 least.leastAge then ⟨some p,prev,i,uint64ToInt c.age⟩ else least)

/-- The outer loop over the buckets below `n`. -/
def scanBuckets (s : State) : ℕ → Option Least
  | 0 => some ⟨none,none,0,intMax⟩
  | i+1 => do
    let least ← scanBuckets s i
    scanChain s.heap i s.heap.top none (s.cache.items i) least

def lruCacheRemoveLeastUsedItem (s : State) : Option State := do
  let least ← scanBuckets s s.cache.hashTableSize
  match least.leastUsed with
  | none => return s
  | some item =>
    let t ← lruCacheRemoveItem s least.leastPrev item least.leastIndex
    return { t with cache := { t.cache with currentEntries := decr64 t.cache.currentEntries } }

def lruCacheNew (entries : ℕ) (seed : Int64) (stale : Stale) : State where
  cache :=
    { items := stale.items
      hashTableSize := entries
      capacity := entries
      currentEntries := 0
      age := stale.age.toNat
      seed := seed }
  heap := Heap.empty
  staleNext := stale.next

/-- `item->age = cache->age; ++cache->age;` -/
def stampItem (s : State) (item : Ptr) : Option State := do
  let heap ← s.heap.store item fun c => { c with age := s.cache.age }
  return { s with
    heap := heap
    cache := { s.cache with age := incr64 s.cache.age } }

/-- Link the item behind `prev`, or at the head of its bucket. -/
def linkItem (s : State) (prev : Option Ptr) (item : Ptr) (index : ℕ) : Option State :=
  match prev with
  | some q => do
    let heap ← s.heap.store q fun d => { d with next := some item }
    return { s with heap := heap }
  | none =>
    some { s with cache := { s.cache with items := Function.update s.cache.items index (some item) } }

/-- The eviction when the table is counted full. -/
def makeRoom (s : State) : Option State :=
  if s.cache.currentEntries ≥ s.cache.capacity then lruCacheRemoveLeastUsedItem s else some s

/-- The branch of `LRUCacheSet` for a key that is not in the table. The `next` field of the
new struct is not assigned, and `prev` was found before the eviction. -/
def insertItem (s : State) (prev : Option Ptr) (index : ℕ) (key : CString) (value : List UInt8)
    (valueLength : ℕ) : Option (State × Ptr) := do
  let s ← makeRoom s
  let item := s.heap.top
  let c := ⟨key,memcpy value valueLength,valueLength,0,s.staleNext item⟩
  let s := { s with heap := s.heap.alloc c }
  let s ← linkItem s prev item index
  return ({ s with cache := { s.cache with currentEntries := incr64 s.cache.currentEntries } },item)

/-- The branch for a key that is in the table. -/
def overwriteItem (s : State) (item : Ptr) (value : List UInt8) (valueLength : ℕ) :
    Option (State × Ptr) := do
  let heap ← s.heap.store item fun c =>
    { c with value := memcpy value valueLength, valueLength := valueLength }
  return ({ s with heap := heap },item)

def lruCacheSet (s : State) (key : CString) (value : List UInt8) (valueLength : ℕ) :
    Option State := do
  let index ← lruCacheGetHashIndex s.cache key
  let (prev,item) ← findItem s.heap key (s.cache.items index)
  let (s,item) ← match item with
    | some p => overwriteItem s p value valueLength
    | none => insertItem s prev index key value valueLength
  stampItem s item

/-- The result code, `*value` and `*value_length`. -/
def lruCacheGet (s : State) (key : CString) :
    Option (State × LRUCacheError × Option (List UInt8) × ℕ) := do
  let index ← lruCacheGetHashIndex s.cache key
  let (_,item) ← findItem s.heap key (s.cache.items index)
  match item with
  | some p =>
    let c ← s.heap.read p
    let s ← stampItem s p
    return (s,.ok,some c.value,c.valueLength)
  | none => return (s,.keyMissing,none,0)

/-- The entry count is left as it is. -/
def lruCacheDelete (s : State) (key : CString) : Option (State × LRUCacheError) := do
  let index ← lruCacheGetHashIndex s.cache key
  let (prev,item) ← findItem s.heap key (s.cache.items index)
  match item with
  | some p =>
    let s ← lruCacheRemoveItem s prev p index
    return (s,.ok)
  | none => return (s,.keyMissing)

/-- One call of the public interface. -/
inductive Call
  | set (key : CString) (value : List UInt8)
  | get (key : CString)
  | delete (key : CString)
  deriving DecidableEq

/-- What a call returns to its caller. -/
inductive Reply
  | done
  | got (error : LRUCacheError) (value : Option (List UInt8)) (valueLength : ℕ)
  | deleted (error : LRUCacheError)
  deriving DecidableEq, Repr

def step : Machine State Call Reply
  | s,.set key value => (lruCacheSet s key value value.length).map fun t => (t,.done)
  | s,.get key => (lruCacheGet s key).map fun r => (r.1,.got r.2.1 r.2.2.1 r.2.2.2)
  | s,.delete key => (lruCacheDelete s key).map fun r => (r.1,.deleted r.2)

end CStudy.LruCache

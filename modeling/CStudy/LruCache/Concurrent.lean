import CStudy.LruCache.Lifetime
import CStudy.LruCache.Retention
import CStudy.Foundation.Monitor

/-! The three operations statement by statement, as threads execute them between
`pthread_mutex_lock` and `pthread_mutex_unlock`. Executed without a break the statements do what the
operations of the model do at once, so that every concurrent history is one of the list program. -/
namespace CStudy.LruCache.Concurrent
open CStudy.Foundation

section Statements

/-- A field of `*cache` is read. -/
def readCache {α : Type} (f : LRUCache → α) : Code State α := .read fun s => some (f s.cache)

def assignCache (f : LRUCache → LRUCache) : Code State Unit :=
  .assign fun s => some { s with cache := f s.cache }

/-- The fields of `*item` are read. -/
def readItem (item : Ptr) : Code State LRUCacheItem := .read fun s => s.heap.read item

def assignItem (item : Ptr) (f : LRUCacheItem → LRUCacheItem) : Code State Unit :=
  .assign fun s => (s.heap.store item f).map fun heap => { s with heap := heap }

/-- A bound on the length of a chain: the number of structs. -/
def structs : Code State ℕ := .read fun s => some s.heap.top

end Statements

/-- `while (item != NULL && LRUCacheCompareKey(item, key) != 0)` -/
def findItem (key : CString) : ℕ → Option Ptr → Option Ptr → Code State (Option Ptr × Option Ptr)
  | _,prev,none => pure (prev,none)
  | 0,_,some _ => .undefined
  | fuel+1,prev,some p => do
    let c ← readItem p
    if lruCacheCompareKey c key == 0 then pure (prev,some p) else findItem key fuel (some p) c.next

/-- The bucket, and the search in it. -/
def locate (key : CString) : Code State (ℕ × Option Ptr × Option Ptr) := do
  let index ← Code.read fun s => lruCacheGetHashIndex s.cache key
  let fuel ← structs
  let head ← readCache fun cache => cache.items index
  let (prev,item) ← findItem key fuel none head
  pure (index,prev,item)

def removeItem (prev : Option Ptr) (item : Ptr) (index : ℕ) : Code State Unit := do
  let c ← readItem item
  match prev with
  | some q => assignItem q fun d => { d with next := c.next }
  | none => assignCache fun cache => { cache with items := Function.update cache.items index c.next }

def scanChain (i : ℕ) : ℕ → Option Ptr → Option Ptr → Least → Code State Least
  | _,_,none,least => pure least
  | 0,_,some _,_ => .undefined
  | fuel+1,prev,some p,least => do
    let c ← readItem p
    scanChain i fuel (some p) c.next
      (if c.age < intToUInt64 least.leastAge then ⟨some p,prev,i,uint64ToInt c.age⟩ else least)

def scanBuckets : ℕ → Code State Least
  | 0 => pure ⟨none,none,0,intMax⟩
  | i+1 => do
    let least ← scanBuckets i
    let fuel ← structs
    let head ← readCache fun cache => cache.items i
    scanChain i fuel none head least

def removeLeastUsedItem : Code State Unit := do
  let n ← readCache LRUCache.hashTableSize
  let least ← scanBuckets n
  match least.leastUsed with
  | none => pure ()
  | some item =>
    removeItem least.leastPrev item least.leastIndex
    assignCache fun cache => { cache with currentEntries := decr64 cache.currentEntries }

/-- `item->age = cache->age; ++cache->age;` -/
def stampItem (item : Ptr) : Code State Unit := do
  let age ← readCache LRUCache.age
  assignItem item fun c => { c with age := age }
  assignCache fun cache => { cache with age := incr64 cache.age }

def overwriteItem (item : Ptr) (value : List UInt8) (valueLength : ℕ) : Code State Ptr := do
  assignItem item fun c => { c with value := memcpy value valueLength, valueLength := valueLength }
  pure item

def makeRoom : Code State Unit := do
  let currentEntries ← readCache LRUCache.currentEntries
  let capacity ← readCache LRUCache.capacity
  if currentEntries ≥ capacity then removeLeastUsedItem else pure ()

def linkItem (prev : Option Ptr) (item : Ptr) (index : ℕ) : Code State Unit :=
  match prev with
  | some q => assignItem q fun d => { d with next := some item }
  | none =>
    assignCache fun cache => { cache with items := Function.update cache.items index (some item) }

/-- A new struct whose fields but `age` and `next` are filled in. -/
def allocItem (key : CString) (value : List UInt8) (valueLength : ℕ) : Code State Ptr :=
  .act (fun s => some (⟨s.cache,s.heap.alloc ⟨key,memcpy value valueLength,valueLength,0,
    s.staleNext s.heap.top⟩,s.staleNext⟩,s.heap.top)) pure

def insertItem (prev : Option Ptr) (index : ℕ) (key : CString) (value : List UInt8)
    (valueLength : ℕ) : Code State Ptr := do
  makeRoom
  let item ← allocItem key value valueLength
  linkItem prev item index
  assignCache fun cache => { cache with currentEntries := incr64 cache.currentEntries }
  pure item

/-- What a thread executes under the mutex. -/
def body : Call → Code State Reply
  | .set key value => do
    let (index,prev,item) ← locate key
    let item ← match item with
      | some p => overwriteItem p value value.length
      | none => insertItem prev index key value value.length
    stampItem item
    pure .done
  | .get key => do
    let (_,_,item) ← locate key
    match item with
    | some p =>
      let c ← readItem p
      stampItem p
      pure (.got .ok (some c.value) c.valueLength)
    | none => pure (.got .keyMissing none 0)
  | .delete key => do
    let (index,prev,item) ← locate key
    match item with
    | some p =>
      removeItem prev p index
      pure (.deleted .ok)
    | none => pure (.deleted .keyMissing)

section Whole
variable {s : State} {prev head : Option Ptr} {item : Ptr} {index i : ℕ} {key : CString}
  {value : List UInt8} {valueLength : ℕ} {least : Least}

@[simp] theorem run_readCache {α : Type} (f : LRUCache → α) :
    (readCache f).run s = some (s,f s.cache) := by simp [readCache]

@[simp] theorem run_assignCache (f : LRUCache → LRUCache) :
    (assignCache f).run s = some ({ s with cache := f s.cache },()) := by simp [assignCache]

@[simp] theorem run_readItem : (readItem item).run s = (s.heap.read item).map fun c => (s,c) := by
  simp [readItem]

@[simp] theorem run_assignItem (f : LRUCacheItem → LRUCacheItem) :
    (assignItem item f).run s =
      (s.heap.store item f).map fun heap => ({ s with heap := heap },()) := by
  simp [assignItem,Function.comp_def]

@[simp] theorem run_structs : structs.run s = some (s,s.heap.top) := by simp [structs]

@[simp] theorem run_findItem (fuel : ℕ) : (findItem key fuel prev head).run s =
    (s.heap.search LRUCacheItem.next (fun c => lruCacheCompareKey c key == 0) fuel prev head).map
      fun r => (s,r) := by
  induction fuel generalizing prev head with
  | zero => cases head <;> simp [findItem,Heap.search]
  | succ fuel ih =>
    cases head with
    | none => simp [findItem,Heap.search]
    | some p =>
      cases hc : s.heap.read p with
      | none => simp [findItem,Heap.search,hc]
      | some c =>
        by_cases hk : lruCacheCompareKey c key = 0
        · simp [findItem,Heap.search,hc,hk]
        · simp [findItem,Heap.search,hc,hk,ih]

@[simp] theorem run_locate : (locate key).run s = do
    let index ← lruCacheGetHashIndex s.cache key
    let r ← LruCache.findItem s.heap key (s.cache.items index)
    return (s,index,r.1,r.2) := by
  cases hi : lruCacheGetHashIndex s.cache key with
  | none => simp [locate,hi]
  | some i => simp [locate,hi,LruCache.findItem,Option.bind_map]

@[simp] theorem run_removeItem : (removeItem prev item index).run s =
    (lruCacheRemoveItem s prev item index).map fun t => (t,()) := by
  cases hc : s.heap.read item with
  | none => simp [removeItem,lruCacheRemoveItem,hc]
  | some c =>
    cases prev with
    | none => simp [removeItem,lruCacheRemoveItem,hc]
    | some q =>
      simp only [removeItem,lruCacheRemoveItem,hc,Code.run_monadBind,run_readItem,Option.map_some,
        Option.bind_eq_bind,Option.bind_some,run_assignItem]
      cases s.heap.store q fun d => { d with next := c.next } <;> rfl

@[simp] theorem run_scanChain (fuel : ℕ) : (scanChain i fuel prev head least).run s =
    (LruCache.scanChain s.heap i fuel prev head least).map fun l => (s,l) := by
  induction fuel generalizing prev head least with
  | zero => cases head <;> simp [scanChain,LruCache.scanChain]
  | succ fuel ih =>
    cases head with
    | none => simp [scanChain,LruCache.scanChain]
    | some p =>
      cases hc : s.heap.read p with
      | none => simp [scanChain,LruCache.scanChain,hc]
      | some c => simp [scanChain,LruCache.scanChain,hc,ih]

@[simp] theorem run_scanBuckets (n : ℕ) :
    (scanBuckets n).run s = (LruCache.scanBuckets s n).map fun l => (s,l) := by
  induction n with
  | zero => simp [scanBuckets,LruCache.scanBuckets]
  | succ n ih =>
    simp [scanBuckets,LruCache.scanBuckets,ih,Option.bind_map,Option.map_bind]

@[simp] theorem run_removeLeastUsedItem :
    removeLeastUsedItem.run s = (lruCacheRemoveLeastUsedItem s).map fun t => (t,()) := by
  cases hl : LruCache.scanBuckets s s.cache.hashTableSize with
  | none => simp [removeLeastUsedItem,lruCacheRemoveLeastUsedItem,hl]
  | some least =>
    cases hu : least.leastUsed with
    | none => simp [removeLeastUsedItem,lruCacheRemoveLeastUsedItem,hl,hu]
    | some p =>
      cases hr : lruCacheRemoveItem s least.leastPrev p least.leastIndex <;>
        simp [removeLeastUsedItem,lruCacheRemoveLeastUsedItem,hl,hu,hr]

@[simp] theorem run_stampItem :
    (stampItem item).run s = (LruCache.stampItem s item).map fun t => (t,()) := by
  simp only [stampItem,LruCache.stampItem,Code.run_monadBind,run_readCache,run_assignItem,
    run_assignCache,Option.bind_some,Option.bind_eq_bind]
  cases s.heap.store item fun c => { c with age := s.cache.age } <;> rfl

@[simp] theorem run_overwriteItem : (overwriteItem item value valueLength).run s =
    LruCache.overwriteItem s item value valueLength := by
  simp only [overwriteItem,LruCache.overwriteItem,Code.run_monadBind,run_assignItem,
    Option.bind_eq_bind,Code.run_pure]
  cases s.heap.store item fun c =>
    { c with value := memcpy value valueLength, valueLength := valueLength } <;> rfl

@[simp] theorem run_makeRoom : makeRoom.run s = (LruCache.makeRoom s).map fun t => (t,()) := by
  by_cases h : s.cache.capacity ≤ s.cache.currentEntries <;> simp [makeRoom,LruCache.makeRoom,h]

@[simp] theorem run_linkItem :
    (linkItem prev item index).run s = (LruCache.linkItem s prev item index).map fun t => (t,()) := by
  cases prev with
  | none => simp [linkItem,LruCache.linkItem]
  | some q =>
    simp only [linkItem,LruCache.linkItem,run_assignItem,Option.bind_eq_bind]
    cases s.heap.store q fun d => { d with next := some item } <;> rfl

@[simp] theorem run_allocItem : (allocItem key value valueLength).run s =
    some (⟨s.cache,s.heap.alloc ⟨key,memcpy value valueLength,valueLength,0,s.staleNext s.heap.top⟩,
      s.staleNext⟩,s.heap.top) := rfl

@[simp] theorem run_insertItem : (insertItem prev index key value valueLength).run s =
    LruCache.insertItem s prev index key value valueLength := by
  simp only [insertItem,LruCache.insertItem,Code.run_monadBind,run_makeRoom,run_allocItem,run_linkItem,
    run_assignCache,Code.run_pure,Option.bind_eq_bind,Option.bind_some,Option.bind_map,
    Function.comp_def]
  rfl

/-- A body that is not interrupted is the operation. -/
theorem run_body (c : Call) : (body c).run s = LruCache.step s c := by
  cases hi : lruCacheGetHashIndex s.cache c.key with
  | none =>
    cases c <;> simp [body,LruCache.step,lruCacheSet,lruCacheGet,lruCacheDelete,Call.key] at hi ⊢ <;>
      simp [hi]
  | some i =>
    cases hf : LruCache.findItem s.heap c.key (s.cache.items i) with
    | none =>
      cases c <;>
        simp [body,LruCache.step,lruCacheSet,lruCacheGet,lruCacheDelete,Call.key] at hi hf ⊢ <;>
        simp [hi,hf]
    | some r =>
      obtain ⟨prev,item⟩ := r
      cases c with
      | set key value =>
        dsimp only [Call.key] at hi hf
        cases item with
        | none =>
          simp only [body,LruCache.step,lruCacheSet,Code.run_monadBind,run_locate,hi,hf,
            Option.bind_eq_bind,Option.bind_some,Option.pure_def,run_insertItem,run_stampItem,
            Code.run_pure,Option.bind_map,Function.comp_def]
          cases LruCache.insertItem s prev i key value value.length with
          | none => rfl
          | some t => cases ht : LruCache.stampItem t.1 t.2 <;> simp [ht]
        | some p =>
          simp only [body,LruCache.step,lruCacheSet,Code.run_monadBind,run_locate,hi,hf,
            Option.bind_eq_bind,Option.bind_some,Option.pure_def,run_overwriteItem,run_stampItem,
            Code.run_pure,Option.bind_map,Function.comp_def]
          cases LruCache.overwriteItem s p value value.length with
          | none => rfl
          | some t => cases ht : LruCache.stampItem t.1 t.2 <;> simp [ht]
      | get key =>
        dsimp only [Call.key] at hi hf
        cases item with
        | none => simp [body,LruCache.step,lruCacheGet,hi,hf]
        | some p =>
          cases hc : s.heap.read p with
          | none => simp [body,LruCache.step,lruCacheGet,hi,hf,hc]
          | some d => cases ht : LruCache.stampItem s p <;>
              simp [body,LruCache.step,lruCacheGet,hi,hf,hc,ht]
      | delete key =>
        dsimp only [Call.key] at hi hf
        cases item with
        | none => simp [body,LruCache.step,lruCacheDelete,hi,hf]
        | some p => cases ht : lruCacheRemoveItem s prev p i <;>
            simp [body,LruCache.step,lruCacheDelete,hi,hf,ht]

end Whole

/-- The list program asked the calls one by one. -/
theorem run_machine (place : CString → ℕ) (n : ℕ) (a : Ledger) (calls : List Call) :
    Machine.run (Ledger.machine place n) a calls =
      some ((Machine.drive (Ledger.step place n) a calls).1,
        (Machine.drive (Ledger.step place n) a calls).2) := by
  induction calls generalizing a with
  | nil => rfl
  | cons c calls ih =>
    rw [Machine.run_cons (t := (a.step place n c).1) rfl,ih]
    rfl

/-- A thread sets a key, and another one asks for it in the middle of that. -/
def setAndGet : List (Monitor.Turn Call) :=
  List.flatten [[.invoke 0 (.set key1 [7]),.lock 0,.exec 0,.exec 0,.invoke 1 (.get key1)],
    List.replicate 9 (.exec 0),[.unlock 0,.lock 1],List.replicate 8 (.exec 1),
    [.unlock 1,.leave 1,.leave 0]]

end CStudy.LruCache.Concurrent

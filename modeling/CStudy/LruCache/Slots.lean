import CStudy.LruCache.Hash
import CStudy.LruCache.Retention

/-! The memory behind the table. `LRUCacheNew` asks for as many pointers as there are entries, in a
size that wraps, and the indices are taken modulo the number of entries, which stays what it was.
With no entries there is no index at all, and where the size wraps the array can be shorter than
the table. -/
namespace CStudy.LruCache
open CStudy.Foundation

/-- `sizeof(struct LRUCache)`: six words and a mutex of 40 bytes. -/
def cacheBytes : UInt64 := 88

/-- `sizeof(struct LRUCacheItem *)` -/
def pointerBytes : UInt64 := 8

/-- The size of the request for `cache->items`. -/
def itemsBytes (entries : UInt64) : UInt64 := pointerBytes*entries

/-- The pointers that fit into the memory behind `cache->items`. -/
def allocatedSlots (entries : UInt64) : ℕ := (itemsBytes entries).toNat/pointerBytes.toNat

/-- `LRUCacheNew` where `malloc` serves the requests of some sizes only. The error is the text
given to `perror` before `NULL` is returned. -/
def lruCacheNewMalloc (malloc : UInt64 → Bool) (entries : UInt64) (seed : Int64) (stale : Stale) :
    Except String State :=
  if malloc cacheBytes then
    if malloc (itemsBytes entries) then .ok (lruCacheNew entries.toNat seed stale)
    else .error "malloc"
  else .error "malloc"

theorem lruCacheNewMalloc_eq_ok {malloc : UInt64 → Bool} {entries : UInt64} {seed : Int64}
    {stale : Stale} {s : State} : lruCacheNewMalloc malloc entries seed stale = .ok s ↔
      (malloc cacheBytes = true ∧ malloc (itemsBytes entries) = true) ∧
        lruCacheNew entries.toNat seed stale = s := by
  rw [lruCacheNewMalloc]
  split_ifs with hcache hitems
  · simp [hcache,hitems]
  · simp [hitems]
  · simp [hcache]

theorem allocatedSlots_eq (entries : UInt64) : allocatedSlots entries = entries.toNat%2^61 := by
  rw [allocatedSlots,itemsBytes,UInt64.toNat_mul]
  change 8*entries.toNat%2^64/8 = _
  omega

section Table
variable {s t : State}

/-- The operations do not resize the table, and keep its seed. -/
def SameTable (s t : State) : Prop :=
  t.cache.hashTableSize = s.cache.hashTableSize ∧ t.cache.seed = s.cache.seed

theorem SameTable.refl (s : State) : SameTable s s := ⟨rfl,rfl⟩

theorem SameTable.trans {u : State} (h : SameTable s t) (h' : SameTable t u) : SameTable s u :=
  ⟨h'.1.trans h.1,h'.2.trans h.2⟩

theorem SameTable.count (h : SameTable s t) (n : ℕ) :
    SameTable s { t with cache := { t.cache with currentEntries := n } } := ⟨h.1,h.2⟩

theorem lruCacheRemoveItem_sameTable {prev : Option Ptr} {item : Ptr} {index : ℕ}
    (h : lruCacheRemoveItem s prev item index = some t) : SameTable s t := by
  rw [lruCacheRemoveItem,Option.bind_eq_bind,Option.bind_eq_some_iff] at h
  obtain ⟨c,_,h⟩ := h
  cases prev with
  | some q =>
    obtain ⟨heap,_,h⟩ := Option.bind_eq_some_iff.mp h
    cases h
    exact ⟨rfl,rfl⟩
  | none =>
    cases h
    exact ⟨rfl,rfl⟩

theorem lruCacheRemoveLeastUsedItem_sameTable (h : lruCacheRemoveLeastUsedItem s = some t) :
    SameTable s t := by
  rw [lruCacheRemoveLeastUsedItem,Option.bind_eq_bind,Option.bind_eq_some_iff] at h
  obtain ⟨least,_,h⟩ := h
  split at h
  · cases h
    exact .refl s
  · obtain ⟨u,hu,h⟩ := Option.bind_eq_some_iff.mp h
    cases h
    exact (lruCacheRemoveItem_sameTable hu).count (decr64 u.cache.currentEntries)

theorem makeRoom_sameTable (h : makeRoom s = some t) : SameTable s t := by
  rw [makeRoom] at h
  split_ifs at h
  · exact lruCacheRemoveLeastUsedItem_sameTable h
  · cases h
    exact .refl s

theorem linkItem_sameTable {prev : Option Ptr} {item : Ptr} {index : ℕ}
    (h : linkItem s prev item index = some t) : SameTable s t := by
  cases prev with
  | some q =>
    obtain ⟨heap,_,h⟩ := Option.bind_eq_some_iff.mp h
    cases h
    exact ⟨rfl,rfl⟩
  | none =>
    cases h
    exact ⟨rfl,rfl⟩

theorem stampItem_sameTable {item : Ptr} (h : stampItem s item = some t) : SameTable s t := by
  obtain ⟨heap,_,h⟩ := Option.bind_eq_some_iff.mp h
  cases h
  exact ⟨rfl,rfl⟩

theorem overwriteItem_sameTable {item p : Ptr} {value : List UInt8} {valueLength : ℕ}
    (h : overwriteItem s item value valueLength = some (t,p)) : SameTable s t := by
  obtain ⟨heap,_,h⟩ := Option.bind_eq_some_iff.mp h
  cases h
  exact ⟨rfl,rfl⟩

theorem insertItem_sameTable {prev : Option Ptr} {index : ℕ} {key : CString} {value : List UInt8}
    {valueLength : ℕ} {p : Ptr} (h : insertItem s prev index key value valueLength = some (t,p)) :
    SameTable s t := by
  obtain ⟨u,hu,h⟩ := Option.bind_eq_some_iff.mp h
  obtain ⟨v,hv,h⟩ := Option.bind_eq_some_iff.mp h
  cases h
  have hlink := linkItem_sameTable hv
  have hlink' : SameTable u v := ⟨hlink.1,hlink.2⟩
  exact (makeRoom_sameTable hu).trans (hlink'.count (incr64 v.cache.currentEntries))

theorem lruCacheSet_sameTable {key : CString} {value : List UInt8} {valueLength : ℕ}
    (h : lruCacheSet s key value valueLength = some t) : SameTable s t := by
  obtain ⟨index,_,h⟩ := Option.bind_eq_some_iff.mp h
  obtain ⟨⟨prev,item⟩,_,h⟩ := Option.bind_eq_some_iff.mp h
  cases item with
  | some q =>
    obtain ⟨⟨u,p⟩,hu,h⟩ := Option.bind_eq_some_iff.mp h
    exact (overwriteItem_sameTable hu).trans (stampItem_sameTable h)
  | none =>
    obtain ⟨⟨u,p⟩,hu,h⟩ := Option.bind_eq_some_iff.mp h
    exact (insertItem_sameTable hu).trans (stampItem_sameTable h)

theorem lruCacheGet_sameTable {key : CString} {error : LRUCacheError} {value : Option (List UInt8)}
    {valueLength : ℕ} (h : lruCacheGet s key = some (t,error,value,valueLength)) :
    SameTable s t := by
  obtain ⟨index,_,h⟩ := Option.bind_eq_some_iff.mp h
  obtain ⟨⟨prev,item⟩,_,h⟩ := Option.bind_eq_some_iff.mp h
  cases item with
  | some p =>
    obtain ⟨c,_,h⟩ := Option.bind_eq_some_iff.mp h
    obtain ⟨u,hu,h⟩ := Option.bind_eq_some_iff.mp h
    cases h
    exact stampItem_sameTable hu
  | none =>
    cases h
    exact .refl s

theorem lruCacheDelete_sameTable {key : CString} {error : LRUCacheError}
    (h : lruCacheDelete s key = some (t,error)) : SameTable s t := by
  obtain ⟨index,_,h⟩ := Option.bind_eq_some_iff.mp h
  obtain ⟨⟨prev,item⟩,_,h⟩ := Option.bind_eq_some_iff.mp h
  cases item with
  | some p =>
    obtain ⟨u,hu,h⟩ := Option.bind_eq_some_iff.mp h
    cases h
    exact lruCacheRemoveItem_sameTable hu
  | none =>
    cases h
    exact .refl s

theorem step_sameTable {c : Call} {o : Reply} (h : step s c = some (t,o)) : SameTable s t := by
  cases c with
  | set key value =>
    obtain ⟨u,hu,h⟩ := Option.map_eq_some_iff.mp h
    cases h
    exact lruCacheSet_sameTable hu
  | get key =>
    obtain ⟨⟨u,error,value,valueLength⟩,hu,h⟩ := Option.map_eq_some_iff.mp h
    cases h
    exact lruCacheGet_sameTable hu
  | delete key =>
    obtain ⟨⟨u,error⟩,hu,h⟩ := Option.map_eq_some_iff.mp h
    cases h
    exact lruCacheDelete_sameTable hu

theorem run_sameTable {calls : List Call} {replies : List Reply}
    (h : Machine.run step s calls = some (t,replies)) : SameTable s t := by
  induction calls generalizing s replies with
  | nil =>
    cases h
    exact SameTable.refl _
  | cons c calls ih =>
    obtain ⟨u,o,replies',hc,hrun,_⟩ := Machine.run_cons_eq_some.mp h
    exact (step_sameTable hc).trans (ih hrun)

end Table

/-- The key has an index, and the array has a slot for it. -/
def IndexInside (slots : ℕ) (s : State) (c : Call) : Prop :=
  ∃ index, lruCacheGetHashIndex s.cache c.key = some index ∧ index < slots

def emptyKey : CString := ⟨[],by simp⟩

/-- Every value is the hash of the empty key for some seed. -/
theorem exists_seed (x : UInt32) : ∃ seed, hashKey seed emptyKey = x := by
  refine ⟨(unfinish 16 x).toUInt64.toInt64,?_⟩
  have hlow : (unfinish 16 x).toUInt64.toInt64.toUInt64.toUInt32 = unfinish 16 x := by
    rw [UInt64.toUInt64_toInt64,UInt32.toUInt32_toUInt64]
  rw [hashKey_eq,hlow,finish_sixteen_eq_iff]
  exact UInt32.xor_zero

theorem indexInside_of_fits {entries : UInt64} {s : State} {c : Call} (hpos : entries ≠ 0)
    (hsize : s.cache.hashTableSize = entries.toNat)
    (hroom : entries.toNat < 2^61 ∨ 2^32 ≤ allocatedSlots entries) :
    IndexInside (allocatedSlots entries) s c := by
  have hpos' : 1 ≤ entries.toNat := by
    by_contra hcon
    have hzero : entries.toNat = 0 := by omega
    exact hpos (UInt64.toNat_inj.mp hzero)
  refine ⟨_,hashIndex_of_pos (by omega),?_⟩
  rw [hsize]
  cases hroom with
  | inl hsmall =>
    rw [allocatedSlots_eq,Nat.mod_eq_of_lt hsmall]
    exact Nat.mod_lt _ hpos'
  | inr hlarge =>
    calc (hashKey s.cache.seed c.key).toNat%entries.toNat
        ≤ (hashKey s.cache.seed c.key).toNat := Nat.mod_le _ _
      _ < 2^32 := UInt32.toNat_lt _
      _ ≤ allocatedSlots entries := hlarge

/-- A table that is longer than its array has a seed with which the index of the empty key is the
first one behind the array. -/
theorem exists_seed_outside {entries : UInt64} (hwrap : 2^61 ≤ entries.toNat)
    (hfew : allocatedSlots entries < 2^32) (stale : Stale) : ∃ seed,
      ¬ IndexInside (allocatedSlots entries) (lruCacheNew entries.toNat seed stale)
        (.get emptyKey) := by
  obtain ⟨seed,hseed⟩ := exists_seed (UInt32.ofNat (allocatedSlots entries))
  refine ⟨seed,?_⟩
  rintro ⟨index,hindex,hlt⟩
  have hpos : 1 ≤ (lruCacheNew entries.toNat seed stale).cache.hashTableSize := by
    change 1 ≤ entries.toNat
    omega
  rw [hashIndex_of_pos hpos,Option.some.injEq] at hindex
  change (hashKey seed emptyKey).toNat%entries.toNat = index at hindex
  rw [hseed,UInt32.toNat_ofNat',Nat.mod_eq_of_lt hfew,Nat.mod_eq_of_lt (by omega)] at hindex
  omega

/-- For every number of entries with which `LRUCacheNew` returns a cache: all keys of all calls have
an index inside the array exactly if there is an entry, and the size of the array does not wrap or
still leaves a slot for every hash. -/
theorem indexInside_iff (malloc : UInt64 → Bool) (entries : UInt64)
    (hcache : malloc cacheBytes = true) (hitems : malloc (itemsBytes entries) = true) :
    (∀ seed stale s, lruCacheNewMalloc malloc entries seed stale = .ok s → ∀ calls,
        Machine.EachCall step (IndexInside (allocatedSlots entries)) s calls) ↔
      entries ≠ 0 ∧ (entries.toNat < 2^61 ∨ 2^32 ≤ entries.toNat%2^61) := by
  have hnew : ∀ seed stale, lruCacheNewMalloc malloc entries seed stale =
      .ok (lruCacheNew entries.toNat seed stale) := fun seed stale =>
    lruCacheNewMalloc_eq_ok.mpr ⟨⟨hcache,hitems⟩,rfl⟩
  rw [← allocatedSlots_eq]
  constructor
  · intro h
    have hfirst : ∀ seed, IndexInside (allocatedSlots entries)
        (lruCacheNew entries.toNat seed .zeroed) (.get emptyKey) := fun seed =>
      h seed .zeroed _ (hnew seed .zeroed) [.get emptyKey] [] (.get emptyKey) List.prefix_rfl _ [] rfl
    constructor
    · rintro rfl
      obtain ⟨index,hindex,_⟩ := hfirst 0
      cases hindex
    · by_contra hcon
      rw [not_or,not_lt,not_le] at hcon
      obtain ⟨seed,hseed⟩ := exists_seed_outside hcon.1 hcon.2 .zeroed
      exact hseed (hfirst seed)
  · rintro ⟨hpos,hroom⟩ seed stale s hs calls done c _ t replies hrun
    obtain ⟨_,rfl⟩ := lruCacheNewMalloc_eq_ok.mp hs
    exact indexInside_of_fits hpos (run_sameTable hrun).1 hroom

/-- A `malloc` that serves requests of up to a megabyte. -/
def megabyteMalloc (size : UInt64) : Bool := size ≤ 1048576

/-- A cache of three entries. -/
theorem indexInside_three : megabyteMalloc cacheBytes = true ∧ megabyteMalloc (itemsBytes 3) = true ∧
    ∀ seed stale s, lruCacheNewMalloc megabyteMalloc 3 seed stale = .ok s → ∀ calls,
      Machine.EachCall step (IndexInside (allocatedSlots 3)) s calls :=
  ⟨by decide,by decide,(indexInside_iff megabyteMalloc 3 (by decide) (by decide)).mpr (by decide)⟩

/-- With no entries the index is a division by zero. With `2^61` entries the array has no slot, and
the index is zero. -/
theorem index_outside :
    (∃ s, lruCacheNewMalloc megabyteMalloc 0 0 .zeroed = .ok s ∧
      lruCacheGetHashIndex s.cache emptyKey = none) ∧
    (∃ s, lruCacheNewMalloc megabyteMalloc 0x2000000000000000 0 .zeroed = .ok s ∧
      allocatedSlots 0x2000000000000000 = 0 ∧
      lruCacheGetHashIndex s.cache emptyKey = some 0) := by
  constructor
  · exact ⟨_,lruCacheNewMalloc_eq_ok.mpr ⟨⟨by decide,by decide⟩,rfl⟩,by decide⟩
  · exact ⟨_,lruCacheNewMalloc_eq_ok.mpr ⟨⟨by decide,by decide⟩,rfl⟩,by decide,by decide⟩

end CStudy.LruCache

import CStudy.LruCache.Buffers
import CStudy.LruCache.Accounting

/-! The program with blocks does what the program without them does: every linked item still holds
its buffers, so no call reads, assigns or frees a buffer that was freed. -/
namespace CStudy.LruCache

/-- The key of the item whose value buffer a call frees. -/
def Ledger.frees (place : CString → ℕ) (n : ℕ) (a : Ledger) : Call → Option CString
  | .set k _ => if (a.lookup k).isSome then some k else (a.victim place n).map Entry.key
  | .get _ => none
  | .delete k => (a.lookup k).map Entry.key

/-- The call inserts an item that does not come into the table. -/
def Ledger.InsertLost (place : CString → ℕ) (n : ℕ) (a : Ledger) : Call → Prop
  | .set k _ => a.lookup k = none ∧ a.Loses place n k
  | .get _ => False
  | .delete _ => False

instance (place : CString → ℕ) (n : ℕ) (a : Ledger) (c : Call) : Decidable (a.InsertLost place n c) :=
  match c with
  | .set _ _ => inferInstanceAs (Decidable (_ ∧ _))
  | .get _ => .isFalse id
  | .delete _ => .isFalse id

end CStudy.LruCache

namespace CStudy.LruCache.Blocks
open CStudy.Foundation Ledger

/-- A change of data keeps every list. -/
theorem reaches_modify_data {heap : Heap LRUCacheItem} {f : LRUCacheItem → LRUCacheItem}
    (hf : ∀ d, (f d).next = d.next) {p q : Ptr} {a : Option Ptr} :
    (heap.modify p f).Reaches LRUCacheItem.next a q ↔ heap.Reaches LRUCacheItem.next a q := by
  have hsame : ∀ r, ((heap.modify p f).read r).map LRUCacheItem.next =
      (heap.read r).map LRUCacheItem.next := by
    intro r
    by_cases hrp : r = p
    · subst hrp
      cases hr : heap.read r <;> simp [hr,hf]
    · rw [Heap.read_modify_of_ne hrp]
  exact ⟨fun h => h.congr hsame,fun h => h.congr fun r => (hsame r).symm⟩

/-- The structs that still hold their buffers after the item at `v` is removed. -/
def dropped (held : Finset Ptr) (v : Option Ptr) : Finset Ptr := held.filter fun q => v ≠ some q

@[simp] theorem mem_dropped {held : Finset Ptr} {v : Option Ptr} {q : Ptr} :
    q ∈ dropped held v ↔ q ∈ held ∧ v ≠ some q := by simp [dropped]

theorem dropped_none (held : Finset Ptr) : dropped held none = held := by
  ext q
  simp

theorem dropped_some (held : Finset Ptr) (p : Ptr) : dropped held (some p) = held.erase p := by
  ext q
  simp [and_comm,eq_comm]

section Operations
variable {n : ℕ} {seed : Int64} {m : Memory} {s t : State} {a : Ledger} {held : Finset Ptr}
  {ch : ℕ → List Ptr} {p q : Ptr} {k : CString}

/-- The item of an eviction is the one the scan finds. -/
theorem evicted_eq_leastUsed {place : CString → ℕ} {v : Option Ptr} {least : Least}
    (hl : Layout place n s.heap s.cache.items a.entries ch)
    (hev : Evicts place n a.entries ch s t v (leastUsed place n a.entries))
    (hleast : Scanned s.heap n ch ((List.range n).flatMap ch) least) : v = least.leastUsed := by
  have hrel := hl.leastOf_rel
  rw [← hleast.used] at hrel
  have hshown := hev.shown
  generalize leastUsed place n a.entries = w at hrel hshown
  cases hu : least.leastUsed with
  | none =>
    rw [hu] at hrel
    cases hrel
    cases hshown
    rfl
  | some p =>
    rw [hu] at hrel
    cases hrel with
    | @some _ e hpe =>
      cases hshown with
      | @some q _ hqe =>
        obtain ⟨i,hi,hqi⟩ := hev.linked q rfl
        obtain ⟨hj,l₁,l₂,hch,_⟩ := hleast.found p hu
        rw [hl.eq_of_key a.distinct hi hj hqi (hch ▸ by simp) hqe hpe rfl]

/-- The eviction of the two programs, and the item it frees. -/
theorem Backs.makeRoom (hb : Backs m s held) (hr : Rep n seed s a)
    (hl : Layout (placeOf seed n) n s.heap s.cache.items a.entries ch)
    (hheld : ∀ i < n, ∀ p ∈ ch i, p ∈ held) :
    ∃ t v m', LruCache.makeRoom s = some t ∧
      Evicts (placeOf seed n) n a.entries ch s t v (a.victim (placeOf seed n) n) ∧
      Blocks.makeRoom m = some m' ∧ Backs m' t (dropped held v) ∧
      Releases m held m' (dropped held v) v := by
  obtain ⟨t,v,hmake,hev⟩ := hr.evicts hl
  refine ⟨t,v,?_⟩
  rw [Blocks.makeRoom,hb.readCache_eq]
  dsimp only [Option.bind_eq_bind,Option.bind_some]
  by_cases hfull : s.cache.currentEntries ≥ s.cache.capacity
  · have hvictim : a.victim (placeOf seed n) n = leastUsed (placeOf seed n) n a.entries := by
      rw [victim,if_pos (by rw [← hr.currentEntries,← hr.capacity]; exact hfull)]
    obtain ⟨least,hscan,hleast⟩ := scanBuckets_scanned hl n le_rfl
    have hv : v = least.leastUsed := evicted_eq_leastUsed hl (hvictim ▸ hev) hleast
    subst hv
    have hrun := hmake
    rw [LruCache.makeRoom,if_pos hfull,LruCache.lruCacheRemoveLeastUsedItem,hr.hashTableSize,
      hscan] at hrun
    dsimp only [Option.bind_eq_bind,Option.bind_some] at hrun
    rw [if_pos hfull,lruCacheRemoveLeastUsedItem,hb.readCache_eq]
    dsimp only [Option.bind_eq_bind,Option.bind_some]
    rw [hr.hashTableSize,hb.scanBuckets_eq hr.hashTableSize.ge,hscan,Option.bind_some]
    cases hu : least.leastUsed with
    | none =>
      rw [hu] at hrun hev
      cases hrun
      rw [dropped_none]
      exact ⟨m,hmake,hev,rfl,hb,.refl m held⟩
    | some p =>
      rw [hu] at hrun hev
      dsimp only at hrun ⊢
      obtain ⟨hi,l₁,l₂,hch,_⟩ := hleast.found p hu
      have hp := hheld _ hi p (by simp [hch])
      obtain ⟨c,hc⟩ := hb.allocated p hp
      rw [Option.bind_eq_some_iff] at hrun
      obtain ⟨t₁,hremove,ht⟩ := hrun
      cases ht
      obtain ⟨m₁,hm₁,hb₁,hrel⟩ := hb.removeItem hp hc (by rw [hr.hashTableSize]; exact hi) hremove
      have hset := hb₁.setCache { t₁.cache with
        currentEntries := decr64 t₁.cache.currentEntries }
      rw [dropped_some]
      refine ⟨_,hmake,hev,?_,hset,⟨hrel.dead,hrel.stays,hrel.kept⟩⟩
      rw [hm₁,Option.bind_some,hb₁.cache]
      rfl
  · rw [LruCache.makeRoom,if_neg hfull] at hmake
    have hvictim : a.victim (placeOf seed n) n = none := by
      rw [victim,if_neg (by rw [← hr.currentEntries,← hr.capacity]; exact hfull)]
    have hshown := hev.shown
    rw [hvictim] at hshown
    cases hshown
    cases hmake
    rw [if_neg hfull,dropped_none]
    exact ⟨m,by rw [LruCache.makeRoom,if_neg hfull],hev,rfl,hb,.refl m held⟩

/-- Stamping changes no list. -/
theorem linked_stampItem (h : LruCache.stampItem s p = some t) (q : Ptr) :
    Linked t q ↔ Linked s q := by
  rw [LruCache.stampItem,Option.bind_eq_bind,Option.bind_eq_some_iff] at h
  obtain ⟨heap,hstore,he⟩ := h
  cases he
  rw [Heap.store,Option.map_eq_some_iff] at hstore
  obtain ⟨_,_,rfl⟩ := hstore
  simp only [Linked,reaches_modify_data (f := fun d => { d with age := s.cache.age }) fun _ => rfl]

/-- Where the new struct is linked, and what stays linked. -/
theorem linkItem_linked {place : CString → ℕ} {v : Option Ptr} {d : LRUCacheItem}
    (he : Evicts place n a.entries ch s t v (a.victim place n))
    (hl : Layout place n s.heap s.cache.items a.entries ch) (hn : s.cache.hashTableSize = n)
    (hi : place d.key < n) (hnext : d.next = none) :
    ∃ u, LruCache.linkItem ⟨t.cache,t.heap.alloc d,t.staleNext⟩ (ch (place d.key)).getLast? t.heap.top
        (place d.key) = some u ∧
      (∀ q, Linked s q → v ≠ some q → Linked u q) ∧
      ∀ q, Linked u q → Linked s q ∧ v ≠ some q ∨ q = t.heap.top := by
  have hkept : Layout place n (t.heap.alloc d) t.cache.items (a.kept place n) _ := he.layout.alloc d
  have hp : (t.heap.alloc d).read t.heap.top = some d := Heap.read_alloc_top _ _
  have htop : ∀ i < n, t.heap.top ∉ (ch i).filter fun q => v ≠ some q :=
    fun i hi => he.layout.top_notMem hi
  have hsize : t.cache.hashTableSize = n := by rw [he.cache]; exact hn
  have hlast := hl.getLast?_eq_iff a.distinct hi he.shown he.linked
  by_cases hlose : a.Loses place n d.key
  · -- the item to link behind is the evicted one
    obtain ⟨q,hq,rfl⟩ := hlast.mpr hlose
    obtain ⟨e,hread⟩ := (hl.chain _ hi).read_of_mem (List.mem_of_getLast? hq)
    have hqc : (t.heap.read q).isSome := by
      rw [he.cells q,hread]
      rfl
    obtain ⟨f,hf⟩ := Option.isSome_iff_exists.mp hqc
    have hqt : q ≠ t.heap.top := (Heap.lt_top hf).ne
    obtain ⟨heap,hlink,hl',_⟩ := linkItem_unlinked (s := ⟨t.cache,t.heap.alloc d,t.staleNext⟩)
      (q := q) (i := place d.key) hkept (by simp) (by rw [Heap.read_alloc_of_ne hqt]; exact hqc) hp
      hqt.symm
    rw [hq]
    refine ⟨_,hlink,?_,?_⟩
    · intro r hr hv
      obtain ⟨j,hj,hrj⟩ := (hl.linked_iff hn).mp hr
      exact (hl'.linked_iff (s := ⟨t.cache,heap,t.staleNext⟩) hsize).mpr
        ⟨j,hj,List.mem_filter.mpr ⟨hrj,by simpa using hv⟩⟩
    · intro r hr
      obtain ⟨j,hj,hrj⟩ := (hl'.linked_iff (s := ⟨t.cache,heap,t.staleNext⟩) hsize).mp hr
      obtain ⟨hrj,hv⟩ := List.mem_filter.mp hrj
      exact .inl ⟨(hl.linked_iff hn).mpr ⟨j,hj,hrj⟩,by simpa using hv⟩
  · have hkeep : ((ch (place d.key)).filter fun q => v ≠ some q).getLast? =
        (ch (place d.key)).getLast? :=
      getLast?_filter fun q hq hv => hlose (hlast.mp ⟨q,hq,hv⟩)
    obtain ⟨heap,items,hlink,hl',_⟩ := linkItem_layout
      (s := ⟨t.cache,t.heap.alloc d,t.staleNext⟩) hkept htop hp hnext rfl hi
    rw [hkeep] at hlink
    refine ⟨_,hlink,?_,?_⟩
    · intro r hr hv
      obtain ⟨j,hj,hrj⟩ := (hl.linked_iff hn).mp hr
      have hrj' : r ∈ (ch j).filter fun q => v ≠ some q := List.mem_filter.mpr ⟨hrj,by simpa using hv⟩
      refine (hl'.linked_iff (s := ⟨{ t.cache with items := items },heap,t.staleNext⟩) hsize).mpr
        ⟨j,hj,?_⟩
      by_cases hji : j = place d.key
      · subst hji
        rw [Function.update_self]
        exact List.mem_append_left _ hrj'
      · rwa [Function.update_of_ne hji]
    · intro r hr
      obtain ⟨j,hj,hrj⟩ := (hl'.linked_iff
        (s := ⟨{ t.cache with items := items },heap,t.staleNext⟩) hsize).mp hr
      have hcases : r ∈ (ch j).filter (fun q => v ≠ some q) ∨ r = t.heap.top := by
        by_cases hji : j = place d.key
        · subst hji
          rw [Function.update_self,List.mem_append,List.mem_singleton] at hrj
          exact hrj
        · rw [Function.update_of_ne hji] at hrj
          exact .inl hrj
      rcases hcases with hrj | hrt
      · obtain ⟨hrj,hv⟩ := List.mem_filter.mp hrj
        exact .inl ⟨(hl.linked_iff hn).mpr ⟨j,hj,hrj⟩,by simpa using hv⟩
      · exact .inr hrt

end Operations

/-- What one call does to the two memories: the item `gone` loses its value buffer, every other
linked item stays linked with its buffers, and the structs that hold buffers are counted. -/
structure Stepped (place : CString → ℕ) (n : ℕ) (a : Ledger) (c : Call) (m : Memory) (s : State)
    (held : Finset Ptr) (m' : Memory) (t : State) (held' : Finset Ptr) (gone : Option Ptr) : Prop where
  backs : Backs m' t held'
  linked : ∀ p, Linked t p → p ∈ held'
  frees : Option.Rel (fun p k => Linked s p ∧ ∃ d, s.heap.read p = some d ∧ d.key = k) gone
    (a.frees place n c)
  releases : Releases m held m' held' gone
  keeps : ∀ p, Linked s p → gone ≠ some p → Linked t p
  count : held'.card+a.entries.length =
    held.card+(a.step place n c).1.entries.length+if a.InsertLost place n c then 1 else 0

section Calls
variable {n : ℕ} {seed : Int64} {m : Memory} {s t : State} {a : Ledger} {held : Finset Ptr}
  {ch : ℕ → List Ptr} {p q : Ptr} {k : CString}

theorem held_of_mem (hr : Rep n seed s a)
    (hl : Layout (placeOf seed n) n s.heap s.cache.items a.entries ch)
    (hlinked : ∀ p, Linked s p → p ∈ held) : ∀ i < n, ∀ p ∈ ch i, p ∈ held := by
  intro i hi p hp
  exact hlinked p ((hl.linked_iff hr.hashTableSize).mpr ⟨i,hi,hp⟩)

theorem locate_missing (hb : Backs m s held) (hr : Rep n seed s a) (hn : 0 < n)
    (hl : Layout (placeOf seed n) n s.heap s.cache.items a.entries ch)
    (hlinked : ∀ p, Linked s p → p ∈ held) (hk : a.lookup k = none) :
    locate m k = some (placeOf seed n k,(ch (placeOf seed n k)).getLast?,none) := by
  rw [hb.locate_eq hr hn hl (held_of_mem hr hl hlinked),
    findItem_missing hl (placeOf_lt seed hn k) (lookup_eq_none.mp hk)]
  rfl

/-- A present key is found by both programs, at a linked item that holds its buffers. -/
theorem locate_present {e : Entry} (hb : Backs m s held) (hr : Rep n seed s a) (hn : 0 < n)
    (hl : Layout (placeOf seed n) n s.heap s.cache.items a.entries ch)
    (hlinked : ∀ p, Linked s p → p ∈ held) (hk : a.lookup k = some e) :
    ∃ l₁ p l₂ d, ch (placeOf seed n k) = l₁++p::l₂ ∧ s.heap.read p = some d ∧ toEntry d = e ∧
      d.key = k ∧ LruCache.findItem s.heap k (s.cache.items (placeOf seed n k)) =
        some (l₁.getLast?,some p) ∧
      locate m k = some (placeOf seed n k,l₁.getLast?,some p) ∧ Linked s p ∧ p ∈ held := by
  obtain ⟨l₁,p,l₂,d,hch,hd,he,hkey,hfind⟩ := find_present hn hl hk
  have hp : Linked s p := (hl.linked_iff hr.hashTableSize).mpr
    ⟨_,placeOf_lt seed hn k,by rw [hch]; simp⟩
  refine ⟨l₁,p,l₂,d,hch,hd,he,hkey,hfind,?_,hp,hlinked p hp⟩
  rw [hb.locate_eq hr hn hl (held_of_mem hr hl hlinked),hfind]
  rfl

/-- `LRUCacheGet` frees nothing, and the address it gives out is that of the value of a linked item
with this key. -/
theorem get_stepped (hn : 0 < n) (hr : Rep n seed s a) (hb : Backs m s held)
    (hlinked : ∀ p, Linked s p → p ∈ held) (k : CString) :
    ∃ m' t o, Blocks.step m (.get k) = some (m',o) ∧
      LruCache.step s (.get k) = some (t,(a.step (placeOf seed n) n (.get k)).2) ∧
      Rep n seed t (a.step (placeOf seed n) n (.get k)).1 ∧
      o.follow m' = some (a.step (placeOf seed n) n (.get k)).2 ∧
      Stepped (placeOf seed n) n a (.get k) m s held m' t held none ∧
      ∀ error b len, o = .got error (some b) len → ∃ p d, Linked t p ∧ t.heap.read p = some d ∧
        d.key = k ∧ slots m'.structs held (p,.value) = some b := by
  obtain ⟨ch,hl⟩ := hr.layout
  obtain ⟨t,ht,hr'⟩ := hr.get hn k
  have hreply := ht
  rw [LruCache.step,LruCache.lruCacheGet,hr.hashIndex hn k] at hreply
  dsimp only [Option.bind_eq_bind,Option.bind_some] at hreply
  cases hk : a.lookup k with
  | none =>
    have hloc := locate_missing hb hr hn hl hlinked hk
    rw [findItem_missing hl (placeOf_lt seed hn k) (lookup_eq_none.mp hk)] at hreply
    have hstep : a.step (placeOf seed n) n (.get k) = (a,.got .keyMissing none 0) := by
      rw [Ledger.step,hk]
    rw [hstep] at ht hr' hreply ⊢
    cases hreply
    refine ⟨m,s,.got .keyMissing none 0,?_,ht,hr',rfl,⟨hb,hlinked,.none,.refl m held,
      fun p hp _ => hp,?_⟩,?_⟩
    · simp [Blocks.step,Blocks.lruCacheGet,hloc]
    · simp [hstep,InsertLost]
    · rintro error b len ⟨⟩
  | some e =>
    obtain ⟨l₁,p,l₂,d,hch,hd,rfl,hkey,hfind,hloc,hp,hph⟩ := locate_present hb hr hn hl hlinked hk
    have hstep : a.step (placeOf seed n) n (.get k) =
        (a.touch k,.got .ok (some d.value) d.valueLength) := by
      rw [Ledger.step,hk]
      rfl
    have hstamp := stampItem_eq hd
    rw [hfind,Option.bind_some] at hreply
    dsimp only at hreply
    rw [hd,Option.bind_some,hstamp] at hreply
    obtain ⟨m',hm',hb',hrel⟩ := hb.stampItem hstamp
    obtain ⟨c,hc,hlen,_,_⟩ := hb.read_struct hd
    have hslot := slots_of_mem hph hc .value
    obtain ⟨_,hkept⟩ := hrel.kept p hph (by simp)
    obtain ⟨hsame,hread⟩ := hkept .value
    have hbytes := hb.contents p hph c d hc hd .value
    rw [hstep] at ht hr' hreply ⊢
    cases hreply
    refine ⟨m',_,.got .ok (some c.value) c.valueLength,?_,ht,hr',?_,⟨hb',?_,.none,hrel,?_,?_⟩,?_⟩
    · simp [Blocks.step,Blocks.lruCacheGet,hloc,hc,hm']
    · have hv : m'.buffers.read c.value = some d.value := (hread c.value hslot).trans hbytes
      rw [Reply.follow,hv,Option.map_some,hlen]
    · intro q hq
      exact hlinked q ((linked_stampItem hstamp q).mp hq)
    · intro q hq _
      exact (linked_stampItem hstamp q).mpr hq
    · simp [hstep,InsertLost,touch]
    · rintro error b len ⟨⟩
      refine ⟨p,{ d with age := s.cache.age },(linked_stampItem hstamp p).mpr hp,?_,hkey,
        hsame.trans hslot⟩
      rw [Heap.read_modify_self,hd,Option.map_some]

/-- `LRUCacheDelete` frees both buffers of the item, which leaves the table. -/
theorem delete_stepped (hn : 0 < n) (hr : Rep n seed s a) (hb : Backs m s held)
    (hlinked : ∀ p, Linked s p → p ∈ held) (k : CString) :
    ∃ m' t o held' gone, Blocks.step m (.delete k) = some (m',o) ∧
      LruCache.step s (.delete k) = some (t,(a.step (placeOf seed n) n (.delete k)).2) ∧
      Rep n seed t (a.step (placeOf seed n) n (.delete k)).1 ∧
      o.follow m' = some (a.step (placeOf seed n) n (.delete k)).2 ∧
      Stepped (placeOf seed n) n a (.delete k) m s held m' t held' gone := by
  obtain ⟨ch,hl⟩ := hr.layout
  obtain ⟨t,ht,hr'⟩ := hr.delete hn k
  have hreply := ht
  have hi := placeOf_lt seed hn k
  rw [LruCache.step,LruCache.lruCacheDelete,hr.hashIndex hn k] at hreply
  dsimp only [Option.bind_eq_bind,Option.bind_some] at hreply
  cases hk : a.lookup k with
  | none =>
    have hloc := locate_missing hb hr hn hl hlinked hk
    rw [findItem_missing hl hi (lookup_eq_none.mp hk)] at hreply
    have hstep : a.step (placeOf seed n) n (.delete k) = (a,.deleted .keyMissing) := by
      rw [Ledger.step,hk]
    have hfrees : a.frees (placeOf seed n) n (.delete k) = none := by rw [frees,hk,Option.map_none]
    rw [hstep] at ht hr' hreply ⊢
    cases hreply
    refine ⟨m,s,.deleted .keyMissing,held,none,?_,ht,hr',rfl,hb,hlinked,?_,.refl m held,
      fun p hp _ => hp,?_⟩
    · simp [Blocks.step,Blocks.lruCacheDelete,hloc]
    · rw [hfrees]
      exact .none
    · simp [hstep,InsertLost]
  | some e =>
    obtain ⟨l₁,p,l₂,d,hch,hd,rfl,hkey,hfind,hloc,hp,hph⟩ := locate_present hb hr hn hl hlinked hk
    have hstep : a.step (placeOf seed n) n (.delete k) = (a.erase k,.deleted .ok) := by
      rw [Ledger.step,hk]
    have hfrees : a.frees (placeOf seed n) n (.delete k) = some k := by
      rw [frees,hk,Option.map_some,key_toEntry,hkey]
    obtain ⟨heap,items,hrun,hl',_⟩ := lruCacheRemoveItem_layout hl a.distinct hi hch hd
    obtain ⟨c,hc,_⟩ := hb.read_struct hd
    obtain ⟨m',hm',hb',hrel⟩ := hb.removeItem hph hc (by rw [hr.hashTableSize]; exact hi) hrun
    rw [hfind,Option.bind_some] at hreply
    dsimp only at hreply
    rw [hrun] at hreply
    rw [hstep] at ht hr' hreply ⊢
    cases hreply
    have hiff := fun q => hl'.linked_iff (p := q)
      (s := ⟨{ s.cache with items := items },heap,s.staleNext⟩) hr.hashTableSize
    refine ⟨m',_,.deleted .ok,held.erase p,some p,?_,ht,hr',rfl,hb',?_,?_,hrel,?_,?_⟩
    · simp [Blocks.step,Blocks.lruCacheDelete,hloc,hm']
    · intro q hq
      obtain ⟨j,hj,hqj⟩ := (hiff q).mp hq
      obtain ⟨hqj,hqp⟩ := List.mem_filter.mp hqj
      exact Finset.mem_erase.mpr ⟨by simpa using hqp,
        hlinked q ((hl.linked_iff hr.hashTableSize).mpr ⟨j,hj,hqj⟩)⟩
    · rw [hfrees]
      exact .some ⟨hp,d,hd,hkey⟩
    · intro q hq hqp
      obtain ⟨j,hj,hqj⟩ := (hl.linked_iff hr.hashTableSize).mp hq
      exact (hiff q).mpr ⟨j,hj,List.mem_filter.mpr
        ⟨hqj,decide_eq_true fun h => hqp (congrArg some h.symm)⟩⟩
    · have hlen := Ledger.length_filter_key (lookup_eq_some.mp hk).1
      have hcard := Finset.card_erase_add_one hph
      rw [key_toEntry,hkey] at hlen
      have hlost : ¬ a.InsertLost (placeOf seed n) n (.delete k) := id
      rw [hstep,if_neg hlost]
      change (held.erase p).card+_ = held.card+(a.entries.filter fun e => e.key ≠ k).length+0
      omega

/-- The overwriting `LRUCacheSet` frees the old value, and the item stays where it is. -/
theorem overwrite_stepped {e : Entry} (hn : 0 < n) (hr : Rep n seed s a) (hb : Backs m s held)
    (hlinked : ∀ p, Linked s p → p ∈ held) (v : List UInt8) (hk : a.lookup k = some e) :
    ∃ m' t o held' gone, Blocks.step m (.set k v) = some (m',o) ∧
      LruCache.step s (.set k v) = some (t,(a.step (placeOf seed n) n (.set k v)).2) ∧
      Rep n seed t (a.step (placeOf seed n) n (.set k v)).1 ∧
      o.follow m' = some (a.step (placeOf seed n) n (.set k v)).2 ∧
      Stepped (placeOf seed n) n a (.set k v) m s held m' t held' gone := by
  obtain ⟨ch,hl⟩ := hr.layout
  obtain ⟨t,ht,hr'⟩ := hr.set hn k v
  have hset := ht
  obtain ⟨l₁,p,l₂,d,hch,hd,rfl,hkey,hfind,hloc,hp,hph⟩ := locate_present hb hr hn hl hlinked hk
  rw [LruCache.lruCacheSet,hr.hashIndex hn k] at hset
  dsimp only [Option.bind_eq_bind,Option.bind_some] at hset
  rw [hfind,Option.bind_some] at hset
  dsimp only [LruCache.overwriteItem] at hset
  rw [Heap.store_eq hd] at hset
  dsimp only [Option.bind_eq_bind,Option.bind_some,Option.pure_def] at hset
  obtain ⟨m₁,hm₁,hb₁,hrel₁⟩ := hb.overwriteItem hph hd v v.length
  obtain ⟨m',hm',hb',hrel'⟩ := hb₁.stampItem hset
  have hstep : a.step (placeOf seed n) n (.set k v) = (a.set (placeOf seed n) n k v,.done) := rfl
  have hlen : (a.set (placeOf seed n) n k v).entries.length = a.entries.length := by
    rw [set_of_some hk]
    exact length_amend
  have hfrees : a.frees (placeOf seed n) n (.set k v) = some k := by
    rw [frees,hk,Option.isSome_some,if_pos rfl]
  have hiff : ∀ q, Linked t q ↔ Linked s q := by
    intro q
    rw [linked_stampItem hset]
    simp only [Linked,reaches_modify_data (f := fun d => { d with
      value := memcpy v v.length, valueLength := v.length }) fun _ => rfl]
  refine ⟨m',t,.done,held,some p,?_,?_,hr',rfl,hb',?_,?_,hrel₁.trans hrel',?_,?_⟩
  · simp [Blocks.step,Blocks.lruCacheSet,hloc,hm₁,hm']
  · rw [LruCache.step,ht]
    rfl
  · intro q hq
    exact hlinked q ((hiff q).mp hq)
  · rw [hfrees]
    exact .some ⟨hp,d,hd,hkey⟩
  · intro q hq _
    exact (hiff q).mpr hq
  · rw [hstep,hlen]
    simp [InsertLost,hk]

/-- Removing the evicted struct and adding the new one, counted against the entries. -/
theorem card_insert {place : CString → ℕ} {v : Option Ptr} {w : List UInt8} {top : Ptr}
    (hshown : Option.Rel (fun p e => entryAt s.heap p = some e) v (a.victim place n))
    (hv : ∀ p, v = some p → p ∈ held) (htop : top ∉ dropped held v) (hk : a.lookup k = none) :
    (insert top (dropped held v)).card+a.entries.length =
      held.card+(a.insert place n k w hk).entries.length+if a.Loses place n k then 1 else 0 := by
  rw [Finset.card_insert_of_notMem htop,length_insert]
  generalize hx : a.victim place n = x at hshown
  cases hshown with
  | none =>
    rw [dropped_none,length_kept_of_none hx,if_neg (not_loses_of_none hx),
      if_neg (not_loses_of_none hx)]
    omega
  | @some p e _ =>
    have hcard := Finset.card_erase_add_one (hv p rfl)
    have hlen := length_kept_of_some hx
    rw [dropped_some]
    split_ifs <;> omega

/-- The inserting `LRUCacheSet` frees both buffers of the item it evicts. -/
theorem insert_stepped (hn : 0 < n) (hr : Rep n seed s a) (hb : Backs m s held)
    (hlinked : ∀ p, Linked s p → p ∈ held) (v : List UInt8) (hk : a.lookup k = none) :
    ∃ m' t o held' gone, Blocks.step m (.set k v) = some (m',o) ∧
      LruCache.step s (.set k v) = some (t,(a.step (placeOf seed n) n (.set k v)).2) ∧
      Rep n seed t (a.step (placeOf seed n) n (.set k v)).1 ∧
      o.follow m' = some (a.step (placeOf seed n) n (.set k v)).2 ∧
      Stepped (placeOf seed n) n a (.set k v) m s held m' t held' gone := by
  obtain ⟨ch,hl⟩ := hr.layout
  obtain ⟨t,ht,hr'⟩ := hr.set hn k v
  have hset := ht
  have hi := placeOf_lt seed hn k
  have hheld := held_of_mem hr hl hlinked
  rw [LruCache.lruCacheSet,hr.hashIndex hn k] at hset
  dsimp only [Option.bind_eq_bind,Option.bind_some] at hset
  rw [findItem_missing hl hi (lookup_eq_none.mp hk),Option.bind_some] at hset
  dsimp only [LruCache.insertItem] at hset
  obtain ⟨t₀,x,m₀,hmake,hev,hmake',hb₀,hrel₀⟩ := hb.makeRoom hr hl hheld
  have hsize : t₀.cache.hashTableSize = n := by rw [hev.cache]; exact hr.hashTableSize
  have hnext : t₀.staleNext t₀.heap.top = none := by rw [hev.staleNext]; exact hr.staleNext _
  obtain ⟨u,hlink,hkeeps,hlinks⟩ := linkItem_linked
    (d := ⟨k,memcpy v v.length,v.length,0,t₀.staleNext t₀.heap.top⟩) hev hl hr.hashTableSize hi hnext
  rw [hmake] at hset
  dsimp only [Option.bind_eq_bind,Option.bind_some] at hset
  rw [hlink] at hset
  dsimp only [Option.bind_eq_bind,Option.bind_some,Option.pure_def] at hset
  -- the same statements with blocks
  have hb₁ := hb₀.alloc k (memcpy v v.length) v.length (t₀.staleNext t₀.heap.top)
  have hrel₁ := hb₀.releases_alloc (k.val++[0]) (memcpy v v.length)
    ⟨m₀.buffers.top,m₀.buffers.top+1,v.length,0,t₀.staleNext t₀.heap.top⟩
  obtain ⟨m₂,hm₂,hb₂,hrel₂⟩ := hb₁.linkItem (i := placeOf seed n k) (by rw [hsize]; exact hi) hlink
  dsimp only at hm₂
  have hb₃ := hb₂.setCache { u.cache with currentEntries := incr64 u.cache.currentEntries }
  obtain ⟨m',hm',hb',hrel'⟩ := hb₃.stampItem hset
  have hrel : Releases m held m' (insert m₀.structs.top (dropped held x)) x :=
    ((hrel₀.trans hrel₁).trans hrel₂).trans ⟨hrel'.dead,hrel'.stays,hrel'.kept⟩
  have hfrees : a.frees (placeOf seed n) n (.set k v) =
      (a.victim (placeOf seed n) n).map Entry.key := by
    rw [frees,hk,Option.isSome_none,if_neg Bool.false_ne_true]
  refine ⟨m',t,.done,_,x,?_,?_,hr',rfl,hb',?_,?_,hrel,?_,?_⟩
  · rw [Blocks.step,Blocks.lruCacheSet,locate_missing hb hr hn hl hlinked hk]
    dsimp only [Option.bind_eq_bind,Option.bind_some]
    rw [Blocks.insertItem,hmake']
    dsimp only [Option.bind_eq_bind,Option.bind_some,Memory.malloc]
    have hstale : m₀.staleNext t₀.heap.top = t₀.staleNext t₀.heap.top := by rw [hb₀.staleNext]
    rw [hb₀.top,hstale,Heap.top_alloc,hm₂,Option.bind_some]
    dsimp only [Option.pure_def]
    rw [hb₂.cache,Option.bind_some]
    dsimp only
    rw [hm']
    rfl
  · rw [LruCache.step,ht]
    rfl
  · intro q hq
    rw [Finset.mem_insert,mem_dropped,hb₀.top]
    rcases hlinks q ((linked_stampItem hset q).mp hq) with ⟨hqs,hqx⟩ | hqt
    · exact .inr ⟨hlinked q hqs,hqx⟩
    · exact .inl hqt
  · rw [hfrees]
    have hshown := hev.shown
    have hlx := hev.linked
    generalize a.victim (placeOf seed n) n = w at hshown
    cases hshown with
    | none => exact .none
    | @some p e hpe =>
      obtain ⟨d,hd,rfl⟩ := entryAt_eq_some.mp hpe
      exact .some ⟨(hl.linked_iff hr.hashTableSize).mpr (hlx p rfl),d,hd,rfl⟩
  · intro q hq hqx
    exact (linked_stampItem hset q).mpr (hkeeps q hq hqx)
  · have hcard := card_insert (w := v) hev.shown
      (fun p hp => hlinked p ((hl.linked_iff hr.hashTableSize).mpr (hev.linked p hp)))
      hb₀.top_notMem hk
    rw [hcard,Ledger.step,set_of_none hk]
    simp [InsertLost,hk]

/-- Every call of the program with blocks is matched by the other two. -/
theorem stepped (hn : 0 < n) (hr : Rep n seed s a) (hb : Backs m s held)
    (hlinked : ∀ p, Linked s p → p ∈ held) (c : Call) :
    ∃ m' t o held' gone, Blocks.step m c = some (m',o) ∧
      LruCache.step s c = some (t,(a.step (placeOf seed n) n c).2) ∧
      Rep n seed t (a.step (placeOf seed n) n c).1 ∧
      o.follow m' = some (a.step (placeOf seed n) n c).2 ∧
      Stepped (placeOf seed n) n a c m s held m' t held' gone := by
  cases c with
  | set k v =>
    cases hk : a.lookup k with
    | some e => exact overwrite_stepped hn hr hb hlinked v hk
    | none => exact insert_stepped hn hr hb hlinked v hk
  | get k =>
    obtain ⟨m',t,o,hm,ht,hr',ho,hs,_⟩ := get_stepped hn hr hb hlinked k
    exact ⟨m',t,o,held,none,hm,ht,hr',ho,hs⟩
  | delete k => exact delete_stepped hn hr hb hlinked k

end Calls
end CStudy.LruCache.Blocks

import CStudy.LruCache.Scan

/-! The heap program refines the list program. Started on zeroed memory, every operation is
defined, returns what the list operation returns, and leaves a layout of the new list. -/
namespace CStudy.LruCache
open CStudy.Foundation Ledger

theorem memcmp_eq_zero {as bs : List UInt8} (hl : as.length = bs.length) :
    memcmp as bs = 0 ↔ as = bs := by
  induction as generalizing bs with
  | nil => cases bs with
    | nil => simp [memcmp]
    | cons b bs => simp at hl
  | cons a as ih => cases bs with
    | nil => simp at hl
    | cons b bs =>
      rw [memcmp]
      split_ifs with hab
      · subst hab
        simp [ih (by simpa using hl)]
      · have hn : a.toNat ≠ b.toNat := fun h => hab (UInt8.toNat_inj.mp h)
        constructor
        · intro h; omega
        · intro h; exact absurd (List.cons.inj h).1 hab

theorem lruCacheCompareKey_eq_zero {c : LRUCacheItem} {k : CString} :
    lruCacheCompareKey c k = 0 ↔ c.key = k := by
  unfold lruCacheCompareKey strlen
  split_ifs with hl
  · simp only [one_ne_zero,false_iff]
    rintro rfl
    exact hl rfl
  · rw [memcmp_eq_zero (not_not.mp hl),eq_comm]
    exact Subtype.ext_iff.symm

/-- The bucket of a key in a table of `n` buckets. -/
def placeOf (seed : Int64) (n : ℕ) (k : CString) : ℕ := (hashKey seed k).toNat % n

theorem placeOf_lt (seed : Int64) {n : ℕ} (hn : 0 < n) (k : CString) : placeOf seed n k < n :=
  Nat.mod_lt _ hn

section Operations
variable {place : CString → ℕ} {n : ℕ} {s : State} {es : List Entry} {ch : ℕ → List Ptr} {i : ℕ}
  {p q : Ptr} {c : LRUCacheItem} {k : CString} {l₁ l₂ : List Ptr}

theorem findItem_found (hl : Layout place n s.heap s.cache.items es ch)
    (hd : (es.map Entry.key).Nodup) (hi : i < n) (hch : ch i = l₁++p::l₂)
    (hc : s.heap.read p = some c) :
    findItem s.heap c.key (s.cache.items i) = some (l₁.getLast?,some p) := by
  have hchain := hl.chain i hi
  rw [hch] at hchain
  have hlen := hchain.length_le_top
  rw [List.length_append,List.length_cons] at hlen
  have hnd := List.nodup_cons.mp (List.nodup_middle.mp hchain.nodup)
  obtain ⟨m,hs,rfl,_⟩ := hchain.split
  have hp : p ∈ ch i := by simp [hch]
  rw [findItem,Heap.search_found hs (lt_of_lt_of_le (by omega) hlen) ?_ hc]
  · simp
  · rw [beq_iff_eq,lruCacheCompareKey_eq_zero]
  · intro r hr d hdr
    rw [beq_eq_false_iff_ne,ne_eq,lruCacheCompareKey_eq_zero]
    intro hk
    have hri : r ∈ ch i := by simp [hch,hr]
    obtain rfl := hl.eq_of_key hd hi hi hri hp (entryAt_of_read hdr) (entryAt_of_read hc) hk
    exact hnd.1 (List.mem_append_left l₂ hr)

theorem findItem_missing (hl : Layout place n s.heap s.cache.items es ch) (hi : i < n)
    (hk : ∀ e ∈ es, e.key ≠ k) :
    findItem s.heap k (s.cache.items i) = some ((ch i).getLast?,none) := by
  have hchain := hl.chain i hi
  rw [findItem,Heap.search_missing hchain hchain.length_le_top]
  · simp
  · intro r hr d hdr
    rw [beq_eq_false_iff_ne,ne_eq,lruCacheCompareKey_eq_zero]
    obtain ⟨e,he,hes,_⟩ := hl.entry_of_mem hi hr
    cases he.symm.trans (entryAt_of_read hdr)
    exact hk _ hes

/-- No cell is deallocated between two heaps. -/
def SameCells (h h' : Heap LRUCacheItem) : Prop := ∀ q, (h'.read q).isSome = (h.read q).isSome

theorem sameCells_modify (h : Heap LRUCacheItem) (q : Ptr) (f : LRUCacheItem → LRUCacheItem) :
    SameCells h (h.modify q f) := by
  intro r
  by_cases hr : r = q
  · subst hr; rw [Heap.read_modify_self,Option.isSome_map]
  · rw [Heap.read_modify_of_ne hr]

/-- Unlinking takes the address out of its chain and touches nothing else. -/
theorem lruCacheRemoveItem_layout (hl : Layout place n s.heap s.cache.items es ch)
    (hd : (es.map Entry.key).Nodup) (hi : i < n) (hch : ch i = l₁++p::l₂)
    (hc : s.heap.read p = some c) :
    ∃ heap items, lruCacheRemoveItem s l₁.getLast? p i =
        some ⟨{ s.cache with items := items },heap,s.staleNext⟩ ∧
      Layout place n heap items (es.filter fun e => e.key ≠ c.key)
        (fun j => (ch j).filter fun q => q ≠ p) ∧ SameCells s.heap heap := by
  rcases List.eq_nil_or_concat l₁ with rfl | ⟨l,q,rfl⟩
  · refine ⟨s.heap,Function.update s.cache.items i c.next,?_,hl.unlink_head hd hi hch hc,fun _ => rfl⟩
    simp [lruCacheRemoveItem,hc]
  · rw [List.concat_eq_append] at hch ⊢
    rw [List.append_assoc,List.singleton_append] at hch
    obtain ⟨d,hq⟩ := (hl.chain i hi).read_of_mem (show q ∈ ch i by simp [hch])
    refine ⟨s.heap.modify q fun d => { d with next := c.next },s.cache.items,?_,
      hl.unlink_next hd hi hch hc,sameCells_modify _ _ _⟩
    simp [lruCacheRemoveItem,hc,Heap.store_eq hq]

/-- A new item is linked as the last one of its bucket. -/
theorem linkItem_layout (hl : Layout place n s.heap s.cache.items es ch)
    (hp : ∀ i < n, p ∉ ch i) (hc : s.heap.read p = some c) (hn : c.next = none)
    (hi : place c.key = i) (hin : i < n) :
    ∃ heap items, linkItem s (ch i).getLast? p i =
        some ⟨{ s.cache with items := items },heap,s.staleNext⟩ ∧
      Layout place n heap items (es++[toEntry c]) (Function.update ch i (ch i++[p])) ∧
      heap.read p = some c := by
  rcases List.eq_nil_or_concat (ch i) with hch | ⟨l,q,hch⟩
  · refine ⟨s.heap,Function.update s.cache.items i (some p),?_,hl.link_head hch hp hc hn hi,hc⟩
    rw [hch]
    rfl
  · rw [List.concat_eq_append] at hch
    have hqi : q ∈ ch i := by simp [hch]
    have hpq : p ≠ q := fun h => hp i hin (h ▸ hqi)
    obtain ⟨d,hq⟩ := (hl.chain i hin).read_of_mem hqi
    refine ⟨s.heap.modify q fun d => { d with next := some p },s.cache.items,?_,
      hl.link_last hch hp hc hn hi hin,?_⟩
    · rw [hch,List.getLast?_concat]
      simp [linkItem,Heap.store_eq hq]
    · rw [Heap.read_modify_of_ne hpq,hc]

/-- A new item linked behind an item that has left the table stays out of the table. -/
theorem linkItem_unlinked (hl : Layout place n s.heap s.cache.items es ch)
    (hq : ∀ i < n, q ∉ ch i) (hs : (s.heap.read q).isSome) (hc : s.heap.read p = some c)
    (hpq : p ≠ q) :
    ∃ heap, linkItem s (some q) p i = some ⟨s.cache,heap,s.staleNext⟩ ∧
      Layout place n heap s.cache.items es ch ∧ heap.read p = some c := by
  obtain ⟨d,hd⟩ := Option.isSome_iff_exists.mp hs
  refine ⟨s.heap.modify q fun d => { d with next := some p },?_,hl.modify_unlinked hq _,?_⟩
  · simp [linkItem,Heap.store_eq hd]
  · rw [Heap.read_modify_of_ne hpq,hc]

end Operations

/-- The cache `s` of `n` buckets holds the entries of `a`, and memory is handed out zeroed. -/
structure Rep (n : ℕ) (seed : Int64) (s : State) (a : Ledger) : Prop where
  layout : ∃ ch, Layout (placeOf seed n) n s.heap s.cache.items a.entries ch
  hashTableSize : s.cache.hashTableSize = n
  capacity : s.cache.capacity = n
  seed : s.cache.seed = seed
  currentEntries : s.cache.currentEntries = a.currentEntries
  age : s.cache.age = a.age
  staleNext : ∀ p, s.staleNext p = none

/-- A new cache whose slots and item structs come from zeroed memory, whatever its age. -/
theorem rep_new {n : ℕ} (seed : Int64) {stale : Stale} (hi : ∀ i < n, stale.items i = none)
    (hs : ∀ p, stale.next p = none) :
    Rep n seed (lruCacheNew n seed stale) (Ledger.empty stale.age.toNat) where
  layout := ⟨fun _ => [],hi,fun _ _ _ _ _ => List.disjoint_nil_left _,fun _ _ => rfl⟩
  hashTableSize := rfl
  capacity := rfl
  seed := rfl
  currentEntries := rfl
  age := rfl
  staleNext := hs

theorem rep_zeroed (n : ℕ) (seed : Int64) :
    Rep n seed (lruCacheNew n seed .zeroed) (Ledger.empty 0) :=
  rep_new seed (fun _ _ => rfl) fun _ => rfl

section Simulation
variable {n : ℕ} {seed : Int64} {s : State} {a : Ledger} {k : CString} {ch : ℕ → List Ptr}

theorem Rep.hashIndex (hr : Rep n seed s a) (hn : 0 < n) (k : CString) :
    lruCacheGetHashIndex s.cache k = some (placeOf seed n k) := by
  rw [lruCacheGetHashIndex,hr.hashTableSize,if_neg hn.ne',hr.seed]
  rfl

/-- The address that shows a present key, and its position in its chain. -/
theorem Layout.split_of_entry {place : CString → ℕ} {heap : Heap LRUCacheItem}
    {items : ℕ → Option Ptr} {es : List Entry} {e : Entry}
    (hl : Layout place n heap items es ch) (hi : place e.key < n) (he : e ∈ es) :
    ∃ l₁ p l₂ c, ch (place e.key) = l₁++p::l₂ ∧ heap.read p = some c ∧ toEntry c = e := by
  obtain ⟨p,hp,hpe⟩ := hl.mem_of_entry hi he
  obtain ⟨l₁,l₂,hch⟩ := List.append_of_mem hp
  obtain ⟨c,hc,hce⟩ := entryAt_eq_some.mp hpe
  exact ⟨l₁,p,l₂,c,hch,hc,hce⟩

theorem Layout.getLast?_rel {place : CString → ℕ} {heap : Heap LRUCacheItem}
    {items : ℕ → Option Ptr} {es : List Entry} {i : ℕ}
    (hl : Layout place n heap items es ch) (hi : i < n) :
    Option.Rel (fun p e => entryAt heap p = some e) (ch i).getLast? (bucket place es i).getLast? := by
  have h := congrArg List.getLast? (hl.shows i hi)
  rw [List.getLast?_map,List.getLast?_map] at h
  revert h
  cases (ch i).getLast? <;> cases (bucket place es i).getLast? <;> simp

/-- The last item of a chain is at `v` exactly if it shows the entry that `v` shows. -/
theorem Layout.getLast?_eq_iff {place : CString → ℕ} {heap : Heap LRUCacheItem}
    {items : ℕ → Option Ptr} {es : List Entry} {i : ℕ} {v : Option Ptr} {w : Option Entry}
    (hl : Layout place n heap items es ch) (hd : (es.map Entry.key).Nodup) (hi : i < n)
    (hshown : Option.Rel (fun p e => entryAt heap p = some e) v w)
    (hlinked : ∀ p, v = some p → ∃ i < n, p ∈ ch i) :
    (∃ q, (ch i).getLast? = some q ∧ v = some q) ↔
      ∃ e, w = some e ∧ (bucket place es i).getLast? = some e := by
  have hlast := hl.getLast?_rel hi
  constructor
  · rintro ⟨q,hq,rfl⟩
    rw [hq] at hlast
    cases hshown with
    | @some _ e hqe =>
      refine ⟨e,rfl,?_⟩
      generalize (bucket place es i).getLast? = b at hlast
      cases hlast with
      | @some _ e' hqe' => exact congrArg some (Option.some.inj (hqe'.symm.trans hqe))
  · rintro ⟨e,rfl,hb⟩
    rw [hb] at hlast
    cases hq : (ch i).getLast? with
    | none => rw [hq] at hlast; cases hlast
    | some q =>
      rw [hq] at hlast
      cases v with
      | none => cases hshown
      | some p =>
        cases hshown with
        | some hp =>
          cases hlast with
          | some hqe =>
            obtain ⟨j,hj,hpj⟩ := hlinked p rfl
            exact ⟨q,rfl,congrArg some
              (hl.eq_of_key hd hj hi hpj (List.mem_of_getLast? hq) hp hqe rfl)⟩

/-- The state `t` is `s` without the item at `v`, which shows the entry `w`. -/
structure Evicts (place : CString → ℕ) (n : ℕ) (es : List Entry) (ch : ℕ → List Ptr) (s t : State)
    (v : Option Ptr) (w : Option Entry) : Prop where
  shown : Option.Rel (fun p e => entryAt s.heap p = some e) v w
  linked : ∀ p, v = some p → ∃ i < n, p ∈ ch i
  layout : Layout place n t.heap t.cache.items (without es w)
    (fun j => (ch j).filter fun q => v ≠ some q)
  cells : SameCells s.heap t.heap
  cache : t.cache = { s.cache with
    items := t.cache.items
    currentEntries := if w.isSome then decr64 s.cache.currentEntries else s.cache.currentEntries }
  staleNext : t.staleNext = s.staleNext

section Eviction
variable {place : CString → ℕ} {es : List Entry}

theorem evicts_none (hl : Layout place n s.heap s.cache.items es ch) :
    Evicts place n es ch s s none none where
  shown := .none
  linked := by rintro p ⟨⟩
  layout := by simpa [without] using hl
  cells _ := rfl
  cache := rfl
  staleNext := rfl

/-- The scan followed by the removal evicts the least used entry. -/
theorem lruCacheRemoveLeastUsedItem_evicts (hl : Layout place n s.heap s.cache.items es ch)
    (hd : (es.map Entry.key).Nodup) (hn : s.cache.hashTableSize = n) :
    ∃ t v, lruCacheRemoveLeastUsedItem s = some t ∧
      Evicts place n es ch s t v (leastUsed place n es) := by
  obtain ⟨least,hscan,hleast⟩ := scanBuckets_scanned hl n le_rfl
  have hrel := hl.leastOf_rel
  rw [← hleast.used] at hrel
  rw [lruCacheRemoveLeastUsedItem,hn,hscan]
  dsimp only [Option.bind_eq_bind,Option.bind_some]
  generalize leastUsed place n es = w at hrel ⊢
  cases hu : least.leastUsed with
  | none =>
    rw [hu] at hrel
    cases hrel
    exact ⟨s,none,rfl,evicts_none hl⟩
  | some p =>
    rw [hu] at hrel
    cases hrel with
    | @some _ w hw =>
      obtain ⟨hi,l₁,l₂,hch,hprev⟩ := hleast.found p hu
      obtain ⟨c,hc,rfl⟩ := entryAt_eq_some.mp hw
      obtain ⟨heap,items,hrun,hl',hsame⟩ := lruCacheRemoveItem_layout hl hd hi hch hc
      rw [hprev]
      dsimp only
      rw [hrun]
      refine ⟨_,some p,rfl,.some hw,?_,?_,hsame,?_,rfl⟩
      · rintro q ⟨rfl⟩
        exact ⟨least.leastIndex,hi,by simp [hch]⟩
      · simpa [without,eq_comm] using hl'
      · simp

/-- A chain whose last item is not evicted keeps it. -/
theorem getLast?_filter {v : Option Ptr} {l : List Ptr} (h : ∀ q, l.getLast? = some q → v ≠ some q) :
    (l.filter fun q => v ≠ some q).getLast? = l.getLast? := by
  rcases List.eq_nil_or_concat l with rfl | ⟨l,q,rfl⟩
  · rfl
  · rw [List.concat_eq_append] at h ⊢
    have hq := h q (List.getLast?_concat)
    rw [List.filter_append,List.filter_cons_of_pos (by simpa using hq),List.filter_nil,
      List.getLast?_concat,List.getLast?_concat]

end Eviction

/-- The eviction an insert begins with, if there is one. -/
theorem Rep.evicts (hr : Rep n seed s a)
    (hl : Layout (placeOf seed n) n s.heap s.cache.items a.entries ch) :
    ∃ t v, makeRoom s = some t ∧
      Evicts (placeOf seed n) n a.entries ch s t v (a.victim (placeOf seed n) n) := by
  rw [makeRoom,hr.capacity,hr.currentEntries,victim]
  split_ifs
  · exact lruCacheRemoveLeastUsedItem_evicts hl a.distinct hr.hashTableSize
  · exact ⟨s,none,rfl,evicts_none hl⟩

theorem incr64_decr64 {x : ℕ} (hx : x < 2^64) : incr64 (decr64 x) = x := by
  unfold incr64 decr64
  omega

/-- A layout of the new entries and the right counters make a representation. -/
theorem Rep.of_layout {t : State} {b : Ledger} (hr : Rep n seed s a)
    (hl : Layout (placeOf seed n) n t.heap t.cache.items b.entries ch)
    (hc : t.cache = { s.cache with
      items := t.cache.items, currentEntries := b.currentEntries, age := b.age })
    (hs : t.staleNext = s.staleNext) : Rep n seed t b where
  layout := ⟨ch,hl⟩
  hashTableSize := by rw [hc]; exact hr.hashTableSize
  capacity := by rw [hc]; exact hr.capacity
  seed := by rw [hc]; exact hr.seed
  currentEntries := by rw [hc]
  age := by rw [hc]
  staleNext := by rw [hs]; exact hr.staleNext

/-- The last two statements of `Set` and `Get` on an allocated item. -/
theorem stampItem_eq {p : Ptr} {c : LRUCacheItem} (hp : s.heap.read p = some c) :
    stampItem s p = some ⟨{ s.cache with age := incr64 s.cache.age },
      s.heap.modify p fun c => { c with age := s.cache.age },s.staleNext⟩ := by
  simp [stampItem,Heap.store_eq hp]

/-- Stamping the only entry with the key `k` at the end of the list. -/
theorem stamp_concat {es : List Entry} {e : Entry} (hk : ∀ e' ∈ es, e'.key ≠ e.key) (x : ℕ) :
    (es++[e]).map (fun e' => if e'.key = e.key then { e' with age := x } else e') =
      es++[{ e with age := x }] := by
  rw [List.map_append,List.map_singleton,if_pos rfl]
  congr 1
  rw [List.map_congr_left fun e' he' => if_neg (hk e' he'),List.map_id']

/-- Allocating, linking and stamping a new item after an eviction. -/
theorem Evicts.link {place : CString → ℕ} {t : State} {v : Option Ptr} {c : LRUCacheItem}
    (he : Evicts place n a.entries ch s t v (a.victim place n))
    (hl : Layout place n s.heap s.cache.items a.entries ch) (hi : place c.key < n)
    (hc : c.next = none) (hk : a.lookup c.key = none) (x : ℕ) :
    ∃ heap items ch', linkItem ⟨t.cache,t.heap.alloc c,t.staleNext⟩ (ch (place c.key)).getLast?
        t.heap.top (place c.key) = some ⟨{ t.cache with items := items },heap,t.staleNext⟩ ∧
      heap.read t.heap.top = some c ∧
      Layout place n (heap.modify t.heap.top fun d => { d with age := x }) items
        (if a.Loses place n c.key then a.kept place n
          else a.kept place n++[{ toEntry c with age := x }]) ch' := by
  have hkept : Layout place n (t.heap.alloc c) t.cache.items (a.kept place n) _ := he.layout.alloc c
  have hp : (t.heap.alloc c).read t.heap.top = some c := Heap.read_alloc_top _ _
  have htop : ∀ i < n, t.heap.top ∉ (ch i).filter fun q => v ≠ some q :=
    fun i hi => he.layout.top_notMem hi
  have hlast := hl.getLast?_eq_iff a.distinct hi he.shown he.linked
  split_ifs with hlose
  · -- the item to link behind is the evicted one
    obtain ⟨q,hq,rfl⟩ := hlast.mpr hlose
    have hqc : (t.heap.read q).isSome := by
      obtain ⟨d,hd⟩ := (hl.chain _ hi).read_of_mem (List.mem_of_getLast? hq)
      rw [he.cells q,hd]
      rfl
    obtain ⟨d,hd⟩ := Option.isSome_iff_exists.mp hqc
    have hqt : q ≠ t.heap.top := (Heap.lt_top hd).ne
    obtain ⟨heap,hlink,hl',hp'⟩ := linkItem_unlinked (s := ⟨t.cache,t.heap.alloc c,t.staleNext⟩)
      (q := q) hkept (by simp) (by rw [Heap.read_alloc_of_ne hqt]; exact hqc) hp hqt.symm
    refine ⟨heap,t.cache.items,_,?_,hp',hl'.modify_unlinked htop _⟩
    rw [hq]
    exact hlink
  · have hkeep : ((ch (place c.key)).filter fun q => v ≠ some q).getLast? =
        (ch (place c.key)).getLast? :=
      getLast?_filter fun q hq hv => hlose (hlast.mp ⟨q,hq,hv⟩)
    have hfresh : ∀ e ∈ a.kept place n, e.key ≠ c.key :=
      fun e hem => lookup_eq_none.mp hk e ((a.kept_sublist place n).mem hem)
    obtain ⟨heap,items,hlink,hl',hp'⟩ := linkItem_layout
      (s := ⟨t.cache,t.heap.alloc c,t.staleNext⟩) hkept htop hp hc rfl hi
    have hd : ((a.kept place n++[toEntry c]).map Entry.key).Nodup := by
      rw [List.map_append,List.map_singleton,List.nodup_append]
      refine ⟨a.distinct.sublist ((a.kept_sublist place n).map Entry.key),List.nodup_singleton _,?_⟩
      rintro y hy z hz rfl
      obtain ⟨e,hem,hey⟩ := List.mem_map.mp hy
      exact hfresh e hem (hey.trans (List.mem_singleton.mp hz))
    have hstamp := hl'.amend (f := fun d => { d with age := x }) (g := fun e => { e with age := x })
      hd hi (by rw [Function.update_self]; simp) hp' (fun _ => rfl) (fun _ => rfl) (fun _ => rfl)
    have hmap := stamp_concat (e := toEntry c) hfresh x
    rw [key_toEntry] at hmap
    rw [hmap] at hstamp
    refine ⟨heap,items,_,?_,hp',hstamp⟩
    rw [← hkeep]
    exact hlink

/-- The branch of `Set` for an absent key refines the insert of the list. -/
theorem Rep.insert (hr : Rep n seed s a) (hn : 0 < n)
    (hl : Layout (placeOf seed n) n s.heap s.cache.items a.entries ch)
    (hk : a.lookup k = none) (v : List UInt8) :
    ∃ t p u, insertItem s (ch (placeOf seed n k)).getLast? (placeOf seed n k) k v v.length =
        some (t,p) ∧ stampItem t p = some u ∧ Rep n seed u (a.insert (placeOf seed n) n k v hk) := by
  obtain ⟨t,x,ht,he⟩ := hr.evicts hl
  have hcount : incr64 t.cache.currentEntries = (a.insert (placeOf seed n) n k v hk).currentEntries := by
    rw [he.cache,hr.currentEntries]
    dsimp only [Ledger.insert]
    split_ifs
    · exact incr64_decr64 a.bounded
    · rfl
  have hage : t.cache.age = a.age := by rw [he.cache,← hr.age]
  have hnext : t.staleNext t.heap.top = none := by rw [he.staleNext]; exact hr.staleNext _
  obtain ⟨heap,items,ch',hlink,hp,hl'⟩ := he.link (c := ⟨k,memcpy v v.length,v.length,0,
    t.staleNext t.heap.top⟩) hl (placeOf_lt seed hn k) hnext hk t.cache.age
  refine ⟨⟨{ t.cache with items := items, currentEntries := incr64 t.cache.currentEntries },heap,
    t.staleNext⟩,t.heap.top,_,?_,stampItem_eq hp,?_⟩
  · rw [insertItem,ht]
    dsimp only [Option.bind_eq_bind,Option.bind_some]
    rw [hlink]
    rfl
  · have hv : memcpy v v.length = v := List.take_length
    simp only [toEntry,hv,hage] at hl'
    rw [hage]
    refine hr.of_layout hl' ?_ he.staleNext
    rw [hcount,he.cache]
    rfl

/-- A present key is found at the position of its entry. -/
theorem find_present {e : Entry} (hn : 0 < n)
    (hl : Layout (placeOf seed n) n s.heap s.cache.items a.entries ch)
    (hk : a.lookup k = some e) :
    ∃ l₁ p l₂ c, ch (placeOf seed n k) = l₁++p::l₂ ∧ s.heap.read p = some c ∧ toEntry c = e ∧
      c.key = k ∧ findItem s.heap k (s.cache.items (placeOf seed n k)) =
        some (l₁.getLast?,some p) := by
  obtain ⟨he,rfl⟩ := lookup_eq_some.mp hk
  have hi := placeOf_lt seed hn e.key
  obtain ⟨l₁,p,l₂,c,hch,hc,rfl⟩ := hl.split_of_entry hi he
  exact ⟨l₁,p,l₂,c,hch,hc,rfl,rfl,findItem_found hl a.distinct hi hch hc⟩

theorem Rep.set (hr : Rep n seed s a) (hn : 0 < n) (k : CString) (v : List UInt8) :
    ∃ t, lruCacheSet s k v v.length = some t ∧ Rep n seed t (a.set (placeOf seed n) n k v) := by
  obtain ⟨ch,hl⟩ := hr.layout
  have hi := placeOf_lt seed hn k
  rw [lruCacheSet,hr.hashIndex hn k,Ledger.set]
  dsimp only [Option.bind_eq_bind,Option.bind_some]
  split
  · next e hk =>
    obtain ⟨l₁,p,l₂,c,hch,hc,rfl,rfl,hfind⟩ := find_present hn hl hk
    have hv : memcpy v v.length = v := List.take_length
    have hp : p ∈ ch (placeOf seed n c.key) := by simp [hch]
    have hstored : (s.heap.modify p fun c => { c with value := v, valueLength := v.length }).read p =
        some { c with value := v, valueLength := v.length } := by
      rw [Heap.read_modify_self,hc,Option.map_some]
    rw [hfind]
    dsimp only [Option.bind_some,overwriteItem]
    rw [hv,Heap.store_eq hc]
    dsimp only [Option.bind_eq_bind,Option.bind_some,Option.pure_def]
    rw [stampItem_eq hstored,Heap.modify_modify]
    refine ⟨_,rfl,hr.of_layout (hl.amend a.distinct hi hp hc (fun _ => rfl) (fun d => ?_)
      (fun _ => rfl)) ?_ rfl⟩
    · rw [← hr.age]
      rfl
    · dsimp only [overwrite,Ledger.amend]
      rw [← hr.currentEntries,← hr.age]
  · next hk =>
    rw [findItem_missing hl hi (lookup_eq_none.mp hk)]
    dsimp only [Option.bind_some]
    obtain ⟨t,p,u,hins,hstamp,hu⟩ := hr.insert hn hl hk v
    rw [hins]
    exact ⟨u,hstamp,hu⟩

theorem Rep.get (hr : Rep n seed s a) (hn : 0 < n) (k : CString) :
    ∃ t, step s (.get k) = some (t,(a.step (placeOf seed n) n (.get k)).2) ∧
      Rep n seed t (a.step (placeOf seed n) n (.get k)).1 := by
  obtain ⟨ch,hl⟩ := hr.layout
  have hi := placeOf_lt seed hn k
  rw [LruCache.step,lruCacheGet,hr.hashIndex hn k,Ledger.step]
  dsimp only [Option.bind_eq_bind,Option.bind_some]
  split
  · next e hk =>
    obtain ⟨l₁,p,l₂,c,hch,hc,rfl,rfl,hfind⟩ := find_present hn hl hk
    have hp : p ∈ ch (placeOf seed n c.key) := by simp [hch]
    rw [hfind]
    dsimp only [Option.bind_some]
    rw [hc,stampItem_eq hc]
    refine ⟨_,rfl,hr.of_layout (hl.amend a.distinct hi hp hc (fun _ => rfl) (fun d => ?_)
      (fun _ => rfl)) ?_ rfl⟩
    · rw [← hr.age]
      rfl
    · dsimp only [touch,Ledger.amend]
      rw [← hr.currentEntries,← hr.age]
  · next hk =>
    rw [findItem_missing hl hi (lookup_eq_none.mp hk)]
    exact ⟨s,rfl,hr⟩

theorem Rep.delete (hr : Rep n seed s a) (hn : 0 < n) (k : CString) :
    ∃ t, step s (.delete k) = some (t,(a.step (placeOf seed n) n (.delete k)).2) ∧
      Rep n seed t (a.step (placeOf seed n) n (.delete k)).1 := by
  obtain ⟨ch,hl⟩ := hr.layout
  have hi := placeOf_lt seed hn k
  rw [LruCache.step,lruCacheDelete,hr.hashIndex hn k,Ledger.step]
  dsimp only [Option.bind_eq_bind,Option.bind_some]
  split
  · next e hk =>
    obtain ⟨l₁,p,l₂,c,hch,hc,rfl,rfl,hfind⟩ := find_present hn hl hk
    obtain ⟨heap,items,hrun,hl',_⟩ := lruCacheRemoveItem_layout hl a.distinct hi hch hc
    rw [hfind]
    dsimp only [Option.bind_some]
    rw [hrun]
    refine ⟨_,rfl,hr.of_layout hl' ?_ rfl⟩
    dsimp only [erase]
    rw [← hr.currentEntries,← hr.age]
  · next hk =>
    rw [findItem_missing hl hi (lookup_eq_none.mp hk)]
    exact ⟨s,rfl,hr⟩

/-- Every call of the heap program is matched by the list program. -/
theorem step_simulates (hn : 0 < n) (s : State) (a : Ledger) (c : Call) (hr : Rep n seed s a) :
    ∃ t, step s c = some (t,(a.step (placeOf seed n) n c).2) ∧
      Rep n seed t (a.step (placeOf seed n) n c).1 := by
  cases c with
  | set k v =>
    obtain ⟨t,ht,hr'⟩ := hr.set hn k v
    exact ⟨t,by rw [LruCache.step,ht]; rfl,hr'⟩
  | get k => exact hr.get hn k
  | delete k => exact hr.delete hn k

end Simulation
end CStudy.LruCache

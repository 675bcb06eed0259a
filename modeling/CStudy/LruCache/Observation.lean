import CStudy.LruCache.Refinement

/-! What can be said about a cache by looking at its memory: which items are linked, which keys
they hold, and which of them the eviction scan would choose. Each notion is read off the heap
program alone; under a representation it is the evident notion about the list of entries. -/
namespace CStudy.LruCache
open CStudy.Foundation Ledger

/-- Following `next` from some bucket head reaches the item. -/
def Linked (s : State) (p : Ptr) : Prop :=
  ∃ i < s.cache.hashTableSize, s.heap.Reaches LRUCacheItem.next (s.cache.items i) p

/-- The number of items in the table. -/
noncomputable def linkedCount (s : State) : ℕ := {p | Linked s p}.ncard

/-- A linked item has the key `k`. -/
def Present (s : State) (k : CString) : Prop :=
  ∃ p c, Linked s p ∧ s.heap.read p = some c ∧ c.key = k

/-- A linked item has the key `k` and the value `v` of length `len`. -/
def Maps (s : State) (k : CString) (v : List UInt8) (len : ℕ) : Prop :=
  ∃ p c, Linked s p ∧ s.heap.read p = some c ∧ c.key = k ∧ c.value = v ∧ c.valueLength = len

/-- The chain of one bucket. -/
def bucketItems (s : State) (i : ℕ) : List Ptr :=
  s.heap.walk LRUCacheItem.next s.heap.top (s.cache.items i)

/-- All chains, bucket after bucket: the order of the eviction scan. -/
def linkedItems (s : State) : List Ptr :=
  (List.range s.cache.hashTableSize).flatMap (bucketItems s)

/-- The item has the least age of all, the earliest in scan order if ages repeat, and that
age is below `INT_MAX`. -/
def LeastUsed (s : State) (p : Ptr) : Prop :=
  p ∈ linkedItems s ∧ ageAt s.heap p < intMax ∧
    ∀ q ∈ linkedItems s, ageAt s.heap p ≤ ageAt s.heap q ∧
      (ageAt s.heap q ≤ ageAt s.heap p → (linkedItems s).idxOf p ≤ (linkedItems s).idxOf q)

/-- The least used item of the table is the last one in the chain of the bucket of `k`. -/
def LeastUsedIsTail (s : State) (k : CString) : Prop :=
  ∃ i p, lruCacheGetHashIndex s.cache k = some i ∧ (bucketItems s i).getLast? = some p ∧
    LeastUsed s p

/-- A `Set` of `k` would insert it behind the item it evicts. -/
def LosesInsert (s : State) (k : CString) : Prop :=
  ¬ Present s k ∧ s.cache.capacity ≤ s.cache.currentEntries ∧ LeastUsedIsTail s k

section Order
variable {place : CString → ℕ} {n : ℕ}

/-- The scan meets every entry exactly once. -/
theorem scanOrder_perm {a : Ledger} (hn : ∀ k, place k < n) :
    (scanOrder place n a.entries).Perm a.entries := by
  have hd : a.entries.Nodup := a.distinct.of_map
  rw [List.perm_ext_iff_of_nodup ?_ hd]
  · intro e
    simp only [scanOrder,List.mem_flatMap,List.mem_range,Layout.mem_bucket]
    constructor
    · rintro ⟨i,_,he,_⟩; exact he
    · intro he; exact ⟨place e.key,hn _,he,rfl⟩
  · rw [scanOrder,List.nodup_flatMap]
    refine ⟨fun i _ => hd.filter _,?_⟩
    refine List.nodup_range.imp ?_
    intro i j hij e hi hj
    exact hij ((Layout.mem_bucket.mp hi).2.symm.trans (Layout.mem_bucket.mp hj).2)

theorem leastUsed_mem {a : Ledger} {w : Entry} (hw : leastUsed place n a.entries = some w) :
    w ∈ a.entries := by
  rw [leastUsed,Option.filter_eq_some_iff] at hw
  have hm := List.argmin_mem hw.1
  simp only [scanOrder,List.mem_flatMap,Layout.mem_bucket] at hm
  obtain ⟨_,_,hm,_⟩ := hm
  exact hm

theorem leastUsed_lt {a : Ledger} {w : Entry} (hw : leastUsed place n a.entries = some w) :
    w.age < intMax := by
  rw [leastUsed,Option.filter_eq_some_iff] at hw
  simpa using hw.2

/-- The least used entry has the least age of all. -/
theorem leastUsed_le {a : Ledger} {w e : Entry} (hn : ∀ k, place k < n)
    (hw : leastUsed place n a.entries = some w) (he : e ∈ a.entries) : w.age ≤ e.age := by
  rw [leastUsed,Option.filter_eq_some_iff] at hw
  exact List.le_of_mem_argmin ((scanOrder_perm hn).mem_iff.mpr he) hw.1

/-- The scan finds nothing exactly if every age has reached `INT_MAX`. -/
theorem leastUsed_eq_none {a : Ledger} (hn : ∀ k, place k < n) :
    leastUsed place n a.entries = none ↔ ∀ e ∈ a.entries, intMax ≤ e.age := by
  rw [leastUsed,Option.filter_eq_none_iff]
  constructor
  · intro h e he
    have hs := (scanOrder_perm (n := n) hn).mem_iff.mpr he
    cases hm : (scanOrder place n a.entries).argmin Entry.age with
    | none => rw [List.argmin_eq_none.mp hm] at hs; cases hs
    | some m =>
      have hle : m.age ≤ e.age := List.le_of_mem_argmin hs hm
      have hmax : ¬ m.age < intMax := by simpa using h m hm
      omega
  · intro h m hm
    have hmem := (scanOrder_perm hn).mem_iff.mp (List.argmin_mem hm)
    simpa using h m hmem

end Order

namespace Layout
variable {place : CString → ℕ} {n : ℕ} {s : State} {es : List Entry} {ch : ℕ → List Ptr} {p : Ptr}
  {i : ℕ}

theorem bucketItems_eq (hl : Layout place n s.heap s.cache.items es ch) (hi : i < n) :
    bucketItems s i = ch i :=
  (hl.chain i hi).walk_eq (hl.chain i hi).length_le_top

theorem linkedItems_eq (hl : Layout place n s.heap s.cache.items es ch)
    (hn : s.cache.hashTableSize = n) : linkedItems s = (List.range n).flatMap ch := by
  rw [linkedItems,hn]
  exact List.flatMap_congr fun i hi => hl.bucketItems_eq (List.mem_range.mp hi)

theorem linked_iff (hl : Layout place n s.heap s.cache.items es ch)
    (hn : s.cache.hashTableSize = n) : Linked s p ↔ ∃ i < n, p ∈ ch i := by
  rw [Linked,hn]
  constructor
  · rintro ⟨i,hi,hr⟩
    exact ⟨i,hi,(hl.chain i hi).reaches_iff.mp hr⟩
  · rintro ⟨i,hi,hp⟩
    exact ⟨i,hi,(hl.chain i hi).reaches_iff.mpr hp⟩

theorem nodup_flatMap (hl : Layout place n s.heap s.cache.items es ch) :
    ((List.range n).flatMap ch).Nodup := by
  rw [List.nodup_flatMap]
  refine ⟨fun i hi => (hl.chain i (List.mem_range.mp hi)).nodup,?_⟩
  refine List.Pairwise.imp_of_mem ?_ List.nodup_range
  intro i j hi hj hij
  exact hl.disjoint i (List.mem_range.mp hi) j (List.mem_range.mp hj) hij

end Layout

namespace Rep
variable {n : ℕ} {seed : Int64} {s : State} {a : Ledger} {k : CString}

/-- The linked items show exactly the entries. -/
theorem linked_entry (hr : Rep n seed s a) (hn : 0 < n) (P : Entry → Prop) :
    (∃ p c, Linked s p ∧ s.heap.read p = some c ∧ P (toEntry c)) ↔ ∃ e ∈ a.entries, P e := by
  obtain ⟨ch,hl⟩ := hr.layout
  constructor
  · rintro ⟨p,c,hp,hc,hP⟩
    obtain ⟨i,hi,hpi⟩ := (hl.linked_iff hr.hashTableSize).mp hp
    obtain ⟨e,he,hem,_⟩ := hl.entry_of_mem hi hpi
    cases he.symm.trans (entryAt_of_read hc)
    exact ⟨toEntry c,hem,hP⟩
  · rintro ⟨e,he,hP⟩
    obtain ⟨p,hp,hpe⟩ := hl.mem_of_entry (placeOf_lt seed hn _) he
    obtain ⟨c,hc,rfl⟩ := entryAt_eq_some.mp hpe
    exact ⟨p,c,(hl.linked_iff hr.hashTableSize).mpr ⟨_,placeOf_lt seed hn _,hp⟩,hc,hP⟩

theorem present_iff (hr : Rep n seed s a) (hn : 0 < n) : Present s k ↔ ∃ e, a.lookup k = some e := by
  simp only [lookup_eq_some]
  exact hr.linked_entry hn fun e => e.key = k

theorem absent_iff (hr : Rep n seed s a) (hn : 0 < n) : ¬ Present s k ↔ a.lookup k = none := by
  rw [hr.present_iff hn,← Option.isSome_iff_exists,Bool.not_eq_true,Option.isSome_eq_false_iff,
    Option.isNone_iff_eq_none]

theorem maps_iff {v : List UInt8} {len : ℕ} (hr : Rep n seed s a) (hn : 0 < n) :
    Maps s k v len ↔ ∃ e, a.lookup k = some e ∧ e.value = v ∧ e.valueLength = len := by
  simp only [lookup_eq_some,and_assoc]
  exact hr.linked_entry hn fun e => e.key = k ∧ e.value = v ∧ e.valueLength = len

/-- A property of the ages of all linked items. -/
theorem forall_age_iff (hr : Rep n seed s a) (hn : 0 < n) (P : ℕ → Prop) :
    (∀ p c, Linked s p → s.heap.read p = some c → P c.age) ↔ ∀ e ∈ a.entries, P e.age := by
  have h := not_congr (hr.linked_entry hn fun e => ¬ P e.age)
  push Not at h
  exact h

theorem linkedCount_eq (hr : Rep n seed s a) (hn : 0 < n) : linkedCount s = a.entries.length := by
  obtain ⟨ch,hl⟩ := hr.layout
  have hset : {p | Linked s p} = {p | p ∈ (List.range n).flatMap ch} := by
    ext p
    simp only [Set.mem_ofPred_eq,hl.linked_iff hr.hashTableSize,List.mem_flatMap,List.mem_range]
  have hlen := congrArg List.length hl.shows_scanOrder
  rw [List.length_map,List.length_map] at hlen
  rw [linkedCount,hset,← List.coe_toFinset,Set.ncard_coe_finset,
    List.toFinset_card_of_nodup hl.nodup_flatMap,hlen]
  exact (scanOrder_perm (placeOf_lt seed hn)).length_eq

theorem leastUsed_iff {p : Ptr} {ch : ℕ → List Ptr} (hr : Rep n seed s a)
    (hl : Layout (placeOf seed n) n s.heap s.cache.items a.entries ch) :
    LeastUsed s p ↔ leastOf s.heap ((List.range n).flatMap ch) = some p := by
  rw [LeastUsed,hl.linkedItems_eq hr.hashTableSize,leastOf,Option.filter_eq_some_iff,
    List.argmin_eq_some_iff,decide_eq_true_eq]
  constructor
  · rintro ⟨hp,hage,hall⟩
    exact ⟨⟨hp,fun q hq => (hall q hq).1,fun q hq => (hall q hq).2⟩,hage⟩
  · rintro ⟨⟨hp,hle,hidx⟩,hage⟩
    exact ⟨hp,hage,fun q hq => ⟨hle q hq,hidx q hq⟩⟩

theorem leastUsedIsTail_iff (hr : Rep n seed s a) (hn : 0 < n) :
    LeastUsedIsTail s k ↔ ∃ w, leastUsed (placeOf seed n) n a.entries = some w ∧
      (bucket (placeOf seed n) a.entries (placeOf seed n k)).getLast? = some w := by
  obtain ⟨ch,hl⟩ := hr.layout
  have hi := placeOf_lt seed hn k
  rw [← hl.getLast?_eq_iff a.distinct hi hl.leastOf_rel]
  · simp only [LeastUsedIsTail,hr.hashIndex hn k,hr.leastUsed_iff hl]
    constructor
    · rintro ⟨i,p,⟨⟩,hp,hw⟩
      rw [hl.bucketItems_eq hi] at hp
      exact ⟨p,hp,hw⟩
    · rintro ⟨p,hp,hw⟩
      refine ⟨_,p,rfl,?_,hw⟩
      rw [hl.bucketItems_eq hi]
      exact hp
  · intro p hp
    have hm := ((hr.leastUsed_iff hl).mpr hp).1
    rw [hl.linkedItems_eq hr.hashTableSize,List.mem_flatMap] at hm
    obtain ⟨i,hi,hpi⟩ := hm
    exact ⟨i,List.mem_range.mp hi,hpi⟩

theorem losesInsert_iff (hr : Rep n seed s a) (hn : 0 < n) :
    LosesInsert s k ↔ a.lookup k = none ∧ a.Loses (placeOf seed n) n k := by
  rw [LosesInsert,hr.absent_iff hn,hr.capacity,hr.currentEntries,hr.leastUsedIsTail_iff hn,Loses]
  by_cases hfull : n ≤ a.currentEntries <;> simp [victim,hfull]

end Rep

/-- The list program run on a new cache. -/
def ledgerAfter (n : ℕ) (seed : Int64) (calls : List Call) : Ledger × List Reply :=
  Machine.drive (Ledger.step (placeOf seed n) n) (Ledger.empty 0) calls

/-- Every run on zeroed memory is defined and matched by the list program. -/
theorem run_new {n : ℕ} (hn : 0 < n) (seed : Int64) (calls : List Call) :
    ∃ s, Machine.run step (lruCacheNew n seed .zeroed) calls =
        some (s,(ledgerAfter n seed calls).2) ∧ Rep n seed s (ledgerAfter n seed calls).1 :=
  Machine.run_simulates (Rep n seed) (step_simulates hn) (rep_zeroed n seed) calls

theorem rep_of_run {n : ℕ} (hn : 0 < n) {seed : Int64} {calls : List Call} {s : State}
    {replies : List Reply}
    (h : Machine.run step (lruCacheNew n seed .zeroed) calls = some (s,replies)) :
    Rep n seed s (ledgerAfter n seed calls).1 ∧ replies = (ledgerAfter n seed calls).2 := by
  obtain ⟨t,ht,hr⟩ := run_new hn seed calls
  cases h.symm.trans ht
  exact ⟨hr,rfl⟩

end CStudy.LruCache

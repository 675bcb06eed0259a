import CStudy.LruCache.BlocksRefinement
import CStudy.LruCache.Insertion

/-! Whole lives of a cache in memory: runs of calls, what `LRUCacheFree` leaves allocated after
one, and how long the address that `LRUCacheGet` gives out can be used. -/
namespace CStudy.LruCache

/-- The inserts of a run that do not come into the table. -/
def Ledger.lostInserts (place : CString → ℕ) (n : ℕ) : Ledger → List Call → ℕ
  | _,[] => 0
  | a,c::cs => (if a.InsertLost place n c then 1 else 0)+lostInserts place n (a.step place n c).1 cs

/-- The list program as a machine. -/
def Ledger.machine (place : CString → ℕ) (n : ℕ) : Foundation.Machine Ledger Call Reply :=
  fun a c => some (a.step place n c)

end CStudy.LruCache

namespace CStudy.LruCache.Blocks
open CStudy.Foundation Ledger

section Allocated

/-- All structs that were ever allocated still are. -/
def Full {α : Type*} (h : Heap α) : Prop := ∀ p < h.top, ∃ c, h.read p = some c

variable {α : Type*} {h h' : Heap α} {s t : State} {p : Ptr}

theorem full_alloc (hf : Full h) (c : α) : Full (h.alloc c) := by
  intro p hp
  by_cases hpt : p = h.top
  · subst hpt
    exact ⟨c,Heap.read_alloc_top h c⟩
  · obtain ⟨d,hd⟩ := hf p (lt_of_le_of_ne (Nat.lt_succ_iff.mp hp) hpt)
    exact ⟨d,by rw [Heap.read_alloc_of_ne hpt,hd]⟩

theorem full_store {f : α → α} (hf : Full h) (hs : h.store p f = some h') : Full h' := by
  rw [Heap.store,Option.map_eq_some_iff] at hs
  obtain ⟨_,_,rfl⟩ := hs
  intro q hq
  obtain ⟨d,hd⟩ := hf q hq
  by_cases hqp : q = p
  · subst hqp
    exact ⟨f d,by rw [Heap.read_modify_self,hd,Option.map_some]⟩
  · exact ⟨d,by rw [Heap.read_modify_of_ne hqp,hd]⟩

theorem full_removeItem {prev : Option Ptr} {i : ℕ} (hf : Full s.heap)
    (hrun : LruCache.lruCacheRemoveItem s prev p i = some t) : Full t.heap := by
  rw [LruCache.lruCacheRemoveItem,Option.bind_eq_bind,Option.bind_eq_some_iff] at hrun
  obtain ⟨c,_,hrun⟩ := hrun
  cases prev with
  | none =>
    cases hrun
    exact hf
  | some q =>
    simp only [Option.bind_eq_bind,Option.bind_eq_some_iff,Option.pure_def] at hrun
    obtain ⟨heap,hstore,he⟩ := hrun
    cases he
    exact full_store hf hstore

theorem full_makeRoom (hf : Full s.heap) (hrun : LruCache.makeRoom s = some t) : Full t.heap := by
  rw [LruCache.makeRoom] at hrun
  split_ifs at hrun
  · rw [LruCache.lruCacheRemoveLeastUsedItem,Option.bind_eq_bind,Option.bind_eq_some_iff] at hrun
    obtain ⟨least,_,hrun⟩ := hrun
    split at hrun
    · cases hrun
      exact hf
    · rw [Option.bind_eq_bind,Option.bind_eq_some_iff] at hrun
      obtain ⟨u,hu,he⟩ := hrun
      simp only [Option.pure_def,Option.some.injEq] at he
      have hheap := congrArg State.heap he
      dsimp only at hheap
      rw [← hheap]
      exact full_removeItem hf hu
  · cases hrun
    exact hf

theorem full_stampItem (hf : Full s.heap) (hrun : LruCache.stampItem s p = some t) : Full t.heap := by
  rw [LruCache.stampItem,Option.bind_eq_bind,Option.bind_eq_some_iff] at hrun
  obtain ⟨heap,hstore,he⟩ := hrun
  cases he
  exact full_store hf hstore

theorem full_linkItem {prev : Option Ptr} {i : ℕ} (hf : Full s.heap)
    (hrun : LruCache.linkItem s prev p i = some t) : Full t.heap := by
  cases prev with
  | none =>
    cases hrun
    exact hf
  | some q =>
    rw [LruCache.linkItem,Option.bind_eq_bind,Option.bind_eq_some_iff] at hrun
    obtain ⟨heap,hstore,he⟩ := hrun
    cases he
    exact full_store hf hstore

/-- No operation frees a struct. -/
theorem full_step {c : Call} {o : LruCache.Reply} (hf : Full s.heap)
    (hrun : LruCache.step s c = some (t,o)) : Full t.heap := by
  cases c with
  | set k v =>
    rw [LruCache.step,Option.map_eq_some_iff] at hrun
    obtain ⟨u,hu,he⟩ := hrun
    cases he
    rw [LruCache.lruCacheSet] at hu
    simp only [Option.bind_eq_bind,Option.bind_eq_some_iff] at hu
    obtain ⟨i,_,⟨prev,item⟩,_,hu⟩ := hu
    cases item with
    | some r =>
      simp only [Option.bind_eq_some_iff,LruCache.overwriteItem,Option.bind_eq_bind,
        Option.pure_def] at hu
      obtain ⟨_,⟨heap,hstore,he⟩,hstamp⟩ := hu
      cases he
      exact full_stampItem (full_store hf hstore) hstamp
    | none =>
      simp only [Option.bind_eq_some_iff,LruCache.insertItem,Option.bind_eq_bind,
        Option.pure_def] at hu
      obtain ⟨⟨w,q⟩,⟨x,hx,y,hy,he⟩,hstamp⟩ := hu
      have hheap : y.heap = w.heap := congrArg (fun r => r.1.heap) (Option.some.inj he)
      refine full_stampItem ?_ hstamp
      rw [← hheap]
      exact full_linkItem (full_alloc (full_makeRoom hf hx) _) hy
  | get k =>
    rw [LruCache.step,Option.map_eq_some_iff] at hrun
    obtain ⟨u,hu,he⟩ := hrun
    cases he
    rw [LruCache.lruCacheGet] at hu
    simp only [Option.bind_eq_bind,Option.bind_eq_some_iff] at hu
    obtain ⟨i,_,⟨prev,item⟩,_,hw⟩ := hu
    cases item with
    | some r =>
      simp only [Option.bind_eq_some_iff,Option.pure_def] at hw
      obtain ⟨d,_,x,hx,he⟩ := hw
      cases he
      exact full_stampItem hf hx
    | none =>
      cases hw
      exact hf
  | delete k =>
    rw [LruCache.step,Option.map_eq_some_iff] at hrun
    obtain ⟨u,hu,he⟩ := hrun
    cases he
    rw [LruCache.lruCacheDelete] at hu
    simp only [Option.bind_eq_bind,Option.bind_eq_some_iff] at hu
    obtain ⟨i,_,⟨prev,item⟩,_,hw⟩ := hu
    cases item with
    | some r =>
      simp only [Option.bind_eq_some_iff,Option.pure_def] at hw
      obtain ⟨x,hx,he⟩ := hw
      cases he
      exact full_removeItem hf hx
    | none =>
      cases hw
      exact hf

end Allocated

/-- The two programs after the same calls: every struct is allocated, and those that hold buffers
are the linked ones and the lost ones, of which there are `lost`. -/
structure Alike (n : ℕ) (seed : Int64) (m : Memory) (s : State) (a : Ledger) (held : Finset Ptr)
    (lost : ℕ) : Prop where
  rep : Rep n seed s a
  backs : Backs m s held
  linked : ∀ p, Linked s p → p ∈ held
  full : Full s.heap
  count : held.card = a.entries.length+lost

theorem alike_new (n : ℕ) (seed : Int64) :
    Alike n seed (lruCacheNew n seed .zeroed) (LruCache.lruCacheNew n seed .zeroed) (Ledger.empty 0)
      ∅ 0 where
  rep := rep_zeroed n seed
  backs :=
    { owns := by
        have hslots : slots (Heap.empty : Heap Item) ∅ = fun _ => none := by
          funext i
          simp [slots]
        change Heap.Owns Heap.empty (slots Heap.empty ∅)
        rw [hslots]
        exact Heap.Owns.empty
      allocated := by simp
      cache := rfl
      cacheAllocated := rfl
      itemsAllocated := rfl
      staleNext := rfl
      top := rfl
      fields := fun _ => rfl
      contents := by simp }
  linked := by
    rintro p ⟨i,_,hp⟩
    cases hp
  full := by
    intro p hp
    exact absurd hp (Nat.not_lt_zero p)
  count := rfl

section Runs
variable {n : ℕ} {seed : Int64} {m : Memory} {s : State} {a : Ledger} {held : Finset Ptr} {lost : ℕ}

/-- One call of both programs. -/
theorem Alike.step (h : Alike n seed m s a held lost) (hn : 0 < n) (c : Call) :
    ∃ m' t o held' gone, Blocks.step m c = some (m',o) ∧
      LruCache.step s c = some (t,(a.step (placeOf seed n) n c).2) ∧
      o.follow m' = some (a.step (placeOf seed n) n c).2 ∧
      Stepped (placeOf seed n) n a c m s held m' t held' gone ∧
      Alike n seed m' t (a.step (placeOf seed n) n c).1 held'
        (lost+if a.InsertLost (placeOf seed n) n c then 1 else 0) := by
  obtain ⟨m',t,o,held',gone,hm,ht,hr,ho,hs⟩ := stepped hn h.rep h.backs h.linked c
  refine ⟨m',t,o,held',gone,hm,ht,ho,hs,hr,hs.backs,hs.linked,full_step h.full ht,?_⟩
  have hcount := hs.count
  rw [h.count] at hcount
  omega

/-- Every run of calls by a caller that reads each value it gets is defined, and every reply is that
of the program without blocks. -/
theorem Alike.run (h : Alike n seed m s a held lost) (hn : 0 < n) (calls : List Call) :
    ∃ m' t held' os, Machine.run Blocks.step m calls = some (m',os) ∧
      Machine.run readingStep m calls =
        some (m',(Machine.drive (Ledger.step (placeOf seed n) n) a calls).2) ∧
      Machine.run LruCache.step s calls =
        some (t,(Machine.drive (Ledger.step (placeOf seed n) n) a calls).2) ∧
      Alike n seed m' t (Machine.drive (Ledger.step (placeOf seed n) n) a calls).1 held'
        (lost+lostInserts (placeOf seed n) n a calls) := by
  induction calls generalizing m s a held lost with
  | nil => exact ⟨m,s,held,[],rfl,rfl,rfl,h⟩
  | cons c calls ih =>
    obtain ⟨m₁,t₁,o,held₁,_,hm,ht,ho,_,h₁⟩ := h.step hn c
    obtain ⟨m',t,held',os,hraw,hrun,hrun',h'⟩ := ih h₁
    have hread : readingStep m c = some (m₁,(a.step (placeOf seed n) n c).2) := by
      simp [readingStep,hm,ho]
    refine ⟨m',t,held',o::os,?_,?_,?_,?_⟩
    · rw [Machine.run_cons hm,hraw]
      rfl
    · rw [Machine.run_cons hread,hrun]
      rfl
    · rw [Machine.run_cons ht,hrun']
      rfl
    · rw [lostInserts,← Nat.add_assoc]
      exact h'

end Runs
section Free
variable {n : ℕ} {seed : Int64} {m : Memory} {s : State} {a : Ledger} {held : Finset Ptr} {lost : ℕ}
  {l : List Ptr} {b : Option Ptr}

/-- The lists of the two programs are the same. -/
theorem Backs.chain (hb : Backs m s held) (hl : s.heap.Chain LRUCacheItem.next b l) :
    m.structs.Chain Item.next b l := by
  induction l generalizing b with
  | nil => exact hl
  | cons p l ih =>
    obtain ⟨hp,d,hd,ht⟩ := hl
    obtain ⟨c,hc,_,_,hnext⟩ := hb.read_struct hd
    exact ⟨hp,c,hc,hnext ▸ ih ht⟩

/-- What the two loops of `LRUCacheFree` leave once the structs `l` and their buffers are freed. -/
structure FreedItems (m : Memory) (held : Finset Ptr) (l : List Ptr) (m' : Memory) : Prop where
  owning : Owning m' (held \ l.toFinset)
  structs : ∀ q, m'.structs.read q = if q ∈ l then none else m.structs.read q
  top : m'.structs.top = m.structs.top
  cache : m'.cache = m.cache
  cacheAllocated : m'.cacheAllocated = m.cacheAllocated
  itemsAllocated : m'.itemsAllocated = m.itemsAllocated

theorem FreedItems.nil (ho : Owning m held) : FreedItems m held [] m where
  owning := by simpa using ho
  structs := by simp
  top := rfl
  cache := rfl
  cacheAllocated := rfl
  itemsAllocated := rfl

theorem FreedItems.append {l₁ l₂ : List Ptr} {m₁ m₂ : Memory} (h₁ : FreedItems m held l₁ m₁)
    (h₂ : FreedItems m₁ (held \ l₁.toFinset) l₂ m₂) : FreedItems m held (l₁++l₂) m₂ where
  owning := by
    have ho := h₂.owning
    rwa [sdiff_sdiff_left,Finset.sup_eq_union,← List.toFinset_append] at ho
  structs q := by
    rw [h₂.structs,h₁.structs]
    by_cases hq₁ : q ∈ l₁ <;> by_cases hq₂ : q ∈ l₂ <;> simp [hq₁,hq₂]
  top := h₂.top.trans h₁.top
  cache := h₂.cache.trans h₁.cache
  cacheAllocated := h₂.cacheAllocated.trans h₁.cacheAllocated
  itemsAllocated := h₂.itemsAllocated.trans h₁.itemsAllocated

/-- One round of the inner loop, without the step to the next item. -/
theorem freeItem (ho : Owning m held) {p : Ptr} {c : Item} (hp : p ∈ held)
    (hc : m.structs.read p = some c) :
    (m.free c.key).bind (fun m => m.free c.value) = some { m with
      buffers := (m.buffers.free c.key).free c.value } ∧
    FreedItems m held [p] { m with
      buffers := (m.buffers.free c.key).free c.value, structs := m.structs.free p } := by
  obtain ⟨hrun,ho'⟩ := ho.free_parts hp hc (x := .key) (y := .value) (by simp)
  refine ⟨hrun,⟨?_,?_⟩,?_,rfl,rfl,rfl,rfl⟩
  · rw [List.toFinset_cons,List.toFinset_nil,insert_empty_eq,Finset.sdiff_singleton_eq_erase]
    dsimp only
    rw [slots_free]
    exact ho'.owns
  · intro q hq
    rw [List.toFinset_cons,List.toFinset_nil,insert_empty_eq,Finset.sdiff_singleton_eq_erase] at hq
    obtain ⟨d,hd⟩ := ho'.allocated q hq
    exact ⟨d,(Heap.read_free_of_ne (Finset.ne_of_mem_erase hq)).trans hd⟩
  · intro q
    by_cases hqp : q = p
    · subst hqp
      simp
    · simp [hqp,Heap.read_free_of_ne hqp]

/-- The inner loop frees the items of one chain. -/
theorem freeChain_frees (ho : Owning m held) (hl : m.structs.Chain Item.next b l)
    (hheld : ∀ p ∈ l, p ∈ held) {fuel : ℕ} (hf : l.length ≤ fuel) :
    ∃ m', freeChain m fuel b = some m' ∧ FreedItems m held l m' := by
  induction l generalizing m held b fuel with
  | nil =>
    cases (show b = none from hl)
    refine ⟨m,?_,.nil ho⟩
    cases fuel <;> rfl
  | cons p l ih =>
    have hnd := List.nodup_cons.mp hl.nodup
    obtain ⟨rfl,c,hc,ht⟩ := hl
    obtain ⟨hrun,hfreed⟩ := freeItem ho (hheld p List.mem_cons_self) hc
    cases fuel with
    | zero => simp at hf
    | succ fuel =>
      have htail : (m.structs.free p).Chain Item.next c.next l := Heap.Seg.free ht hnd.1
      obtain ⟨m',hm',h'⟩ := ih hfreed.owning htail (fun q hq => by
        have hqp : q ≠ p := ne_of_mem_of_not_mem hq hnd.1
        simp [hheld q (List.mem_cons_of_mem p hq),hqp]) (by simpa using hf)
      refine ⟨m',?_,hfreed.append h'⟩
      rw [Option.bind_eq_some_iff] at hrun
      obtain ⟨m₁,hkey,hvalue⟩ := hrun
      rw [freeChain]
      simp only [hc,hkey,hvalue,Option.bind_eq_bind,Option.bind_some,Heap.release_eq hc]
      exact hm'

/-- The outer loop frees the items of the first `i` buckets. -/
theorem freeBuckets_frees {ch : ℕ → List Ptr} (hb : Backs m s held)
    (hl : Layout (placeOf seed n) n s.heap s.cache.items a.entries ch)
    (hheld : ∀ i < n, ∀ p ∈ ch i, p ∈ held) (hn : s.cache.hashTableSize = n) {i : ℕ} (hi : i ≤ n) :
    ∃ m', freeBuckets m i = some m' ∧ FreedItems m held ((List.range i).flatMap ch) m' := by
  induction i with
  | zero => exact ⟨m,rfl,.nil hb.toOwning⟩
  | succ i ih =>
    obtain ⟨m₁,hm₁,h₁⟩ := ih (Nat.le_of_succ_le hi)
    have hout : ∀ p ∈ ch i, p ∉ (List.range i).flatMap ch := by
      intro p hp hmem
      obtain ⟨j,hj,hpj⟩ := List.mem_flatMap.mp hmem
      rw [List.mem_range] at hj
      exact hl.disjoint j (by omega) i hi hj.ne hpj hp
    -- the chain of this bucket is still there
    have hchain : m₁.structs.Chain Item.next (s.cache.items i) (ch i) := by
      apply (hb.chain (hl.chain i hi)).congr
      intro p hp
      rw [h₁.structs,if_neg (hout p hp)]
    have hslot : m₁.readSlot i = some (s.cache.items i) := by
      rw [Memory.readSlot,h₁.cache,h₁.itemsAllocated,hb.cache,if_pos ⟨hb.itemsAllocated,by omega⟩]
    obtain ⟨m',hm',h'⟩ := freeChain_frees h₁.owning hchain (fun p hp => by
      rw [Finset.mem_sdiff,List.mem_toFinset]
      exact ⟨hheld i hi p hp,hout p hp⟩) hchain.length_le_top
    refine ⟨m',?_,?_⟩
    · rw [freeBuckets,hm₁]
      simp only [Option.bind_eq_bind,Option.bind_some,hslot,hm']
    · rw [List.range_succ,List.flatMap_append,List.flatMap_singleton]
      exact h₁.append h'

/-- Two buffers for each struct that holds any. -/
theorem Owning.ncard_buffers (ho : Owning m held) :
    {p | (m.buffers.read p).isSome}.ncard = 2*held.card := by
  have hset : {i | (slots m.structs held i).isSome} =
      ((held ×ˢ ({.key,.value} : Finset Part) : Finset (Ptr × Part)) : Set (Ptr × Part)) := by
    ext ⟨p,x⟩
    rw [Finset.coe_product,Set.mem_prod]
    change (slots m.structs held (p,x)).isSome ↔ _
    by_cases hp : p ∈ held
    · obtain ⟨c,hc⟩ := ho.allocated p hp
      rw [slots_of_mem hp hc]
      cases x <;> simp [hp]
    · simp [slots,hp]
  rw [ho.owns.ncard_live,hset,Set.ncard_coe_finset,Finset.card_product]
  have hparts : ({.key,.value} : Finset Part).card = 2 := rfl
  rw [hparts,Nat.mul_comm]

/-- What `LRUCacheFree` leaves allocated. -/
theorem Alike.free (h : Alike n seed m s a held lost) (hn : 0 < n) :
    ∃ m', lruCacheFree m = some m' ∧ m'.cacheAllocated = false ∧ m'.itemsAllocated = false ∧
      (∀ p, (m'.structs.read p).isSome ↔ p < s.heap.top ∧ ¬ Linked s p) ∧
      {p | (m'.buffers.read p).isSome}.ncard = 2*lost := by
  obtain ⟨ch,hl⟩ := h.rep.layout
  have hheld := held_of_mem h.rep hl h.linked
  obtain ⟨m₁,hm₁,h₁⟩ := freeBuckets_frees h.backs hl hheld h.rep.hashTableSize le_rfl
  have hlinked : ∀ p, p ∈ (List.range n).flatMap ch ↔ Linked s p := by
    intro p
    rw [hl.linked_iff h.rep.hashTableSize]
    simp only [List.mem_flatMap,List.mem_range]
  refine ⟨{ m₁ with itemsAllocated := false, cacheAllocated := false },?_,rfl,rfl,?_,?_⟩
  · rw [lruCacheFree,h.backs.readCache_eq]
    simp only [Option.bind_eq_bind,Option.bind_some,h.rep.hashTableSize,hm₁,h₁.cacheAllocated,
      h₁.itemsAllocated,h.backs.cacheAllocated,h.backs.itemsAllocated]
    rfl
  · intro p
    dsimp only
    rw [h₁.structs,← hlinked]
    by_cases hp : p ∈ (List.range n).flatMap ch
    · simp [hp]
    · rw [if_neg hp,and_iff_left hp,← h.backs.top]
      constructor
      · intro hs
        obtain ⟨c,hc⟩ := Option.isSome_iff_exists.mp hs
        exact Heap.lt_top hc
      · intro hlt
        obtain ⟨d,hd⟩ := h.full p (by rw [← h.backs.top]; exact hlt)
        obtain ⟨c,hc,_⟩ := h.backs.read_struct hd
        rw [hc]
        rfl
  · have hsub : ((List.range n).flatMap ch).toFinset ⊆ held := by
      intro p hp
      exact h.linked p ((hlinked p).mp (List.mem_toFinset.mp hp))
    have hcard : ((List.range n).flatMap ch).toFinset.card = a.entries.length := by
      have hlen := congrArg List.length hl.shows_scanOrder
      rw [List.length_map,List.length_map] at hlen
      rw [List.toFinset_card_of_nodup hl.nodup_flatMap,hlen]
      exact (scanOrder_perm (placeOf_lt seed hn)).length_eq
    change {p | (m₁.buffers.read p).isSome}.ncard = 2*lost
    rw [h₁.owning.ncard_buffers,Finset.card_sdiff_of_subset hsub,hcard,h.count,Nat.add_sub_cancel_left]

end Free

section Pointer
variable {n : ℕ} {seed : Int64} {m m' : Memory} {s t : State} {a : Ledger} {held held' : Finset Ptr}
  {lost : ℕ} {k : CString} {b : Ptr} {bytes : List UInt8} {gone : Option Ptr} {c : Call}

/-- The buffer at `b` with the contents `bytes` is the value of the item `k` in the table. -/
def ValueOf (m : Memory) (s : State) (held : Finset Ptr) (k : CString) (b : Ptr)
    (bytes : List UInt8) : Prop :=
  m.buffers.read b = some bytes ∧ ∃ p d, Linked s p ∧ s.heap.read p = some d ∧ d.key = k ∧
    slots m.structs held (p,.value) = some b

/-- A call that frees the value of another item, or none, leaves this one. -/
theorem ValueOf.keep (hv : ValueOf m s held k b bytes) (h : Alike n seed m s a held lost)
    (hs : Stepped (placeOf seed n) n a c m s held m' t held' gone)
    (hfrees : a.frees (placeOf seed n) n c ≠ some k) : ValueOf m' t held' k b bytes := by
  obtain ⟨hread,p,d,hp,hd,hk,hslot⟩ := hv
  have hgone : gone ≠ some p := by
    rintro rfl
    have hrel := hs.frees
    cases hx : a.frees (placeOf seed n) n c with
    | none => rw [hx] at hrel; cases hrel
    | some j =>
      rw [hx] at hrel
      cases hrel with
      | some hpj =>
        obtain ⟨_,d',hd',rfl⟩ := hpj
        cases hd.symm.trans hd'
        exact hfrees (hx.trans (congrArg some hk))
  have hph := h.linked p hp
  obtain ⟨hp',hkept⟩ := hs.releases.kept p hph hgone
  obtain ⟨hsame,hsameRead⟩ := hkept .value
  obtain ⟨e,he⟩ := hs.backs.allocated p hp'
  obtain ⟨d',hd',_⟩ := hs.backs.read_item he
  refine ⟨(hsameRead b hslot).trans hread,p,d',hs.keeps p hp hgone,hd',?_,hsame.trans hslot⟩
  rw [h.backs.key_eq hs.backs hs.releases hph hgone hd hd',hk]

/-- A call that frees the value of this item leaves no buffer at `b`. -/
theorem ValueOf.free (hv : ValueOf m s held k b bytes) (h : Alike n seed m s a held lost)
    (hs : Stepped (placeOf seed n) n a c m s held m' t held' gone)
    (hfrees : a.frees (placeOf seed n) n c = some k) : m'.buffers.Dead b := by
  obtain ⟨hread,p,d,hp,hd,hk,hslot⟩ := hv
  have hrel := hs.frees
  rw [hfrees] at hrel
  obtain ⟨ch,hl⟩ := h.rep.layout
  cases hrel with
  | @some q _ hqk =>
    obtain ⟨hq,d',hd',hk'⟩ := hqk
    obtain ⟨i,hi,hpi⟩ := (hl.linked_iff h.rep.hashTableSize).mp hp
    obtain ⟨j,hj,hqj⟩ := (hl.linked_iff h.rep.hashTableSize).mp hq
    have hpq : p = q := hl.eq_of_key a.distinct hi hj hpi hqj (entryAt_of_read hd)
      (entryAt_of_read hd') (hk.trans hk'.symm)
    exact hs.releases.dead p b (hpq ▸ rfl) hslot

/-- An address that was freed is not handed out again. -/
theorem Alike.run_dead (h : Alike n seed m s a held lost) (hn : 0 < n) (hd : m.buffers.Dead b)
    {more : List Call} {os : List Reply} (hrun : Machine.run Blocks.step m more = some (m',os)) :
    m'.buffers.Dead b := by
  induction more generalizing m s a held lost os with
  | nil =>
    cases hrun
    exact hd
  | cons c more ih =>
    obtain ⟨m₁,o,os',hstep,hrest,rfl⟩ := Machine.run_cons_eq_some.mp hrun
    obtain ⟨m₂,t,o',held',gone,hm,_,_,hs,h'⟩ := h.step hn c
    cases hstep.symm.trans hm
    exact ih h' (hs.releases.stays b hd) hrest

/-- The address stays good exactly as long as no call frees the value of the item. -/
theorem ValueOf.run (hv : ValueOf m s held k b bytes) (hn : 0 < n) (h : Alike n seed m s a held lost)
    {more : List Call} {os : List Reply} (hrun : Machine.run Blocks.step m more = some (m',os)) :
    (Machine.EachCall (Ledger.machine (placeOf seed n) n)
        (fun a c => a.frees (placeOf seed n) n c ≠ some k) a more ∧ m'.buffers.read b = some bytes) ∨
      (¬ Machine.EachCall (Ledger.machine (placeOf seed n) n)
        (fun a c => a.frees (placeOf seed n) n c ≠ some k) a more ∧ m'.buffers.read b = none) := by
  induction more generalizing m s a held lost os with
  | nil =>
    cases hrun
    refine .inl ⟨?_,hv.1⟩
    intro done c hd
    simp at hd
  | cons c more ih =>
    obtain ⟨m₁,o,os',hstep,hrest,rfl⟩ := Machine.run_cons_eq_some.mp hrun
    obtain ⟨m₂,t,o',held',gone,hm,_,_,hs,halike⟩ := h.step hn c
    cases hstep.symm.trans hm
    rw [Machine.eachCall_cons (t := (a.step (placeOf seed n) n c).1) _ rfl]
    by_cases hfrees : a.frees (placeOf seed n) n c = some k
    · exact .inr ⟨fun hall => hall.1 hfrees,
        (halike.run_dead hn (hv.free h hs hfrees) hrest).2⟩
    · rcases ih (hv.keep h hs hfrees) halike hrest with ⟨hall,hread⟩ | ⟨hnot,hread⟩
      · exact .inl ⟨⟨hfrees,hall⟩,hread⟩
      · exact .inr ⟨fun hall => hnot hall.2,hread⟩

end Pointer

/-- A caller may read through the address that `LRUCacheGet` gave it, and finds the bytes it was
given, exactly as long as no later call frees that value: no `Set` or `Delete` of the key, and no
`Set` that evicts it. -/
theorem got_address_valid_iff (n : ℕ) (hn : 1 ≤ n) (seed : Int64) (calls more : List Call)
    (k : CString) (m m' : Memory) (os os' : List Reply) (b : Ptr) (len : ℕ)
    (hget : Machine.run step (lruCacheNew n seed .zeroed) (calls++[Call.get k]) =
      some (m,os++[Reply.got .ok (some b) len]))
    (hmore : Machine.run step m more = some (m',os')) :
    ∃ bytes, (ledgerAfter n seed (calls++[Call.get k])).2.getLast? = some (.got .ok (some bytes) len) ∧
      (Machine.EachCall (Ledger.machine (placeOf seed n) n)
          (fun a c => a.frees (placeOf seed n) n c ≠ some k)
          (ledgerAfter n seed (calls++[Call.get k])).1 more → m'.buffers.read b = some bytes) ∧
      (¬ Machine.EachCall (Ledger.machine (placeOf seed n) n)
          (fun a c => a.frees (placeOf seed n) n c ≠ some k)
          (ledgerAfter n seed (calls++[Call.get k])).1 more → m'.buffers.read b = none) := by
  obtain ⟨m₀,os₀,os₁,hcalls,hlast,hos⟩ := Machine.run_append.mp hget
  obtain ⟨m₁,t₁,held,os₂,hraw,_,_,h⟩ := (alike_new n seed).run hn calls
  cases hcalls.symm.trans hraw
  obtain ⟨m₂,o,_,hstep,hnil,rfl⟩ := Machine.run_cons_eq_some.mp hlast
  cases hnil
  obtain ⟨-,ho⟩ := List.append_inj' hos rfl
  cases ho
  obtain ⟨m₃,t,o',hm,ht,hr,hfollow,hs,haddress⟩ := get_stepped hn h.rep h.backs h.linked k
  cases hstep.symm.trans hm
  obtain ⟨p,d,hp,hd,hk,hslot⟩ := haddress _ b len rfl
  rw [ledgerAfter,Machine.drive_append]
  generalize (Machine.drive (Ledger.step (placeOf seed n) n) (Ledger.empty 0) calls).1 = a at *
  rw [Reply.follow,Option.map_eq_some_iff] at hfollow
  obtain ⟨bytes,hread,hreply⟩ := hfollow
  have halike : Alike n seed m t (a.step (placeOf seed n) n (.get k)).1 held
      (0+lostInserts (placeOf seed n) n (Ledger.empty 0) calls) := by
    refine ⟨hr,hs.backs,hs.linked,full_step h.full ht,?_⟩
    have hcount := hs.count
    have hheld := h.count
    rw [if_neg (show ¬ a.InsertLost (placeOf seed n) n (.get k) from id)] at hcount
    omega
  refine ⟨bytes,?_,?_⟩
  · simp [hreply]
  · have hv : ValueOf m t held k b bytes := ⟨hread,p,d,hp,hd,hk,hslot⟩
    rcases hv.run hn halike hmore with ⟨hall,hlive⟩ | ⟨hnot,hfreed⟩
    · exact ⟨fun _ => hlive,fun h => absurd hall h⟩
    · exact ⟨fun h => absurd h hnot,fun _ => hfreed⟩

/-- The value of the first key is read, and then written again. -/
theorem got_address_valid_iff_test : ∃ m m' os' b, 1 ≤ 2 ∧
    Machine.run step (lruCacheNew 2 0 .zeroed) ([Call.set key1 [7]]++[Call.get key1]) =
      some (m,[Reply.done]++[Reply.got .ok (some b) 1]) ∧
    Machine.run step m [.set key1 [8]] = some (m',os') ∧
    ∃ bytes, (ledgerAfter 2 0 ([Call.set key1 [7]]++[Call.get key1])).2.getLast? =
        some (.got .ok (some bytes) 1) ∧
      (Machine.EachCall (Ledger.machine (placeOf 0 2) 2)
          (fun a c => a.frees (placeOf 0 2) 2 c ≠ some key1)
          (ledgerAfter 2 0 ([Call.set key1 [7]]++[Call.get key1])).1 [.set key1 [8]] →
        m'.buffers.read b = some bytes) ∧
      (¬ Machine.EachCall (Ledger.machine (placeOf 0 2) 2)
          (fun a c => a.frees (placeOf 0 2) 2 c ≠ some key1)
          (ledgerAfter 2 0 ([Call.set key1 [7]]++[Call.get key1])).1 [.set key1 [8]] →
        m'.buffers.read b = none) :=
  ⟨_,_,_,_,by decide,rfl,rfl,got_address_valid_iff 2 (by decide) 0 [.set key1 [7]] [.set key1 [8]]
    key1 _ _ [.done] _ _ _ rfl rfl⟩

end CStudy.LruCache.Blocks

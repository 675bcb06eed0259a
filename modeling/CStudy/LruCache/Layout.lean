import CStudy.LruCache.Ledger

/-! How a list of entries lies in memory: one null-terminated chain for each bucket, the chains
pairwise disjoint, each showing the entries the hash places in its bucket. The three ways the
code touches the chains, changing the contents of an item, unlinking it and linking a new one,
are three rules about layouts. -/
namespace CStudy.LruCache
open CStudy.Foundation Ledger

def toEntry (c : LRUCacheItem) : Entry := ⟨c.key,c.value,c.valueLength,c.age⟩

@[simp] theorem key_toEntry (c : LRUCacheItem) : (toEntry c).key = c.key := rfl
@[simp] theorem age_toEntry (c : LRUCacheItem) : (toEntry c).age = c.age := rfl

/-- The item at an address, without its link. -/
def entryAt (heap : Heap LRUCacheItem) (p : Ptr) : Option Entry := (heap.read p).map toEntry

theorem entryAt_eq_some {heap : Heap LRUCacheItem} {p : Ptr} {e : Entry} :
    entryAt heap p = some e ↔ ∃ c, heap.read p = some c ∧ toEntry c = e := by simp [entryAt]

theorem entryAt_of_read {heap : Heap LRUCacheItem} {p : Ptr} {c : LRUCacheItem}
    (hp : heap.read p = some c) : entryAt heap p = some (toEntry c) := by simp [entryAt,hp]

/-- Relinking an item does not change what it shows. -/
theorem entryAt_modify_next (heap : Heap LRUCacheItem) (q : Ptr) (x : Option Ptr) :
    entryAt (heap.modify q fun d => { d with next := x }) = entryAt heap := by
  funext p
  by_cases hp : p = q
  · subst hp
    rw [entryAt,entryAt,Heap.read_modify_self,Option.map_map]
    rfl
  · rw [entryAt,entryAt,Heap.read_modify_of_ne hp]

/-- The chains `ch` of the first `n` buckets hold the entries `es`. -/
structure Layout (place : CString → ℕ) (n : ℕ) (heap : Heap LRUCacheItem) (items : ℕ → Option Ptr)
    (es : List Entry) (ch : ℕ → List Ptr) : Prop where
  chain : ∀ i < n, heap.Chain LRUCacheItem.next (items i) (ch i)
  disjoint : ∀ i < n, ∀ j < n, i ≠ j → List.Disjoint (ch i) (ch j)
  shows : ∀ i < n, (ch i).map (entryAt heap) = (bucket place es i).map some

namespace Layout
variable {place : CString → ℕ} {n : ℕ} {heap : Heap LRUCacheItem} {items : ℕ → Option Ptr}
  {es : List Entry} {ch : ℕ → List Ptr} {i j : ℕ} {p q : Ptr} {c : LRUCacheItem} {e e' : Entry}

theorem mem_bucket : e ∈ bucket place es i ↔ e ∈ es ∧ place e.key = i := by
  simp [bucket,List.mem_filter]

/-- Every linked address shows an entry of its bucket. -/
theorem entry_of_mem (hl : Layout place n heap items es ch) (hi : i < n) (hp : p ∈ ch i) :
    ∃ e, entryAt heap p = some e ∧ e ∈ es ∧ place e.key = i := by
  have hm : entryAt heap p ∈ (bucket place es i).map some := by
    rw [← hl.shows i hi]
    exact List.mem_map_of_mem hp
  obtain ⟨e,he,hs⟩ := List.mem_map.mp hm
  exact ⟨e,hs.symm,mem_bucket.mp he⟩

/-- Every entry is shown by a linked address. -/
theorem mem_of_entry (hl : Layout place n heap items es ch) (hi : place e.key < n) (he : e ∈ es) :
    ∃ p ∈ ch (place e.key), entryAt heap p = some e := by
  have hm : some e ∈ (ch (place e.key)).map (entryAt heap) := by
    rw [hl.shows _ hi]
    exact List.mem_map_of_mem (mem_bucket.mpr ⟨he,rfl⟩)
  simpa using hm

/-- Two linked addresses with the same key are the same. -/
theorem eq_of_key (hl : Layout place n heap items es ch) (hd : (es.map Entry.key).Nodup)
    (hi : i < n) (hj : j < n) (hp : p ∈ ch i) (hq : q ∈ ch j)
    (hep : entryAt heap p = some e) (heq : entryAt heap q = some e') (hk : e.key = e'.key) :
    p = q := by
  obtain ⟨f,hf,hfm,rfl⟩ := hl.entry_of_mem hi hp
  obtain ⟨f',hf',hfm',rfl⟩ := hl.entry_of_mem hj hq
  cases hep.symm.trans hf
  cases heq.symm.trans hf'
  obtain rfl := List.inj_on_of_nodup_map hd hfm hfm' hk
  have hn : ((ch (place e.key)).map (entryAt heap)).Nodup := by
    rw [hl.shows _ hi]
    exact ((hd.of_map).filter _).map (Option.some_injective _)
  exact List.inj_on_of_nodup_map hn hp hq (hep.trans heq.symm)

/-- A cell outside every chain can be assigned to freely. -/
theorem modify_unlinked (hl : Layout place n heap items es ch) (hq : ∀ i < n, q ∉ ch i)
    (f : LRUCacheItem → LRUCacheItem) : Layout place n (heap.modify q f) items es ch where
  chain i hi := (hl.chain i hi).modify_of_notMem (hq i hi) _
  disjoint := hl.disjoint
  shows i hi := by
    rw [← hl.shows i hi]
    apply List.map_congr_left
    intro p hp
    rw [entryAt,entryAt,Heap.read_modify_of_ne (ne_of_mem_of_not_mem hp (hq i hi))]

theorem alloc (hl : Layout place n heap items es ch) (c : LRUCacheItem) :
    Layout place n (heap.alloc c) items es ch where
  chain i hi := (hl.chain i hi).alloc c
  disjoint := hl.disjoint
  shows i hi := by
    rw [← hl.shows i hi]
    apply List.map_congr_left
    intro p hp
    obtain ⟨d,hd⟩ := (hl.chain i hi).read_of_mem hp
    rw [entryAt,entryAt,Heap.read_alloc_of_ne (Heap.lt_top hd).ne]

theorem top_notMem (hl : Layout place n heap items es ch) (hi : i < n) : heap.top ∉ ch i := by
  intro hp
  obtain ⟨d,hd⟩ := (hl.chain i hi).read_of_mem hp
  exact lt_irrefl _ (Heap.lt_top hd)

/-- Changing the contents of the item with key `k` amends its entry. -/
theorem amend (hl : Layout place n heap items es ch) (hd : (es.map Entry.key).Nodup)
    (hi : i < n) (hp : p ∈ ch i) (hc : heap.read p = some c)
    {f : LRUCacheItem → LRUCacheItem} {g : Entry → Entry}
    (hf : ∀ c, (f c).next = c.next) (hg : ∀ c, toEntry (f c) = g (toEntry c))
    (hk : ∀ e, (g e).key = e.key) :
    Layout place n (heap.modify p f) items (es.map fun e => if e.key = c.key then g e else e) ch where
  chain i hi := (hl.chain i hi).modify_data hf p
  disjoint := hl.disjoint
  shows j hj := by
    have hpoint : ∀ q ∈ ch j, entryAt (heap.modify p f) q =
        (entryAt heap q).map fun e => if e.key = c.key then g e else e := by
      intro q hq
      by_cases hqp : q = p
      · subst hqp
        rw [entryAt,entryAt,Heap.read_modify_self,hc]
        simp [hg]
      · obtain ⟨e,he,_⟩ := hl.entry_of_mem hj hq
        have hne : e.key ≠ c.key := fun hec =>
          hqp (hl.eq_of_key hd hj hi hq hp he (entryAt_of_read hc) hec)
        rw [entryAt,Heap.read_modify_of_ne hqp]
        change entryAt heap q = _
        simp [he,hne]
    have hkey : ∀ e : Entry, (if e.key = c.key then g e else e).key = e.key := by
      intro e
      split_ifs <;> simp [hk]
    have hmap : (ch j).map (entryAt (heap.modify p f)) = ((ch j).map (entryAt heap)).map
        (Option.map fun e => if e.key = c.key then g e else e) := by
      rw [List.map_map]
      exact List.map_congr_left hpoint
    rw [hmap,hl.shows j hj,bucket,bucket,List.filter_map,List.map_map,List.map_map]
    simp only [Function.comp_def,hkey]
    rfl

/-- Taking one address out of the chains takes its entry out of the list. -/
theorem shows_filter (hl : Layout place n heap items es ch) (hd : (es.map Entry.key).Nodup)
    (hi : i < n) (hp : p ∈ ch i) (hc : heap.read p = some c) (hj : j < n) :
    ((ch j).filter fun q => q ≠ p).map (entryAt heap) =
      (bucket place (es.filter fun e => e.key ≠ c.key) j).map some := by
  have hfilter : (ch j).filter (fun q => q ≠ p) =
      (ch j).filter ((fun o : Option Entry => o.map Entry.key ≠ some c.key) ∘ entryAt heap) := by
    apply List.filter_congr
    intro q hq
    obtain ⟨e,he,_⟩ := hl.entry_of_mem hj hq
    rw [Function.comp_apply,he,Option.map_some,decide_eq_decide,ne_eq,ne_eq,not_iff_not]
    constructor
    · rintro rfl
      rw [entryAt_of_read hc] at he
      rw [← Option.some.inj he]
      rfl
    · intro hk
      exact hl.eq_of_key hd hj hi hq hp he (entryAt_of_read hc) (Option.some.inj hk)
  have hcomm : bucket place (es.filter fun e => e.key ≠ c.key) j =
      (bucket place es j).filter fun e => e.key ≠ c.key := by
    rw [bucket,bucket,List.filter_comm]
  rw [hfilter,← List.filter_map,hl.shows j hj,List.filter_map,hcomm]
  congr 2
  funext e
  simp

theorem filter_ne_of_notMem {l : List Ptr} (hp : p ∉ l) : l.filter (fun q => q ≠ p) = l := by
  rw [List.filter_eq_self]
  intro q hq
  simpa using ne_of_mem_of_not_mem hq hp

theorem filter_ne_middle (l₁ l₂ : List Ptr) (hd : (l₁++p::l₂).Nodup) :
    (l₁++p::l₂).filter (fun q => q ≠ p) = l₁++l₂ := by
  have hp := (List.nodup_cons.mp (List.nodup_middle.mp hd)).1
  rw [List.mem_append,not_or] at hp
  rw [List.filter_append,List.filter_cons_of_neg (by simp),filter_ne_of_notMem hp.1,
    filter_ne_of_notMem hp.2]

theorem disjoint_filter (hl : Layout place n heap items es ch) (p : Ptr) :
    ∀ i < n, ∀ j < n, i ≠ j →
      List.Disjoint ((ch i).filter fun q => q ≠ p) ((ch j).filter fun q => q ≠ p) := by
  intro i hi j hj hij q hqi hqj
  exact hl.disjoint i hi j hj hij (List.mem_of_mem_filter hqi) (List.mem_of_mem_filter hqj)

/-- `cache->items[index] = item->next` for the first item of a chain. -/
theorem unlink_head {l : List Ptr} (hl : Layout place n heap items es ch)
    (hd : (es.map Entry.key).Nodup) (hi : i < n) (hch : ch i = p::l) (hc : heap.read p = some c) :
    Layout place n heap (Function.update items i c.next) (es.filter fun e => e.key ≠ c.key)
      (fun j => (ch j).filter fun q => q ≠ p) where
  chain j hj := by
    have hci := hl.chain i hi
    rw [hch] at hci
    by_cases hji : j = i
    · subst hji
      have hf := filter_ne_middle [] l hci.nodup
      rw [List.nil_append,List.nil_append] at hf
      rw [Function.update_self,hch,hf]
      exact hci.of_cons hc
    · have hpj : p ∉ ch j := fun hp =>
        hl.disjoint j hj i hi hji hp (hch ▸ List.mem_cons_self)
      rw [Function.update_of_ne hji,filter_ne_of_notMem hpj]
      exact hl.chain j hj
  disjoint := hl.disjoint_filter p
  shows j hj := hl.shows_filter hd hi (hch ▸ List.mem_cons_self) hc hj

/-- `prev->next = item->next` for an item with a predecessor. -/
theorem unlink_next {l₁ l₂ : List Ptr} (hl : Layout place n heap items es ch)
    (hd : (es.map Entry.key).Nodup) (hi : i < n) (hch : ch i = l₁++q::p::l₂)
    (hc : heap.read p = some c) :
    Layout place n (heap.modify q fun d => { d with next := c.next }) items
      (es.filter fun e => e.key ≠ c.key) (fun j => (ch j).filter fun r => r ≠ p) where
  chain j hj := by
    have hci := hl.chain i hi
    rw [hch] at hci
    have hmem : ∀ r, r = q ∨ r = p → r ∈ ch i := by
      rintro r (rfl | rfl) <;> simp [hch]
    by_cases hji : j = i
    · subst hji
      have hf := filter_ne_middle (p := p) (l₁++[q]) l₂ (by simpa using hci.nodup)
      simp only [List.append_assoc,List.singleton_append] at hf
      rw [hch,hf]
      exact hci.unlink hc fun _ => rfl
    · have hpj : p ∉ ch j := fun hp => hl.disjoint j hj i hi hji hp (hmem p (.inr rfl))
      have hqj : q ∉ ch j := fun hq => hl.disjoint j hj i hi hji hq (hmem q (.inl rfl))
      rw [filter_ne_of_notMem hpj]
      exact (hl.chain j hj).modify_of_notMem hqj _
  disjoint := hl.disjoint_filter p
  shows j hj := by
    rw [entryAt_modify_next]
    exact hl.shows_filter hd hi (hch ▸ by simp) hc hj

/-- What a new last item of bucket `i` changes in the lists, whichever link was written. -/
theorem shows_concat (hl : Layout place n heap items es ch) (hc : heap.read p = some c)
    (hi : place c.key = i) (hj : j < n) :
    (Function.update ch i (ch i++[p]) j).map (entryAt heap) =
      (bucket place (es++[toEntry c]) j).map some := by
  rw [bucket,List.filter_append,List.map_append,← bucket,← hl.shows j hj]
  by_cases hji : j = i
  · subst hji
    rw [Function.update_self,List.map_append,List.map_singleton,entryAt_of_read hc]
    simp [hi]
  · rw [Function.update_of_ne hji]
    simp [hi,Ne.symm hji]

theorem disjoint_concat (hl : Layout place n heap items es ch) (hp : ∀ i < n, p ∉ ch i) (i : ℕ) :
    ∀ j < n, ∀ k < n, j ≠ k → List.Disjoint (Function.update ch i (ch i++[p]) j)
      (Function.update ch i (ch i++[p]) k) := by
  intro j hj k hk hjk q hqj hqk
  have hcases : ∀ m, q ∈ Function.update ch i (ch i++[p]) m → q ∈ ch m ∨ m = i ∧ q = p := by
    intro m hm
    by_cases hmi : m = i
    · subst hmi
      rw [Function.update_self,List.mem_append,List.mem_singleton] at hm
      exact hm.imp id fun h => ⟨rfl,h⟩
    · rw [Function.update_of_ne hmi] at hm
      exact .inl hm
  rcases hcases j hqj,hcases k hqk with ⟨h₁ | ⟨hji,hq⟩,h₂ | ⟨hki,hq'⟩⟩
  · exact hl.disjoint j hj k hk hjk h₁ h₂
  · exact hp j hj (hq' ▸ h₁)
  · exact hp k hk (hq ▸ h₂)
  · exact hjk (hji.trans hki.symm)

/-- `cache->items[hash_index] = item` into an empty bucket. -/
theorem link_head (hl : Layout place n heap items es ch) (hch : ch i = [])
    (hp : ∀ i < n, p ∉ ch i) (hc : heap.read p = some c) (hn : c.next = none)
    (hi : place c.key = i) :
    Layout place n heap (Function.update items i (some p)) (es++[toEntry c])
      (Function.update ch i (ch i++[p])) where
  chain j hj := by
    by_cases hji : j = i
    · subst hji
      rw [Function.update_self,Function.update_self,hch]
      exact ⟨rfl,c,hc,hn⟩
    · rw [Function.update_of_ne hji,Function.update_of_ne hji]
      exact hl.chain j hj
  disjoint := hl.disjoint_concat hp i
  shows j hj := hl.shows_concat hc hi hj

/-- `prev->next = item` behind the last item of the bucket. -/
theorem link_last {l : List Ptr} (hl : Layout place n heap items es ch) (hch : ch i = l++[q])
    (hp : ∀ i < n, p ∉ ch i) (hc : heap.read p = some c) (hn : c.next = none)
    (hi : place c.key = i) (hin : i < n) :
    Layout place n (heap.modify q fun d => { d with next := some p }) items (es++[toEntry c])
      (Function.update ch i (ch i++[p])) where
  chain j hj := by
    have hqi : q ∈ ch i := by simp [hch]
    by_cases hji : j = i
    · subst hji
      have hpq : p ≠ q := fun h => hp j hj (h ▸ hqi)
      have hci := hl.chain j hj
      rw [hch] at hci
      rw [Function.update_self,hch]
      exact hci.link hc hn hpq fun _ => rfl
    · have hqj : q ∉ ch j := fun hq => hl.disjoint j hj i hin hji hq hqi
      rw [Function.update_of_ne hji]
      exact (hl.chain j hj).modify_of_notMem hqj _
  disjoint := hl.disjoint_concat hp i
  shows j hj := by rw [entryAt_modify_next]; exact hl.shows_concat hc hi hj

end Layout
end CStudy.LruCache

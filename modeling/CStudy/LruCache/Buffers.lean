import CStudy.LruCache.Blocks
import CStudy.LruCache.Observation

/-! Which structs still hold their two buffers: those that were allocated and not removed. Two
memories are related when they agree on everything but the buffers and the buffers of these
structs have the contents of the items; the statements the operations are made of keep this. -/
namespace CStudy.LruCache.Blocks
open CStudy.Foundation

inductive Part
  | key
  | value
  deriving DecidableEq

def Item.part (c : Item) : Part → Ptr
  | .key => c.key
  | .value => c.value

/-- The buffer fields of the structs in `held`. -/
def slots (structs : Heap Item) (held : Finset Ptr) (i : Ptr × Part) : Option Ptr :=
  if i.1 ∈ held then (structs.read i.1).map fun c => c.part i.2 else none

/-- The bytes of an item that belong into a buffer, the key with its terminator. -/
def bytesOf (d : LRUCacheItem) : Part → List UInt8
  | .key => d.key.val++[0]
  | .value => d.value

section Slots
variable {structs : Heap Item} {held : Finset Ptr} {p : Ptr} {c : Item}

theorem slots_of_mem (hp : p ∈ held) (hc : structs.read p = some c) (x : Part) :
    slots structs held (p,x) = some (c.part x) := by
  simp [slots,hp,hc]

theorem slots_modify {f : Item → Item} (hf : ∀ c x, (f c).part x = c.part x) (p : Ptr) :
    slots (structs.modify p f) held = slots structs held := by
  funext ⟨q,x⟩
  by_cases hq : q = p
  · subst hq
    simp [slots,Function.comp_def,hf]
  · simp only [slots,Heap.read_modify_of_ne hq]

/-- A struct that is no longer held has no slots. -/
theorem slots_erase (structs : Heap Item) (held : Finset Ptr) (p : Ptr) (x y : Part) (hxy : x ≠ y) :
    slots structs (held.erase p) =
      Function.update (Function.update (slots structs held) (p,x) none) (p,y) none := by
  funext ⟨q,z⟩
  by_cases hq : q = p
  · subst hq
    have hz : z = x ∨ z = y := by cases x <;> cases y <;> cases z <;> simp_all
    rcases hz with rfl | rfl
    · rw [Function.update_of_ne (by simpa using hxy),Function.update_self]
      simp [slots]
    · rw [Function.update_self]
      simp [slots]
  · rw [Function.update_of_ne (by simp [hq]),Function.update_of_ne (by simp [hq])]
    simp [slots,hq]

theorem slots_free (structs : Heap Item) (held : Finset Ptr) (p : Ptr) :
    slots (structs.free p) (held.erase p) = slots structs (held.erase p) := by
  funext ⟨q,z⟩
  by_cases hq : q = p
  · subst hq
    simp [slots]
  · simp only [slots,Heap.read_free_of_ne hq]

theorem slots_alloc (structs : Heap Item) (held : Finset Ptr) (c : Item) :
    slots (structs.alloc c) (insert structs.top held) =
      Function.update (Function.update (slots structs held) (structs.top,.key) (some c.key))
        (structs.top,.value) (some c.value) := by
  funext ⟨q,z⟩
  by_cases hq : q = structs.top
  · subst hq
    cases z
    · rw [Function.update_of_ne (by simp),Function.update_self]
      simp [slots,Item.part]
    · rw [Function.update_self]
      simp [slots,Item.part]
  · rw [Function.update_of_ne (by simp [hq]),Function.update_of_ne (by simp [hq])]
    simp [slots,hq,Heap.read_alloc_of_ne hq]

theorem slots_setValue (hp : p ∈ held) (hc : structs.read p = some c) (v : Ptr) (len : ℕ) :
    slots (structs.modify p fun c => { c with value := v, valueLength := len }) held =
      Function.update (slots structs held) (p,.value) (some v) := by
  funext ⟨q,z⟩
  by_cases hq : q = p
  · subst hq
    cases z
    · rw [Function.update_of_ne (by simp)]
      simp [slots,hp,hc,Item.part]
    · rw [Function.update_self]
      simp [slots,hp,hc,Item.part]
  · rw [Function.update_of_ne (by simp [hq])]
    simp only [slots,Heap.read_modify_of_ne hq]

end Slots

/-- The structs in `held` are allocated, and the allocated buffers are exactly theirs. -/
structure Owning (m : Memory) (held : Finset Ptr) : Prop where
  owns : m.buffers.Owns (slots m.structs held)
  allocated : ∀ p ∈ held, ∃ c, m.structs.read p = some c

/-- The memory `m` is that of the cache `s`, whose structs in `held` have their buffers. -/
structure Backs (m : Memory) (s : State) (held : Finset Ptr) : Prop extends Owning m held where
  cache : m.cache = s.cache
  cacheAllocated : m.cacheAllocated = true
  itemsAllocated : m.itemsAllocated = true
  staleNext : m.staleNext = s.staleNext
  top : m.structs.top = s.heap.top
  fields : ∀ p, (m.structs.read p).map (fun c => (c.valueLength,c.age,c.next)) =
    (s.heap.read p).map fun d => (d.valueLength,d.age,d.next)
  contents : ∀ p ∈ held, ∀ c d, m.structs.read p = some c → s.heap.read p = some d →
    ∀ x, m.buffers.read (c.part x) = some (bytesOf d x)

section Owning
variable {m : Memory} {held : Finset Ptr} {p : Ptr} {c : Item}

theorem Owning.top_notMem (ho : Owning m held) : m.structs.top ∉ held := by
  intro hp
  obtain ⟨c,hc⟩ := ho.allocated _ hp
  exact lt_irrefl _ (Heap.lt_top hc)

theorem Owning.read_part (ho : Owning m held) (hp : p ∈ held) (hc : m.structs.read p = some c)
    (x : Part) : ∃ bytes, m.buffers.read (c.part x) = some bytes :=
  ho.owns.read (slots_of_mem hp hc x)

theorem Memory.free_eq {bytes : List UInt8} (hp : m.buffers.read p = some bytes) :
    m.free p = some { m with buffers := m.buffers.free p } := by
  simp [Memory.free,Heap.release_eq hp]

/-- Both buffers of a struct are freed, in either order. -/
theorem Owning.free_parts (ho : Owning m held) (hp : p ∈ held) (hc : m.structs.read p = some c)
    {x y : Part} (hxy : x ≠ y) :
    (m.free (c.part x)).bind (fun m => m.free (c.part y)) =
        some { m with buffers := (m.buffers.free (c.part x)).free (c.part y) } ∧
      Owning { m with buffers := (m.buffers.free (c.part x)).free (c.part y) } (held.erase p) := by
  obtain ⟨_,hx⟩ := ho.read_part hp hc x
  obtain ⟨_,hy⟩ := ho.read_part hp hc y
  have hne : c.part y ≠ c.part x :=
    ho.owns.ne (slots_of_mem hp hc y) (slots_of_mem hp hc x) (by simpa using hxy.symm)
  refine ⟨?_,?_,fun q hq => ho.allocated q (Finset.mem_of_mem_erase hq)⟩
  · rw [Memory.free_eq hx,Option.bind_some]
    apply Memory.free_eq
    rw [Heap.read_free_of_ne hne]
    exact hy
  · have hslot : Function.update (slots m.structs held) (p,x) none (p,y) = some (c.part y) := by
      rw [Function.update_of_ne (by simpa using hxy.symm),slots_of_mem hp hc]
    change Heap.Owns _ (slots m.structs (held.erase p))
    rw [slots_erase m.structs held p x y hxy]
    exact (ho.owns.free (slots_of_mem hp hc x)).free hslot

/-- The buffers of the other structs keep their contents. -/
theorem Owning.read_free_parts (ho : Owning m held) (hp : p ∈ held) (hc : m.structs.read p = some c)
    {q : Ptr} {d : Item} (hq : q ∈ held) (hd : m.structs.read q = some d) (hpq : q ≠ p) (x y z : Part) :
    ((m.buffers.free (c.part x)).free (c.part y)).read (d.part z) = m.buffers.read (d.part z) := by
  have hne : ∀ x, d.part z ≠ c.part x := fun x =>
    ho.owns.ne (slots_of_mem hq hd z) (slots_of_mem hp hc x) (by simp [hpq])
  rw [Heap.read_free_of_ne (hne y),Heap.read_free_of_ne (hne x)]

end Owning

section Compare
variable {as bs : List UInt8}

theorem strlen_terminated (h : 0 ∉ bs) (cs : List UInt8) : strlen (bs++0::cs) = some bs.length := by
  induction bs with
  | nil => rfl
  | cons b bs ih =>
    rw [List.mem_cons,not_or] at h
    rw [List.cons_append,strlen,if_neg (Ne.symm h.1),ih h.2]
    rfl

theorem memcmp_append (h : as.length ≤ bs.length) (cs : List UInt8) :
    memcmp as (bs++cs) = memcmp as bs := by
  induction as generalizing bs with
  | nil => cases bs <;> cases cs <;> rfl
  | cons a as ih => cases bs with
    | nil => simp at h
    | cons b bs =>
      rw [List.cons_append,memcmp,memcmp,ih (by simpa using h)]

end Compare

namespace Backs
variable {m : Memory} {s t : State} {held : Finset Ptr} {p q : Ptr} {c : Item} {d : LRUCacheItem}
  {k : CString} {l : List Ptr} {a prev : Option Ptr} {i : ℕ}

/-- The struct at an address, with what the two programs share of it. -/
theorem read_struct (hb : Backs m s held) (hd : s.heap.read p = some d) :
    ∃ c, m.structs.read p = some c ∧ c.valueLength = d.valueLength ∧ c.age = d.age ∧
      c.next = d.next := by
  have hf := hb.fields p
  rw [hd,Option.map_some,Option.map_eq_some_iff] at hf
  obtain ⟨c,hc,he⟩ := hf
  rw [Prod.mk.injEq,Prod.mk.injEq] at he
  exact ⟨c,hc,he⟩

theorem read_item (hb : Backs m s held) (hc : m.structs.read p = some c) :
    ∃ d, s.heap.read p = some d ∧ c.valueLength = d.valueLength ∧ c.age = d.age ∧
      c.next = d.next := by
  have hf := hb.fields p
  rw [hc,Option.map_some,eq_comm,Option.map_eq_some_iff] at hf
  obtain ⟨d,hd,he⟩ := hf
  rw [Prod.mk.injEq,Prod.mk.injEq] at he
  exact ⟨d,hd,he.1.symm,he.2.1.symm,he.2.2.symm⟩

theorem readCache_eq (hb : Backs m s held) : m.readCache = some s.cache := by
  rw [Memory.readCache,if_pos hb.cacheAllocated,hb.cache]

theorem readSlot_eq (hb : Backs m s held) (hi : i < s.cache.hashTableSize) :
    m.readSlot i = some (s.cache.items i) := by
  rw [Memory.readSlot,hb.cache,if_pos ⟨hb.itemsAllocated,hi⟩]

theorem writeSlot_eq (hb : Backs m s held) (hi : i < s.cache.hashTableSize) (item : Option Ptr) :
    m.writeSlot i item = some { m with
      cache := { s.cache with items := Function.update s.cache.items i item } } := by
  rw [Memory.writeSlot,hb.cache,if_pos ⟨hb.itemsAllocated,hi⟩]

theorem compareKey_eq (hb : Backs m s held) (hp : p ∈ held) (hc : m.structs.read p = some c)
    (hd : s.heap.read p = some d) :
    lruCacheCompareKey m c k = some (LruCache.lruCacheCompareKey d k) := by
  have hbytes := hb.contents p hp c d hc hd .key
  simp only [Item.part,bytesOf] at hbytes
  rw [lruCacheCompareKey,hbytes,LruCache.lruCacheCompareKey]
  simp only [Option.bind_eq_bind,Option.bind_some,strlen_terminated d.key.property,Option.pure_def]
  change some (if LruCache.strlen k ≠ LruCache.strlen d.key then _ else _) = _
  split_ifs with hlen
  · rfl
  · rw [memcmp_append (not_not.mp hlen).le]

/-- Along a chain of held structs the two searches agree. -/
theorem findItem_eq (hb : Backs m s held) (hl : s.heap.Chain LRUCacheItem.next a l)
    (hheld : ∀ p ∈ l, p ∈ held) (fuel : ℕ) :
    findItem m k fuel prev a = s.heap.search LRUCacheItem.next
      (fun c => LruCache.lruCacheCompareKey c k == 0) fuel prev a := by
  induction l generalizing a prev fuel with
  | nil =>
    cases (show a = none from hl)
    cases fuel <;> rfl
  | cons p l ih =>
    obtain ⟨rfl,d,hd,ht⟩ := hl
    cases fuel with
    | zero => rfl
    | succ fuel =>
      obtain ⟨c,hc,_,_,hnext⟩ := hb.read_struct hd
      have hcmp := hb.compareKey_eq (hheld p List.mem_cons_self) hc hd (k := k)
      have hrest := @ih _ (some p) ht (fun q hq => hheld q (List.mem_cons_of_mem p hq)) fuel
      rw [← hnext] at hrest
      simp only [findItem,Heap.search,hc,hd,hcmp,Option.bind_eq_bind,Option.bind_some,beq_iff_eq,
        Option.pure_def]
      rw [hrest,hnext]

theorem scanChain_eq (hb : Backs m s held) (fuel : ℕ) (least : Least) :
    scanChain m.structs i fuel prev a least = LruCache.scanChain s.heap i fuel prev a least := by
  induction fuel generalizing prev a least with
  | zero => cases a <;> rfl
  | succ fuel ih =>
    cases a with
    | none => rfl
    | some p =>
      cases hd : s.heap.read p with
      | none =>
        have hf := hb.fields p
        rw [hd,Option.map_none,Option.map_eq_none_iff] at hf
        simp [scanChain,LruCache.scanChain,hd,hf]
      | some d =>
        obtain ⟨c,hc,_,hage,hnext⟩ := hb.read_struct hd
        simp only [scanChain,LruCache.scanChain,hc,hd,hage,hnext]
        exact ih _

theorem scanBuckets_eq (hb : Backs m s held) (hi : i ≤ s.cache.hashTableSize) :
    scanBuckets m i = LruCache.scanBuckets s i := by
  induction i with
  | zero => rfl
  | succ i ih =>
    rw [scanBuckets,LruCache.scanBuckets,ih (Nat.le_of_succ_le hi),hb.readSlot_eq hi,hb.top]
    simp only [Option.bind_eq_bind,Option.bind_some,hb.scanChain_eq]

/-- The bucket and the search of an operation. -/
theorem locate_eq {n : ℕ} {seed : Int64} {x : Ledger} {ch : ℕ → List Ptr}
    (hb : Backs m s held) (hr : Rep n seed s x) (hn : 0 < n)
    (hl : Layout (placeOf seed n) n s.heap s.cache.items x.entries ch)
    (hheld : ∀ i < n, ∀ p ∈ ch i, p ∈ held) (k : CString) :
    locate m k = (LruCache.findItem s.heap k (s.cache.items (placeOf seed n k))).map
      fun r => (placeOf seed n k,r.1,r.2) := by
  have hi := placeOf_lt seed hn k
  have hslot := hb.readSlot_eq (i := placeOf seed n k) (by rw [hr.hashTableSize]; exact hi)
  rw [locate,hb.readCache_eq]
  simp only [Option.bind_eq_bind,Option.bind_some,hr.hashIndex hn k,hslot,Option.pure_def]
  rw [hb.findItem_eq (hl.chain _ hi) (hheld _ hi),hb.top,LruCache.findItem]
  cases s.heap.search _ _ _ _ _ <;> rfl

/-- Assignments to fields that are not addresses of buffers. -/
theorem modify (hb : Backs m s held) {f : Item → Item} {g : LRUCacheItem → LRUCacheItem} (p : Ptr)
    (hf : ∀ c x, (f c).part x = c.part x) (hg : ∀ d x, bytesOf (g d) x = bytesOf d x)
    (hfg : ∀ c d, (c.valueLength,c.age,c.next) = (d.valueLength,d.age,d.next) →
      ((f c).valueLength,(f c).age,(f c).next) = ((g d).valueLength,(g d).age,(g d).next)) :
    Backs { m with structs := m.structs.modify p f } { s with heap := s.heap.modify p g } held where
  owns := by
    change Heap.Owns _ (slots (m.structs.modify p f) held)
    rw [slots_modify hf]
    exact hb.owns
  allocated q hq := by
    obtain ⟨c,hc⟩ := hb.allocated q hq
    by_cases hqp : q = p
    · subst hqp
      exact ⟨f c,by rw [Heap.read_modify_self,hc,Option.map_some]⟩
    · exact ⟨c,by rw [Heap.read_modify_of_ne hqp,hc]⟩
  cache := hb.cache
  cacheAllocated := hb.cacheAllocated
  itemsAllocated := hb.itemsAllocated
  staleNext := hb.staleNext
  top := hb.top
  fields q := by
    by_cases hqp : q = p
    · subst hqp
      rw [Heap.read_modify_self,Heap.read_modify_self]
      have hf := hb.fields q
      cases hc : m.structs.read q <;> cases hd : s.heap.read q <;> rw [hc,hd] at hf
      · rfl
      · cases hf
      · cases hf
      · exact congrArg some (hfg _ _ (Option.some.inj hf))
    · rw [Heap.read_modify_of_ne hqp,Heap.read_modify_of_ne hqp]
      exact hb.fields q
  contents q hq c d hc hd x := by
    by_cases hqp : q = p
    · subst hqp
      rw [Heap.read_modify_self,Option.map_eq_some_iff] at hc hd
      obtain ⟨c,hc,rfl⟩ := hc
      obtain ⟨d,hd,rfl⟩ := hd
      rw [hf,hg]
      exact hb.contents q hq c d hc hd x
    · rw [Heap.read_modify_of_ne hqp] at hc hd
      exact hb.contents q hq c d hc hd x

theorem setCache (hb : Backs m s held) (cache : LRUCache) :
    Backs { m with cache := cache } { s with cache := cache } held :=
  { hb with cache := rfl }

/-- `prev->next = next` -/
theorem relink (hb : Backs m s held) (q : Ptr) (next : Option Ptr) :
    Backs { m with structs := m.structs.modify q fun c => { c with next := next } }
      { s with heap := s.heap.modify q fun d => { d with next := next } } held := by
  apply hb.modify q
  · intro c x
    cases x <;> rfl
  · intro d x
    cases x <;> rfl
  · rintro c d h
    simp only [Prod.mk.injEq] at h ⊢
    exact ⟨h.1,h.2.1,trivial⟩

/-- Freeing the two buffers of a struct, which stays as it is. -/
theorem drop (hb : Backs m s held) (hp : p ∈ held) (hc : m.structs.read p = some c) {x y : Part}
    (hxy : x ≠ y) :
    Backs { m with buffers := (m.buffers.free (c.part x)).free (c.part y) } s (held.erase p) where
  toOwning := (hb.free_parts hp hc hxy).2
  cache := hb.cache
  cacheAllocated := hb.cacheAllocated
  itemsAllocated := hb.itemsAllocated
  staleNext := hb.staleNext
  top := hb.top
  fields := hb.fields
  contents q hq d e hd he z := by
    obtain ⟨hqp,hqh⟩ := Finset.mem_erase.mp hq
    change ((m.buffers.free _).free _).read _ = _
    rw [hb.read_free_parts hp hc hqh hd hqp]
    exact hb.contents q hqh d e hd he z

end Backs

/-- Between two memories the value buffer of the struct `gone`, if there is one, is freed, and the
buffers of the other structs stay where and what they are. -/
structure Releases (m : Memory) (held : Finset Ptr) (m' : Memory) (held' : Finset Ptr)
    (gone : Option Ptr) : Prop where
  dead : ∀ p b, gone = some p → slots m.structs held (p,.value) = some b → m'.buffers.Dead b
  stays : ∀ b, m.buffers.Dead b → m'.buffers.Dead b
  kept : ∀ q ∈ held, gone ≠ some q → q ∈ held' ∧
    ∀ x, slots m'.structs held' (q,x) = slots m.structs held (q,x) ∧
      ∀ b, slots m.structs held (q,x) = some b → m'.buffers.read b = m.buffers.read b

namespace Releases
variable {m m₁ m₂ : Memory} {held held₁ held₂ : Finset Ptr} {gone : Option Ptr}

theorem refl (m : Memory) (held : Finset Ptr) : Releases m held m held none where
  dead := by simp
  stays _ h := h
  kept _ hq _ := ⟨hq,fun _ => ⟨rfl,fun _ _ => rfl⟩⟩

theorem of_same (hbuf : m₁.buffers = m.buffers)
    (hslots : slots m₁.structs held = slots m.structs held) : Releases m held m₁ held none where
  dead := by simp
  stays b h := by rwa [hbuf]
  kept q hq _ := ⟨hq,fun x => ⟨by rw [hslots],fun b _ => by rw [hbuf]⟩⟩

theorem trans (h₁ : Releases m held m₁ held₁ gone) (h₂ : Releases m₁ held₁ m₂ held₂ none) :
    Releases m held m₂ held₂ gone where
  dead p b hp hb := h₂.stays b (h₁.dead p b hp hb)
  stays b h := h₂.stays b (h₁.stays b h)
  kept q hq hgone := by
    obtain ⟨hq₁,hs₁⟩ := h₁.kept q hq hgone
    obtain ⟨hq₂,hs₂⟩ := h₂.kept q hq₁ (by simp)
    refine ⟨hq₂,fun x => ⟨(hs₂ x).1.trans (hs₁ x).1,fun b hb => ?_⟩⟩
    rw [(hs₂ x).2 b ((hs₁ x).1.trans hb),(hs₁ x).2 b hb]

end Releases

namespace Backs
variable {m : Memory} {s t : State} {held : Finset Ptr} {p q : Ptr} {c : Item} {d : LRUCacheItem}
  {prev : Option Ptr} {i : ℕ}

/-- The same assignment without blocks. -/
def relinked (s : State) (prev : Option Ptr) (i : ℕ) (next : Option Ptr) : State :=
  match prev with
  | some q => { s with heap := s.heap.modify q fun d => { d with next := next } }
  | none => { s with cache := { s.cache with items := Function.update s.cache.items i next } }

theorem writeLink (hb : Backs m s held) (hi : i < s.cache.hashTableSize)
    (hprev : ∀ q, prev = some q → ∃ d, s.heap.read q = some d) (next : Option Ptr) :
    ∃ m', m.writeLink prev i next = some m' ∧ m'.buffers = m.buffers ∧
      slots m'.structs held = slots m.structs held ∧
      (∀ p c, m.structs.read p = some c → ∃ c', m'.structs.read p = some c' ∧
        ∀ x, c'.part x = c.part x) ∧
      Backs m' (relinked s prev i next) held := by
  have hpart : ∀ (c : Item) x, ({ c with next := next } : Item).part x = c.part x := by
    intro c x
    cases x <;> rfl
  cases prev with
  | none => exact ⟨_,hb.writeSlot_eq hi _,rfl,rfl,fun p c hc => ⟨c,hc,fun _ => rfl⟩,hb.setCache _⟩
  | some q =>
    obtain ⟨d,hd⟩ := hprev q rfl
    obtain ⟨c,hc,_⟩ := hb.read_struct hd
    have hstore : m.writeLink (some q) i next = some { m with
        structs := m.structs.modify q fun c => { c with next := next } } := by
      rw [Memory.writeLink,Heap.store_eq hc,Option.map_some]
    refine ⟨_,hstore,rfl,slots_modify hpart q,?_,hb.relink q next⟩
    intro p e he
    by_cases hpq : p = q
    · subst hpq
      refine ⟨{ e with next := next },?_,hpart e⟩
      rw [Heap.read_modify_self,he,Option.map_some]
    · refine ⟨e,?_,fun _ => rfl⟩
      rw [Heap.read_modify_of_ne hpq,he]

/-- Linking the new struct. -/
theorem linkItem (hb : Backs m s held) (hi : i < s.cache.hashTableSize)
    (hrun : LruCache.linkItem s prev p i = some t) :
    ∃ m', m.writeLink prev i (some p) = some m' ∧ Backs m' t held ∧
      Releases m held m' held none := by
  have hprev : ∀ q, prev = some q → ∃ d, s.heap.read q = some d := by
    rintro q rfl
    rw [LruCache.linkItem,Option.bind_eq_bind,Option.bind_eq_some_iff] at hrun
    obtain ⟨heap,hstore,_⟩ := hrun
    rw [Heap.store,Option.map_eq_some_iff] at hstore
    obtain ⟨e,he,_⟩ := hstore
    exact ⟨e,he⟩
  obtain ⟨m',hlink,hbuf,hslots,_,hb'⟩ := hb.writeLink hi hprev (some p)
  have ht : relinked s prev i (some p) = t := by
    cases prev with
    | none => exact Option.some.inj hrun
    | some q =>
      obtain ⟨e,he⟩ := hprev q rfl
      rw [LruCache.linkItem,Heap.store_eq he] at hrun
      exact Option.some.inj hrun
  rw [ht] at hb'
  exact ⟨m',hlink,hb',.of_same hbuf hslots⟩

theorem removeItem (hb : Backs m s held) (hp : p ∈ held) (hc : m.structs.read p = some c)
    (hi : i < s.cache.hashTableSize) (hrun : LruCache.lruCacheRemoveItem s prev p i = some t) :
    ∃ m', lruCacheRemoveItem m prev p i = some m' ∧ Backs m' t (held.erase p) ∧
      Releases m held m' (held.erase p) (some p) := by
  obtain ⟨d,hd,_,_,hnext⟩ := hb.read_item hc
  rw [LruCache.lruCacheRemoveItem,hd] at hrun
  dsimp only [Option.bind_eq_bind,Option.bind_some] at hrun
  have hprev : ∀ q, prev = some q → ∃ d, s.heap.read q = some d := by
    rintro q rfl
    rw [Option.bind_eq_some_iff] at hrun
    obtain ⟨heap,hstore,_⟩ := hrun
    rw [Heap.store,Option.map_eq_some_iff] at hstore
    obtain ⟨e,he,_⟩ := hstore
    exact ⟨e,he⟩
  obtain ⟨m₁,hlink,hbuf,hslots,hparts,hb₁⟩ := hb.writeLink hi hprev d.next
  have ht : relinked s prev i d.next = t := by
    cases prev with
    | none => exact Option.some.inj hrun
    | some q =>
      obtain ⟨e,he⟩ := hprev q rfl
      dsimp only at hrun
      rw [Heap.store_eq he] at hrun
      exact Option.some.inj hrun
  rw [ht] at hb₁
  -- after the unlink the struct has the same two buffers
  obtain ⟨c₁,hc₁,hpart⟩ := hparts p c hc
  have hfree := (hb₁.free_parts hp hc₁ (x := .value) (y := .key) (by simp)).1
  have hdrop := hb₁.drop hp hc₁ (x := .value) (y := .key) (by simp)
  obtain ⟨_,hv⟩ := hb₁.read_part hp hc₁ .value
  rw [hpart,hpart] at hfree hdrop
  rw [hpart] at hv
  refine ⟨_,?_,hdrop,?_⟩
  · rw [lruCacheRemoveItem,hc]
    dsimp only [Option.bind_eq_bind,Option.bind_some]
    rw [hnext,hlink]
    exact hfree
  · refine ⟨?_,?_,?_⟩
    · rintro q b ⟨rfl⟩ hq
      rw [slots_of_mem hp hc] at hq
      cases hq
      exact (Heap.dead_free hv).free _
    · intro b h
      rw [← hbuf] at h
      exact (h.free _).free _
    · intro q hq hqp
      have hqp : q ≠ p := fun h => hqp (h ▸ rfl)
      refine ⟨Finset.mem_erase.mpr ⟨hqp,hq⟩,fun x => ⟨?_,fun b hbq => ?_⟩⟩
      · rw [← hslots]
        change slots m₁.structs (held.erase p) (q,x) = _
        simp [slots,hqp]
      · have hne : ∀ y, b ≠ c.part y := fun y =>
          hb.owns.ne hbq (slots_of_mem hp hc y) (by simp [hqp])
        change ((m₁.buffers.free (c.part .value)).free (c.part .key)).read b = _
        rw [Heap.read_free_of_ne (hne .key),Heap.read_free_of_ne (hne .value),hbuf]

theorem stampItem (hb : Backs m s held) (hrun : LruCache.stampItem s p = some t) :
    ∃ m', Blocks.stampItem m p = some m' ∧ Backs m' t held ∧ Releases m held m' held none := by
  rw [LruCache.stampItem,Option.bind_eq_bind,Option.bind_eq_some_iff] at hrun
  obtain ⟨heap,hstore,he⟩ := hrun
  cases he
  rw [Heap.store,Option.map_eq_some_iff] at hstore
  obtain ⟨e,he,rfl⟩ := hstore
  obtain ⟨c',hc',_⟩ := hb.read_struct he
  have hpart : ∀ (c : Item) x, ({ c with age := s.cache.age } : Item).part x = c.part x := by
    intro c x
    cases x <;> rfl
  have hmod := hb.modify (f := fun c => { c with age := s.cache.age })
    (g := fun d => { d with age := s.cache.age }) p hpart (by intro d x; cases x <;> rfl) ?_
  · refine ⟨_,?_,hmod.setCache { s.cache with age := incr64 s.cache.age },
      .of_same rfl (slots_modify hpart p)⟩
    rw [Blocks.stampItem,hb.readCache_eq]
    simp only [Option.bind_eq_bind,Option.bind_some,Heap.store_eq hc',Option.pure_def,hb.cache]
  · rintro c d h
    simp only [Prod.mk.injEq] at h ⊢
    exact ⟨h.1,trivial,h.2.2⟩

/-- A struct whose buffers are kept keeps its key. -/
theorem key_eq {m' : Memory} {held' : Finset Ptr} {gone : Option Ptr} {e : LRUCacheItem}
    (hb : Backs m s held) (hb' : Backs m' t held') (hr : Releases m held m' held' gone)
    (hp : p ∈ held) (hgone : gone ≠ some p) (hd : s.heap.read p = some d)
    (he : t.heap.read p = some e) : e.key = d.key := by
  obtain ⟨c,hc,_⟩ := hb.read_struct hd
  obtain ⟨c',hc',_⟩ := hb'.read_struct he
  obtain ⟨hp',hslots⟩ := hr.kept p hp hgone
  obtain ⟨hsame,hread⟩ := hslots .key
  rw [slots_of_mem hp hc,slots_of_mem hp' hc',Option.some.injEq] at hsame
  have hold := hb.contents p hp c d hc hd .key
  have hnew := hb'.contents p hp' c' e hc' he .key
  rw [hsame,hread _ (slots_of_mem hp hc .key),hold] at hnew
  exact Subtype.ext (List.append_cancel_right (Option.some.inj hnew)).symm

/-- A new struct with its two buffers. -/
theorem alloc (hb : Backs m s held) (k : CString) (v : List UInt8) (len : ℕ) (next : Option Ptr) :
    Backs { m with
        buffers := (m.buffers.alloc (k.val++[0])).alloc v
        structs := m.structs.alloc ⟨m.buffers.top,m.buffers.top+1,len,0,next⟩ }
      { s with heap := s.heap.alloc ⟨k,v,len,0,next⟩ } (insert m.structs.top held) where
  owns := by
    have hnone : ∀ x, slots m.structs held (m.structs.top,x) = none := fun x => by
      simp [slots,hb.top_notMem]
    have ho := (hb.owns.alloc (hnone .key) (k.val++[0])).alloc (i := (m.structs.top,.value))
      (by rw [Function.update_of_ne (by simp)]; exact hnone .value) v
    rw [Heap.top_alloc] at ho
    change Heap.Owns _ (slots (m.structs.alloc _) (insert m.structs.top held))
    rw [slots_alloc]
    exact ho
  allocated q hq := by
    rcases Finset.mem_insert.mp hq with rfl | hq
    · exact ⟨_,Heap.read_alloc_top _ _⟩
    · obtain ⟨c,hc⟩ := hb.allocated q hq
      exact ⟨c,(Heap.read_alloc_of_ne (Heap.lt_top hc).ne).trans hc⟩
  cache := hb.cache
  cacheAllocated := hb.cacheAllocated
  itemsAllocated := hb.itemsAllocated
  staleNext := hb.staleNext
  top := congrArg (·+1) hb.top
  fields q := by
    dsimp only
    by_cases hq : q = m.structs.top
    · subst hq
      rw [Heap.read_alloc_top,hb.top,Heap.read_alloc_top]
      rfl
    · rw [Heap.read_alloc_of_ne hq,Heap.read_alloc_of_ne (hb.top ▸ hq)]
      exact hb.fields q
  contents q hq c d hc hd x := by
    dsimp only at hc hd ⊢
    rcases Finset.mem_insert.mp hq with rfl | hqh
    · rw [hb.top] at hd
      rw [Heap.read_alloc_top] at hc hd
      cases hc
      cases hd
      cases x
      · rw [Item.part,Heap.read_alloc_of_ne (by simp),Heap.read_alloc_top]
        rfl
      · exact Heap.read_alloc_top (m.buffers.alloc _) v
    · have hqt : q ≠ m.structs.top := ne_of_mem_of_not_mem hqh hb.top_notMem
      rw [Heap.read_alloc_of_ne hqt] at hc
      rw [Heap.read_alloc_of_ne (hb.top ▸ hqt)] at hd
      have hr := hb.contents q hqh c d hc hd x
      have hlt := Heap.lt_top hr
      have hlt' : c.part x < (m.buffers.alloc (k.val++[0])).top := Nat.lt_succ_of_lt hlt
      rw [Heap.read_alloc_of_ne hlt'.ne,Heap.read_alloc_of_ne hlt.ne]
      exact hr

theorem releases_alloc (hb : Backs m s held) (k v : List UInt8) (c : Item) :
    Releases m held { m with
      buffers := (m.buffers.alloc k).alloc v
      structs := m.structs.alloc c } (insert m.structs.top held) none where
  dead := by simp
  stays b h := (h.alloc k).alloc v
  kept q hq _ := by
    have hqt : q ≠ m.structs.top := ne_of_mem_of_not_mem hq hb.top_notMem
    refine ⟨Finset.mem_insert_of_mem hq,fun x => ⟨?_,fun b hbq => ?_⟩⟩
    · simp [slots,hq,Heap.read_alloc_of_ne hqt]
    · obtain ⟨_,hr⟩ := hb.owns.read hbq
      have hlt := Heap.lt_top hr
      have hlt' : b < (m.buffers.alloc k).top := Nat.lt_succ_of_lt hlt
      dsimp only
      rw [Heap.read_alloc_of_ne hlt'.ne,Heap.read_alloc_of_ne hlt.ne]

/-- A new value for a struct that has one. -/
theorem overwriteItem (hb : Backs m s held) (hp : p ∈ held) (hd : s.heap.read p = some d)
    (v : List UInt8) (len : ℕ) :
    ∃ m', Blocks.overwriteItem m p v len = some (m',p) ∧
      Backs m' { s with heap := s.heap.modify p fun d =>
        { d with value := memcpy v len, valueLength := len } } held ∧
      Releases m held m' held (some p) := by
  obtain ⟨c,hc,_,_,_⟩ := hb.read_struct hd
  obtain ⟨bytes,hv⟩ := hb.read_part hp hc .value
  change m.buffers.read c.value = some bytes at hv
  have hset := slots_setValue hp hc m.buffers.top len
  refine ⟨{ m with
    buffers := (m.buffers.free c.value).alloc (memcpy v len)
    structs := m.structs.modify p fun c =>
      { c with value := m.buffers.top, valueLength := len } },?_,?_,?_⟩
  · rw [Blocks.overwriteItem,hc]
    simp only [Option.bind_eq_bind,Option.bind_some,Memory.free_eq hv,Memory.malloc,
      Heap.store_eq hc,Heap.top_free,Option.pure_def]
  · refine ⟨⟨?_,?_⟩,hb.cache,hb.cacheAllocated,hb.itemsAllocated,hb.staleNext,hb.top,?_,?_⟩
    · dsimp only
      rw [hset]
      exact hb.owns.renew (slots_of_mem hp hc .value) (memcpy v len)
    · intro q hq
      obtain ⟨e,he⟩ := hb.allocated q hq
      by_cases hqp : q = p
      · subst hqp
        exact ⟨_,by rw [Heap.read_modify_self,he,Option.map_some]⟩
      · exact ⟨e,by rw [Heap.read_modify_of_ne hqp,he]⟩
    · intro q
      dsimp only
      by_cases hqp : q = p
      · subst hqp
        have hf := hb.fields q
        rw [hc,hd,Option.map_some,Option.map_some,Option.some.injEq,Prod.mk.injEq] at hf
        rw [Heap.read_modify_self,Heap.read_modify_self,hc,hd]
        simp [hf.2]
      · rw [Heap.read_modify_of_ne hqp,Heap.read_modify_of_ne hqp]
        exact hb.fields q
    · intro q hq e f he hf x
      dsimp only at he hf ⊢
      have hold : ∀ {y e' f'}, m.structs.read q = some e' → s.heap.read q = some f' →
          (q,y) ≠ (p,Part.value) →
          ((m.buffers.free c.value).alloc (memcpy v len)).read (e'.part y) = some (bytesOf f' y) := by
        intro y e' f' he' hf' hne
        have hr := hb.contents q hq e' f' he' hf' y
        have hfree := hb.owns.ne (slots_of_mem hq he' y) (slots_of_mem hp hc .value) hne
        have hlt : e'.part y < m.buffers.top := Heap.lt_top hr
        have hnew : e'.part y ≠ (m.buffers.free c.value).top := hlt.ne
        rw [Heap.read_alloc_of_ne hnew]
        exact (Heap.read_free_of_ne hfree).trans hr
      by_cases hqp : q = p
      · subst hqp
        rw [Heap.read_modify_self,hc] at he
        rw [Heap.read_modify_self,hd] at hf
        cases he
        cases hf
        cases x
        · have hkey := hold (y := .key) hc hd (by simp)
          exact hkey
        · exact Heap.read_alloc_top (m.buffers.free c.value) _
      · rw [Heap.read_modify_of_ne hqp] at he hf
        exact hold he hf (by simp [hqp])
  · refine ⟨?_,fun b h => (h.free _).alloc _,?_⟩
    · rintro q b ⟨rfl⟩ hq
      rw [slots_of_mem hp hc] at hq
      cases hq
      exact (Heap.dead_free hv).alloc _
    · intro q hq hqp
      have hqp : q ≠ p := fun h => hqp (h ▸ rfl)
      refine ⟨hq,fun x => ⟨?_,fun b hbq => ?_⟩⟩
      · rw [hset,Function.update_of_ne (by simp [hqp])]
      · obtain ⟨_,hr⟩ := hb.owns.read hbq
        have hlt : b < m.buffers.top := Heap.lt_top hr
        have hnew : b ≠ (m.buffers.free c.value).top := hlt.ne
        have hfree : b ≠ c.value := hb.owns.ne hbq (slots_of_mem hp hc .value) (by simp [hqp])
        dsimp only
        rw [Heap.read_alloc_of_ne hnew,Heap.read_free_of_ne hfree]

end Backs
end CStudy.LruCache.Blocks

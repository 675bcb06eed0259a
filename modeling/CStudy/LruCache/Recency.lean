import CStudy.LruCache.Accounting

/-! Ages and the order of operations. A call either stamps one key with the age counter, or
leaves all ages alone. Over fewer than `2^64` calls the counter does not wrap, so the ages of
the linked items are distinct and ordered like the last uses of their keys. -/
namespace CStudy.LruCache
open CStudy.Foundation Ledger

/-- The call sets the key `k`, or gets it successfully. -/
def Touches (k : CString) : Call × Reply → Prop
  | (.set j _,_) => j = k
  | (.get j,.got .ok _ _) => j = k
  | _ => False

/-- The call at position `i` is the last one that sets or successfully gets `k`. -/
def LastTouch (past : List (Call × Reply)) (k : CString) (i : ℕ) : Prop :=
  (∃ x, past[i]? = some x ∧ Touches k x) ∧ ∀ j x, i < j → past[j]? = some x → ¬ Touches k x

theorem LastTouch.lt_length {past : List (Call × Reply)} {k : CString} {i : ℕ}
    (h : LastTouch past k i) : i < past.length := by
  obtain ⟨⟨x,hx,_⟩,_⟩ := h
  exact (List.getElem?_eq_some_iff.mp hx).1

/-- A call that touches `k` becomes its last touch; any other call leaves it where it was. -/
theorem lastTouch_concat_of_touches {past : List (Call × Reply)} {x : Call × Reply} {k : CString}
    {i : ℕ} (hx : Touches k x) : LastTouch (past++[x]) k i ↔ i = past.length := by
  have hlast : (past++[x])[past.length]? = some x := by simp
  constructor
  · intro h
    have hle := h.lt_length
    rw [List.length_append,List.length_singleton] at hle
    by_contra hne
    exact h.2 past.length x (by omega) hlast hx
  · intro hi
    subst hi
    refine ⟨⟨x,hlast,hx⟩,?_⟩
    intro j y hj hy
    have hlt := (List.getElem?_eq_some_iff.mp hy).1
    rw [List.length_append,List.length_singleton] at hlt
    omega

theorem lastTouch_concat_of_not {past : List (Call × Reply)} {x : Call × Reply} {k : CString}
    {i : ℕ} (hx : ¬ Touches k x) : LastTouch (past++[x]) k i ↔ LastTouch past k i := by
  have hget : ∀ (j : ℕ) y, Touches k y ∧ (past++[x])[j]? = some y ↔ Touches k y ∧ past[j]? = some y := by
    intro j y
    rw [List.getElem?_append]
    split_ifs with hj
    · rfl
    · rw [List.getElem?_eq_none (by omega : past.length ≤ j),List.getElem?_singleton]
      split_ifs
      · constructor
        · intro h
          obtain ⟨hy,hxy⟩ := h
          cases hxy
          exact absurd hy hx
        · intro h; cases h.2
      · rfl
  simp only [LastTouch]
  constructor
  · intro h
    obtain ⟨⟨y,hy,hyk⟩,hlast⟩ := h
    refine ⟨⟨y,((hget i y).mp ⟨hyk,hy⟩).2,hyk⟩,?_⟩
    intro j z hj hz hzk
    exact hlast j z hj ((hget j z).mpr ⟨hzk,hz⟩).2 hzk
  · intro h
    obtain ⟨⟨y,hy,hyk⟩,hlast⟩ := h
    refine ⟨⟨y,((hget i y).mpr ⟨hyk,hy⟩).2,hyk⟩,?_⟩
    intro j z hj hz hzk
    exact hlast j z hj ((hget j z).mp ⟨hzk,hz⟩).2 hzk

namespace Ledger
variable {place : CString → ℕ} {n : ℕ} {a b : Ledger}

/-- The entries of `b` are entries of `a`, apart from the key `k`, which has the age of `a`. -/
def Stamped (a b : Ledger) (k : CString) : Prop :=
  b.age = incr64 a.age ∧
    ∀ e ∈ b.entries, e.key = k ∧ e.age = a.age ∨ e.key ≠ k ∧ e ∈ a.entries

theorem stamped_amend {k : CString} {g : Entry → Entry} (hg : ∀ e, (g e).key = e.key)
    (hage : ∀ e, (g e).age = a.age) : Stamped a (a.amend k g hg) k := by
  refine ⟨rfl,?_⟩
  intro e he
  obtain ⟨x,hx,hxe⟩ := mem_amend.mp he
  by_cases hk : x.key = k
  · rw [if_pos hk] at hxe
    subst hxe
    exact .inl ⟨(hg x).trans hk,hage x⟩
  · rw [if_neg hk] at hxe
    subst hxe
    exact .inr ⟨hk,hx⟩

theorem stamped_overwrite (a : Ledger) (k : CString) (v : List UInt8) :
    Stamped a (a.overwrite k v) k := stamped_amend _ fun _ => rfl

theorem stamped_touch (a : Ledger) (k : CString) : Stamped a (a.touch k) k :=
  stamped_amend _ fun _ => rfl

theorem stamped_insert {k : CString} {v : List UInt8} (hk : a.lookup k = none) :
    Stamped a (a.insert place n k v hk) k := by
  refine ⟨rfl,?_⟩
  intro e he
  have hold : e ∈ a.kept place n → e.key ≠ k ∧ e ∈ a.entries := by
    intro hm
    have ha := (a.kept_sublist place n).mem hm
    exact ⟨lookup_eq_none.mp hk e ha,ha⟩
  dsimp only [insert] at he
  split_ifs at he
  · exact .inr (hold he)
  · rcases List.mem_append.mp he with hm | hm
    · exact .inr (hold hm)
    · rw [List.mem_singleton.mp hm]
      exact .inl ⟨rfl,rfl⟩

/-- All that a call can do to the ages. -/
theorem step_cases (place : CString → ℕ) (n : ℕ) (a : Ledger) (c : Call) :
    (∃ k, (∀ j, Touches j (c,(a.step place n c).2) ↔ j = k) ∧
        Stamped a (a.step place n c).1 k) ∨
      (∀ j, ¬ Touches j (c,(a.step place n c).2)) ∧ (a.step place n c).1.age = a.age ∧
        (a.step place n c).1.entries ⊆ a.entries := by
  cases c with
  | set k v =>
    refine .inl ⟨k,fun j => eq_comm,?_⟩
    rw [step]
    cases hk : a.lookup k with
    | some e => rw [set_of_some hk]; exact a.stamped_overwrite k v
    | none => rw [set_of_none hk]; exact stamped_insert hk
  | get k =>
    rw [step]
    cases hk : a.lookup k with
    | some e => exact .inl ⟨k,fun j => eq_comm,a.stamped_touch k⟩
    | none => exact .inr ⟨fun j => id,rfl,List.Subset.refl _⟩
  | delete k =>
    rw [step]
    cases hk : a.lookup k with
    | some e => exact .inr ⟨fun j => id,rfl,List.filter_subset_self _⟩
    | none => exact .inr ⟨fun j => id,rfl,List.Subset.refl _⟩

/-- The ages of a ledger agree with the calls made so far. -/
structure Dated (past : List (Call × Reply)) (a : Ledger) : Prop where
  age_le : a.age ≤ past.length
  below : ∀ e ∈ a.entries, e.age < a.age
  distinct : ∀ e ∈ a.entries, ∀ e' ∈ a.entries, e.age = e'.age → e = e'
  touched : ∀ e ∈ a.entries, ∃ i, LastTouch past e.key i
  ordered : ∀ e ∈ a.entries, ∀ e' ∈ a.entries, e.age < e'.age →
    ∀ i j, LastTouch past e.key i → LastTouch past e'.key j → i < j

theorem dated_empty : Dated [] (Ledger.empty 0) := by
  refine ⟨le_rfl,?_,?_,?_,?_⟩ <;> simp

theorem Dated.stamped {past : List (Call × Reply)} {x : Call × Reply} {k : CString}
    (hd : Dated past a) (hb : Stamped a b k) (hx : ∀ j, Touches j x ↔ j = k)
    (hlen : past.length+1 < 2^64) : Dated (past++[x]) b := by
  obtain ⟨hage,hmem⟩ := hb
  have hle := hd.age_le
  have hnext : b.age = a.age+1 := by rw [hage,incr64_of_lt (by omega)]
  refine ⟨?_,?_,?_,?_,?_⟩
  · rw [List.length_append,List.length_singleton]
    omega
  · intro e he
    rcases hmem e he with ⟨_,h⟩ | ⟨_,h⟩
    · omega
    · have := hd.below e h
      omega
  · intro e he e' he' haa
    rcases hmem e he,hmem e' he' with ⟨⟨hk,h⟩ | ⟨hk,h⟩,⟨hk',h'⟩ | ⟨hk',h'⟩⟩
    · exact b.eq_of_key he he' (hk.trans hk'.symm)
    · have := hd.below e' h'
      omega
    · have := hd.below e h
      omega
    · exact hd.distinct e h e' h' haa
  · intro e he
    rcases hmem e he with ⟨hk,_⟩ | ⟨hk,h⟩
    · exact ⟨past.length,(lastTouch_concat_of_touches ((hx _).mpr hk)).mpr rfl⟩
    · obtain ⟨i,hi⟩ := hd.touched e h
      exact ⟨i,(lastTouch_concat_of_not (mt (hx _).mp hk)).mpr hi⟩
  · intro e he e' he' hlt i j hi hj
    rcases hmem e he with ⟨_,h⟩ | ⟨hk,h⟩
    · -- nothing is younger than the stamped entry
      rcases hmem e' he' with ⟨_,h'⟩ | ⟨_,h'⟩
      · omega
      · have := hd.below e' h'
        omega
    · rw [lastTouch_concat_of_not (mt (hx _).mp hk)] at hi
      rcases hmem e' he' with ⟨hk',_⟩ | ⟨hk',h'⟩
      · rw [lastTouch_concat_of_touches ((hx _).mpr hk')] at hj
        rw [hj]
        exact hi.lt_length
      · rw [lastTouch_concat_of_not (mt (hx _).mp hk')] at hj
        exact hd.ordered e h e' h' hlt i j hi hj

theorem Dated.quiet {past : List (Call × Reply)} {x : Call × Reply} (hd : Dated past a)
    (hage : b.age = a.age) (hmem : b.entries ⊆ a.entries) (hx : ∀ j, ¬ Touches j x) :
    Dated (past++[x]) b where
  age_le := by
    have := hd.age_le
    rw [List.length_append,hage]
    omega
  below e he := by rw [hage]; exact hd.below e (hmem he)
  distinct e he e' he' := hd.distinct e (hmem he) e' (hmem he')
  touched e he := by
    obtain ⟨i,hi⟩ := hd.touched e (hmem he)
    exact ⟨i,(lastTouch_concat_of_not (hx _)).mpr hi⟩
  ordered e he e' he' hlt i j hi hj := by
    rw [lastTouch_concat_of_not (hx _)] at hi hj
    exact hd.ordered e (hmem he) e' (hmem he') hlt i j hi hj

theorem Dated.step {past : List (Call × Reply)} (hd : Dated past a) (place : CString → ℕ) (n : ℕ) (c : Call)
    (hlen : past.length+1 < 2^64) :
    Dated (past++[(c,(a.step place n c).2)]) (a.step place n c).1 := by
  rcases step_cases place n a c with ⟨k,hx,hb⟩ | ⟨hx,hage,hmem⟩
  · exact hd.stamped hb hx hlen
  · exact hd.quiet hage hmem hx

/-- Over fewer than `2^64` calls the ages follow the order of operations. -/
theorem dated_drive (place : CString → ℕ) (n : ℕ) (calls : List Call) (hlen : calls.length < 2^64) :
    Dated (calls.zip (Machine.drive (Ledger.step place n) (Ledger.empty 0) calls).2)
      (Machine.drive (Ledger.step place n) (Ledger.empty 0) calls).1 := by
  induction calls using List.reverseRecOn with
  | nil => exact dated_empty
  | append_singleton calls c ih =>
    rw [List.length_append,List.length_singleton] at hlen
    have h := (ih (by omega)).step place n c (by simpa using hlen)
    rw [Machine.drive_append,List.zip_append (by simp)]
    exact h

end Ledger

section Eviction
variable {n : ℕ} {seed : Int64} {s t : State} {a : Ledger} {k j : CString}

/-- The key is present before a call and absent after it. -/
def Disappears (s t : State) (j : CString) : Prop := Present s j ∧ ¬ Present t j

/-- The one key an inserting `Set` can remove is that of its victim. -/
theorem disappears_iff {v : List UInt8} (hn : 0 < n) (hr : Rep n seed s a)
    {hk : a.lookup k = none} (ht : Rep n seed t (a.insert (placeOf seed n) n k v hk)) :
    Disappears s t j ↔ (a.victim (placeOf seed n) n).map Entry.key = some j := by
  rw [Disappears,hr.present_iff hn,ht.absent_iff hn]
  by_cases hj : j = k
  · subst hj
    simp only [hk,reduceCtorEq,exists_false,false_and,false_iff]
    intro hv
    obtain ⟨w,hw,hwk⟩ := Option.map_eq_some_iff.mp hv
    exact lookup_eq_none.mp hk w (victim_mem hw) hwk
  · rw [lookup_insert_of_ne hj]
    split_ifs with hv
    · obtain ⟨w,hw,rfl⟩ := Option.map_eq_some_iff.mp hv
      simp only [hv,and_true,iff_true]
      exact ⟨w,lookup_eq_some.mpr ⟨victim_mem hw,rfl⟩⟩
    · simp only [hv,iff_false,not_and]
      intro h hnone
      obtain ⟨e,he⟩ := h
      cases he.symm.trans hnone

/-- The victim of an insert was used before every other entry. -/
theorem Ledger.Dated.victim_first {past : List (Call × Reply)} {place : CString → ℕ} {w e : Entry}
    (hd : Dated past a) (hp : ∀ k, place k < n) (hw : a.victim place n = some w)
    (he : e ∈ a.entries) (hne : e.key ≠ w.key) :
    ∃ i i', LastTouch past w.key i ∧ LastTouch past e.key i' ∧ i < i' := by
  have hwm := victim_mem hw
  rw [victim,Option.ite_none_right_eq_some] at hw
  have hage : w.age ≠ e.age := fun h => hne (congrArg Entry.key (hd.distinct w hwm e he h)).symm
  have hlt := lt_of_le_of_ne (leastUsed_le hp hw.2 he) hage
  obtain ⟨i,hi⟩ := hd.touched w hwm
  obtain ⟨i',hi'⟩ := hd.touched e he
  exact ⟨i,i',hi,hi',hd.ordered w hwm e he hlt i i' hi hi'⟩

/-- In every state reached in fewer than `2^64` calls, a `Set` of an absent key removes at most
one other key, only if the table is counted full, and then the least recently used one. All
other keys keep their values. -/
theorem set_evicts_least_recent (n : ℕ) (hn : 1 ≤ n) (seed : Int64) (calls : List Call)
    (hlen : calls.length < 2^64) (k : CString) (v : List UInt8) :
    ∃ s replies t, Machine.run step (lruCacheNew n seed .zeroed) calls = some (s,replies) ∧
      lruCacheSet s k v v.length = some t ∧
      (¬ Present s k →
        (∀ j j', Disappears s t j → Disappears s t j' → j = j') ∧
        (∀ j, j ≠ k → ¬ Disappears s t j → ∀ x len, Maps t j x len ↔ Maps s j x len) ∧
        ∀ j, Disappears s t j → s.cache.capacity ≤ s.cache.currentEntries ∧
          ∀ j', j' ≠ j → Present s j' →
            ∃ i i', LastTouch (calls.zip replies) j i ∧ LastTouch (calls.zip replies) j' i' ∧
              i < i') := by
  obtain ⟨s,hrun,hr⟩ := run_new hn seed calls
  obtain ⟨t,ht,hr'⟩ := hr.set hn k v
  refine ⟨s,_,t,hrun,ht,?_⟩
  intro habs
  have hk := (hr.absent_iff hn).mp habs
  rw [set_of_none hk] at hr'
  have hgone : ∀ j, Disappears s t j ↔ _ := fun j => disappears_iff hn hr hr'
  refine ⟨?_,?_,?_⟩
  · intro j j' hj hj'
    rw [hgone] at hj hj'
    exact Option.some.inj (hj.symm.trans hj')
  · intro j hjk hj x len
    rw [hgone] at hj
    rw [hr'.maps_iff hn,hr.maps_iff hn,lookup_insert_of_ne hjk,if_neg hj]
  · intro j hj
    obtain ⟨w,hw,rfl⟩ := Option.map_eq_some_iff.mp ((hgone j).mp hj)
    constructor
    · rw [hr.capacity,hr.currentEntries]
      exact (Option.ite_none_right_eq_some.mp hw).1
    · intro j' hj' hpres
      obtain ⟨e,he⟩ := (hr.present_iff hn).mp hpres
      obtain ⟨hmem,rfl⟩ := lookup_eq_some.mp he
      exact (dated_drive _ n calls hlen).victim_first (placeOf_lt seed hn) hw hmem hj'

theorem set_evicts_least_recent_test : 1 ≤ 2 ∧
    [Call.set key1 [1],.set key2 [2],.get key1].length < 2^64 ∧
    ∃ s replies t, Machine.run step (lruCacheNew 2 0 .zeroed)
        [.set key1 [1],.set key2 [2],.get key1] = some (s,replies) ∧
      lruCacheSet s key3 [3] 1 = some t ∧
      (¬ Present s key3 →
        (∀ j j', Disappears s t j → Disappears s t j' → j = j') ∧
        (∀ j, j ≠ key3 → ¬ Disappears s t j → ∀ x len, Maps t j x len ↔ Maps s j x len) ∧
        ∀ j, Disappears s t j → s.cache.capacity ≤ s.cache.currentEntries ∧
          ∀ j', j' ≠ j → Present s j' →
            ∃ i i', LastTouch ([Call.set key1 [1],.set key2 [2],.get key1].zip replies) j i ∧
              LastTouch ([Call.set key1 [1],.set key2 [2],.get key1].zip replies) j' i' ∧
              i < i') :=
  ⟨by decide,by decide,set_evicts_least_recent 2 (by decide) 0 _ (by decide) key3 [3]⟩

end Eviction

/-- The shape of the table: chains, placement, keys and ages. -/
structure WellFormed (s : State) : Prop where
  chains : ∃ ch : ℕ → List Ptr,
    (∀ i < s.cache.hashTableSize, s.heap.Chain LRUCacheItem.next (s.cache.items i) (ch i) ∧
      (ch i).Nodup) ∧
    ∀ i < s.cache.hashTableSize, ∀ j < s.cache.hashTableSize, i ≠ j → List.Disjoint (ch i) (ch j)
  placed : ∀ i < s.cache.hashTableSize, ∀ p c,
    s.heap.Reaches LRUCacheItem.next (s.cache.items i) p → s.heap.read p = some c →
      lruCacheGetHashIndex s.cache c.key = some i
  keys : ∀ p q c d, Linked s p → Linked s q → s.heap.read p = some c → s.heap.read q = some d →
    c.key = d.key → p = q
  ages : ∀ p q c d, Linked s p → Linked s q → s.heap.read p = some c → s.heap.read q = some d →
    c.age = d.age → p = q
  below : ∀ p c, Linked s p → s.heap.read p = some c → c.age < s.cache.age

theorem Rep.wellFormed {n : ℕ} {seed : Int64} {s : State} {a : Ledger} (hn : 0 < n)
    (hr : Rep n seed s a) {past : List (Call × Reply)} (hd : Dated past a) : WellFormed s := by
  obtain ⟨ch,hl⟩ := hr.layout
  have hsize := hr.hashTableSize
  have hkeys : ∀ p q c d, Linked s p → Linked s q → s.heap.read p = some c →
      s.heap.read q = some d → c.key = d.key → p = q := by
    intro p q c d hp hq hc hd hk
    obtain ⟨i,hi,hpi⟩ := (hl.linked_iff hsize).mp hp
    obtain ⟨j,hj,hqj⟩ := (hl.linked_iff hsize).mp hq
    exact hl.eq_of_key a.distinct hi hj hpi hqj (entryAt_of_read hc) (entryAt_of_read hd) hk
  have hmem : ∀ p c, Linked s p → s.heap.read p = some c → toEntry c ∈ a.entries := by
    intro p c hp hc
    obtain ⟨e,he,hec⟩ := (hr.linked_entry hn fun e => e = toEntry c).mp ⟨p,c,hp,hc,rfl⟩
    exact hec ▸ he
  refine ⟨⟨ch,?_,?_⟩,?_,hkeys,?_,?_⟩
  · intro i hi
    have hch := hl.chain i (hsize ▸ hi)
    exact ⟨hch,hch.nodup⟩
  · intro i hi j hj
    exact hl.disjoint i (hsize ▸ hi) j (hsize ▸ hj)
  · intro i hi p c hp hc
    rw [hsize] at hi
    obtain ⟨e,he,_,hplace⟩ := hl.entry_of_mem hi ((hl.chain i hi).reaches_iff.mp hp)
    cases he.symm.trans (entryAt_of_read hc)
    rw [hr.hashIndex hn]
    exact congrArg some hplace
  · intro p q c d hp hq hc hd' hage
    refine hkeys p q c d hp hq hc hd' ?_
    exact congrArg Entry.key (hd.distinct _ (hmem p c hp hc) _ (hmem q d hq hd') hage)
  · intro p c hp hc
    rw [hr.age]
    exact hd.below _ (hmem p c hp hc)

/-- Every state reached in fewer than `2^64` calls is well formed. -/
theorem reachable_wellFormed (n : ℕ) (hn : 1 ≤ n) (seed : Int64) (calls : List Call)
    (hlen : calls.length < 2^64) :
    ∃ s replies, Machine.run step (lruCacheNew n seed .zeroed) calls = some (s,replies) ∧
      WellFormed s := by
  obtain ⟨s,hrun,hr⟩ := run_new hn seed calls
  exact ⟨s,_,hrun,hr.wellFormed hn (dated_drive _ n calls hlen)⟩

theorem reachable_wellFormed_test : 1 ≤ 2 ∧
    [Call.set key1 [1],.set key2 [2],.delete key1,.set key3 [3]].length < 2^64 ∧
    ∃ s replies, Machine.run step (lruCacheNew 2 0 .zeroed)
        [.set key1 [1],.set key2 [2],.delete key1,.set key3 [3]] = some (s,replies) ∧
      WellFormed s :=
  ⟨by decide,by decide,reachable_wellFormed 2 (by decide) 0 _ (by decide)⟩

end CStudy.LruCache

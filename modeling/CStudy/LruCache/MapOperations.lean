import CStudy.LruCache.Observation

/-! The table as a partial map from keys to values with their lengths. `Get` reads it, `Delete`
takes one key out of it, and a `Set` of a key that is in it changes what that key is mapped to. -/
namespace CStudy.LruCache
open CStudy.Foundation Ledger

namespace Ledger
variable {a : Ledger} {j k : CString} {v w : List UInt8} {len : ℕ} {e : Entry}

theorem holds_of_some (hk : a.lookup k = some e) :
    a.Holds k w len ↔ e.value = w ∧ e.valueLength = len := by
  simp [Holds,hk]

theorem not_holds_of_none (hk : a.lookup k = none) : ¬ a.Holds k w len := by
  simp [Holds,hk]

theorem lookup_erase_self : (a.erase k).lookup k = none := by
  rw [lookup_eq_none]
  intro e he
  simpa using (List.mem_filter.mp he).2

theorem holds_touch : (a.touch k).Holds j w len ↔ a.Holds j w len := by
  rw [Holds,touch,lookup_amend]
  cases hj : a.lookup j with
  | none => simp [Holds,hj]
  | some e =>
    rw [holds_of_some hj]
    by_cases hk : e.key = k <;> simp [hk]

theorem holds_erase : (a.erase k).Holds j w len ↔ j ≠ k ∧ a.Holds j w len := by
  by_cases hj : j = k
  · subst hj
    simp [not_holds_of_none lookup_erase_self]
  · simp [Holds,lookup_erase_of_ne hj,hj]

theorem holds_overwrite (hk : a.lookup k = some e) : (a.overwrite k v).Holds j w len ↔
    (j = k ∧ w = v ∧ len = v.length) ∨ (j ≠ k ∧ a.Holds j w len) := by
  by_cases hj : j = k
  · subst hj
    have hself : (a.overwrite j v).lookup j =
        some { e with value := v, valueLength := v.length, age := a.age } := by
      rw [overwrite,lookup_amend_self,hk]
      rfl
    rw [holds_of_some hself]
    simp [eq_comm]
  · simp [Holds,overwrite,lookup_amend_of_ne hj,hj]

end Ledger

/-- What a `Get` of `k` does: it tells what `k` is mapped to and leaves the map as it is. -/
def GetReads (s : State) (k : CString) : Prop :=
  ∃ t error value len, lruCacheGet s k = some (t,error,value,len) ∧
    (∀ w m, error = .ok ∧ value = some w ∧ len = m ↔ Maps s k w m) ∧
    (¬ Present s k ↔ error = .keyMissing ∧ value = none ∧ len = 0) ∧
    ∀ j w m, Maps t j w m ↔ Maps s j w m

/-- What a `Delete` of `k` does: it takes `k` out of the map if it is there, and nothing else. -/
def DeleteErases (s : State) (k : CString) : Prop :=
  ∃ t error, lruCacheDelete s k = some (t,error) ∧ (error = .ok ↔ Present s k) ∧
    (∀ j w m, Maps t j w m ↔ j ≠ k ∧ Maps s j w m) ∧ (error = .keyMissing → t = s)

/-- What a `Set` of `k` does if `k` is in the map. -/
def SetOverwrites (s : State) (k : CString) (v : List UInt8) : Prop :=
  ∃ t, lruCacheSet s k v v.length = some t ∧
    (∀ j w m, Maps t j w m ↔ (j = k ∧ w = v ∧ m = v.length) ∨ (j ≠ k ∧ Maps s j w m)) ∧
    t.cache.currentEntries = s.cache.currentEntries

/-- A `Delete` that finds nothing writes nothing. -/
theorem eq_of_lruCacheDelete_keyMissing {s t : State} {k : CString}
    (h : lruCacheDelete s k = some (t,.keyMissing)) : t = s := by
  obtain ⟨index,_,h⟩ := Option.bind_eq_some_iff.mp h
  obtain ⟨⟨prev,item⟩,_,h⟩ := Option.bind_eq_some_iff.mp h
  cases item with
  | none =>
    cases h
    rfl
  | some p =>
    obtain ⟨u,_,h⟩ := Option.bind_eq_some_iff.mp h
    cases h

namespace Rep
variable {n : ℕ} {seed : Int64} {s : State} {a : Ledger}

theorem holds_iff {k : CString} {v : List UInt8} {len : ℕ} (hr : Rep n seed s a) (hn : 0 < n) :
    Maps s k v len ↔ a.Holds k v len := hr.maps_iff hn

theorem getReads (hr : Rep n seed s a) (hn : 0 < n) (k : CString) : GetReads s k := by
  obtain ⟨t,hstep,ht⟩ := hr.get hn k
  obtain ⟨⟨t',error,value,len⟩,hget,heq⟩ := Option.map_eq_some_iff.mp hstep
  obtain ⟨rfl,hreply⟩ := Prod.mk.inj heq
  refine ⟨t',error,value,len,hget,?_⟩
  rw [hr.absent_iff hn]
  simp only [hr.holds_iff hn,ht.holds_iff hn]
  cases hk : a.lookup k with
  | none =>
    simp only [Ledger.step,hk] at hreply ⊢
    cases hreply
    simp [not_holds_of_none hk]
  | some e =>
    simp only [Ledger.step,hk] at hreply ⊢
    cases hreply
    simp [holds_of_some hk,holds_touch]

theorem deleteErases (hr : Rep n seed s a) (hn : 0 < n) (k : CString) : DeleteErases s k := by
  obtain ⟨t,hstep,ht⟩ := hr.delete hn k
  obtain ⟨⟨t',error⟩,hdelete,heq⟩ := Option.map_eq_some_iff.mp hstep
  obtain ⟨rfl,hreply⟩ := Prod.mk.inj heq
  refine ⟨t',error,hdelete,?_,?_,?_⟩
  · rw [hr.present_iff hn]
    cases hk : a.lookup k with
    | none =>
      simp only [Ledger.step,hk] at hreply
      cases hreply
      simp
    | some e =>
      simp only [Ledger.step,hk] at hreply
      cases hreply
      simp
  · intro j w m
    rw [hr.holds_iff hn,ht.holds_iff hn,← holds_erase]
    cases hk : a.lookup k with
    | none =>
      simp only [Ledger.step,hk]
      rw [holds_erase]
      refine ⟨fun h => ⟨?_,h⟩,fun h => h.2⟩
      rintro rfl
      exact not_holds_of_none hk h
    | some e => simp only [Ledger.step,hk]
  · rintro rfl
    exact eq_of_lruCacheDelete_keyMissing hdelete

theorem setOverwrites (hr : Rep n seed s a) (hn : 0 < n) {k : CString} (hk : Present s k)
    (v : List UInt8) : SetOverwrites s k v := by
  obtain ⟨e,hk⟩ := (hr.present_iff hn).mp hk
  obtain ⟨t,hset,ht⟩ := hr.set hn k v
  rw [set_of_some hk] at ht
  refine ⟨t,hset,?_,?_⟩
  · intro j w m
    rw [ht.holds_iff hn,hr.holds_iff hn]
    exact holds_overwrite hk
  · rw [ht.currentEntries,hr.currentEntries]
    rfl

end Rep

end CStudy.LruCache

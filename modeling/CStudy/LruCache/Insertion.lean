import CStudy.LruCache.Observation

/-! Reading back what was written. A `Set` of an absent key remembers the last item of its
bucket, may evict any item of the table, and then links the new item behind the one it
remembers. The new item is in the table exactly if that is not the item it has evicted. -/
namespace CStudy.LruCache
open CStudy.Foundation Ledger

/-- The list program reads back what it wrote unless the insert is lost. -/
theorem Ledger.lookup_set_self (place : CString → ℕ) (n : ℕ) (a : Ledger) (k : CString)
    (v : List UInt8) :
    (∃ e, (a.set place n k v).lookup k = some e ∧ e.value = v ∧ e.valueLength = v.length) ↔
      ¬ (a.lookup k = none ∧ a.Loses place n k) := by
  cases hk : a.lookup k with
  | some e =>
    rw [set_of_some hk,overwrite,lookup_amend_self,hk]
    simp
  | none =>
    rw [set_of_none hk,lookup_insert_self]
    by_cases hlose : a.Loses place n k <;> simp [hlose]

/-- The reply to a `Get` says what the list holds. -/
theorem Ledger.get_reply_iff (place : CString → ℕ) (n : ℕ) (a : Ledger) (k : CString)
    (v : List UInt8) (len : ℕ) :
    (a.step place n (.get k)).2 = .got .ok (some v) len ↔
      ∃ e, a.lookup k = some e ∧ e.value = v ∧ e.valueLength = len := by
  cases hk : a.lookup k with
  | none => simp [Ledger.step,hk]
  | some e => simp [Ledger.step,hk]

/-- In every state a run from a new cache reaches, `Set` followed by `Get` returns the value
exactly if the insert is not lost. -/
theorem set_get_iff (n : ℕ) (hn : 1 ≤ n) (seed : Int64) (calls : List Call) (k : CString)
    (v : List UInt8) :
    ∃ s replies, Machine.run step (lruCacheNew n seed .zeroed) calls = some (s,replies) ∧
      (Machine.replies step s [.set k v,.get k] = some [.done,.got .ok (some v) v.length] ↔
        ¬ LosesInsert s k) := by
  obtain ⟨s,hrun,hr⟩ := run_new hn seed calls
  refine ⟨s,_,hrun,?_⟩
  obtain ⟨t,ht,_⟩ := Machine.run_simulates (Rep n seed) (step_simulates hn) hr [.set k v,.get k]
  rw [Machine.replies,ht,hr.losesInsert_iff hn,← lookup_set_self _ _ _ k v,
    ← get_reply_iff (placeOf seed n) n]
  simp [Ledger.step]

/-- The keys of the repository's own test. -/
def key1 : CString := ⟨[49],by decide⟩
def key2 : CString := ⟨[50],by decide⟩
def key3 : CString := ⟨[51],by decide⟩

theorem set_get_iff_test : 1 ≤ 2 ∧ ∃ s replies, Machine.run step (lruCacheNew 2 0 .zeroed)
      [.set key1 [239,190,173,222],.set key2 [42,0,0,0]] = some (s,replies) ∧
    (Machine.replies step s [.set key1 [7],.get key1] = some [.done,.got .ok (some [7]) 1] ↔
      ¬ LosesInsert s key1) :=
  ⟨by decide,set_get_iff 2 (by decide) 0 _ key1 [7]⟩

/-- With one bucket the second key is linked behind the first one, which it evicts. -/
theorem set_get_lost : Machine.replies step (lruCacheNew 1 0 .zeroed)
    [.set key1 [1],.set key2 [2],.get key2] = some [.done,.done,.got .keyMissing none 0] := by
  decide +kernel

end CStudy.LruCache

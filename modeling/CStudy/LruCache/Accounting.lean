import CStudy.LruCache.Insertion

/-! The entry counter against the number of linked items. `Delete` unlinks an item without
counting it out, and a lost insert is counted in; both leave the counter too high, and nothing
else moves the two apart short of a counter overflow. The table exceeds its capacity exactly
when the eviction scan of a full table finds every age at or beyond `INT_MAX`. -/
namespace CStudy.LruCache
open CStudy.Foundation Ledger

/-- Every linked item is too old for the eviction scan, which then evicts nothing. -/
def NothingToEvict (s : State) : Prop :=
  ∀ p c, Linked s p → s.heap.read p = some c → intMax ≤ c.age

/-- A call after which the counter and the number of linked items differ. -/
def Miscounts (s : State) : Call → Prop
  | .set k _ => LosesInsert s k ∨ (¬ Present s k ∧ s.cache.currentEntries = 2^64-1 ∧
      (s.cache.capacity ≤ s.cache.currentEntries → NothingToEvict s))
  | .get _ => False
  | .delete k => Present s k

/-- A call that links an item into a full table without making room for it. -/
def Overfills (s : State) : Call → Prop
  | .set k _ => ¬ Present s k ∧ s.cache.capacity ≤ linkedCount s ∧ NothingToEvict s
  | .get _ => False
  | .delete _ => False

namespace Ledger
variable {place : CString → ℕ} {n : ℕ} {a : Ledger} {k : CString} {v : List UInt8} {w : Entry}

/-- Taking one item out of the list shortens it by one. -/
theorem length_filter_key (hw : w ∈ a.entries) :
    (a.entries.filter fun e => e.key ≠ w.key).length+1 = a.entries.length := by
  have hd : a.entries.Nodup := a.distinct.of_map
  have hf : (a.entries.filter fun e => e.key ≠ w.key) = a.entries.erase w := by
    rw [hd.erase_eq_filter]
    apply List.filter_congr
    intro e he
    by_cases hew : e = w
    · subst hew; simp
    · have hk : e.key ≠ w.key := fun h => hew (a.eq_of_key he hw h)
      simp [hew,hk]
  rw [hf,List.length_erase_of_mem hw]
  have := List.length_pos_of_mem hw
  omega

theorem victim_mem (hv : a.victim place n = some w) : w ∈ a.entries := by
  unfold victim at hv
  split_ifs at hv
  exact leastUsed_mem hv

theorem length_kept_of_none (hv : a.victim place n = none) :
    (a.kept place n).length = a.entries.length := by rw [kept,hv]; rfl

theorem length_kept_of_some (hv : a.victim place n = some w) :
    (a.kept place n).length+1 = a.entries.length := by
  rw [kept,hv]
  exact length_filter_key (victim_mem hv)

theorem not_loses_of_none (hv : a.victim place n = none) : ¬ a.Loses place n k := by
  rintro ⟨w,hw,_⟩
  cases hv.symm.trans hw

theorem length_insert {hk : a.lookup k = none} : (a.insert place n k v hk).entries.length =
    (a.kept place n).length+(if a.Loses place n k then 0 else 1) := by
  dsimp only [insert]
  split_ifs <;> simp

/-- The counter stays right exactly if the new item is linked and the counter does not wrap. -/
theorem count_insert {hk : a.lookup k = none} (hc : a.currentEntries = a.entries.length) :
    (a.insert place n k v hk).currentEntries = (a.insert place n k v hk).entries.length ↔
      ¬ (a.Loses place n k ∨ a.currentEntries = 2^64-1 ∧ a.victim place n = none) := by
  rw [length_insert]
  have hb := a.bounded
  cases hv : a.victim place n with
  | none =>
    have hl := not_loses_of_none (k := k) hv
    simp only [insert,hv,length_kept_of_none hv,Option.isSome_none,hl,false_or,incr64]
    simp only [Bool.false_eq_true,↓reduceIte,and_true]
    omega
  | some w =>
    have hlen := length_kept_of_some hv
    simp only [insert,hv,Option.isSome_some,if_true,reduceCtorEq,and_false,or_false]
    split_ifs with hl
    · simp only [hl,not_true,iff_false]
      omega
    · simp only [hl,not_false_iff,iff_true]
      omega

/-- A present key is deleted without being counted out. -/
theorem count_erase (hk : a.lookup k = some w) (hc : a.currentEntries = a.entries.length) :
    (a.erase k).currentEntries ≠ (a.erase k).entries.length := by
  obtain ⟨hw,rfl⟩ := lookup_eq_some.mp hk
  have hlen := length_filter_key hw
  dsimp only [erase]
  omega

theorem incr64_of_lt {x : ℕ} (hx : x+1 < 2^64) : incr64 x = x+1 := Nat.mod_eq_of_lt hx

/-- No more items are linked than were counted in, and at most one is counted in by a call. -/
theorem counted_step {m : ℕ} (hm : m+1 < 2^64) (hle : a.entries.length ≤ a.currentEntries)
    (hc : a.currentEntries ≤ m) (c : Call) :
    (a.step place n c).1.entries.length ≤ (a.step place n c).1.currentEntries ∧
      (a.step place n c).1.currentEntries ≤ m+1 := by
  cases c with
  | set k v =>
    rw [step]
    cases hk : a.lookup k with
    | some e =>
      simp only [set_of_some hk,overwrite,length_amend,currentEntries_amend]
      omega
    | none =>
      have hi := incr64_of_lt (x := a.currentEntries) (by omega)
      rw [set_of_none hk]
      dsimp only
      rw [length_insert]
      cases hv : a.victim place n with
      | none =>
        have hlen := length_kept_of_none hv
        simp only [insert,hv,Option.isSome_none,Bool.false_eq_true,if_false]
        split_ifs <;> omega
      | some w =>
        have hlen := length_kept_of_some hv
        simp only [insert,hv,Option.isSome_some,if_true]
        split_ifs <;> omega
  | get k =>
    rw [step]
    cases hk : a.lookup k with
    | some e =>
      simp only [touch,length_amend,currentEntries_amend]
      omega
    | none => exact ⟨hle,by dsimp only; omega⟩
  | delete k =>
    rw [step]
    cases hk : a.lookup k with
    | some e =>
      have hlen : (a.erase k).entries.length ≤ a.entries.length := List.length_filter_le _ _
      dsimp only [erase] at hlen ⊢
      omega
    | none => exact ⟨hle,by dsimp only; omega⟩

end Ledger

section Runs
variable {n : ℕ} {seed : Int64} {s : State} {a : Ledger}

theorem Rep.nothingToEvict_iff (hr : Rep n seed s a) (hn : 0 < n) :
    NothingToEvict s ↔ leastUsed (placeOf seed n) n a.entries = none := by
  rw [leastUsed_eq_none (placeOf_lt seed hn)]
  exact hr.forall_age_iff hn fun age => intMax ≤ age

theorem Rep.victim_eq_none_iff (hr : Rep n seed s a) (hn : 0 < n) :
    a.victim (placeOf seed n) n = none ↔
      (s.cache.capacity ≤ s.cache.currentEntries → NothingToEvict s) := by
  rw [hr.capacity,hr.currentEntries,hr.nothingToEvict_iff hn,victim]
  by_cases hfull : n ≤ a.currentEntries <;> simp [hfull]

/-- One call keeps the counter right exactly if it does not miscount. -/
theorem Rep.count_step (hr : Rep n seed s a) (hn : 0 < n)
    (hc : a.currentEntries = a.entries.length) (c : Call) :
    (a.step (placeOf seed n) n c).1.currentEntries =
      (a.step (placeOf seed n) n c).1.entries.length ↔ ¬ Miscounts s c := by
  cases c with
  | set k v =>
    rw [Miscounts,hr.losesInsert_iff hn,hr.absent_iff hn,← hr.victim_eq_none_iff hn,
      hr.currentEntries,Ledger.step]
    cases hk : a.lookup k with
    | some e => simpa [set_of_some hk,overwrite] using hc
    | none =>
      rw [set_of_none hk,count_insert hc]
      simp
  | get k =>
    rw [Ledger.step]
    cases hk : a.lookup k with
    | some e => simpa [Miscounts,touch] using hc
    | none => simpa [Miscounts] using hc
  | delete k =>
    rw [Miscounts,hr.present_iff hn,Ledger.step]
    cases hk : a.lookup k with
    | some e => simpa using count_erase hk hc
    | none => simpa using hc

/-- The counter equals the number of linked items throughout a run exactly if no call of the
run miscounts. -/
theorem count_eq_linked_iff (n : ℕ) (hn : 1 ≤ n) (seed : Int64) (calls : List Call) :
    Machine.Throughout step (fun s => s.cache.currentEntries = linkedCount s)
        (lruCacheNew n seed .zeroed) calls ↔
      Machine.EachCall step (fun s c => ¬ Miscounts s c) (lruCacheNew n seed .zeroed) calls := by
  have hnew := rep_zeroed n seed
  refine Machine.throughout_iff_eachCall (fun _ s => ∃ a, Rep n seed s a) calls.length ?_
    (m := 0) (by omega) ⟨_,hnew⟩ ?_
  · rintro m s c _ ⟨a,hr⟩ hc
    rw [hr.currentEntries,hr.linkedCount_eq hn] at hc
    obtain ⟨t,ht,hr'⟩ := step_simulates hn s a c hr
    refine ⟨t,_,ht,⟨_,hr'⟩,?_⟩
    rw [hr'.currentEntries,hr'.linkedCount_eq hn]
    exact hr.count_step hn hc c
  · rw [hnew.currentEntries,hnew.linkedCount_eq hn]
    rfl

theorem count_eq_linked_iff_test : 1 ≤ 2 ∧
    (Machine.Throughout step (fun s => s.cache.currentEntries = linkedCount s)
        (lruCacheNew 2 0 .zeroed) [.set key1 [1],.get key1,.delete key2] ↔
      Machine.EachCall step (fun s c => ¬ Miscounts s c) (lruCacheNew 2 0 .zeroed)
        [.set key1 [1],.get key1,.delete key2]) :=
  ⟨by decide,count_eq_linked_iff 2 (by decide) 0 _⟩

/-- A deleted item stays counted. -/
theorem count_after_delete : ∃ s replies, Machine.run step (lruCacheNew 2 0 .zeroed)
    [.set key1 [1],.delete key1] = some (s,replies) ∧ s.cache.currentEntries = 1 ∧
      linkedCount s = 0 := by
  obtain ⟨s,hrun,hr⟩ := run_new (n := 2) (by decide) 0 [.set key1 [1],.delete key1]
  refine ⟨s,_,hrun,?_,?_⟩
  · rw [hr.currentEntries]
    decide +kernel
  · rw [hr.linkedCount_eq (by decide)]
    decide +kernel

/-- One call keeps the table within its capacity exactly if it does not overfill it. -/
theorem Rep.fits_step (hr : Rep n seed s a) (hn : 0 < n) (hle : a.entries.length ≤ a.currentEntries)
    (hfit : a.entries.length ≤ n) (c : Call) :
    (a.step (placeOf seed n) n c).1.entries.length ≤ n ↔ ¬ Overfills s c := by
  cases c with
  | set k v =>
    rw [Overfills,hr.absent_iff hn,hr.capacity,hr.linkedCount_eq hn,hr.nothingToEvict_iff hn,
      Ledger.step]
    cases hk : a.lookup k with
    | some e => simpa [set_of_some hk,overwrite] using hfit
    | none =>
      rw [set_of_none hk]
      dsimp only
      rw [length_insert]
      cases hv : a.victim (placeOf seed n) n with
      | none =>
        rw [if_neg (not_loses_of_none hv),length_kept_of_none hv]
        by_cases hfull : n ≤ a.currentEntries
        · rw [victim,if_pos hfull] at hv
          simp only [hv,true_and,and_true]
          omega
        · simp only [true_and,not_and]
          constructor
          · intro _ h
            omega
          · intro _
            omega
      | some w =>
        have hlen := length_kept_of_some hv
        have hsome : leastUsed (placeOf seed n) n a.entries ≠ none := by
          intro h
          unfold victim at hv
          split_ifs at hv
          cases h.symm.trans hv
        simp only [hsome,and_false,not_false_iff,iff_true]
        split_ifs <;> omega
  | get k =>
    rw [Ledger.step]
    cases hk : a.lookup k with
    | some e => simpa [Overfills,touch] using hfit
    | none => simpa [Overfills] using hfit
  | delete k =>
    rw [Ledger.step]
    cases hk : a.lookup k with
    | some e =>
      simp only [Overfills,not_false_iff,iff_true]
      exact (List.length_filter_le _ _).trans hfit
    | none => simpa [Overfills] using hfit

/-- In a run of fewer than `2^64` calls the table never holds more items than its capacity
exactly if no call overfills it. -/
theorem linked_le_capacity_iff (n : ℕ) (hn : 1 ≤ n) (seed : Int64) (calls : List Call)
    (hlen : calls.length < 2^64) :
    Machine.Throughout step (fun s => linkedCount s ≤ n) (lruCacheNew n seed .zeroed) calls ↔
      Machine.EachCall step (fun s c => ¬ Overfills s c) (lruCacheNew n seed .zeroed) calls := by
  have hnew := rep_zeroed n seed
  refine Machine.throughout_iff_eachCall (fun m s => ∃ a, Rep n seed s a ∧
    a.entries.length ≤ a.currentEntries ∧ a.currentEntries ≤ m) (2^64-1) ?_ (m := 0) (by omega)
    ⟨_,hnew,le_rfl,le_rfl⟩ ?_
  · rintro m s c hm ⟨a,hr,hle,hc⟩ hfit
    rw [hr.linkedCount_eq hn] at hfit
    obtain ⟨t,ht,hr'⟩ := step_simulates hn s a c hr
    refine ⟨t,_,ht,⟨_,hr',counted_step (by omega) hle hc c⟩,?_⟩
    rw [hr'.linkedCount_eq hn]
    exact hr.fits_step hn hle hfit c
  · rw [hnew.linkedCount_eq hn]
    exact Nat.zero_le n

theorem linked_le_capacity_iff_test : 1 ≤ 2 ∧ [Call.set key1 [1],.set key2 [2]].length < 2^64 ∧
    (Machine.Throughout step (fun s => linkedCount s ≤ 2) (lruCacheNew 2 0 .zeroed)
        [.set key1 [1],.set key2 [2]] ↔
      Machine.EachCall step (fun s c => ¬ Overfills s c) (lruCacheNew 2 0 .zeroed)
        [.set key1 [1],.set key2 [2]]) :=
  ⟨by decide,by decide,linked_le_capacity_iff 2 (by decide) 0 _ (by decide)⟩

/-- Reading the only item `m` times makes it `m` calls older. -/
theorem Ledger.drive_gets {place : CString → ℕ} {k : CString} {v : List UInt8} {len : ℕ} (m : ℕ) :
    ∀ (a : Ledger) (x : ℕ), a.entries = [⟨k,v,len,x⟩] → a.age = x+1 → x+m+1 < 2^64 →
      (Machine.drive (Ledger.step place n) a (List.replicate m (.get k))).1.entries =
        [⟨k,v,len,x+m⟩] := by
  induction m with
  | zero => intro a x he _ _; exact he
  | succ m ih =>
    intro a x he hage hlt
    have hk : a.lookup k = some ⟨k,v,len,x⟩ := lookup_eq_some.mpr ⟨by simp [he],rfl⟩
    have hs : (a.step place n (.get k)).1 = a.touch k := by rw [Ledger.step,hk]
    rw [List.replicate_succ,Machine.drive_cons,hs,ih (a.touch k) (x+1)]
    · rw [Nat.add_right_comm,Nat.add_assoc]
    · simp [touch,Ledger.amend,he,hage]
    · rw [touch,age_amend,hage,incr64_of_lt (by omega)]
    · omega

/-- Write one key, read it `m` times, and write another key. -/
def readOften (m : ℕ) : List Call :=
  [.set key1 [1]]++List.replicate m (.get key1)++[.set key2 [2]]

/-- An item that has been read `INT_MAX` times is not evicted to make room for another. -/
theorem linkedCount_readOften (m : ℕ) (hm : intMax ≤ m) (hlt : m+1 < 2^64) :
    ∃ s replies, Machine.run step (lruCacheNew 1 0 .zeroed) (readOften m) = some (s,replies) ∧
      linkedCount s = 2 := by
  obtain ⟨s,hrun,hr⟩ := run_new (n := 1) (by decide) 0 (readOften m)
  refine ⟨s,_,hrun,?_⟩
  rw [hr.linkedCount_eq (by decide),ledgerAfter,readOften,Machine.drive_append,Machine.drive_append]
  set place := placeOf 0 1
  set a := (Machine.drive (Ledger.step place 1) (Ledger.empty 0) [.set key1 [1]]).1
  set b := (Machine.drive (Ledger.step place 1) a (List.replicate m (.get key1))).1
  have hb : b.entries = [⟨key1,[1],1,0+m⟩] := drive_gets m a 0 rfl rfl (by omega)
  have hk : b.lookup key2 = none := lookup_eq_none.mpr (by rw [hb]; simp [key1,key2])
  have hv : b.victim place 1 = none := by
    rw [victim,(leastUsed_eq_none (placeOf_lt 0 (by decide))).mpr (by rw [hb]; simpa using hm)]
    simp
  rw [Machine.drive_cons,Ledger.step,set_of_none hk,Machine.drive_nil]
  dsimp only
  rw [length_insert,length_kept_of_none hv,if_neg (not_loses_of_none hv),hb]
  rfl

theorem linked_exceeds_capacity : (readOften intMax).length < 2^64 ∧ ∃ s replies,
    Machine.run step (lruCacheNew 1 0 .zeroed) (readOften intMax) = some (s,replies) ∧
      linkedCount s = 2 := by
  constructor
  · rw [readOften,List.length_append,List.length_append,List.length_replicate]
    norm_num [intMax]
  · exact linkedCount_readOften intMax le_rfl (by norm_num [intMax])

end Runs
end CStudy.LruCache

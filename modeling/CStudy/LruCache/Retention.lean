import CStudy.LruCache.Recency

/-! How long a key stays in the cache. A key can only be evicted when every other linked item
was used after it, so as long as the table is full at every eviction, fewer than `n` other keys
cannot push it out. An eviction from a table that is only counted full can. -/
namespace CStudy.LruCache
open CStudy.Foundation Ledger

/-- The call sets or deletes the key `k`. -/
def Writes (k : CString) : Call → Prop
  | .set j _ => j = k
  | .get _ => False
  | .delete j => j = k

/-- The other keys that are set or successfully got. -/
def OtherTouched (k : CString) (past : List (Call × Reply)) : Set CString :=
  {j | j ≠ k ∧ ∃ x ∈ past, Touches j x}

/-- The call evicts `k` although fewer items are linked than the table has room for. -/
def EvictsEarly (k : CString) (s : State) : Call → Prop
  | .set j _ => ¬ Present s j ∧ s.cache.capacity ≤ s.cache.currentEntries ∧
      linkedCount s < s.cache.capacity ∧ ∃ p c, LeastUsed s p ∧ s.heap.read p = some c ∧ c.key = k
  | .get _ => False
  | .delete _ => False

def Call.key : Call → CString
  | .set k _ => k
  | .get k => k
  | .delete k => k

theorem Touches.key_eq {k : CString} {c : Call} {o : Reply} (h : Touches k (c,o)) : c.key = k := by
  cases c with
  | set j v => exact h
  | get j =>
    cases o with
    | got e v len => cases e with
      | ok => exact h
      | keyMissing => exact h.elim
    | done => exact h.elim
    | deleted e => exact h.elim
  | delete j => exact h.elim

theorem otherTouched_subset (k : CString) (past : List (Call × Reply)) :
    OtherTouched k past ⊆ ((past.map fun x => x.1.key).toFinset : Set CString) := by
  intro j hj
  obtain ⟨_,x,hx,hxj⟩ := hj
  rw [Finset.mem_coe,List.mem_toFinset]
  exact List.mem_map.mpr ⟨x,hx,hxj.key_eq⟩

theorem finite_otherTouched (k : CString) (past : List (Call × Reply)) :
    (OtherTouched k past).Finite := (Finset.finite_toSet _).subset (otherTouched_subset k past)

/-- A run touches no more keys than it has calls. -/
theorem ncard_otherTouched_le (k : CString) (calls : List Call) (replies : List Reply) :
    (OtherTouched k (calls.zip replies)).ncard ≤ calls.length := by
  refine (Set.ncard_le_ncard (otherTouched_subset k _) (Finset.finite_toSet _)).trans ?_
  rw [Set.ncard_coe_finset]
  refine (List.toFinset_card_le _).trans ?_
  rw [List.length_map,List.length_zip]
  exact min_le_left _ _

theorem otherTouched_mono {k : CString} {past more : List (Call × Reply)} :
    OtherTouched k past ⊆ OtherTouched k (past++more) := by
  intro j hj
  obtain ⟨hjk,x,hx,hxj⟩ := hj
  exact ⟨hjk,x,List.mem_append_left more hx,hxj⟩

/-- A key touched after the last touch of `k` was touched since the end of `old`, where `k` was. -/
theorem touched_since {old new : List (Call × Reply)} {k j : CString} {i i' : ℕ}
    (hold : ∃ x, old.getLast? = some x ∧ Touches k x) (hi : LastTouch (old++new) k i)
    (hi' : LastTouch (old++new) j i') (hlt : i < i') : ∃ x ∈ new, Touches j x := by
  obtain ⟨x,hx,hxk⟩ := hold
  rw [List.getLast?_eq_getElem?] at hx
  have hpos := (List.getElem?_eq_some_iff.mp hx).1
  have hle : old.length-1 ≤ i := by
    by_contra hcon
    refine hi.2 (old.length-1) x (by omega) ?_ hxk
    rw [List.getElem?_append_left hpos,hx]
  obtain ⟨⟨y,hy,hyj⟩,_⟩ := hi'
  rw [List.getElem?_append_right (by omega)] at hy
  exact ⟨y,List.mem_of_getElem? hy,hyj⟩

namespace Ledger
variable {place : CString → ℕ} {n : ℕ} {a : Ledger} {k j : CString} {v : List UInt8} {len : ℕ}

/-- The call inserts a key and evicts `k` for it. -/
def Expels (place : CString → ℕ) (n : ℕ) (a : Ledger) (k : CString) : Call → Prop
  | .set j _ => a.lookup j = none ∧ (a.victim place n).map Entry.key = some k
  | .get _ => False
  | .delete _ => False

/-- A call that does not write `k` changes the age of `k` at most, unless it expels `k`. -/
theorem lookup_step (place : CString → ℕ) (n : ℕ) (a : Ledger) {c : Call} (hc : ¬ Writes k c) :
    (a.step place n c).1.lookup k = none ∧ Expels place n a k c ∨
      ¬ Expels place n a k c ∧
        ∃ x : Entry → ℕ,
          (a.step place n c).1.lookup k = (a.lookup k).map fun e => { e with age := x e } := by
  cases c with
  | set j v =>
    have hjk : k ≠ j := fun h => hc h.symm
    rw [step,Expels]
    cases hj : a.lookup j with
    | some e =>
      refine .inr ⟨by simp,Entry.age,?_⟩
      rw [set_of_some hj,overwrite,lookup_amend_of_ne hjk]
      simp
    | none =>
      rw [set_of_none hj]
      dsimp only
      rw [lookup_insert_of_ne hjk]
      by_cases hv : (a.victim place n).map Entry.key = some k
      · exact .inl ⟨if_pos hv,rfl,hv⟩
      · refine .inr ⟨fun h => hv h.2,Entry.age,?_⟩
        rw [if_neg hv]
        simp
  | get j =>
    refine .inr ⟨id,?_⟩
    rw [step]
    by_cases hjk : j = k
    · subst hjk
      refine ⟨fun _ => a.age,?_⟩
      cases hj : a.lookup j with
      | some e => simp [touch,lookup_amend_self,hj]
      | none => simp [hj]
    · refine ⟨Entry.age,?_⟩
      cases hj : a.lookup j with
      | some e => simp [touch,lookup_amend_of_ne (Ne.symm hjk)]
      | none => simp
  | delete j =>
    have hjk : k ≠ j := fun h => hc h.symm
    refine .inr ⟨id,Entry.age,?_⟩
    rw [step]
    cases hj : a.lookup j with
    | some e => simp [lookup_erase_of_ne hjk]
    | none => simp

theorem absent_step {c : Call} (hc : ¬ Writes k c) (hk : a.lookup k = none) :
    (a.step place n c).1.lookup k = none := by
  rcases lookup_step place n a hc with ⟨h,_⟩ | ⟨_,x,h⟩
  · exact h
  · rw [h,hk,Option.map_none]

/-- A key that is not in the table does not come back by itself. -/
theorem absent_drive (place : CString → ℕ) (n : ℕ) {calls : List Call} (hc : ∀ c ∈ calls, ¬ Writes k c)
    (hk : a.lookup k = none) : (Machine.drive (step place n) a calls).1.lookup k = none := by
  induction calls generalizing a with
  | nil => exact hk
  | cons c calls ih =>
    rw [Machine.drive_cons]
    apply ih
    · intro d hd
      exact hc d (List.mem_cons_of_mem _ hd)
    · exact absent_step (hc c List.mem_cons_self) hk

theorem holds_step {c : Call} (hc : ¬ Writes k c) (hk : a.Holds k v len) :
    (a.step place n c).1.Holds k v len ↔ ¬ Expels place n a k c := by
  obtain ⟨e,he,hv,hlen⟩ := hk
  rcases lookup_step place n a hc with ⟨h,hx⟩ | ⟨hx,x,h⟩
  · simp [Holds,h,hx]
  · simp [Holds,h,hx,he,hv,hlen]

/-- When `k` is expelled, all other entries were touched since `k` was, and so was the new key. -/
theorem Dated.length_le_touched {old new : List (Call × Reply)} (hd : Dated (old++new) a)
    (hp : ∀ k, place k < n) (hold : ∃ x, old.getLast? = some x ∧ Touches k x)
    (hj : a.lookup j = none) (hv : (a.victim place n).map Entry.key = some k) :
    a.entries.length ≤ (OtherTouched k (new++[(.set j v,.done)])).ncard := by
  obtain ⟨w,hw,rfl⟩ := Option.map_eq_some_iff.mp hv
  set keys := (a.entries.map Entry.key).toFinset
  have hjk : j ∉ keys.erase w.key := by
    intro h
    obtain ⟨e,he,hej⟩ := List.mem_map.mp (List.mem_toFinset.mp (Finset.mem_of_mem_erase h))
    exact lookup_eq_none.mp hj e he hej
  have hwk : w.key ∈ keys := List.mem_toFinset.mpr (List.mem_map_of_mem (victim_mem hw))
  have hcard : (Finset.cons j (keys.erase w.key) hjk).card = a.entries.length := by
    rw [Finset.card_cons,Finset.card_erase_add_one hwk,
      List.toFinset_card_of_nodup a.distinct,List.length_map]
  rw [← hcard,← Set.ncard_coe_finset]
  apply Set.ncard_le_ncard _ (finite_otherTouched _ _)
  intro i hi
  rcases Finset.mem_cons.mp hi with rfl | hi
  · refine ⟨fun h => lookup_eq_none.mp hj w (victim_mem hw) h.symm,(.set i v,.done),?_,rfl⟩
    exact List.mem_append_right new (List.mem_singleton_self _)
  · obtain ⟨hne,hmem⟩ := Finset.mem_erase.mp hi
    obtain ⟨e,he,rfl⟩ := List.mem_map.mp (List.mem_toFinset.mp hmem)
    obtain ⟨i₁,i₂,h₁,h₂,hlt⟩ := hd.victim_first hp hw he hne
    obtain ⟨x,hx,hxe⟩ := touched_since hold h₁ h₂ hlt
    exact ⟨hne,x,List.mem_append_left _ hx,hxe⟩

end Ledger

section Runs
variable {n : ℕ} {seed : Int64} {s : State} {a : Ledger} {k : CString} {v : List UInt8} {len : ℕ}

/-- The least used item of the table has the key `k`. -/
theorem Rep.leastUsed_key_iff (hr : Rep n seed s a) :
    (∃ p c, LeastUsed s p ∧ s.heap.read p = some c ∧ c.key = k) ↔
      (leastUsed (placeOf seed n) n a.entries).map Entry.key = some k := by
  obtain ⟨ch,hl⟩ := hr.layout
  have hrel := hl.leastOf_rel
  simp only [hr.leastUsed_iff hl]
  revert hrel
  generalize leastOf s.heap ((List.range n).flatMap ch) = x
  generalize leastUsed (placeOf seed n) n a.entries = y
  intro hrel
  cases hrel with
  | none => simp
  | @some p e hpe =>
    obtain ⟨c,hc,rfl⟩ := entryAt_eq_some.mp hpe
    simp [hc]

theorem Rep.evictsEarly_iff (hr : Rep n seed s a) (hn : 0 < n) (c : Call) :
    EvictsEarly k s c ↔ a.entries.length < n ∧ Expels (placeOf seed n) n a k c := by
  cases c with
  | set j v =>
    rw [EvictsEarly,Expels,hr.absent_iff hn,hr.capacity,hr.currentEntries,hr.linkedCount_eq hn,
      hr.leastUsed_key_iff,victim]
    by_cases hfull : n ≤ a.currentEntries
    · simp only [hfull,if_true,true_and]
      tauto
    · simp [hfull]
  | get j => simp [EvictsEarly,Expels]
  | delete j => simp [EvictsEarly,Expels]

/-- As long as fewer than `n` other keys are touched, a key is expelled by early evictions only. -/
theorem Rep.retained_iff (hn : 0 < n) {old new : List (Call × Reply)} {calls : List Call}
    (hr : Rep n seed s a) (hd : Dated (old++new) a)
    (hold : ∃ x, old.getLast? = some x ∧ Touches k x)
    (hlen : old.length+new.length+calls.length < 2^64) (hcalls : ∀ c ∈ calls, ¬ Writes k c)
    (hk : a.Holds k v len) :
    (OtherTouched k (new++calls.zip
      (Machine.drive (Ledger.step (placeOf seed n) n) a calls).2)).ncard < n →
    ((Machine.drive (Ledger.step (placeOf seed n) n) a calls).1.Holds k v len ↔
      Machine.EachCall step (fun s c => ¬ EvictsEarly k s c) s calls) := by
  induction calls generalizing s a new with
  | nil =>
    intro _
    refine iff_of_true hk ?_
    intro done c hdone
    simp at hdone
  | cons c calls ih =>
    intro hfew
    rw [List.length_cons] at hlen
    obtain ⟨t,ht,hr'⟩ := step_simulates hn s a c hr
    have hc := hcalls c List.mem_cons_self
    have hrest : ∀ d ∈ calls, ¬ Writes k d := fun d h => hcalls d (List.mem_cons_of_mem _ h)
    rw [Machine.drive_cons,List.zip_cons_cons,List.append_cons] at hfew
    rw [Machine.drive_cons,Machine.eachCall_cons _ ht,hr.evictsEarly_iff hn c]
    by_cases hx : Expels (placeOf seed n) n a k c
    · -- the table was not full, or too many keys would have been touched
      have hgone := absent_drive (placeOf seed n) n hrest
        ((lookup_step _ _ a hc).resolve_right fun h => h.1 hx).1
      have hshort : a.entries.length < n := by
        cases c with
        | set j x =>
          refine lt_of_le_of_lt (hd.length_le_touched (v := x) (placeOf_lt seed hn) hold hx.1 hx.2) ?_
          exact lt_of_le_of_lt (Set.ncard_le_ncard otherTouched_mono (finite_otherTouched _ _)) hfew
        | get j => exact hx.elim
        | delete j => exact hx.elim
      simp [Holds,hgone,hx,hshort]
    · have hd' := hd.step (placeOf seed n) n c (by rw [List.length_append]; omega)
      rw [List.append_assoc] at hd'
      rw [← ih hr' hd' (by rw [List.length_append,List.length_singleton]; omega) hrest
        ((holds_step hc hk).mpr hx) hfew]
      simp [hx]

/-- After a successful `Get` of `k`, calls that do not write `k` and touch fewer than `n` other
keys leave `k` readable exactly if none of them evicts it from a table that is not full. -/
theorem get_retained_iff (n : ℕ) (hn : 1 ≤ n) (seed : Int64) (pre post : List Call) (k : CString)
    (v : List UInt8) (len : ℕ) (hlen : pre.length+1+post.length < 2^64)
    (hpost : ∀ c ∈ post, ¬ Writes k c) :
    ∃ s before t between,
      Machine.run step (lruCacheNew n seed .zeroed) (pre++[.get k]) = some (s,before) ∧
      Machine.run step s post = some (t,between) ∧
      (before.getLast? = some (.got .ok (some v) len) →
        (OtherTouched k (post.zip between)).ncard < n →
        (Machine.replies step t [.get k] = some [.got .ok (some v) len] ↔
          Machine.EachCall step (fun s c => ¬ EvictsEarly k s c) s post)) := by
  obtain ⟨s,hrun,hr⟩ := run_new hn seed (pre++[.get k])
  obtain ⟨t,hpost',hr'⟩ := Machine.run_simulates (Rep n seed) (step_simulates hn) hr post
  refine ⟨s,_,t,_,hrun,hpost',?_⟩
  intro hlast hfew
  set a := (ledgerAfter n seed pre).1
  set o := (a.step (placeOf seed n) n (.get k)).2
  have hafter : ledgerAfter n seed (pre++[.get k]) = ((a.step (placeOf seed n) n (.get k)).1,
      (ledgerAfter n seed pre).2++[o]) := Machine.drive_append
  have hd : Dated (pre.zip (ledgerAfter n seed pre).2++[(.get k,o)]++[])
      (a.step (placeOf seed n) n (.get k)).1 := by
    rw [List.append_nil]
    refine (dated_drive _ n pre (by omega)).step _ n (.get k) ?_
    rw [List.length_zip,Machine.length_drive,min_self]
    omega
  rw [hafter] at hr hr' hlast hfew
  have hreply : o = .got .ok (some v) len := by simpa using hlast
  have hheld : (a.step (placeOf seed n) n (.get k)).1.Holds k v len :=
    (holds_step id ((get_reply_iff _ _ _ _ _ _).mp hreply)).mpr id
  obtain ⟨u,hu,_⟩ := Machine.run_simulates (Rep n seed) (step_simulates hn) hr' [.get k]
  rw [Machine.replies,hu,← hr.retained_iff hn hd ⟨_,List.getLast?_concat,by rw [hreply]; rfl⟩ ?_ hpost
    hheld hfew,Holds,← get_reply_iff (placeOf seed n) n]
  · simp
  · simp only [ledgerAfter,List.length_append,List.length_zip,Machine.length_drive,min_self,
      List.length_singleton,List.length_nil]
    omega

theorem get_retained_iff_test : 1 ≤ 2 ∧ (∀ c ∈ [Call.set key2 [2]], ¬ Writes key1 c) ∧
    ∃ s before t between,
      Machine.run step (lruCacheNew 2 0 .zeroed) ([.set key1 [1]]++[.get key1]) = some (s,before) ∧
      Machine.run step s [.set key2 [2]] = some (t,between) ∧
      before.getLast? = some (.got .ok (some [1]) 1) ∧
      (OtherTouched key1 ([Call.set key2 [2]].zip between)).ncard < 2 ∧
      (Machine.replies step t [.get key1] = some [.got .ok (some [1]) 1] ↔
        Machine.EachCall step (fun s c => ¬ EvictsEarly key1 s c) s [.set key2 [2]]) := by
  have hpost : ∀ c ∈ [Call.set key2 [2]], ¬ Writes key1 c := by simp [Writes,key1,key2]
  obtain ⟨s,before,t,between,hrun,hrun',hiff⟩ :=
    get_retained_iff 2 (by decide) 0 [.set key1 [1]] [.set key2 [2]] key1 [1] 1 (by decide) hpost
  have hbefore : before = [.done,.got .ok (some [1]) 1] := by
    rw [(rep_of_run (by decide) hrun).2]
    decide +kernel
  have hlast : before.getLast? = some (.got .ok (some [1]) 1) := by rw [hbefore]; rfl
  have hfew : (OtherTouched key1 ([Call.set key2 [2]].zip between)).ncard < 2 :=
    lt_of_le_of_lt (ncard_otherTouched_le key1 _ between) (by decide)
  exact ⟨by decide,hpost,s,before,t,between,hrun,hrun',hlast,hfew,hiff hlast hfew⟩

/-- A deletion shrinks the room: two keys no longer fit into a table of two. -/
theorem get_not_retained : (∀ c ∈ [Call.set key3 [3]], ¬ Writes key1 c) ∧
    ∃ s before t between,
      Machine.run step (lruCacheNew 2 0 .zeroed)
        ([.set key1 [1],.set key2 [2],.delete key2]++[.get key1]) = some (s,before) ∧
      Machine.run step s [.set key3 [3]] = some (t,between) ∧
      before.getLast? = some (.got .ok (some [1]) 1) ∧
      (OtherTouched key1 ([Call.set key3 [3]].zip between)).ncard < 2 ∧
      Machine.replies step t [.get key1] = some [.got .keyMissing none 0] := by
  refine ⟨by simp [Writes,key1,key3],?_⟩
  obtain ⟨s,hrun,hr⟩ := run_new (n := 2) (by decide) 0
    ([.set key1 [1],.set key2 [2],.delete key2]++[.get key1])
  obtain ⟨t,hrun',hr'⟩ := Machine.run_simulates (Rep 2 0) (step_simulates (by decide)) hr
    [.set key3 [3]]
  obtain ⟨u,hu,_⟩ := Machine.run_simulates (Rep 2 0) (step_simulates (by decide)) hr' [.get key1]
  refine ⟨s,_,t,_,hrun,hrun',by decide +kernel,?_,?_⟩
  · exact lt_of_le_of_lt (ncard_otherTouched_le key1 _ _) (by decide)
  · rw [Machine.replies,hu,Option.map_some]
    dsimp only
    decide +kernel

end Runs
end CStudy.LruCache

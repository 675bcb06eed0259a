import CStudy.LruCache.Recency

/-! Two caches that differ in their seed. The list program meets the hash in two places. While
the ages are distinct the scan order does not matter, since there is only one least used entry.
What is left is whether a new item is linked behind the one it evicts, and this does show. -/
namespace CStudy.LruCache
open CStudy.Foundation Ledger

/-- At every `Set` of the two runs, the insert is lost in both tables or in none. -/
def LosesAlike (n : ℕ) (seed₁ seed₂ : Int64) (calls : List Call) : Prop :=
  ∀ done k v, done++[.set k v] <+: calls → ∀ s₁ o₁ s₂ o₂,
    Machine.run step (lruCacheNew n seed₁ .zeroed) done = some (s₁,o₁) →
    Machine.run step (lruCacheNew n seed₂ .zeroed) done = some (s₂,o₂) →
    (LosesInsert s₁ k ↔ LosesInsert s₂ k)

namespace Ledger
variable {place place' : CString → ℕ} {n : ℕ} {a : Ledger} {k : CString} {v : List UInt8}

/-- With distinct ages the least used entry does not depend on the placement. -/
theorem leastUsed_congr (hp : ∀ k, place k < n) (hp' : ∀ k, place' k < n)
    (hd : ∀ e ∈ a.entries, ∀ e' ∈ a.entries, e.age = e'.age → e = e') :
    leastUsed place n a.entries = leastUsed place' n a.entries := by
  cases hw : leastUsed place n a.entries with
  | none => exact ((leastUsed_eq_none hp').mpr ((leastUsed_eq_none hp).mp hw)).symm
  | some w =>
    have hm := leastUsed_mem hw
    cases hw' : leastUsed place' n a.entries with
    | none =>
      have hmax := (leastUsed_eq_none hp').mp hw' w hm
      have hlt := leastUsed_lt hw
      omega
    | some w' =>
      have hm' := leastUsed_mem hw'
      have hage := le_antisymm (leastUsed_le hp hw hm') (leastUsed_le hp' hw' hm)
      rw [hd w hm w' hm' hage]

theorem victim_congr (hp : ∀ k, place k < n) (hp' : ∀ k, place' k < n)
    (hd : ∀ e ∈ a.entries, ∀ e' ∈ a.entries, e.age = e'.age → e = e') :
    a.victim place n = a.victim place' n := by rw [victim,victim,leastUsed_congr hp hp' hd]

/-- An insert has the same effect under two placements if it is lost under both or none. -/
theorem insert_congr {hk : a.lookup k = none} (hv : a.victim place n = a.victim place' n)
    (hl : a.Loses place n k ↔ a.Loses place' n k) :
    a.insert place n k v hk = a.insert place' n k v hk := by
  apply Ledger.ext
  · simp only [insert,kept,hv,hl]
  · simp only [insert,hv]
  · rfl

theorem step_congr {c : Call} (hv : a.victim place n = a.victim place' n)
    (hl : ∀ k v, c = .set k v → a.lookup k = none → (a.Loses place n k ↔ a.Loses place' n k)) :
    a.step place n c = a.step place' n c := by
  cases c with
  | set k v =>
    rw [step,step]
    cases hk : a.lookup k with
    | some e => rw [set_of_some hk,set_of_some hk]
    | none => rw [set_of_none hk,set_of_none hk,insert_congr hv (hl k v rfl hk)]
  | get k => rfl
  | delete k => rfl

end Ledger

section Runs
variable {n : ℕ} {seed₁ seed₂ : Int64} {calls : List Call} {k : CString} {v : List UInt8}

/-- On equal lists the two tables lose an insert alike or read differently afterwards. -/
theorem loses_iff_of_probe {a : Ledger} (place place' : CString → ℕ) (hk : a.lookup k = none)
    (h : ((a.set place n k v).step place n (.get k)).2 =
      ((a.set place' n k v).step place' n (.get k)).2) :
    a.Loses place n k ↔ a.Loses place' n k := by
  have hread := fun place => get_reply_iff place n (a.set place n k v) k v v.length
  have hset := fun place => lookup_set_self place n a k v
  have h₁ := (hread place).trans (hset place)
  have h₂ := (hread place').trans (hset place')
  rw [h,h₂] at h₁
  simpa [hk,not_iff_not] using h₁.symm

theorem ledgerAfter_concat (n : ℕ) (seed : Int64) (calls : List Call) (c : Call) :
    ledgerAfter n seed (calls++[c]) =
      (((ledgerAfter n seed calls).1.step (placeOf seed n) n c).1,
        (ledgerAfter n seed calls).2++[((ledgerAfter n seed calls).1.step (placeOf seed n) n c).2]) :=
  Machine.drive_append

theorem replies_new (hn : 0 < n) (seed : Int64) (calls : List Call) :
    Machine.replies step (lruCacheNew n seed .zeroed) calls = some (ledgerAfter n seed calls).2 := by
  obtain ⟨s,hrun,_⟩ := run_new hn seed calls
  rw [Machine.replies,hrun,Option.map_some]

/-- The condition for one more call, over equal lists. -/
theorem losesAlike_concat (hn : 0 < n) {c : Call} (h : LosesAlike n seed₁ seed₂ calls)
    (heq : ledgerAfter n seed₁ calls = ledgerAfter n seed₂ calls) :
    LosesAlike n seed₁ seed₂ (calls++[c]) ↔
      ∀ k v, c = .set k v → (ledgerAfter n seed₁ calls).1.lookup k = none →
        ((ledgerAfter n seed₁ calls).1.Loses (placeOf seed₁ n) n k ↔
          (ledgerAfter n seed₁ calls).1.Loses (placeOf seed₂ n) n k) := by
  have hloses : ∀ k s₁ o₁ s₂ o₂,
      Machine.run step (lruCacheNew n seed₁ .zeroed) calls = some (s₁,o₁) →
      Machine.run step (lruCacheNew n seed₂ .zeroed) calls = some (s₂,o₂) →
      ((LosesInsert s₁ k ↔ LosesInsert s₂ k) ↔
        ((ledgerAfter n seed₁ calls).1.lookup k = none →
          ((ledgerAfter n seed₁ calls).1.Loses (placeOf seed₁ n) n k ↔
            (ledgerAfter n seed₁ calls).1.Loses (placeOf seed₂ n) n k))) := by
    intro k s₁ o₁ s₂ o₂ h₁ h₂
    have hr₁ := (rep_of_run hn h₁).1
    have hr₂ := (rep_of_run hn h₂).1
    rw [← heq] at hr₂
    rw [hr₁.losesInsert_iff hn,hr₂.losesInsert_iff hn,and_congr_right_iff]
  obtain ⟨t₁,ht₁,_⟩ := run_new hn seed₁ calls
  obtain ⟨t₂,ht₂,_⟩ := run_new hn seed₂ calls
  constructor
  · intro hall k v hc
    subst hc
    exact (hloses k _ _ _ _ ht₁ ht₂).mp (hall calls k v (List.prefix_refl _) _ _ _ _ ht₁ ht₂)
  · intro hlast done k v hdone s₁ o₁ s₂ o₂ h₁ h₂
    rcases List.prefix_concat_iff.mp hdone with heq' | hpre
    · obtain ⟨rfl,hc⟩ := List.append_inj' heq' rfl
      exact (hloses k _ _ _ _ h₁ h₂).mpr (hlast k v (List.singleton_inj.mp hc).symm)
    · exact h done k v hpre s₁ o₁ s₂ o₂ h₁ h₂

theorem LosesAlike.of_append {more : List Call} (h : LosesAlike n seed₁ seed₂ (calls++more)) :
    LosesAlike n seed₁ seed₂ calls := by
  intro done k v hdone
  exact h done k v (hdone.trans (List.prefix_append calls more))

/-- While inserts are lost alike, the two tables hold the same entries and give the same replies. -/
theorem LosesAlike.ledgerAfter_eq (hn : 0 < n) (hlen : calls.length < 2^64)
    (h : LosesAlike n seed₁ seed₂ calls) : ledgerAfter n seed₁ calls = ledgerAfter n seed₂ calls := by
  induction calls using List.reverseRecOn with
  | nil => rw [ledgerAfter,ledgerAfter,Machine.drive_nil,Machine.drive_nil]
  | append_singleton calls c ih =>
    rw [List.length_append,List.length_singleton] at hlen
    have heq := ih (by omega) h.of_append
    have hd : Dated (calls.zip (ledgerAfter n seed₁ calls).2) (ledgerAfter n seed₁ calls).1 :=
      dated_drive _ n calls (by omega)
    have hv := victim_congr (placeOf_lt seed₁ hn) (placeOf_lt seed₂ hn) hd.distinct
    have hstep := step_congr hv ((losesAlike_concat hn h.of_append heq).mp h)
    rw [ledgerAfter_concat,ledgerAfter_concat,hstep,heq]

/-- Reading a key after each prefix of the calls tells whether inserts are lost alike. -/
theorem losesAlike_of_probes (hn : 0 < n) (hlen : calls.length < 2^64)
    (h : ∀ done, done <+: calls → ∀ j,
      (ledgerAfter n seed₁ (done++[Call.get j])).2 = (ledgerAfter n seed₂ (done++[Call.get j])).2) :
    LosesAlike n seed₁ seed₂ calls := by
  induction calls using List.reverseRecOn with
  | nil =>
    intro done k v hdone
    simp at hdone
  | append_singleton calls c ih =>
    rw [List.length_append,List.length_singleton] at hlen
    have hpre := ih (by omega) fun done hdone => h done (hdone.trans (List.prefix_append calls [c]))
    have heq := hpre.ledgerAfter_eq hn (by omega)
    rw [losesAlike_concat hn hpre heq]
    intro k v hc hk
    subst hc
    have hprobe := h _ (List.prefix_refl _) k
    rw [ledgerAfter_concat,ledgerAfter_concat,ledgerAfter_concat,ledgerAfter_concat,← heq] at hprobe
    have hget := List.singleton_inj.mp (List.append_inj' hprobe (by simp)).2
    exact loses_iff_of_probe _ _ hk hget

end Runs

/-- Runs of fewer than `2^64` calls give the same replies under two seeds if every insert is lost
in both tables or in none. Conversely, inserts are lost alike if reading any key after any part
of the run gives the same reply under both seeds. -/
theorem replies_seed_independent_iff (n : ℕ) (hn : 1 ≤ n) (seed₁ seed₂ : Int64) (calls : List Call)
    (hlen : calls.length+1 < 2^64) :
    (LosesAlike n seed₁ seed₂ calls →
      Machine.replies step (lruCacheNew n seed₁ .zeroed) calls =
        Machine.replies step (lruCacheNew n seed₂ .zeroed) calls) ∧
    (LosesAlike n seed₁ seed₂ calls ↔ ∀ done, done <+: calls → ∀ j,
      Machine.replies step (lruCacheNew n seed₁ .zeroed) (done++[.get j]) =
        Machine.replies step (lruCacheNew n seed₂ .zeroed) (done++[.get j])) := by
  simp only [replies_new hn,Option.some.injEq]
  refine ⟨?_,?_,?_⟩
  · intro h
    rw [h.ledgerAfter_eq hn (by omega)]
  · intro h done hdone j
    obtain ⟨more,rfl⟩ := hdone
    rw [List.length_append] at hlen
    have hget : LosesAlike n seed₁ seed₂ (done++[.get j]) := by
      rw [losesAlike_concat hn h.of_append (h.of_append.ledgerAfter_eq hn (by omega))]
      intro k v hc
      cases hc
    rw [hget.ledgerAfter_eq hn (by rw [List.length_append,List.length_singleton]; omega)]
  · intro h
    exact losesAlike_of_probes hn (by omega) h

theorem replies_seed_independent_iff_test : 1 ≤ 2 ∧ [Call.set key1 [1],.get key1].length+1 < 2^64 ∧
    (LosesAlike 2 0 16 [.set key1 [1],.get key1] →
      Machine.replies step (lruCacheNew 2 0 .zeroed) [.set key1 [1],.get key1] =
        Machine.replies step (lruCacheNew 2 16 .zeroed) [.set key1 [1],.get key1]) ∧
    (LosesAlike 2 0 16 [.set key1 [1],.get key1] ↔ ∀ done, done <+: [.set key1 [1],.get key1] → ∀ j,
      Machine.replies step (lruCacheNew 2 0 .zeroed) (done++[.get j]) =
        Machine.replies step (lruCacheNew 2 16 .zeroed) (done++[.get j])) :=
  ⟨by decide,by decide,replies_seed_independent_iff 2 (by decide) 0 16 _ (by decide)⟩

/-- The third key is lost under one seed and kept under the other. -/
theorem replies_seed_dependent :
    Machine.replies step (lruCacheNew 2 0 .zeroed)
        [.set key1 [1],.set key2 [2],.get key1,.set key3 [3],.get key3] ≠
      Machine.replies step (lruCacheNew 2 16 .zeroed)
        [.set key1 [1],.set key2 [2],.get key1,.set key3 [3],.get key3] := by
  decide +kernel

end CStudy.LruCache

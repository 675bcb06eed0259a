import CStudy.LruCache.Recency

/-! What `malloc` hands out. `LRUCacheNew` leaves the slots of the table and the age counter as
it finds them, and a new item keeps its `next` field. A wild slot is followed by the first call.
With empty slots and links only the starting age is left, and it shifts all ages alike, which
does not show as long as no age reaches `INT_MAX`. -/
namespace CStudy.LruCache
open CStudy.Foundation Ledger

/-- The same entry, used `d` calls later. -/
def Entry.later (d : ℕ) (e : Entry) : Entry := { e with age := e.age+d }

theorem Entry.later_injective (d : ℕ) : Function.Injective (Entry.later d) := by
  intro e e' h
  cases e with
  | mk key value valueLength age =>
    cases e' with
    | mk key' value' valueLength' age' =>
      simp only [Entry.later,Entry.mk.injEq] at h ⊢
      exact ⟨h.1,h.2.1,h.2.2.1,by omega⟩

namespace Ledger
variable {place : CString → ℕ} {n d : ℕ} {a b : Ledger} {k : CString} {v : List UInt8}

/-- The list `b` is `a` with all ages shifted by `d`. -/
structure Shifted (d : ℕ) (a b : Ledger) : Prop where
  entries : b.entries = a.entries.map (Entry.later d)
  currentEntries : b.currentEntries = a.currentEntries
  age : b.age = a.age+d

theorem Shifted.lookup (h : Shifted d a b) (k : CString) :
    b.lookup k = (a.lookup k).map (Entry.later d) := by
  rw [Ledger.lookup,Ledger.lookup,h.entries,List.find?_map]
  rfl

theorem Shifted.next_age (h : Shifted d a b) (hlt : a.age+d+1 < 2^64) :
    incr64 b.age = incr64 a.age+d := by
  rw [h.age,incr64_of_lt hlt,incr64_of_lt (by omega)]
  omega

/-- A change of the item `k` that commutes with the shift. -/
theorem Shifted.amend {g g' : Entry → Entry} (hg : ∀ e, (g e).key = e.key)
    (hg' : ∀ e, (g' e).key = e.key) (h : Shifted d a b) (hlt : a.age+d+1 < 2^64)
    (hgg : ∀ e, g' (e.later d) = (g e).later d) : Shifted d (a.amend k g hg) (b.amend k g' hg') where
  entries := by
    simp only [Ledger.amend,h.entries,List.map_map]
    apply List.map_congr_left
    intro e _
    change (if e.key = k then g' (e.later d) else e.later d) = (if e.key = k then g e else e).later d
    split_ifs
    · exact hgg e
    · rfl
  currentEntries := h.currentEntries
  age := h.next_age hlt

theorem Shifted.overwrite (h : Shifted d a b) (hlt : a.age+d+1 < 2^64) :
    Shifted d (a.overwrite k v) (b.overwrite k v) := by
  apply Shifted.amend _ _ h hlt
  intro e
  rw [h.age]
  rfl

theorem Shifted.touch (h : Shifted d a b) (hlt : a.age+d+1 < 2^64) :
    Shifted d (a.touch k) (b.touch k) := by
  apply Shifted.amend _ _ h hlt
  intro e
  rw [h.age]
  rfl

theorem Shifted.erase (h : Shifted d a b) : Shifted d (a.erase k) (b.erase k) where
  entries := by
    simp only [Ledger.erase,h.entries,List.filter_map]
    rfl
  currentEntries := h.currentEntries
  age := h.age

theorem bucket_later (es : List Entry) (i : ℕ) :
    bucket place (es.map (Entry.later d)) i = (bucket place es i).map (Entry.later d) := by
  rw [bucket,bucket,List.filter_map]
  rfl

theorem without_later (es : List Entry) (w : Option Entry) :
    without (es.map (Entry.later d)) (w.map (Entry.later d)) =
      (without es w).map (Entry.later d) := by
  cases w with
  | none => rfl
  | some w =>
    simp only [without,Option.map_some,List.filter_map]
    rfl

/-- With distinct ages below `INT_MAX` the shifted list has the shifted least used entry. -/
theorem Shifted.leastUsed (h : Shifted d a b) (hp : ∀ k, place k < n)
    (hd : ∀ e ∈ a.entries, ∀ e' ∈ a.entries, e.age = e'.age → e = e')
    (hmax : ∀ e ∈ a.entries, e.age+d < intMax) :
    leastUsed place n b.entries = (leastUsed place n a.entries).map (Entry.later d) := by
  cases hw : Ledger.leastUsed place n a.entries with
  | none =>
    rw [Option.map_none,leastUsed_eq_none hp]
    have hnone := (leastUsed_eq_none hp).mp hw
    intro e he
    rw [h.entries] at he
    obtain ⟨x,hx,rfl⟩ := List.mem_map.mp he
    exact (hnone x hx).trans (Nat.le_add_right x.age d)
  | some w =>
    have hm := leastUsed_mem hw
    have hm' : w.later d ∈ b.entries := h.entries ▸ List.mem_map_of_mem hm
    cases hw' : Ledger.leastUsed place n b.entries with
    | none =>
      have hge : intMax ≤ w.age+d := (leastUsed_eq_none hp).mp hw' _ hm'
      have hlt := hmax w hm
      omega
    | some w' =>
      have hb := leastUsed_mem hw'
      rw [h.entries] at hb
      obtain ⟨x,hx,rfl⟩ := List.mem_map.mp hb
      have h₁ : w.age ≤ x.age := leastUsed_le hp hw hx
      have h₂ : x.age+d ≤ w.age+d := leastUsed_le hp hw' hm'
      rw [hd w hm x hx (by omega),Option.map_some]

theorem Shifted.victim (h : Shifted d a b) (hp : ∀ k, place k < n)
    (hd : ∀ e ∈ a.entries, ∀ e' ∈ a.entries, e.age = e'.age → e = e')
    (hmax : ∀ e ∈ a.entries, e.age+d < intMax) :
    b.victim place n = (a.victim place n).map (Entry.later d) := by
  rw [Ledger.victim,Ledger.victim,h.currentEntries,h.leastUsed hp hd hmax]
  split_ifs
  · rfl
  · rfl

theorem Shifted.loses_iff (h : Shifted d a b)
    (hv : b.victim place n = (a.victim place n).map (Entry.later d)) :
    b.Loses place n k ↔ a.Loses place n k := by
  rw [Loses,Loses,hv,h.entries,bucket_later,List.getLast?_map]
  constructor
  · intro hw
    obtain ⟨w,hw,hlast⟩ := hw
    obtain ⟨x,hx,rfl⟩ := Option.map_eq_some_iff.mp hw
    obtain ⟨y,hy,hyx⟩ := Option.map_eq_some_iff.mp hlast
    exact ⟨x,hx,Entry.later_injective d hyx ▸ hy⟩
  · intro hw
    obtain ⟨w,hw,hlast⟩ := hw
    exact ⟨w.later d,by rw [hw]; rfl,by rw [hlast]; rfl⟩

theorem Shifted.insert (h : Shifted d a b) (hlt : a.age+d+1 < 2^64)
    (hv : b.victim place n = (a.victim place n).map (Entry.later d)) (hk : a.lookup k = none)
    (hk' : b.lookup k = none) :
    Shifted d (a.insert place n k v hk) (b.insert place n k v hk') where
  entries := by
    have hkept : b.kept place n = (a.kept place n).map (Entry.later d) := by
      rw [kept,kept,hv,h.entries,without_later]
    simp only [Ledger.insert,h.loses_iff hv]
    split_ifs
    · exact hkept
    · rw [hkept,List.map_append,List.map_singleton,h.age]
      rfl
  currentEntries := by simp only [Ledger.insert,hv,h.currentEntries,Option.isSome_map]
  age := h.next_age hlt

/-- A call gives the same reply on the shifted list, and shifts the result. -/
theorem Shifted.step (h : Shifted d a b) (hp : ∀ k, place k < n) {past : List (Call × Reply)}
    (hd : Dated past a) (hmax : past.length+d < intMax) (c : Call) :
    (b.step place n c).2 = (a.step place n c).2 ∧
      Shifted d (a.step place n c).1 (b.step place n c).1 := by
  have hage := hd.age_le
  have hlt : a.age+d+1 < 2^64 := by
    unfold intMax at hmax
    omega
  cases c with
  | set k v =>
    refine ⟨rfl,?_⟩
    rw [Ledger.step,Ledger.step]
    cases hk : a.lookup k with
    | some e =>
      have hk' : b.lookup k = some (e.later d) := by rw [h.lookup,hk]; rfl
      rw [set_of_some hk,set_of_some hk']
      exact h.overwrite hlt
    | none =>
      have hk' : b.lookup k = none := by rw [h.lookup,hk]; rfl
      rw [set_of_none hk,set_of_none hk']
      refine h.insert hlt (h.victim hp hd.distinct ?_) hk hk'
      intro e he
      have := hd.below e he
      omega
  | get k =>
    rw [Ledger.step,Ledger.step,h.lookup]
    cases hk : a.lookup k with
    | some e => exact ⟨rfl,h.touch hlt⟩
    | none => exact ⟨rfl,h⟩
  | delete k =>
    rw [Ledger.step,Ledger.step,h.lookup]
    cases hk : a.lookup k with
    | some e => exact ⟨rfl,h.erase⟩
    | none => exact ⟨rfl,h⟩

/-- Runs that stay below `INT_MAX` do not show the age they start from. -/
theorem shifted_drive (hp : ∀ k, place k < n) (calls : List Call) (hmax : d+calls.length ≤ intMax) :
    (Machine.drive (step place n) (empty d) calls).2 =
        (Machine.drive (step place n) (empty 0) calls).2 ∧
      Shifted d (Machine.drive (step place n) (empty 0) calls).1
        (Machine.drive (step place n) (empty d) calls).1 := by
  induction calls using List.reverseRecOn with
  | nil => exact ⟨rfl,rfl,rfl,(Nat.zero_add d).symm⟩
  | append_singleton calls c ih =>
    rw [List.length_append,List.length_singleton] at hmax
    obtain ⟨hreplies,hshift⟩ := ih (by omega)
    have hd := dated_drive place n calls (by unfold intMax at hmax; omega)
    have hlen : (calls.zip (Machine.drive (step place n) (empty 0) calls).2).length+d < intMax := by
      rw [List.length_zip,Machine.length_drive,min_self]
      omega
    obtain ⟨hreply,hnext⟩ := hshift.step hp hd hlen c
    rw [Machine.drive_append,Machine.drive_append,hreplies]
    simp only [Machine.drive_cons,Machine.drive_nil]
    exact ⟨by rw [hreply],hnext⟩

end Ledger

/-- The memory of a new cache has empty slots and links, and an age from which `m` calls do not
reach `INT_MAX`. -/
def Stale.Clean (stale : Stale) (n m : ℕ) : Prop :=
  (∀ i < n, stale.items i = none) ∧ (∀ p, stale.next p = none) ∧ stale.age.toNat+m ≤ intMax

/-- Every slot holds an address at which nothing was allocated. -/
def Stale.wild : Stale := ⟨fun _ => some 0,0,fun _ => none⟩

theorem replies_clean {n : ℕ} (hn : 0 < n) (seed : Int64) {stale : Stale} {calls : List Call}
    (h : stale.Clean n calls.length) :
    Machine.replies step (lruCacheNew n seed stale) calls = some (ledgerAfter n seed calls).2 := by
  obtain ⟨hi,hs,hage⟩ := h
  obtain ⟨s,hrun,_⟩ := Machine.run_simulates (Rep n seed) (step_simulates hn) (rep_new seed hi hs) calls
  rw [Machine.replies,hrun,Option.map_some,(shifted_drive (placeOf_lt seed hn) calls hage).1]
  rfl

/-- The first call looks into its bucket and follows the wild slot. -/
theorem step_wild {n : ℕ} (hn : 0 < n) (seed : Int64) (c : Call) :
    step (lruCacheNew n seed .wild) c = none := by
  have hfind : ∀ k i, findItem (lruCacheNew n seed .wild).heap k
      ((lruCacheNew n seed .wild).cache.items i) = none := fun k i => rfl
  have hindex : ∀ k, lruCacheGetHashIndex (lruCacheNew n seed .wild).cache k =
      some (placeOf seed n k) := fun k => if_neg hn.ne'
  cases c with
  | set k v => simp [step,lruCacheSet,hindex,hfind]
  | get k => simp [step,lruCacheGet,hindex,hfind]
  | delete k => simp [step,lruCacheDelete,hindex,hfind]

/-- The replies are the same for all contents of fresh memory only if no call is made. For clean
contents they are the same. -/
theorem replies_stale_iff (n : ℕ) (hn : 1 ≤ n) (seed : Int64) (calls : List Call) :
    ((∀ m₁ m₂ : Stale, Machine.replies step (lruCacheNew n seed m₁) calls =
        Machine.replies step (lruCacheNew n seed m₂) calls) ↔ calls = []) ∧
    ∀ m₁ m₂ : Stale, m₁.Clean n calls.length → m₂.Clean n calls.length →
      Machine.replies step (lruCacheNew n seed m₁) calls =
        Machine.replies step (lruCacheNew n seed m₂) calls := by
  refine ⟨⟨?_,?_⟩,?_⟩
  · intro h
    cases calls with
    | nil => rfl
    | cons c cs =>
      have hsame := h .zeroed .wild
      obtain ⟨s,hrun,_⟩ := run_new hn seed (c::cs)
      rw [Machine.replies,Machine.replies,hrun,Machine.run,step_wild hn seed c] at hsame
      cases hsame
  · intro h m₁ m₂
    subst h
    rfl
  · intro m₁ m₂ h₁ h₂
    rw [replies_clean hn seed h₁,replies_clean hn seed h₂]

theorem replies_stale_iff_test : 1 ≤ 2 ∧
    ((∀ m₁ m₂ : Stale, Machine.replies step (lruCacheNew 2 0 m₁) [.set key1 [1],.get key1] =
        Machine.replies step (lruCacheNew 2 0 m₂) [.set key1 [1],.get key1]) ↔
      [Call.set key1 [1],.get key1] = []) ∧
    ∀ m₁ m₂ : Stale, m₁.Clean 2 2 → m₂.Clean 2 2 →
      Machine.replies step (lruCacheNew 2 0 m₁) [.set key1 [1],.get key1] =
        Machine.replies step (lruCacheNew 2 0 m₂) [.set key1 [1],.get key1] :=
  ⟨by decide,replies_stale_iff 2 (by decide) 0 _⟩

/-- With a stale age of `INT_MAX` nothing is evicted, and the first key stays readable. -/
theorem replies_stale_age :
    Machine.replies step (lruCacheNew 1 0 .zeroed) [.set key1 [1],.set key2 [2],.get key1] ≠
      Machine.replies step (lruCacheNew 1 0 ⟨fun _ => none,2147483647,fun _ => none⟩)
        [.set key1 [1],.set key2 [2],.get key1] := by
  decide +kernel

end CStudy.LruCache

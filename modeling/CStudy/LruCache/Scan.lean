import CStudy.LruCache.Layout

/-! The eviction scan. It compares 64-bit ages with an `int` that starts at `INT_MAX`; since it
only ever takes over an age below that bound, the two conversions lose nothing, and an item
whose age has reached the bound is never chosen. -/
namespace CStudy.LruCache
open CStudy.Foundation Ledger

def ageAt (heap : Heap LRUCacheItem) (p : Ptr) : ℕ := ((heap.read p).map LRUCacheItem.age).getD 0

theorem ageAt_of_read {heap : Heap LRUCacheItem} {p : Ptr} {c : LRUCacheItem}
    (hp : heap.read p = some c) : ageAt heap p = c.age := by simp [ageAt,hp]

theorem ageAt_of_entry {heap : Heap LRUCacheItem} {p : Ptr} {e : Entry}
    (hp : entryAt heap p = some e) : ageAt heap p = e.age := by
  obtain ⟨c,hc,rfl⟩ := entryAt_eq_some.mp hp
  exact ageAt_of_read hc

theorem intToUInt64_natCast {x : ℕ} (hx : x ≤ intMax) : intToUInt64 x = x := by
  unfold intMax at hx
  unfold intToUInt64
  omega

theorem uint64ToInt_of_lt {x : ℕ} (hx : x < intMax) : uint64ToInt x = x := by
  unfold intMax at hx
  unfold uint64ToInt
  apply Int.bmod_eq_of_le <;> omega

/-- The first address of least age, if that age is below `INT_MAX`. -/
def leastOf (heap : Heap LRUCacheItem) (l : List Ptr) : Option Ptr :=
  (l.argmin (ageAt heap)).filter fun p => ageAt heap p < intMax

/-- The local variables of the scan after it has seen the addresses `seen`. -/
structure Scanned (heap : Heap LRUCacheItem) (n : ℕ) (ch : ℕ → List Ptr) (seen : List Ptr)
    (least : Least) : Prop where
  used : least.leastUsed = leastOf heap seen
  age : least.leastAge = ((least.leastUsed.map (ageAt heap)).getD intMax : ℕ)
  found : ∀ p, least.leastUsed = some p → least.leastIndex < n ∧
    ∃ l₁ l₂, ch least.leastIndex = l₁++p::l₂ ∧ least.leastPrev = l₁.getLast?

variable {heap : Heap LRUCacheItem} {n i : ℕ} {ch : ℕ → List Ptr} {seen l l₀ : List Ptr}
  {least : Least} {p : Ptr} {c : LRUCacheItem}

theorem leastOf_concat (heap : Heap LRUCacheItem) (seen : List Ptr) (p : Ptr) :
    leastOf heap (seen++[p]) =
      if ageAt heap p < ((leastOf heap seen).map (ageAt heap)).getD intMax then some p
      else leastOf heap seen := by
  rw [leastOf,leastOf,List.argmin_concat]
  cases hm : seen.argmin (ageAt heap) with
  | none => by_cases hp : ageAt heap p < intMax <;> simp [Option.filter,hp]
  | some m =>
    dsimp only
    by_cases hm : ageAt heap m < intMax
    · by_cases hp : ageAt heap p < ageAt heap m
      · simp [Option.filter,hm,hp,hp.trans hm]
      · simp [Option.filter,hm,hp]
    · by_cases hp : ageAt heap p < intMax
      · have hpm : ageAt heap p < ageAt heap m := by omega
        simp [Option.filter,hm,hp,hpm]
      · by_cases hpm : ageAt heap p < ageAt heap m <;> simp [Option.filter,hm,hp,hpm]

theorem leastOf_age_lt {m : Ptr} (h : leastOf heap seen = some m) : ageAt heap m < intMax := by
  rw [leastOf,Option.filter_eq_some_iff] at h
  simpa using h.2

/-- One iteration of the inner loop. -/
theorem Scanned.visit (hs : Scanned heap n ch seen least) (hp : heap.read p = some c)
    (hi : i < n) (hch : ch i = l₀++p::l) :
    Scanned heap n ch (seen++[p]) (if c.age < intToUInt64 least.leastAge then
      ⟨some p,l₀.getLast?,i,uint64ToInt c.age⟩ else least) := by
  have hbound : (least.leastUsed.map (ageAt heap)).getD intMax ≤ intMax := by
    cases hu : least.leastUsed with
    | none => exact le_rfl
    | some m => exact (leastOf_age_lt (hs.used.symm.trans hu)).le
  have hconv : intToUInt64 least.leastAge = (least.leastUsed.map (ageAt heap)).getD intMax := by
    rw [hs.age,intToUInt64_natCast hbound]
  have hconcat := leastOf_concat heap seen p
  rw [← hs.used,ageAt_of_read hp] at hconcat
  rw [hconv]
  split_ifs with hlt
  · rw [if_pos hlt] at hconcat
    refine ⟨hconcat.symm,?_,?_⟩
    · rw [Option.map_some,Option.getD_some,ageAt_of_read hp,uint64ToInt_of_lt (hlt.trans_le hbound)]
    · rintro q ⟨rfl⟩
      exact ⟨hi,l₀,l,hch,rfl⟩
  · rw [if_neg hlt] at hconcat
    exact ⟨hconcat.symm,hs.age,hs.found⟩

/-- The inner loop over the rest `l` of the chain of bucket `i`. -/
theorem Scanned.chain (l₀ : List Ptr) {a : Option Ptr} {fuel : ℕ}
    (hs : Scanned heap n ch (seen++l₀) least)
    (hi : i < n) (hch : ch i = l₀++l) (hl : heap.Chain LRUCacheItem.next a l)
    (hf : l.length ≤ fuel) :
    ∃ least', scanChain heap i fuel l₀.getLast? a least = some least' ∧
      Scanned heap n ch (seen++(l₀++l)) least' := by
  induction l generalizing a fuel l₀ least with
  | nil =>
    cases (show a = none from hl)
    refine ⟨least,?_,by simpa using hs⟩
    cases fuel <;> rfl
  | cons p l ih =>
    obtain ⟨rfl,c,hc,ht⟩ := hl
    cases fuel with
    | zero => simp at hf
    | succ fuel =>
      have hv := hs.visit hc hi hch
      rw [List.append_assoc] at hv
      obtain ⟨least',hr,hs'⟩ := ih (l₀++[p]) hv (by simpa using hch) ht (by simpa using hf)
      refine ⟨least',?_,by simpa using hs'⟩
      rw [List.getLast?_concat] at hr
      simp only [scanChain,hc]
      exact hr

/-- The outer loop over the first `m` buckets. -/
theorem scanBuckets_scanned {place : CString → ℕ} {s : State} {es : List Entry}
    (hl : Layout place n s.heap s.cache.items es ch) (m : ℕ) (hm : m ≤ n) :
    ∃ least, scanBuckets s m = some least ∧
      Scanned s.heap n ch ((List.range m).flatMap ch) least := by
  induction m with
  | zero => exact ⟨⟨none,none,0,intMax⟩,rfl,rfl,rfl,by simp⟩
  | succ m ih =>
    obtain ⟨least,hr,hs⟩ := ih (by omega)
    have hchain := hl.chain m (by omega)
    obtain ⟨least',hr',hs'⟩ := Scanned.chain [] (by simpa using hs) (by omega) rfl hchain
      hchain.length_le_top
    refine ⟨least',?_,?_⟩
    · rw [scanBuckets,hr]
      exact hr'
    · rw [List.range_succ,List.flatMap_append,List.flatMap_singleton]
      exact hs'

/-- Lists that correspond elementwise, with equal ages, have corresponding first minima. -/
theorem argmin_rel {R : Ptr → Entry → Prop} {f : Ptr → ℕ} {es : List Entry}
    (hR : List.Forall₂ R l es) (hage : ∀ p e, R p e → f p = e.age) :
    Option.Rel R (l.argmin f) (es.argmin Entry.age) := by
  induction hR with
  | nil => exact .none
  | @cons p e l es hpe ht ih =>
    rw [List.argmin_cons,List.argmin_cons]
    revert ih
    generalize l.argmin f = x
    generalize es.argmin Entry.age = y
    intro ih
    cases ih with
    | none => exact .some hpe
    | @some q e' hq =>
      dsimp only
      rw [hage q e' hq,hage p e hpe]
      split_ifs
      · exact .some hq
      · exact .some hpe

namespace Layout
variable {place : CString → ℕ} {items : ℕ → Option Ptr} {es : List Entry}

/-- The linked addresses in scan order show the entries in scan order. -/
theorem shows_scanOrder (hl : Layout place n heap items es ch) :
    ((List.range n).flatMap ch).map (entryAt heap) = (scanOrder place n es).map some := by
  rw [scanOrder,List.map_flatMap,List.map_flatMap]
  apply List.flatMap_congr
  intro i hi
  exact hl.shows i (List.mem_range.mp hi)

theorem forall₂_scanOrder (hl : Layout place n heap items es ch) :
    List.Forall₂ (fun p e => entryAt heap p = some e) ((List.range n).flatMap ch)
      (scanOrder place n es) := by
  have h := List.forall₂_eq_eq_eq ▸ hl.shows_scanOrder
  rwa [List.forall₂_map_left_iff,List.forall₂_map_right_iff] at h

/-- The scan and the list agree on the least used item. -/
theorem leastOf_rel (hl : Layout place n heap items es ch) :
    Option.Rel (fun p e => entryAt heap p = some e) (leastOf heap ((List.range n).flatMap ch))
      (leastUsed place n es) := by
  have h := argmin_rel hl.forall₂_scanOrder fun p e => ageAt_of_entry
  rw [leastOf,leastUsed]
  revert h
  generalize ((List.range n).flatMap ch).argmin (ageAt heap) = x
  generalize (scanOrder place n es).argmin Entry.age = y
  intro h
  cases h with
  | none => exact .none
  | @some p e hpe =>
    have hage := ageAt_of_entry hpe
    by_cases he : e.age < intMax
    · simpa [Option.filter,hage,he] using hpe
    · simp [Option.filter,hage,he]

end Layout
end CStudy.LruCache

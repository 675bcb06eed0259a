import CStudy.Foundation.Heap

/-! Who holds which cell of a heap. The slots of a program, pointer fields or local variables,
hold the address of a cell or are empty. As long as the allocated cells are exactly those held,
each by one slot, no free is wild, and what is left at the end is what the slots still hold. -/
namespace CStudy.Foundation
namespace Heap
variable {α ι : Type*}

/-- `free(p)`, which is undefined on an address that is not allocated. -/
def release (h : Heap α) (p : Ptr) : Option (Heap α) := (h.read p).map fun _ => h.free p

theorem release_eq {h : Heap α} {p : Ptr} {c : α} (hp : h.read p = some c) :
    h.release p = some (h.free p) := by simp [release,hp]

@[simp] theorem read_free_self (h : Heap α) (p : Ptr) : (h.free p).read p = none := if_pos rfl

/-- An address that was allocated and has been given back. -/
def Dead (h : Heap α) (p : Ptr) : Prop := p < h.top ∧ h.read p = none

section Dead
variable {h : Heap α} {p q : Ptr} {c : α}

theorem dead_free (hp : h.read p = some c) : (h.free p).Dead p :=
  ⟨lt_top (h := h) hp,read_free_self h p⟩

/-- Addresses are not handed out again. -/
theorem Dead.alloc (hd : h.Dead p) (c : α) : (h.alloc c).Dead p := by
  refine ⟨Nat.lt_succ_of_lt hd.1,?_⟩
  rw [read_alloc_of_ne hd.1.ne]
  exact hd.2

theorem Dead.free (hd : h.Dead p) (q : Ptr) : (h.free q).Dead p := by
  refine ⟨hd.1,?_⟩
  by_cases hp : p = q
  · subst hp
    exact read_free_self h p
  · rw [read_free_of_ne hp]
    exact hd.2

end Dead

/-- The allocated cells are those held by the slots, each by one slot. -/
structure Owns (h : Heap α) (slot : ι → Option Ptr) : Prop where
  live : ∀ p, (h.read p).isSome ↔ ∃ i, slot i = some p
  apart : ∀ i j p, slot i = some p → slot j = some p → i = j

namespace Owns
variable {h : Heap α} {slot : ι → Option Ptr} {i j : ι} {p q : Ptr} {c : α}

theorem empty : Owns (Heap.empty : Heap α) (fun _ : ι => none) := ⟨by simp,by simp⟩

theorem read (ho : Owns h slot) (hi : slot i = some p) : ∃ c, h.read p = some c :=
  Option.isSome_iff_exists.mp ((ho.live p).mpr ⟨i,hi⟩)

theorem ne (ho : Owns h slot) (hi : slot i = some p) (hj : slot j = some q) (hij : i ≠ j) :
    p ≠ q := by
  rintro rfl
  exact hij (ho.apart i j p hi hj)

/-- As many cells are allocated as slots are not empty. -/
theorem ncard_live (ho : Owns h slot) :
    {p | (h.read p).isSome}.ncard = {i | (slot i).isSome}.ncard := by
  symm
  refine Set.ncard_congr (fun i _ => (slot i).getD 0) ?_ ?_ ?_
  · intro i hi
    obtain ⟨p,hp⟩ := Option.isSome_iff_exists.mp hi
    change (h.read _).isSome
    rw [hp,Option.getD_some,ho.live]
    exact ⟨i,hp⟩
  · intro i j hi hj hij
    obtain ⟨p,hp⟩ := Option.isSome_iff_exists.mp hi
    obtain ⟨q,hq⟩ := Option.isSome_iff_exists.mp hj
    rw [hp,hq,Option.getD_some,Option.getD_some] at hij
    subst hij
    exact ho.apart i j p hp hq
  · intro p hp
    obtain ⟨i,hi⟩ := (ho.live p).mp hp
    refine ⟨i,?_,by rw [hi,Option.getD_some]⟩
    change (slot i).isSome
    rw [hi]
    rfl

variable [DecidableEq ι]

/-- `slot = malloc(..)` into an empty slot. -/
theorem alloc (ho : Owns h slot) (hi : slot i = none) (c : α) :
    Owns (h.alloc c) (Function.update slot i (some h.top)) := by
  have hfresh : ∀ j, slot j ≠ some h.top := by
    intro j hj
    obtain ⟨d,hd⟩ := ho.read hj
    exact lt_irrefl _ (lt_top hd)
  constructor
  · intro p
    by_cases hp : p = h.top
    · subst hp
      simp only [read_alloc_top,Option.isSome_some,true_iff]
      exact ⟨i,Function.update_self i _ slot⟩
    · rw [read_alloc_of_ne hp,ho.live]
      constructor
      · rintro ⟨j,hj⟩
        have hji : j ≠ i := by
          rintro rfl
          cases hi.symm.trans hj
        exact ⟨j,by rw [Function.update_of_ne hji,hj]⟩
      · rintro ⟨j,hj⟩
        by_cases hji : j = i
        · subst hji
          rw [Function.update_self] at hj
          exact absurd (Option.some.inj hj).symm hp
        · rw [Function.update_of_ne hji] at hj
          exact ⟨j,hj⟩
  · intro j k p hj hk
    by_cases hji : j = i <;> by_cases hki : k = i
    · rw [hji,hki]
    · subst hji
      rw [Function.update_self] at hj
      rw [Function.update_of_ne hki,← hj] at hk
      exact absurd hk (hfresh k)
    · subst hki
      rw [Function.update_self] at hk
      rw [Function.update_of_ne hji,← hk] at hj
      exact absurd hj (hfresh j)
    · rw [Function.update_of_ne hji] at hj
      rw [Function.update_of_ne hki] at hk
      exact ho.apart j k p hj hk

/-- `free(slot)` empties the slot. -/
theorem free (ho : Owns h slot) (hi : slot i = some p) :
    Owns (h.free p) (Function.update slot i none) := by
  have hother : ∀ j q, Function.update slot i none j = some q ↔ j ≠ i ∧ slot j = some q := by
    intro j q
    by_cases hji : j = i
    · subst hji
      simp
    · simp [hji]
  constructor
  · intro q
    simp only [hother]
    by_cases hq : q = p
    · subst hq
      simp only [read_free_self,Option.isSome_none,Bool.false_eq_true,false_iff]
      rintro ⟨j,hji,hj⟩
      exact hji (ho.apart j i q hj hi)
    · rw [read_free_of_ne hq,ho.live]
      constructor
      · rintro ⟨j,hj⟩
        refine ⟨j,?_,hj⟩
        rintro rfl
        exact hq (Option.some.inj (hj.symm.trans hi))
      · rintro ⟨j,_,hj⟩
        exact ⟨j,hj⟩
  · intro j k q hj hk
    exact ho.apart j k q ((hother j q).mp hj).2 ((hother k q).mp hk).2

/-- `free(slot); slot = malloc(..)` -/
theorem renew (ho : Owns h slot) (hi : slot i = some p) (c : α) :
    Owns ((h.free p).alloc c) (Function.update slot i (some h.top)) := by
  have hr := (ho.free hi).alloc (Function.update_self i none slot) c
  rwa [Function.update_idem,top_free] at hr

end Owns

/-- The allocated cells are those of a list, each once: what a program holds in all of its variables. -/
structure Inventory (h : Heap α) (l : List Ptr) : Prop where
  live : ∀ p, (h.read p).isSome ↔ p ∈ l
  nodup : l.Nodup

namespace Inventory
variable {h : Heap α} {l l' : List Ptr} {p : Ptr} {c : α}

theorem empty : Inventory (Heap.empty : Heap α) [] := ⟨by simp,List.nodup_nil⟩

theorem read (hi : Inventory h l) (hp : p ∈ l) : ∃ c, h.read p = some c :=
  Option.isSome_iff_exists.mp ((hi.live p).mpr hp)

theorem perm (hi : Inventory h l) (hl : l'.Perm l) : Inventory h l' :=
  ⟨fun p => (hi.live p).trans hl.mem_iff.symm,hl.nodup_iff.mpr hi.nodup⟩

theorem alloc (hi : Inventory h l) (c : α) : Inventory (h.alloc c) (h.top::l) := by
  constructor
  · intro p
    by_cases hp : p = h.top
    · subst hp
      simp
    · rw [read_alloc_of_ne hp,hi.live,List.mem_cons,or_iff_right hp]
  · refine List.nodup_cons.mpr ⟨fun htop => ?_,hi.nodup⟩
    obtain ⟨d,hd⟩ := hi.read htop
    exact lt_irrefl _ (lt_top hd)

theorem free (hi : Inventory h (p::l)) : Inventory (h.free p) l := by
  obtain ⟨hp,hl⟩ := List.nodup_cons.mp hi.nodup
  refine ⟨fun q => ?_,hl⟩
  by_cases hq : q = p
  · subst hq
    simp [hp]
  · rw [read_free_of_ne hq,hi.live,List.mem_cons,or_iff_right hq]

/-- Assignments to cells allocate and free nothing. -/
theorem congr {h' : Heap α} (hi : Inventory h l)
    (hsame : ∀ p, (h'.read p).isSome = (h.read p).isSome) : Inventory h' l :=
  ⟨fun p => by rw [hsame p,hi.live],hi.nodup⟩

theorem modify (hi : Inventory h l) (p : Ptr) (f : α → α) : Inventory (h.modify p f) l :=
  hi.congr fun q => by
    by_cases hq : q = p
    · subst hq
      simp
    · rw [read_modify_of_ne hq]

theorem ncard_live (hi : Inventory h l) : {p | (h.read p).isSome}.ncard = l.length := by
  have hset : {p | (h.read p).isSome} = (l.toFinset : Set Ptr) := by
    ext p
    simp [hi.live]
  rw [hset,Set.ncard_coe_finset,List.toFinset_card_of_nodup hi.nodup]

end Inventory
end Heap
end CStudy.Foundation

import Mathlib.Data.List.Nodup
import Mathlib.Data.Set.Card
import Mathlib.Tactic

/-! Singly linked lists in a heap of cells. A cell is read through its address, and one
field of it, selected by `next`, holds the address of its successor or `none` for the null
pointer. Everything a program does to such lists is a traversal, an unlink, or an append. -/
namespace CStudy.Foundation

/-- Addresses are handed out in increasing order and never reused. -/
abbrev Ptr := ℕ

/-- Allocated cells. No cell at or above `top` has been allocated. -/
@[ext] structure Heap (α : Type*) where
  read : Ptr → Option α
  top : Ptr
  unallocated : ∀ p, top ≤ p → read p = none

namespace Heap
variable {α : Type*}

def empty : Heap α := ⟨fun _ => none,0,fun _ _ => rfl⟩

@[simp] theorem read_empty (p : Ptr) : (empty : Heap α).read p = none := rfl
@[simp] theorem top_empty : (empty : Heap α).top = 0 := rfl

theorem lt_top {h : Heap α} {p : Ptr} {c : α} (hp : h.read p = some c) : p < h.top := by
  by_contra hn
  rw [h.unallocated p (Nat.le_of_not_lt hn)] at hp
  cases hp

/-- A fresh cell at the address `top`. -/
def alloc (h : Heap α) (c : α) : Heap α where
  read p := if p = h.top then some c else h.read p
  top := h.top+1
  unallocated p hp := by
    rw [if_neg (Nat.ne_of_gt hp)]
    exact h.unallocated p (Nat.le_of_succ_le hp)

@[simp] theorem top_alloc (h : Heap α) (c : α) : (h.alloc c).top = h.top+1 := rfl
@[simp] theorem read_alloc_top (h : Heap α) (c : α) : (h.alloc c).read h.top = some c := if_pos rfl

theorem read_alloc_of_ne {h : Heap α} {c : α} {p : Ptr} (hp : p ≠ h.top) :
    (h.alloc c).read p = h.read p := if_neg hp

/-- An assignment to fields of the cell at `p`; it has no effect on a cell that does not exist. -/
def modify (h : Heap α) (p : Ptr) (f : α → α) : Heap α where
  read q := if q = p then (h.read p).map f else h.read q
  top := h.top
  unallocated q hq := by
    split_ifs with he
    · rw [← he,h.unallocated q hq]; rfl
    · exact h.unallocated q hq

@[simp] theorem top_modify (h : Heap α) (p : Ptr) (f : α → α) : (h.modify p f).top = h.top := rfl
@[simp] theorem read_modify_self (h : Heap α) (p : Ptr) (f : α → α) :
    (h.modify p f).read p = (h.read p).map f := if_pos rfl

theorem read_modify_of_ne {h : Heap α} {p q : Ptr} {f : α → α} (hq : q ≠ p) :
    (h.modify p f).read q = h.read q := if_neg hq

theorem modify_modify (h : Heap α) (p : Ptr) (f g : α → α) :
    (h.modify p f).modify p g = h.modify p (g ∘ f) := by
  ext q : 2
  · by_cases hq : q = p
    · subst hq
      rw [read_modify_self,read_modify_self,read_modify_self,Option.map_map]
    · rw [read_modify_of_ne hq,read_modify_of_ne hq,read_modify_of_ne hq]
  · rfl

/-- The cell at `p` is given back and can no longer be read. -/
def free (h : Heap α) (p : Ptr) : Heap α where
  read q := if q = p then none else h.read q
  top := h.top
  unallocated q hq := by
    split_ifs
    · rfl
    · exact h.unallocated q hq

@[simp] theorem top_free (h : Heap α) (p : Ptr) : (h.free p).top = h.top := rfl

theorem read_free_of_ne {h : Heap α} {p q : Ptr} (hq : q ≠ p) : (h.free p).read q = h.read q :=
  if_neg hq

/-- The same assignment through a pointer that may be wild, in which case it is undefined. -/
def store (h : Heap α) (p : Ptr) (f : α → α) : Option (Heap α) :=
  (h.read p).map fun _ => h.modify p f

theorem store_eq {h : Heap α} {p : Ptr} {c : α} (hp : h.read p = some c) (f : α → α) :
    h.store p f = some (h.modify p f) := by simp [store,hp]

/-- Following `next` from `a` visits exactly the cells `l` and arrives at `b`. -/
def Seg (h : Heap α) (next : α → Option Ptr) : Option Ptr → List Ptr → Option Ptr → Prop
  | a,[],b => a = b
  | a,p::l,b => a = some p ∧ ∃ c, h.read p = some c ∧ Seg h next (next c) l b

/-- A finite list that ends in the null pointer. -/
abbrev Chain (h : Heap α) (next : α → Option Ptr) (a : Option Ptr) (l : List Ptr) : Prop :=
  Seg h next a l none

/-- Some number of `next` steps from `a` arrives at the cell `p`. -/
inductive Reaches (h : Heap α) (next : α → Option Ptr) : Option Ptr → Ptr → Prop
  | here {p c} (hp : h.read p = some c) : Reaches h next (some p) p
  | there {p q c} (hp : h.read p = some c) (tail : Reaches h next (next c) q) :
      Reaches h next (some p) q

variable {h : Heap α} {next : α → Option Ptr} {a b : Option Ptr} {l l₁ l₂ : List Ptr} {p q : Ptr}

/-- Only where the cells point to matters. -/
theorem Reaches.congr {h' : Heap α} (hr : Reaches h next a p)
    (hsame : ∀ q, (h.read q).map next = (h'.read q).map next) : Reaches h' next a p := by
  induction hr with
  | @here p c hp =>
    have hread := hsame p
    rw [hp,Option.map_some,eq_comm,Option.map_eq_some_iff] at hread
    obtain ⟨c',hp',_⟩ := hread
    exact .here hp'
  | @there p q c hp _ ih =>
    have hread := hsame p
    rw [hp,Option.map_some,eq_comm,Option.map_eq_some_iff] at hread
    obtain ⟨c',hp',hnext⟩ := hread
    exact .there hp' (hnext ▸ ih)

@[simp] theorem seg_nil : Seg h next a [] b ↔ a = b := Iff.rfl
@[simp] theorem seg_cons : Seg h next a (p::l) b ↔
    a = some p ∧ ∃ c, h.read p = some c ∧ Seg h next (next c) l b := Iff.rfl

theorem Seg.append {m : Option Ptr} (h₁ : Seg h next a l₁ m) (h₂ : Seg h next m l₂ b) :
    Seg h next a (l₁++l₂) b := by
  induction l₁ generalizing a with
  | nil =>
    obtain rfl : a = m := h₁
    exact h₂
  | cons p l₁ ih =>
    obtain ⟨rfl,c,hc,ht⟩ := h₁
    exact ⟨rfl,c,hc,ih ht⟩

theorem Seg.split (hs : Seg h next a (l₁++l₂) b) :
    ∃ m, Seg h next a l₁ m ∧ Seg h next m l₂ b := by
  induction l₁ generalizing a with
  | nil => exact ⟨a,rfl,hs⟩
  | cons p l₁ ih =>
    obtain ⟨rfl,c,hc,ht⟩ := hs
    obtain ⟨m,h₁,h₂⟩ := ih ht
    exact ⟨m,⟨rfl,c,hc,h₁⟩,h₂⟩

theorem Seg.read_of_mem (hs : Seg h next a l b) (hp : p ∈ l) : ∃ c, h.read p = some c := by
  induction l generalizing a with
  | nil => cases hp
  | cons q l ih =>
    obtain ⟨_,c,hc,ht⟩ := hs
    rcases List.mem_cons.mp hp with rfl | hp
    · exact ⟨c,hc⟩
    · exact ih ht hp

/-- A segment depends only on the successors stored in the cells it visits. -/
theorem Seg.congr {h' : Heap α} (hs : Seg h next a l b)
    (hc : ∀ q ∈ l, (h'.read q).map next = (h.read q).map next) : Seg h' next a l b := by
  induction l generalizing a with
  | nil => exact hs
  | cons q l ih =>
    obtain ⟨ha,c,hq,ht⟩ := hs
    have hn := hc q List.mem_cons_self
    rw [hq,Option.map_some,Option.map_eq_some_iff] at hn
    obtain ⟨c',hq',hn⟩ := hn
    refine ⟨ha,c',hq',?_⟩
    rw [hn]
    exact ih ht fun r hr => hc r (List.mem_cons_of_mem q hr)

theorem Seg.alloc (hs : Seg h next a l b) (c : α) : Seg (h.alloc c) next a l b := by
  apply hs.congr
  intro q hq
  obtain ⟨d,hd⟩ := hs.read_of_mem hq
  rw [read_alloc_of_ne (lt_top hd).ne]

/-- Frame rule: an assignment to a cell outside the segment. -/
theorem Seg.modify_of_notMem (hs : Seg h next a l b) (hp : p ∉ l) (f : α → α) :
    Seg (h.modify p f) next a l b := by
  apply hs.congr
  intro q hq
  rw [read_modify_of_ne (ne_of_mem_of_not_mem hq hp)]

theorem Seg.free (hs : Seg h next a l b) (hp : p ∉ l) : Seg (h.free p) next a l b := by
  apply hs.congr
  intro q hq
  rw [read_free_of_ne (ne_of_mem_of_not_mem hq hp)]

/-- An assignment that leaves the successor alone. -/
theorem Seg.modify_data (hs : Seg h next a l b) {f : α → α} (hf : ∀ c, next (f c) = next c)
    (p : Ptr) : Seg (h.modify p f) next a l b := by
  apply hs.congr
  intro q _
  by_cases hq : q = p
  · subst hq
    rw [read_modify_self,Option.map_map]
    exact congrArg (fun g => (h.read q).map g) (funext hf)
  · rw [read_modify_of_ne hq]

theorem Chain.unique (hl₁ : Chain h next a l₁) (hl₂ : Chain h next a l₂) : l₁ = l₂ := by
  induction l₁ generalizing a l₂ with
  | nil =>
    cases l₂ with
    | nil => rfl
    | cons q l₂ => cases (show a = none from hl₁).symm.trans hl₂.1
  | cons p l₁ ih =>
    obtain ⟨rfl,c,hc,ht⟩ := hl₁
    cases l₂ with
    | nil => cases hl₂
    | cons q l₂ =>
      obtain ⟨he,d,hd,hu⟩ := hl₂
      cases he
      obtain rfl : c = d := Option.some.inj (hc.symm.trans hd)
      rw [ih ht hu]

/-- A list that ends cannot come back to a cell: from there it would have to end sooner. -/
theorem Chain.nodup (hl : Chain h next a l) : l.Nodup := by
  induction l generalizing a with
  | nil => exact List.nodup_nil
  | cons p l ih =>
    obtain ⟨rfl,c,hc,ht⟩ := hl
    refine List.nodup_cons.mpr ⟨fun hp => ?_,ih ht⟩
    obtain ⟨l₁,l₂,rfl⟩ := List.append_of_mem hp
    obtain ⟨m,_,hm,d,hd,hu⟩ := ht.split
    subst hm
    obtain rfl : c = d := Option.some.inj (hc.symm.trans hd)
    have hlen := congrArg List.length (Chain.unique ht hu)
    simp only [List.length_append,List.length_cons] at hlen
    omega

theorem Chain.length_le_top (hl : Chain h next a l) : l.length ≤ h.top := by
  have hs : l ⊆ List.range h.top := by
    intro p hp
    obtain ⟨c,hc⟩ := hl.read_of_mem hp
    exact List.mem_range.mpr (lt_top hc)
  simpa using (hl.nodup.subperm hs).length_le

theorem Chain.reaches_iff (hl : Chain h next a l) : Reaches h next a p ↔ p ∈ l := by
  constructor
  · intro hr
    induction hr generalizing l with
    | here hp =>
      cases l with
      | nil => cases hl
      | cons r l => cases hl.1; exact List.mem_cons_self
    | there hp _ ih =>
      cases l with
      | nil => cases hl
      | cons r l =>
        obtain ⟨he,c,hc,ht⟩ := hl
        cases he
        cases hc.symm.trans hp
        exact List.mem_cons_of_mem _ (ih ht)
  · intro hp
    induction l generalizing a with
    | nil => cases hp
    | cons q l ih =>
      obtain ⟨rfl,c,hc,ht⟩ := hl
      rcases List.mem_cons.mp hp with rfl | hp
      · exact .here hc
      · exact .there hc (ih ht hp)

theorem Chain.of_cons {c : α} (hl : Chain h next a (p::l)) (hp : h.read p = some c) :
    Chain h next (next c) l := by
  obtain ⟨_,d,hd,ht⟩ := hl
  rwa [Option.some.inj (hp.symm.trans hd)]

/-- The part of a list up to a cell is not changed by an assignment to that cell. -/
theorem Chain.before_modify (hl : Chain h next a (l₁++q::l₂)) (f : α → α) :
    Seg (h.modify q f) next a l₁ (some q) := by
  have hd := List.nodup_middle.mp hl.nodup
  obtain ⟨m,hs,rfl,_⟩ := hl.split
  apply hs.modify_of_notMem
  intro hq
  exact (List.nodup_cons.mp hd).1 (List.mem_append_left l₂ hq)

/-- `prev->next = item->next` takes `item` out of the list. -/
theorem Chain.unlink {c : α} (hl : Chain h next a (l₁++q::p::l₂)) (hp : h.read p = some c)
    {f : α → α} (hf : ∀ d, next (f d) = next c) : Chain (h.modify q f) next a (l₁++q::l₂) := by
  have hd := (List.nodup_cons.mp (List.nodup_middle.mp hl.nodup)).1
  have hb := hl.before_modify f
  obtain ⟨m,_,rfl,d,hq,hs⟩ := hl.split
  refine hb.append ⟨rfl,f d,?_,?_⟩
  · rw [read_modify_self,hq,Option.map_some]
  · rw [hf d]
    apply (Chain.of_cons hs hp).modify_of_notMem
    intro hm
    exact hd (List.mem_append_right l₁ (List.mem_cons_of_mem p hm))

/-- `prev->next = item` puts a last cell behind the last cell. -/
theorem Chain.link {c : α} (hl : Chain h next a (l++[q])) (hp : h.read p = some c)
    (hc : next c = none) (hn : p ≠ q) {f : α → α} (hf : ∀ d, next (f d) = some p) :
    Chain (h.modify q f) next a (l++[q]++[p]) := by
  have hb := hl.before_modify f
  obtain ⟨m,_,rfl,d,hq,_⟩ := hl.split
  rw [List.append_assoc]
  refine hb.append ⟨rfl,f d,?_,hf d,c,?_,hc⟩
  · rw [read_modify_self,hq,Option.map_some]
  · rw [read_modify_of_ne hn,hp]

/-- The cells met from `a` on, cut off after `fuel` of them. -/
def walk (h : Heap α) (next : α → Option Ptr) : ℕ → Option Ptr → List Ptr
  | 0,_ => []
  | _+1,none => []
  | fuel+1,some p =>
    match h.read p with
    | none => []
    | some c => p :: walk h next fuel (next c)

theorem Chain.walk_eq (hl : Chain h next a l) {fuel : ℕ} (hf : l.length ≤ fuel) :
    h.walk next fuel a = l := by
  induction l generalizing a fuel with
  | nil => cases (show a = none from hl); cases fuel <;> rfl
  | cons p l ih =>
    obtain ⟨rfl,c,hc,ht⟩ := hl
    cases fuel with
    | zero => simp at hf
    | succ fuel =>
      simp only [walk,hc]
      rw [ih ht (by simpa using hf)]

/-- The loop `while (item != NULL && !found(item)) { prev = item; item = item->next; }`.
It returns the final `(prev, item)`, and nothing when it dereferences a wild pointer or, after
more steps than there are cells, runs around a cycle forever. -/
def search (h : Heap α) (next : α → Option Ptr) (found : α → Bool) :
    ℕ → Option Ptr → Option Ptr → Option (Option Ptr × Option Ptr)
  | _,prev,none => some (prev,none)
  | 0,_,some _ => none
  | fuel+1,prev,some p =>
    match h.read p with
    | none => none
    | some c => if found c then some (prev,some p) else search h next found fuel (some p) (next c)

variable {found : α → Bool} {prev : Option Ptr} {fuel : ℕ}

theorem search_missing (hl : Chain h next a l) (hf : l.length ≤ fuel)
    (hm : ∀ q ∈ l, ∀ c, h.read q = some c → found c = false) :
    h.search next found fuel prev a = some (l.getLast?.or prev,none) := by
  induction l generalizing a prev fuel with
  | nil => cases (show a = none from hl); cases fuel <;> rfl
  | cons p l ih =>
    obtain ⟨rfl,c,hc,ht⟩ := hl
    cases fuel with
    | zero => simp at hf
    | succ fuel =>
      simp only [search,hc,hm p List.mem_cons_self c hc]
      rw [if_neg (by simp),ih ht (by simpa using hf) fun q hq => hm q (List.mem_cons_of_mem p hq)]
      cases hl : l.getLast? <;> simp [List.getLast?_cons,hl]

theorem search_found {c : α} (hl : Seg h next a l₁ (some p)) (hf : l₁.length < fuel)
    (hm : ∀ q ∈ l₁, ∀ d, h.read q = some d → found d = false)
    (hp : h.read p = some c) (hc : found c = true) :
    h.search next found fuel prev a = some (l₁.getLast?.or prev,some p) := by
  induction l₁ generalizing a prev fuel with
  | nil =>
    cases (show a = some p from hl)
    cases fuel with
    | zero => simp at hf
    | succ fuel => simp [search,hp,hc]
  | cons q l₁ ih =>
    obtain ⟨rfl,d,hd,ht⟩ := hl
    cases fuel with
    | zero => simp at hf
    | succ fuel =>
      simp only [search,hd,hm q List.mem_cons_self d hd]
      rw [if_neg (by simp),ih ht (by simpa using hf) fun r hr => hm r (List.mem_cons_of_mem q hr)]
      cases hl : l₁.getLast? <;> simp [List.getLast?_cons,hl]

end Heap
end CStudy.Foundation

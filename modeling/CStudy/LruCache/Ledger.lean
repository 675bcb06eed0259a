import CStudy.LruCache.Model
import Mathlib.Data.List.MinMax

/-! The cache without pointers: the linked items in the order of their insertion. Every bucket
chain is the part of this list that the hash places there, since a chain only grows at its end.
The hash then matters in two places: the order in which the eviction scan meets the items, and
whether the evicted item is the one a new item was to be linked behind. -/
namespace CStudy.LruCache

structure Entry where
  key : CString
  value : List UInt8
  valueLength : ℕ
  age : ℕ
  deriving DecidableEq

/-- The linked items with the two counters of the cache. -/
@[ext] structure Ledger where
  entries : List Entry
  currentEntries : ℕ
  age : ℕ
  distinct : (entries.map Entry.key).Nodup
  bounded : currentEntries < 2^64

namespace Ledger

/-- The items with the key `k`, of which there is at most one. -/
def lookup (a : Ledger) (k : CString) : Option Entry := a.entries.find? fun e => e.key = k

/-- The list holds the value `v` under the key `k`. -/
def Holds (a : Ledger) (k : CString) (v : List UInt8) (len : ℕ) : Prop :=
  ∃ e, a.lookup k = some e ∧ e.value = v ∧ e.valueLength = len

variable {a : Ledger} {k : CString} {e e' : Entry}

theorem eq_of_key (he : e ∈ a.entries) (he' : e' ∈ a.entries) (hk : e.key = e'.key) : e = e' :=
  List.inj_on_of_nodup_map a.distinct he he' hk

theorem lookup_eq_some : a.lookup k = some e ↔ e ∈ a.entries ∧ e.key = k := by
  constructor
  · intro h
    exact ⟨List.mem_of_find?_eq_some h,by simpa using List.find?_some h⟩
  · rintro ⟨he,rfl⟩
    cases hl : a.lookup e.key with
    | none => simpa using List.find?_eq_none.mp hl e he
    | some e' =>
      have hk : e'.key = e.key := by simpa using List.find?_some hl
      rw [a.eq_of_key (List.mem_of_find?_eq_some hl) he hk]

theorem lookup_eq_none : a.lookup k = none ↔ ∀ e ∈ a.entries, e.key ≠ k := by
  simp [lookup]

def empty (age : ℕ) : Ledger := ⟨[],0,age,List.nodup_nil,by norm_num⟩

@[simp] theorem entries_empty (age : ℕ) : (empty age).entries = [] := rfl
@[simp] theorem currentEntries_empty (age : ℕ) : (empty age).currentEntries = 0 := rfl
@[simp] theorem age_empty (age : ℕ) : (empty age).age = age := rfl

/-- Replace the contents of the item `k` and advance the age counter. -/
def amend (a : Ledger) (k : CString) (g : Entry → Entry) (hg : ∀ e, (g e).key = e.key) : Ledger where
  entries := a.entries.map fun e => if e.key = k then g e else e
  currentEntries := a.currentEntries
  age := incr64 a.age
  distinct := by
    have hk : Entry.key ∘ (fun e => if e.key = k then g e else e) = Entry.key := by
      funext e
      dsimp only [Function.comp_apply]
      split_ifs <;> simp [hg]
    rw [List.map_map,hk]
    exact a.distinct
  bounded := a.bounded

section Amend
variable {g : Entry → Entry} {hg : ∀ e, (g e).key = e.key}

@[simp] theorem currentEntries_amend : (a.amend k g hg).currentEntries = a.currentEntries := rfl
@[simp] theorem age_amend : (a.amend k g hg).age = incr64 a.age := rfl
@[simp] theorem length_amend : (a.amend k g hg).entries.length = a.entries.length :=
  List.length_map _

theorem mem_amend : e ∈ (a.amend k g hg).entries ↔
    ∃ x ∈ a.entries, (if x.key = k then g x else x) = e := List.mem_map

end Amend

/-- A successful `Get`: the item becomes the most recently used one. -/
def touch (a : Ledger) (k : CString) : Ledger :=
  a.amend k (fun e => { e with age := a.age }) fun _ => rfl

/-- A `Set` of a present key. -/
def overwrite (a : Ledger) (k : CString) (v : List UInt8) : Ledger :=
  a.amend k (fun e => { e with value := v, valueLength := v.length, age := a.age }) fun _ => rfl

/-- `Delete` takes the item out and does not count it out. -/
def erase (a : Ledger) (k : CString) : Ledger where
  entries := a.entries.filter fun e => e.key ≠ k
  currentEntries := a.currentEntries
  age := a.age
  distinct := a.distinct.sublist (List.filter_sublist.map Entry.key)
  bounded := a.bounded

/-- The entries that are left when one of them, if any, is evicted. -/
def without (es : List Entry) : Option Entry → List Entry
  | none => es
  | some w => es.filter fun e => e.key ≠ w.key

theorem without_sublist (es : List Entry) (w : Option Entry) : (without es w).Sublist es := by
  cases w with
  | none => exact List.Sublist.refl _
  | some w => exact List.filter_sublist

section Insert
variable (place : CString → ℕ) (n : ℕ)

/-- The chain of bucket `i`. -/
def bucket (es : List Entry) (i : ℕ) : List Entry := es.filter fun e => place e.key = i

/-- The items in the order the eviction scan meets them. -/
def scanOrder (es : List Entry) : List Entry := (List.range n).flatMap (bucket place es)

/-- The first item of least age, if its age is below the initial `least_age`. -/
def leastUsed (es : List Entry) : Option Entry :=
  ((scanOrder place n es).argmin Entry.age).filter fun e => e.age < intMax

/-- The item an inserting `Set` evicts. -/
def victim (a : Ledger) : Option Entry :=
  if n ≤ a.currentEntries then leastUsed place n a.entries else none

/-- The items an inserting `Set` keeps. -/
def kept (a : Ledger) : List Entry := without a.entries (a.victim place n)

/-- The item behind which `k` is to be linked is the one that is evicted. -/
def Loses (a : Ledger) (k : CString) : Prop :=
  ∃ w, a.victim place n = some w ∧ (bucket place a.entries (place k)).getLast? = some w

instance (a : Ledger) (k : CString) : Decidable (a.Loses place n k) :=
  match hv : a.victim place n with
  | none => isFalse (by rintro ⟨w,hw,_⟩; rw [hv] at hw; cases hw)
  | some w =>
    if hl : (bucket place a.entries (place k)).getLast? = some w then isTrue ⟨w,hv,hl⟩
    else isFalse (by rintro ⟨w',hw,hl'⟩; rw [hv] at hw; cases hw; exact hl hl')

theorem kept_sublist (a : Ledger) : (a.kept place n).Sublist a.entries := without_sublist _ _

/-- A `Set` of an absent key. The new item is counted even when it is linked behind an item
that is no longer in the table. -/
def insert (a : Ledger) (k : CString) (v : List UInt8) (hk : a.lookup k = none) : Ledger where
  entries :=
    if a.Loses place n k then a.kept place n else a.kept place n++[⟨k,v,v.length,a.age⟩]
  currentEntries :=
    if (a.victim place n).isSome then a.currentEntries else incr64 a.currentEntries
  age := incr64 a.age
  distinct := by
    have hd : ((a.kept place n).map Entry.key).Nodup :=
      a.distinct.sublist ((a.kept_sublist place n).map Entry.key)
    split_ifs
    · exact hd
    · rw [List.map_append,List.map_singleton,List.nodup_append]
      refine ⟨hd,List.nodup_singleton _,?_⟩
      intro x hx y hy hxy
      obtain ⟨e,he,rfl⟩ := List.mem_map.mp hx
      rw [List.mem_singleton] at hy
      exact lookup_eq_none.mp hk e ((a.kept_sublist place n).mem he) (hxy.trans hy)
  bounded := by
    split_ifs
    · exact a.bounded
    · exact Nat.mod_lt _ (by norm_num)

def set (a : Ledger) (k : CString) (v : List UInt8) : Ledger :=
  match hk : a.lookup k with
  | some _ => a.overwrite k v
  | none => a.insert place n k v hk

def step (a : Ledger) : Call → Ledger × Reply
  | .set k v => (a.set place n k v,.done)
  | .get k =>
    match a.lookup k with
    | some e => (a.touch k,.got .ok (some e.value) e.valueLength)
    | none => (a,.got .keyMissing none 0)
  | .delete k =>
    match a.lookup k with
    | some _ => (a.erase k,.deleted .ok)
    | none => (a,.deleted .keyMissing)

end Insert

section Lookup
variable {place : CString → ℕ} {n : ℕ} {j : CString} {v : List UInt8}

theorem mem_without {es : List Entry} {w : Option Entry} :
    e ∈ without es w ↔ e ∈ es ∧ ∀ x, w = some x → e.key ≠ x.key := by
  cases w with
  | none => simp [without]
  | some w => simp [without]

theorem lookup_amend {g : Entry → Entry} {hg : ∀ e, (g e).key = e.key} :
    (a.amend k g hg).lookup j = (a.lookup j).map fun e => if e.key = k then g e else e := by
  rw [lookup,lookup,amend,List.find?_map]
  congr 2
  funext e
  dsimp only [Function.comp_apply]
  split_ifs <;> simp [hg]

/-- What an overwriting `Set` or a `Get` changes is the item `k`. -/
theorem lookup_amend_self {g : Entry → Entry} {hg : ∀ e, (g e).key = e.key} :
    (a.amend k g hg).lookup k = (a.lookup k).map g := by
  rw [lookup_amend]
  cases h : a.lookup k with
  | none => rfl
  | some e => simp [(lookup_eq_some.mp h).2]

theorem lookup_amend_of_ne {g : Entry → Entry} {hg : ∀ e, (g e).key = e.key} (hj : j ≠ k) :
    (a.amend k g hg).lookup j = a.lookup j := by
  rw [lookup_amend]
  cases h : a.lookup j with
  | none => rfl
  | some e => simp [(lookup_eq_some.mp h).2,hj]

theorem lookup_erase_of_ne (hj : j ≠ k) : (a.erase k).lookup j = a.lookup j := by
  ext e
  rw [lookup_eq_some,lookup_eq_some,erase,List.mem_filter]
  constructor
  · rintro ⟨⟨he,_⟩,hk⟩; exact ⟨he,hk⟩
  · rintro ⟨he,rfl⟩; exact ⟨⟨he,by simpa using hj⟩,rfl⟩

theorem lookup_insert_self {hk : a.lookup k = none} :
    (a.insert place n k v hk).lookup k =
      if a.Loses place n k then none else some ⟨k,v,v.length,a.age⟩ := by
  split_ifs with hlose
  · rw [lookup_eq_none]
    intro e he
    simp only [insert,if_pos hlose] at he
    exact lookup_eq_none.mp hk e ((a.kept_sublist place n).mem he)
  · rw [lookup_eq_some]
    simp [insert,hlose]

/-- Another key survives an insert unless it is the victim's. -/
theorem lookup_insert_of_ne {hk : a.lookup k = none} (hj : j ≠ k) :
    (a.insert place n k v hk).lookup j =
      if (a.victim place n).map Entry.key = some j then none else a.lookup j := by
  have hmem : ∀ e, e.key = j → (e ∈ (a.insert place n k v hk).entries ↔ e ∈ a.kept place n) := by
    rintro e rfl
    dsimp only [insert]
    split_ifs
    · rfl
    · rw [List.mem_append,List.mem_singleton]
      constructor
      · rintro (he | rfl)
        · exact he
        · exact absurd rfl hj
      · exact Or.inl
  ext e
  rw [lookup_eq_some]
  split_ifs with hv
  · obtain ⟨w,hw,rfl⟩ := Option.map_eq_some_iff.mp hv
    simp only [iff_false,not_and]
    intro he hek
    rw [hmem e hek,kept,mem_without] at he
    exact he.2 w hw hek
  · rw [lookup_eq_some]
    constructor
    · rintro ⟨he,hek⟩
      rw [hmem e hek] at he
      exact ⟨(a.kept_sublist place n).mem he,hek⟩
    · rintro ⟨he,hek⟩
      rw [hmem e hek,kept,mem_without]
      refine ⟨⟨he,?_⟩,hek⟩
      intro w hw hew
      exact hv (by rw [hw,Option.map_some,← hew,hek])

theorem set_of_some (hk : a.lookup k = some e) : a.set place n k v = a.overwrite k v := by
  unfold set
  split
  · rfl
  · next h => cases hk.symm.trans h

theorem set_of_none (hk : a.lookup k = none) : a.set place n k v = a.insert place n k v hk := by
  unfold set
  split
  · next h => cases hk.symm.trans h
  · rfl

end Lookup
end Ledger
end CStudy.LruCache

import CStudy.Foundation.Text
import CStudy.LruCache.Recency

/-! `LRUCacheDump`, which walks over all chains and prints a line for each item. What it prints are
the entries of the list program in the order of the eviction scan, and as long as no key has a
newline in it, the entries can be read back. -/
namespace CStudy.LruCache
open CStudy.Foundation CStudy.Foundation.Text Ledger

/-- `item%zd key=%s age=%lu\n` -/
def dumpLine (num : ℕ) (key : CString) (age : ℕ) : List UInt8 :=
  ascii "item"++(decimal num++(ascii " key="++(key.val++(ascii " age="++(decimal age++[10])))))

/-- `num`, and what has been printed. -/
structure Dump where
  num : ℕ
  text : List UInt8

/-- `printf(.., num++, ..)` -/
def Dump.print (d : Dump) (key : CString) (age : ℕ) : Dump :=
  ⟨incr64 d.num,d.text++dumpLine d.num key age⟩

/-- The inner loop over a chain. -/
def dumpChain (heap : Heap LRUCacheItem) : ℕ → Option Ptr → Dump → Option Dump
  | _,none,d => some d
  | 0,some _,_ => none
  | fuel+1,some p,d =>
    match heap.read p with
    | none => none
    | some c => dumpChain heap fuel c.next (d.print c.key c.age)

/-- The outer loop over the buckets below `n`. -/
def dumpBuckets (s : State) : ℕ → Option Dump
  | 0 => some ⟨0,[]⟩
  | i+1 => do
    let d ← dumpBuckets s i
    dumpChain s.heap s.heap.top (s.cache.items i) d

def lruCacheDump (s : State) : Option (List UInt8) :=
  (dumpBuckets s s.cache.hashTableSize).map Dump.text

/-- The lines for the entries. -/
def dumpEntries (d : Dump) (es : List Entry) : Dump :=
  es.foldl (fun d e => d.print e.key e.age) d

/-- What they add to the text. -/
def dumpText : ℕ → List Entry → List UInt8
  | _,[] => []
  | num,e::es => dumpLine num e.key e.age++dumpText (incr64 num) es

section Printed
variable {place : CString → ℕ} {n : ℕ} {s : State} {es : List Entry} {ch : ℕ → List Ptr}

theorem dumpChain_eq {heap : Heap LRUCacheItem} {a : Option Ptr} {l : List Ptr}
    (hl : heap.Chain LRUCacheItem.next a l) (hes : l.map (entryAt heap) = es.map some) {fuel : ℕ}
    (hf : l.length ≤ fuel) (d : Dump) : dumpChain heap fuel a d = some (dumpEntries d es) := by
  induction l generalizing a es fuel d with
  | nil =>
    cases List.map_eq_nil_iff.mp hes.symm
    cases (show a = none from hl)
    cases fuel <;> rfl
  | cons p l ih =>
    obtain ⟨rfl,c,hc,ht⟩ := hl
    cases es with
    | nil => cases hes
    | cons e es =>
      obtain ⟨hp,hrest⟩ := List.cons_eq_cons.mp hes
      obtain rfl : toEntry c = e := Option.some.inj ((entryAt_of_read hc).symm.trans hp)
      cases fuel with
      | zero => simp at hf
      | succ fuel =>
        simp only [dumpChain,hc]
        exact ih ht hrest (by simpa using hf) _

theorem dumpBuckets_eq (hl : Layout place n s.heap s.cache.items es ch) {m : ℕ} (hm : m ≤ n) :
    dumpBuckets s m = some (dumpEntries ⟨0,[]⟩ ((List.range m).flatMap (bucket place es))) := by
  induction m with
  | zero => rfl
  | succ m ih =>
    rw [dumpBuckets,ih (by omega)]
    have hchain := hl.chain m (by omega)
    simp only [Option.bind_eq_bind,Option.bind_some,List.range_succ,List.flatMap_append,
      List.flatMap_singleton]
    rw [dumpChain_eq hchain (hl.shows m (by omega)) hchain.length_le_top,dumpEntries,dumpEntries,
      dumpEntries,List.foldl_append]

theorem text_dumpEntries (d : Dump) (es : List Entry) :
    (dumpEntries d es).text = d.text++dumpText d.num es := by
  induction es generalizing d with
  | nil => simp [dumpEntries,dumpText]
  | cons e es ih =>
    rw [dumpText,← List.append_assoc]
    exact ih (d.print e.key e.age)

theorem lruCacheDump_eq {seed : Int64} {a : Ledger} (hr : Rep n seed s a) :
    lruCacheDump s = some (dumpText 0 (scanOrder (placeOf seed n) n a.entries)) := by
  obtain ⟨ch,hl⟩ := hr.layout
  rw [lruCacheDump,hr.hashTableSize,dumpBuckets_eq hl le_rfl,Option.map_some,text_dumpEntries]
  rfl

end Printed

section Shown
variable {past : List (Call × Reply)} {k : CString} {i j : ℕ}

theorem LastTouch.unique (hi : LastTouch past k i) (hj : LastTouch past k j) : i = j := by
  obtain ⟨⟨x,hx,hxk⟩,hilast⟩ := hi
  obtain ⟨⟨y,hy,hyk⟩,hjlast⟩ := hj
  rcases lt_trichotomy i j with hlt | heq | hgt
  · exact absurd hyk (hilast j y hlt hy)
  · exact heq
  · exact absurd hxk (hjlast i x hgt hx)

/-- The ages of two entries stand in the order of their last touches. -/
theorem Ledger.Dated.age_lt_iff {a : Ledger} {e e' : Entry} (hd : Dated past a) (he : e ∈ a.entries)
    (he' : e' ∈ a.entries) (hi : LastTouch past e.key i) (hj : LastTouch past e'.key j) :
    e.age < e'.age ↔ i < j := by
  refine ⟨fun hlt => hd.ordered e he e' he' hlt i j hi hj,fun hij => ?_⟩
  by_contra hle
  rcases (Nat.le_of_not_lt hle).lt_or_eq with hlt | heq
  · have hji := hd.ordered e' he' e he hlt j i hj hi
    omega
  · have hsame := hd.distinct e' he' e he heq
    subst hsame
    exact hij.ne (hi.unique hj)

/-- In every state reached in fewer than `2^64` calls, `LRUCacheDump` prints one line for each key that
is present, numbered from zero, and the printed ages are in the order in which the keys were last
set or successfully got. -/
theorem lruCacheDump_shows (n : ℕ) (hn : 1 ≤ n) (seed : Int64) (calls : List Call)
    (hlen : calls.length < 2^64) :
    ∃ s replies shown, Machine.run step (lruCacheNew n seed .zeroed) calls = some (s,replies) ∧
      lruCacheDump s = some (dumpText 0 shown) ∧ (shown.map Entry.key).Nodup ∧
      (∀ k, Present s k ↔ k ∈ shown.map Entry.key) ∧
      ∀ e ∈ shown, ∀ e' ∈ shown, ∃ i i', LastTouch (calls.zip replies) e.key i ∧
        LastTouch (calls.zip replies) e'.key i' ∧ (e.age < e'.age ↔ i < i') := by
  obtain ⟨s,hrun,hr⟩ := run_new hn seed calls
  have hperm := scanOrder_perm (a := (ledgerAfter n seed calls).1) (placeOf_lt seed hn)
  refine ⟨s,_,_,hrun,lruCacheDump_eq hr,?_,fun k => ?_,fun e he e' he' => ?_⟩
  · exact (hperm.map Entry.key).nodup_iff.mpr (Ledger.distinct _)
  · rw [hr.present_iff hn,(hperm.map Entry.key).mem_iff,List.mem_map]
    simp only [lookup_eq_some]
  · have hd := dated_drive (placeOf seed n) n calls hlen
    have hmem := hperm.mem_iff.mp he
    have hmem' := hperm.mem_iff.mp he'
    obtain ⟨i,hi⟩ := hd.touched e hmem
    obtain ⟨i',hi'⟩ := hd.touched e' hmem'
    exact ⟨i,i',hi,hi',hd.age_lt_iff hmem hmem' hi hi'⟩

theorem lruCacheDump_shows_test : ∃ s replies shown,
    Machine.run step (lruCacheNew 2 0 .zeroed) [.set key1 [1],.set key2 [2],.get key1] =
      some (s,replies) ∧ lruCacheDump s = some (dumpText 0 shown) ∧ (shown.map Entry.key).Nodup ∧
    (∀ k, Present s k ↔ k ∈ shown.map Entry.key) := by
  obtain ⟨s,replies,shown,hrun,hdump,hnodup,hpresent,_⟩ :=
    lruCacheDump_shows 2 (by decide) 0 [.set key1 [1],.set key2 [2],.get key1] (by decide)
  exact ⟨s,replies,shown,hrun,hdump,hnodup,hpresent⟩

end Shown

section ReadBack

/-- A line without its newline. -/
def dumpRow (num : ℕ) (key : CString) (age : ℕ) : List UInt8 :=
  ascii "item"++(decimal num++(ascii " key="++((key.val++ascii " age")++61::decimal age)))

theorem dumpLine_eq (num : ℕ) (key : CString) (age : ℕ) (rest : List UInt8) :
    dumpLine num key age++rest = dumpRow num key age++10::rest := by
  have hage : ascii " age=" = ascii " age"++[61] := by decide
  simp [dumpLine,dumpRow,hage]

theorem newline_notMem_dumpRow {num age : ℕ} {key : CString} (hkey : 10 ∉ key.val) :
    10 ∉ dumpRow num key age := by
  have hdecimal : ∀ m, 10 ∉ decimal m := fun m => notMem_decimal (by decide)
  simp only [dumpRow,List.mem_append,List.mem_cons,not_or]
  exact ⟨by decide,hdecimal num,by decide,⟨hkey,by decide⟩,by decide,hdecimal age⟩

theorem dumpRow_inj {num age age' : ℕ} {key key' : CString}
    (h : dumpRow num key age = dumpRow num key' age') : key = key' ∧ age = age' := by
  rw [dumpRow,dumpRow,List.append_cancel_left_eq,List.append_cancel_left_eq,
    List.append_cancel_left_eq] at h
  -- no digit is an equals sign, so that the last one stands before the age
  have hsign : ∀ m, 61 ∉ decimal m := fun m => notMem_decimal (by decide)
  obtain ⟨hkey,hage⟩ := append_cons_inj (hsign age) (hsign age') h
  exact ⟨Subtype.ext (List.append_cancel_right hkey),decimal_injective hage⟩

/-- The lines determine the entries they were printed for. -/
theorem dumpText_inj {num : ℕ} {es es' : List Entry} (hes : ∀ e ∈ es, 10 ∉ e.key.val)
    (hes' : ∀ e ∈ es', 10 ∉ e.key.val) (h : dumpText num es = dumpText num es') :
    es.map (fun e => (e.key,e.age)) = es'.map fun e => (e.key,e.age) := by
  have hline : ∀ num key age rest, dumpLine num key age++rest ≠ [] := by
    intro num key age rest heq
    rw [dumpLine_eq] at heq
    simp at heq
  induction es generalizing num es' with
  | nil =>
    cases es' with
    | nil => rfl
    | cons e' es' => exact absurd h.symm (hline _ _ _ _)
  | cons e es ih =>
    cases es' with
    | nil => exact absurd h (hline _ _ _ _)
    | cons e' es' =>
      rw [List.forall_mem_cons] at hes hes'
      rw [dumpText,dumpText,dumpLine_eq,dumpLine_eq] at h
      have hrow := congrArg (firstLine 10) h
      have hrest := congrArg (afterLine 10) h
      rw [firstLine_append_cons (newline_notMem_dumpRow hes.1),
        firstLine_append_cons (newline_notMem_dumpRow hes'.1)] at hrow
      rw [afterLine_append_cons (newline_notMem_dumpRow hes.1),
        afterLine_append_cons (newline_notMem_dumpRow hes'.1)] at hrest
      obtain ⟨hkey,hage⟩ := dumpRow_inj hrow
      rw [List.map_cons,List.map_cons,hkey,hage,ih hes.2 hes'.2 hrest]

/-- A linked item has this key and this age. -/
def Ages (s : State) (k : CString) (age : ℕ) : Prop :=
  ∃ p c, Linked s p ∧ s.heap.read p = some c ∧ c.key = k ∧ c.age = age

variable {n : ℕ} {seed : Int64} {s : State} {a : Ledger}

theorem Rep.ages_iff (hr : Rep n seed s a) (hn : 0 < n) (k : CString) (age : ℕ) :
    Ages s k age ↔
      (k,age) ∈ (scanOrder (placeOf seed n) n a.entries).map fun e => (e.key,e.age) := by
  rw [List.mem_map,Ages]
  simp only [Prod.mk.injEq,(scanOrder_perm (placeOf_lt seed hn)).mem_iff]
  exact hr.linked_entry hn fun e => e.key = k ∧ e.age = age

/-- Two caches that print the same, none of whose keys has a newline in it, have the same keys with
the same ages, whatever their sizes, their seeds and the calls made of them. -/
theorem lruCacheDump_read_back (n n' : ℕ) (hn : 1 ≤ n) (hn' : 1 ≤ n') (seed seed' : Int64)
    (calls calls' : List Call) {s s' : State} {replies replies' : List Reply}
    (hrun : Machine.run step (lruCacheNew n seed .zeroed) calls = some (s,replies))
    (hrun' : Machine.run step (lruCacheNew n' seed' .zeroed) calls' = some (s',replies'))
    (hkeys : ∀ k, Present s k → 10 ∉ k.val) (hkeys' : ∀ k, Present s' k → 10 ∉ k.val)
    (hsame : lruCacheDump s = lruCacheDump s') (k : CString) (age : ℕ) :
    Ages s k age ↔ Ages s' k age := by
  obtain ⟨hr,_⟩ := rep_of_run hn hrun
  obtain ⟨hr',_⟩ := rep_of_run hn' hrun'
  have hfree : ∀ {n : ℕ} {seed : Int64} {s : State} {a : Ledger}, 0 < n → Rep n seed s a →
      (∀ k, Present s k → 10 ∉ k.val) →
      ∀ e ∈ scanOrder (placeOf seed n) n a.entries, 10 ∉ e.key.val := by
    intro n seed s a hn hr hkeys e he
    have hmem := (scanOrder_perm (placeOf_lt seed hn)).mem_iff.mp he
    exact hkeys e.key ((hr.present_iff hn).mpr ⟨e,lookup_eq_some.mpr ⟨hmem,rfl⟩⟩)
  rw [lruCacheDump_eq hr,lruCacheDump_eq hr',Option.some.injEq] at hsame
  rw [hr.ages_iff hn,hr'.ages_iff hn',dumpText_inj (hfree hn hr hkeys) (hfree hn' hr' hkeys') hsame]

/-- Caches of different sizes in which different values have been set under one key. -/
theorem lruCacheDump_read_back_test : ∃ s s' replies replies',
    Machine.run step (lruCacheNew 1 0 .zeroed) [.set key1 [1]] = some (s,replies) ∧
    Machine.run step (lruCacheNew 2 5 .zeroed) [.set key1 [2,3]] = some (s',replies') ∧
    ∀ k age, Ages s k age ↔ Ages s' k age := by
  obtain ⟨s,hrun,hr⟩ := run_new (n := 1) (by decide) 0 [.set key1 [1]]
  obtain ⟨s',hrun',hr'⟩ := run_new (n := 2) (by decide) 5 [.set key1 [2,3]]
  have hkey : ∀ {n : ℕ} {seed : Int64} {s : State} {a : Ledger}, 0 < n → Rep n seed s a →
      (∀ e ∈ a.entries, 10 ∉ e.key.val) → ∀ k, Present s k → 10 ∉ k.val := by
    intro n seed s a hn hr hfree k hk
    obtain ⟨e,he⟩ := (hr.present_iff hn).mp hk
    obtain ⟨hmem,rfl⟩ := lookup_eq_some.mp he
    exact hfree e hmem
  have hsame : lruCacheDump s = lruCacheDump s' := by
    rw [lruCacheDump_eq hr,lruCacheDump_eq hr']
    decide
  exact ⟨s,s',_,_,hrun,hrun',lruCacheDump_read_back 1 2 (by decide) (by decide) 0 5 _ _ hrun hrun'
    (hkey (by decide) hr (by decide)) (hkey (by decide) hr' (by decide)) hsame⟩

/-- A newline in a key makes two lines of one. -/
example : dumpText 0 [⟨⟨[49],by decide⟩,[],0,0⟩,⟨⟨[50],by decide⟩,[],0,1⟩] =
    dumpText 0 [⟨⟨[49]++ascii " age=0\nitem1 key=2",by decide⟩,[],0,1⟩] := by decide

end ReadBack

end CStudy.LruCache

import CStudy.WordCount.Model

/-! When `do_wc` ends. It stops at the first end of the file, and goes on reading behind every
failure. -/
namespace CStudy.WordCount
open CStudy.Foundation
open CStudy.Foundation.File (newline)

def ReadResult.bytes : ReadResult → List UInt8
  | .chunk bytes _ => bytes
  | _ => []

/-- There is nothing to read any more: the end of the file, or a failure that is no interruption. -/
def ReadResult.Ends (r : ReadResult) : Prop := r = .endOfFile ∨ r = .failed

/-- What a number of calls have delivered, from one of them on. -/
def Reads.deliveredFrom (reads : Reads) (next count : ℕ) : List UInt8 :=
  (List.range' next count).flatMap fun i => (reads i).bytes

/-- What the first calls have delivered. -/
def Reads.delivered (reads : Reads) (count : ℕ) : List UInt8 := reads.deliveredFrom 0 count

/-- The first call that finds nothing to read any more. -/
structure Reads.FirstEnd (reads : Reads) (k : ℕ) : Prop where
  ends : (reads k).Ends
  before : ∀ i < k, ¬ (reads i).Ends

section Counting
variable {reads : Reads} {fuel next d : ℕ} {lines : UInt64} {c : Counted}

theorem countLines_eq (bytes : List UInt8) (lines : UInt64) :
    countLines bytes lines = lines+UInt64.ofNat (bytes.count newline) := by
  induction bytes generalizing lines with
  | nil => simp [countLines]
  | cons b bytes ih =>
    have hcons : countLines (b::bytes) lines =
        countLines bytes (if b = newline then lines+1 else lines) := rfl
    rw [hcons,ih]
    split_ifs with hb
    · rw [hb,List.count_cons_self,Nat.add_comm,UInt64.ofNat_add,← UInt64.add_assoc]
      rfl
    · rw [List.count_cons_of_ne hb]

theorem Reads.count_deliveredFrom_succ :
    UInt64.ofNat ((reads.deliveredFrom next (d+1)).count newline) =
      UInt64.ofNat ((reads next).bytes.count newline)+
        UInt64.ofNat ((reads.deliveredFrom (next+1) d).count newline) := by
  rw [Reads.deliveredFrom,List.range'_succ,List.flatMap_cons,List.count_append,UInt64.ofNat_add]
  rfl

theorem Reads.delivered_succ :
    reads.delivered (d+1) = reads.delivered d++(reads d).bytes := by
  simp [Reads.delivered,Reads.deliveredFrom,List.range'_1_concat]

theorem doWc_end (h : reads next = .endOfFile) :
    doWc reads (fuel+1) next lines = some ⟨next+1,lines,[]⟩ := by rw [doWc,h]

/-- Every other result makes `do_wc` go on. -/
theorem doWc_next (fuel : ℕ) (lines : UInt64) (h : reads next ≠ .endOfFile) :
    ∃ messages, doWc reads (fuel+1) next lines =
      (doWc reads fuel (next+1)
        (lines+UInt64.ofNat ((reads next).bytes.count newline))).map fun c =>
          { c with stderr := messages++c.stderr } := by
  rw [doWc]
  cases hread : reads next with
  | interrupted => exact ⟨[],by simp [ReadResult.bytes]⟩
  | failed => exact ⟨["read"],by simp [ReadResult.bytes]⟩
  | endOfFile => exact absurd hread h
  | chunk bytes size => exact ⟨[],by simp [ReadResult.bytes,countLines_eq]⟩

/-- Where `do_wc` stops there is the end of the file, and it has counted what was delivered before. -/
theorem doWc_eq_some (h : doWc reads fuel next lines = some c) :
    ∃ d, reads (next+d) = .endOfFile ∧ c.reads = next+d+1 ∧
      c.lines = lines+UInt64.ofNat ((reads.deliveredFrom next d).count newline) := by
  induction fuel generalizing next lines c with
  | zero => cases h
  | succ fuel ih =>
    by_cases hread : reads next = .endOfFile
    · rw [doWc_end hread] at h
      cases h
      exact ⟨0,hread,rfl,by simp [Reads.deliveredFrom]⟩
    · obtain ⟨messages,hnext⟩ := doWc_next fuel lines hread
      rw [hnext,Option.map_eq_some_iff] at h
      obtain ⟨c,hc,rfl⟩ := h
      obtain ⟨d,hend,hreads,hlines⟩ := ih hc
      refine ⟨d+1,?_,?_,?_⟩
      · rwa [Nat.add_comm d,← Nat.add_assoc]
      · rw [hreads]
        omega
      · rw [hlines,Reads.count_deliveredFrom_succ,UInt64.add_assoc]

/-- `do_wc` stops at the first end of the file. -/
theorem doWc_isSome (hend : reads (next+d) = .endOfFile)
    (hgo : ∀ i, next ≤ i → i < next+d → reads i ≠ .endOfFile) :
    ∃ c, doWc reads (d+1) next lines = some c ∧ c.reads = next+d+1 := by
  induction d generalizing next lines with
  | zero => exact ⟨_,doWc_end hend,rfl⟩
  | succ d ih =>
    obtain ⟨messages,hnext⟩ := doWc_next (d+1) lines (hgo next le_rfl (by omega))
    have hend' : reads (next+1+d) = .endOfFile := by
      rw [Nat.add_right_comm]
      exact hend
    obtain ⟨c,hc,hreads⟩ := ih hend' fun i hle hlt => hgo i (by omega) (by omega)
    refine ⟨_,by rw [hnext,hc,Option.map_some],?_⟩
    rw [hreads]
    omega

variable {k : ℕ}

/-- What `do_wc` returns when it has stopped at some call. -/
theorem lines_of_doWc (hc : doWc reads fuel 0 0 = some c) (hreads : c.reads = k+1) :
    reads k = .endOfFile ∧ c.lines.toNat = (reads.delivered k).count newline%2^64 := by
  obtain ⟨d,hend,hd,heq⟩ := doWc_eq_some hc
  obtain rfl : d = k := by omega
  rw [Nat.zero_add] at hend
  refine ⟨hend,?_⟩
  rw [heq,UInt64.zero_add,UInt64.toNat_ofNat']
  rfl

theorem doWc_of_firstEnd (h : reads.FirstEnd k) (hend : reads k = .endOfFile) :
    ∃ c, doWc reads (k+1) 0 0 = some c ∧ c.reads = k+1 ∧
      c.lines.toNat = (reads.delivered k).count newline%2^64 := by
  obtain ⟨c,hc,hreads⟩ : ∃ c, doWc reads (k+1) 0 0 = some c ∧ c.reads = 0+k+1 := by
    refine doWc_isSome (by rwa [Nat.zero_add]) ?_
    intro i _ hi heq
    exact h.before i (by omega) (.inl heq)
  rw [Nat.zero_add] at hreads
  exact ⟨c,hc,hreads,(lines_of_doWc hc hreads).2⟩

end Counting

/-- Of every sequence of reads with a first end or failure: `do_wc` stops there with the number of
newlines delivered before exactly if it is the end of the file and this number fits into a `size_t`. -/
theorem doWc_stops_iff (reads : Reads) (k : ℕ) (h : reads.FirstEnd k) :
    (∃ fuel c, doWc reads fuel 0 0 = some c ∧ c.reads = k+1 ∧
        c.lines.toNat = (reads.delivered k).count newline) ↔
      reads k = .endOfFile ∧ (reads.delivered k).count newline < 2^64 := by
  constructor
  · rintro ⟨fuel,c,hc,hreads,hcount⟩
    obtain ⟨hend,hmod⟩ := lines_of_doWc hc hreads
    refine ⟨hend,?_⟩
    omega
  · rintro ⟨hend,hlt⟩
    obtain ⟨c,hc,hreads,hcount⟩ := doWc_of_firstEnd h hend
    rw [Nat.mod_eq_of_lt hlt] at hcount
    exact ⟨k+1,c,hc,hreads,hcount⟩

/-- Two lines in two chunks, with an interruption between them. -/
def twoChunks : Reads
  | 0 => .chunk [97,10] (by decide)
  | 1 => .interrupted
  | 2 => .chunk [98,10] (by decide)
  | _ => .endOfFile

theorem twoChunks_firstEnd : twoChunks.FirstEnd 3 := by
  refine ⟨.inl rfl,?_⟩
  intro i hi
  interval_cases i <;> simp [ReadResult.Ends,twoChunks]

theorem doWc_stops_iff_test :
    (∃ fuel c, doWc twoChunks fuel 0 0 = some c ∧ c.reads = 4 ∧
        c.lines.toNat = (twoChunks.delivered 3).count newline) ↔
      twoChunks 3 = .endOfFile ∧ (twoChunks.delivered 3).count newline < 2^64 :=
  doWc_stops_iff twoChunks 3 twoChunks_firstEnd

/-- A directory can be opened, but every `read` fails. -/
def directory : Reads := fun _ => .failed

theorem doWc_directory (fuel next : ℕ) (lines : UInt64) : doWc directory fuel next lines = none := by
  cases h : doWc directory fuel next lines with
  | none => rfl
  | some c =>
    obtain ⟨d,hend,_⟩ := doWc_eq_some h
    cases hend

/-- `do_wc` never comes back from a directory, where the first read has failed. -/
theorem directory_never_stops :
    directory.FirstEnd 0 ∧ ¬ ∃ fuel c, doWc directory fuel 0 0 = some c := by
  refine ⟨⟨.inr rfl,fun i hi => absurd hi (Nat.not_lt_zero i)⟩,?_⟩
  rintro ⟨fuel,c,hc⟩
  rw [doWc_directory] at hc
  cases hc

end CStudy.WordCount

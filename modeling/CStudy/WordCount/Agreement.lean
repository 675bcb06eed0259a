import CStudy.WordCount.Ending

/-! Whether `wc` and `wc2` count the same lines. How `read` splits the file does not matter, but the
counter of `wc2` has only 32 bits. -/
namespace CStudy.WordCount
open CStudy.Foundation
open CStudy.Foundation.File (newline)

/-- The calls of `read` deliver these bytes, and then the end of the file. -/
structure Reads.Delivers (reads : Reads) (data : List UInt8) (k : ℕ) : Prop where
  firstEnd : reads.FirstEnd k
  endOfFile : reads k = .endOfFile
  delivered : reads.delivered k = data

theorem wc2Lines_opened (data : List UInt8) (damaged : Bool) (lines : Int32) :
    wc2Lines (.opened data damaged) lines = lines+Int32.ofNat (data.count newline) := by
  induction data generalizing lines with
  | nil =>
    rw [wc2Lines,File.fgetc_opened_nil,if_pos rfl]
    simp
  | cons c data ih =>
    rw [wc2Lines,File.fgetc_opened_cons,if_neg (byte_ne_endOfFile c),ih]
    by_cases hc : c = newline
    · rw [if_pos (by rw [hc]),hc,List.count_cons_self,Nat.add_comm,Int32.ofNat_add,← Int32.add_assoc]
      rfl
    · have hne : ¬ ((c.toNat : ℤ) = newline.toNat) := by
        intro heq
        exact hc (UInt8.toNat_inj.mp (by exact_mod_cast heq))
      rw [if_neg hne,List.count_cons_of_ne hc]

theorem toInt_wc2Lines_eq_iff (data : List UInt8) :
    (wc2Lines (.opened data false) 0).toInt = data.count newline ↔ data.count newline < 2^31 := by
  rw [wc2Lines_opened,Int32.zero_add]
  constructor
  · intro heq
    have hlt := Int32.toInt_lt (Int32.ofNat (data.count newline))
    rw [heq] at hlt
    exact_mod_cast hlt
  · exact Int32.toInt_ofNat_of_lt

/-- For every file of fewer than `2^63` bytes, however it is split: both programs count its newlines
exactly if there are fewer than `2^31` of them. -/
theorem wc_agrees_iff (data : List UInt8) (reads : Reads) (k : ℕ) (hdata : data.length < 2^63)
    (hreads : reads.Delivers data k) :
    (∃ fuel c, doWc reads fuel 0 0 = some c ∧
        (c.lines.toNat : ℤ) = (wc2Lines (.opened data false) 0).toInt ∧
        c.lines.toNat = data.count newline ∧
        (wc2Lines (.opened data false) 0).toInt = data.count newline) ↔
      data.count newline < 2^31 := by
  rw [← toInt_wc2Lines_eq_iff]
  constructor
  · rintro ⟨fuel,c,_,_,_,heq⟩
    exact heq
  · intro heq
    obtain ⟨c,hc,_,hcount⟩ := doWc_of_firstEnd hreads.firstEnd hreads.endOfFile
    have hle := List.count_le_length (a := newline) (l := data)
    rw [hreads.delivered,Nat.mod_eq_of_lt (by omega)] at hcount
    exact ⟨k+1,c,hc,by rw [hcount,heq],hcount,heq⟩

theorem wc_agrees_iff_test :
    (∃ fuel c, doWc twoChunks fuel 0 0 = some c ∧
        (c.lines.toNat : ℤ) = (wc2Lines (.opened [97,10,98,10] false) 0).toInt ∧
        c.lines.toNat = [97,10,98,10].count newline ∧
        (wc2Lines (.opened [97,10,98,10] false) 0).toInt = [97,10,98,10].count newline) ↔
      [97,10,98,10].count newline < 2^31 :=
  wc_agrees_iff [97,10,98,10] twoChunks 3 (by decide) ⟨twoChunks_firstEnd,rfl,rfl⟩

/-- A file of `2^31` newlines, read in blocks of 4096 bytes. -/
def manyLines : List UInt8 := List.replicate (2^31) newline

def manyBlocks : Reads := fun i =>
  if i < 2^19 then .chunk (List.replicate 4096 newline) (by rw [List.length_replicate]; decide)
  else .endOfFile

theorem delivered_manyBlocks {d : ℕ} (hd : d ≤ 2^19) :
    manyBlocks.delivered d = List.replicate (d*4096) newline := by
  induction d with
  | zero => rfl
  | succ d ih =>
    have hbytes : (manyBlocks d).bytes = List.replicate 4096 newline := by
      rw [manyBlocks,if_pos (Nat.lt_of_succ_le hd)]
      rfl
    rw [Reads.delivered_succ,ih (Nat.le_of_succ_le hd),hbytes,List.replicate_append_replicate,
      Nat.succ_mul]

theorem manyBlocks_delivers : manyBlocks.Delivers manyLines (2^19) := by
  refine ⟨⟨.inl (if_neg (lt_irrefl _)),?_⟩,if_neg (lt_irrefl _),?_⟩
  · intro i hi
    rw [manyBlocks,if_pos hi]
    rintro (h | h) <;> cases h
  · rw [delivered_manyBlocks le_rfl,manyLines]
    norm_num

theorem wc2_overflows : manyLines.length < 2^63 ∧ manyBlocks.Delivers manyLines (2^19) ∧
    manyLines.count newline = 2147483648 ∧
    (wc2Lines (.opened manyLines false) 0).toInt = -2147483648 := by
  refine ⟨?_,manyBlocks_delivers,List.count_replicate_self,?_⟩
  · rw [manyLines,List.length_replicate]
    decide
  · rw [wc2Lines_opened,manyLines,List.count_replicate_self]
    decide

end CStudy.WordCount

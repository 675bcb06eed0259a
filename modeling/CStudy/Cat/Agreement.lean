import CStudy.Cat.Model

/-! Where the two programs agree. `cat4` takes a write of no bytes for an error. The last block of a
file has no bytes exactly if the length of the file is a multiple of the block size. -/
namespace CStudy.Cat
open CStudy.Foundation

section Files
variable {data stdout : List UInt8}

theorem doCat_opened (data stdout : List UInt8) :
    doCat (.opened data false) stdout = stdout++data := by
  induction data generalizing stdout with
  | nil => rw [doCat,File.fgetc_opened_nil,if_pos rfl,List.append_nil]
  | cons c data ih =>
    rw [doCat,File.fgetc_opened_cons,if_neg (byte_ne_endOfFile c),fputc_byte,ih,List.append_assoc,
      List.singleton_append]

/-- A block that is not the last one. -/
theorem cat4File_of_le (h : 1024 ≤ data.length) :
    cat4File (.opened data false) stdout =
      cat4File (.opened (data.drop 1024) false) (stdout++data.take 1024) := by
  have hne : ¬ (data.take 1024).length = 0 := by
    rw [List.length_take]
    omega
  rw [cat4File,File.fread_opened_of_le h]
  simp only [fwrite,hne,File.error_opened,File.eof_opened,Bool.false_eq_true,if_false]

/-- The last block. -/
theorem cat4File_of_lt (h : data.length < 1024) :
    cat4File (.opened data false) stdout =
      if data.length = 0 then .error ⟨1,stdout++data,["fwrite"]⟩ else .ok (stdout++data) := by
  rw [cat4File,File.fread_opened_of_lt h]
  simp [fwrite]

/-- All blocks of a file are printed, and the program ends with them if the last one is empty. -/
theorem cat4File_opened (data stdout : List UInt8) :
    cat4File (.opened data false) stdout =
      if data.length%1024 = 0 then .error ⟨1,stdout++data,["fwrite"]⟩ else .ok (stdout++data) := by
  induction hlen : data.length/1024 generalizing data stdout with
  | zero =>
    have hlt : data.length < 1024 := by omega
    rw [cat4File_of_lt hlt,Nat.mod_eq_of_lt hlt]
  | succ blocks ih =>
    have hle : 1024 ≤ data.length := by omega
    have hmod : (data.drop 1024).length%1024 = data.length%1024 := by
      rw [List.length_drop]
      omega
    have hdiv : (data.drop 1024).length/1024 = blocks := by
      rw [List.length_drop]
      omega
    rw [cat4File_of_le hle,ih _ _ hdiv,hmod,List.append_assoc,List.take_append_drop]

end Files

section Programs
variable {fs : FileSystem} {names files : List (List UInt8)}

/-- These are the contents of the files, and they can be read. -/
def Readable (fs : FileSystem) (names files : List (List UInt8)) : Prop :=
  names.map fs = files.map fun data => some (.opened data false)

theorem Readable.cons {name : List UInt8} (h : Readable fs (name::names) files) :
    ∃ data files', files = data::files' ∧ fs name = some (.opened data false) ∧
      Readable fs names files' := by
  cases files with
  | nil => simp [Readable] at h
  | cons data files =>
    rw [Readable,List.map_cons,List.map_cons] at h
    obtain ⟨hname,hnames⟩ := List.cons.inj h
    exact ⟨data,files,rfl,hname,hnames⟩

theorem cat2Files_eq (h : Readable fs names files) (stdout : List UInt8) :
    cat2Files fs names stdout = ⟨0,stdout++files.flatten,[]⟩ := by
  induction names generalizing files stdout with
  | nil =>
    obtain rfl : files = [] := by simpa [Readable] using h
    simp [cat2Files]
  | cons name names ih =>
    obtain ⟨data,files,rfl,hname,hnames⟩ := h.cons
    simp only [cat2Files,hname]
    rw [doCat_opened,ih hnames,List.flatten_cons,List.append_assoc]

/-- A file whose last block is empty ends the program, and the files behind it are not printed. -/
theorem cat4Files_eq_iff (h : Readable fs names files) (stdout : List UInt8) :
    (cat4Files fs names stdout).status = 0 ∧
        (cat4Files fs names stdout).stdout = stdout++files.flatten ↔
      ∀ data ∈ files, data.length%1024 ≠ 0 := by
  induction names generalizing files stdout with
  | nil =>
    obtain rfl : files = [] := by simpa [Readable] using h
    simp [cat4Files]
  | cons name names ih =>
    obtain ⟨data,files,rfl,hname,hnames⟩ := h.cons
    simp only [cat4Files,hname,cat4File_opened]
    by_cases hmod : data.length%1024 = 0
    · simp [hmod]
    · rw [if_neg hmod,List.forall_mem_cons,and_iff_right hmod,← ih hnames (stdout++data),
        List.flatten_cons,List.append_assoc]

end Programs

/-- For every list of files that can be read: the two programs print the files one after another and
exit with 0, exactly if the length of no file is a multiple of 1024. -/
theorem cat4_agrees_iff (fs : FileSystem) (stdin : File) (names files : List (List UInt8))
    (hne : names ≠ []) (h : Readable fs names files) :
    ((cat4 fs names).stdout = files.flatten ∧ (cat4 fs names).status = 0 ∧
        (cat2 fs stdin names).stdout = files.flatten ∧ (cat2 fs stdin names).status = 0) ↔
      ∀ data ∈ files, data.length%1024 ≠ 0 := by
  have hlen : ¬ names.length+1 < 2 := by
    have hpos := List.length_pos_of_ne_nil hne
    omega
  have hcat2 : cat2 fs stdin names = ⟨0,files.flatten,[]⟩ := by
    rw [cat2,if_neg hlen,cat2Files_eq h,List.nil_append]
  have hcat4 := cat4Files_eq_iff h []
  rw [List.nil_append] at hcat4
  rw [hcat2,← hcat4,cat4]
  simp [and_comm]

/-- A directory with a file of two bytes under the name `"a"` and one without bytes under `"b"`. -/
def twoFiles : FileSystem := fun name =>
  if name = [97] then some (.opened [104,105] false)
  else if name = [98] then some (.opened [] false)
  else none

theorem cat4_agrees_iff_test : Readable twoFiles [[97],[97]] [[104,105],[104,105]] ∧
    (((cat4 twoFiles [[97],[97]]).stdout = [104,105,104,105] ∧
        (cat4 twoFiles [[97],[97]]).status = 0 ∧
        (cat2 twoFiles (.opened [] false) [[97],[97]]).stdout = [104,105,104,105] ∧
        (cat2 twoFiles (.opened [] false) [[97],[97]]).status = 0) ↔
      ∀ data ∈ [[104,105],[(104 : UInt8),105]], data.length%1024 ≠ 0) :=
  ⟨rfl,cat4_agrees_iff twoFiles (.opened [] false) [[97],[97]] [[104,105],[104,105]]
    (by decide) rfl⟩

/-- An empty file ends `cat4` with an error before the file behind it is printed. -/
theorem cat4_empty_file : cat4 twoFiles [[98],[97]] = ⟨1,[],["fwrite"]⟩ ∧
    cat2 twoFiles (.opened [] false) [[98],[97]] = ⟨0,[104,105],[]⟩ := by
  have h98 : twoFiles [98] = some (.opened [] false) := rfl
  have hfiles : Readable twoFiles [[98],[97]] [[],[104,105]] := rfl
  refine ⟨?_,?_⟩
  · simp only [cat4,cat4Files,h98]
    rw [cat4File_opened]
    rfl
  · rw [cat2,if_neg (by decide)]
    exact cat2Files_eq hfiles []

end CStudy.Cat

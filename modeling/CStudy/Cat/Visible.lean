import CStudy.Cat.Model

/-! `cat3`, which makes tabs and the ends of lines visible. The newlines can be told apart from what is
in the lines, so that the text can be read back, but for tabs that look like a backslash and a `t`. -/
namespace CStudy.Cat.Visible
open CStudy.Foundation

/-- `do_cat`: what is on `stdout` after it. -/
def doCat (f : File) (stdout : List UInt8) : List UInt8 :=
  if f.fgetc.1 = File.endOfFile then stdout
  else if f.fgetc.1 = 9 then doCat f.fgetc.2 (fputc 116 (fputc 92 stdout))
  else if f.fgetc.1 = 10 then doCat f.fgetc.2 (fputc 10 (fputc 36 stdout))
  else doCat f.fgetc.2 (fputc f.fgetc.1 stdout)
termination_by f.left.length
decreasing_by all_goals exact File.length_fgetc_lt ‹_›

/-- The loop over the arguments. -/
def catFiles (fs : FileSystem) : List (List UInt8) → List UInt8 → Exit
  | [],stdout => ⟨0,stdout,[]⟩
  | name::names,stdout =>
    match fs name with
    | none => ⟨1,stdout,["fopen"]⟩
    | some fp => catFiles fs names (doCat fp stdout)

def main (fs : FileSystem) (stdin : File) (names : List (List UInt8)) : Exit :=
  if names.length+1 < 2 then ⟨0,doCat stdin [],[]⟩ else catFiles fs names []

/-- A tab as `cat3` prints it. -/
def expandTabs (s : List UInt8) : List UInt8 := s.flatMap fun c => if c = 9 then [92,116] else [c]

/-- A text as `cat3` prints it. -/
def visible (s : List UInt8) : List UInt8 :=
  s.flatMap fun c => if c = 9 then [92,116] else if c = 10 then [36,10] else [c]

/-- Leave out the `$` in front of each newline. -/
def readBack : List UInt8 → List UInt8
  | 36::10::s => 10::readBack s
  | c::s => c::readBack s
  | [] => []

/-- Put tabs for backslashes with a `t`. -/
def collapseTabs : List UInt8 → List UInt8
  | 92::116::s => 9::collapseTabs s
  | c::s => c::collapseTabs s
  | [] => []

/-- The files up to one that cannot be opened. -/
def contents (fs : FileSystem) : List (List UInt8) → List UInt8
  | [] => []
  | name::names =>
    match fs name with
    | none => []
    | some fp => fp.left++contents fs names

/-- What the program reads. -/
def input (fs : FileSystem) (stdin : File) (names : List (List UInt8)) : List UInt8 :=
  if names = [] then stdin.left else contents fs names

section Texts
variable {s : List UInt8} {c : UInt8}

theorem visible_cons_of_ne (h9 : c ≠ 9) (h10 : c ≠ 10) : visible (c::s) = c::visible s := by
  simp [visible,h9,h10]

theorem visible_append (s r : List UInt8) : visible (s++r) = visible s++visible r :=
  List.flatMap_append

/-- No visible text begins with a newline. -/
theorem head?_visible : (visible s).head? ≠ some 10 := by
  cases s with
  | nil => simp [visible]
  | cons c s =>
    by_cases h9 : c = 9
    · simp [visible,h9]
    · by_cases h10 : c = 10
      · simp [visible,h10]
      · rw [visible_cons_of_ne h9 h10]
        simpa using h10

theorem readBack_cons (h : ¬ (c = 36 ∧ s.head? = some 10)) : readBack (c::s) = c::readBack s := by
  rw [readBack]
  rintro s' rfl rfl
  exact h ⟨rfl,rfl⟩

theorem readBack_visible (s : List UInt8) : readBack (visible s) = expandTabs s := by
  induction s with
  | nil => rfl
  | cons c s ih =>
    by_cases h9 : c = 9
    · subst h9
      have htab : visible (9::s) = 92::116::visible s := rfl
      rw [htab,readBack_cons (by simp),readBack_cons (by simp),ih]
      rfl
    · by_cases h10 : c = 10
      · subst h10
        have hnewline : visible (10::s) = 36::10::visible s := rfl
        rw [hnewline,readBack,ih]
        rfl
      · rw [visible_cons_of_ne h9 h10,readBack_cons fun h => head?_visible h.2,ih]
        simp [expandTabs,h9]

theorem collapseTabs_cons (h : c ≠ 92) : collapseTabs (c::s) = c::collapseTabs s := by
  rw [collapseTabs]
  exact fun s' hc _ => h hc

theorem collapseTabs_expandTabs (h : 92 ∉ s) : collapseTabs (expandTabs s) = s := by
  induction s with
  | nil => rfl
  | cons c s ih =>
    simp only [List.mem_cons,not_or] at h
    by_cases h9 : c = 9
    · subst h9
      have htab : expandTabs (9::s) = 92::116::expandTabs s := rfl
      rw [htab,collapseTabs,ih h.2]
    · have hcons : expandTabs (c::s) = c::expandTabs s := by simp [expandTabs,h9]
      rw [hcons,collapseTabs_cons (Ne.symm h.1),ih h.2]

end Texts

/-- One round of the loop. -/
theorem doCat_cons (c : UInt8) (left : List UInt8) (damaged eof error : Bool)
    (stdout : List UInt8) :
    doCat ⟨c::left,damaged,eof,error⟩ stdout =
      doCat ⟨left,damaged,eof,error⟩ (stdout++visible [c]) := by
  have hget : (File.mk (c::left) damaged eof error).fgetc =
      ((c.toNat : ℤ),⟨left,damaged,eof,error⟩) := rfl
  rw [doCat,hget,if_neg (byte_ne_endOfFile c)]
  by_cases h9 : c = 9
  · simp [h9,visible,fputc]
  · by_cases h10 : c = 10
    · simp [h10,visible,fputc]
    · have hne9 : (c.toNat : ℤ) ≠ 9 := fun h => h9 (UInt8.toNat_inj.mp (mod_cast h))
      have hne10 : (c.toNat : ℤ) ≠ 10 := fun h => h10 (UInt8.toNat_inj.mp (mod_cast h))
      simp only [hne9,hne10,if_false,fputc_byte,visible_cons_of_ne h9 h10]
      rfl

theorem doCat_eq (f : File) (stdout : List UInt8) : doCat f stdout = stdout++visible f.left := by
  obtain ⟨left,damaged,eof,error⟩ := f
  induction left generalizing stdout with
  | nil =>
    have hget : (File.mk [] damaged eof error).fgetc.1 = File.endOfFile := rfl
    rw [doCat,if_pos hget,visible,List.flatMap_nil,List.append_nil]
  | cons c left ih => rw [doCat_cons,ih,List.append_assoc,← visible_append,List.singleton_append]

theorem catFiles_stdout (fs : FileSystem) (names : List (List UInt8)) (stdout : List UInt8) :
    (catFiles fs names stdout).stdout = stdout++visible (contents fs names) := by
  induction names generalizing stdout with
  | nil => simp [catFiles,contents,visible]
  | cons name names ih =>
    cases hopen : fs name with
    | none => simp [catFiles,contents,hopen,visible]
    | some fp => simp [catFiles,contents,hopen,ih,doCat_eq,visible_append]

theorem catFiles_status (fs : FileSystem) (names : List (List UInt8)) (stdout : List UInt8) :
    (catFiles fs names stdout).status = 0 ↔ ∀ name ∈ names, (fs name).isSome := by
  induction names generalizing stdout with
  | nil => simp [catFiles]
  | cons name names ih =>
    cases hopen : fs name with
    | none => simp [catFiles,hopen]
    | some fp => simp [catFiles,hopen,ih]

/-- For every list of files, or `stdin`: without the `$` in front of each newline, the output is the
text that is read with a backslash and a `t` for each tab. A text without backslashes can be read back.
The program exits with 0 exactly if all the files can be opened. -/
theorem cat3_read_back (fs : FileSystem) (stdin : File) (names : List (List UInt8)) :
    readBack (main fs stdin names).stdout = expandTabs (input fs stdin names) ∧
      (92 ∉ input fs stdin names →
        collapseTabs (readBack (main fs stdin names).stdout) = input fs stdin names) ∧
      ((main fs stdin names).status = 0 ↔ ∀ name ∈ names, (fs name).isSome) := by
  have hout : (main fs stdin names).stdout = visible (input fs stdin names) := by
    cases names with
    | nil => simp [main,input,doCat_eq]
    | cons name names => simp [main,input,catFiles_stdout]
  have hread : readBack (main fs stdin names).stdout = expandTabs (input fs stdin names) := by
    rw [hout,readBack_visible]
  refine ⟨hread,fun hnone => ?_,?_⟩
  · rw [hread,collapseTabs_expandTabs hnone]
  · cases names with
    | nil => simp [main]
    | cons name names => simpa [main] using catFiles_status fs (name::names) []

/-- A backslash with a `t` is printed as a tab is. -/
example : visible [92,116] = visible [9] := rfl

end CStudy.Cat.Visible

import Mathlib.Tactic

/-! Input and output of the C library. A file that is read has some bytes
left and the two flags of a `FILE`; writing never fails. -/
namespace CStudy.Foundation

/-- Behind the last byte of a damaged file there is an error, not the end of the file. -/
structure File where
  left : List UInt8
  damaged : Bool
  eof : Bool
  error : Bool
  deriving DecidableEq

namespace File

/-- A file that has been opened. -/
def opened (data : List UInt8) (damaged : Bool) : File := ⟨data,damaged,false,false⟩

/-- Reading has come to the end. -/
def ended (f : File) : File :=
  { f with left := [], eof := f.eof || !f.damaged, error := f.error || f.damaged }

/-- `fread(buf, 1, n, f)`: what it puts into the buffer, as many bytes as it returns. -/
def fread (f : File) (n : ℕ) : List UInt8 × File :=
  if n ≤ f.left.length then (f.left.take n,{ f with left := f.left.drop n }) else (f.left,f.ended)

/-- `EOF` -/
def endOfFile : ℤ := -1

def fgetc (f : File) : ℤ × File :=
  match f.left with
  | [] => (endOfFile,f.ended)
  | c::left => (c.toNat,{ f with left := left })

def newline : UInt8 := 10

/-- The bytes up to the first newline and that newline, but not more than `n` of them. -/
def upToNewline : ℕ → List UInt8 → List UInt8
  | 0,_ => []
  | _+1,[] => []
  | n+1,c::left => if c = newline then [c] else c::upToNewline n left

/-- `fgets(buf, n, f)`: what it puts into the buffer before the null character, or `none` for
`NULL`. Reading comes to the end if there is neither a newline nor a full buffer. -/
def fgets (f : File) (n : ℕ) : Option (List UInt8) × File :=
  let line := upToNewline (n-1) f.left
  if line.length = n-1 ∨ newline ∈ line then (some line,{ f with left := f.left.drop line.length })
  else if f.damaged ∨ line = [] then (none,f.ended)
  else (some line,f.ended)

section Opened
variable {data : List UInt8} {damaged : Bool} {n : ℕ} {c : UInt8}

@[simp] theorem eof_opened : (opened data damaged).eof = false := rfl
@[simp] theorem error_opened : (opened data damaged).error = false := rfl

theorem fread_opened_of_le (h : n ≤ data.length) :
    (opened data damaged).fread n = (data.take n,opened (data.drop n) damaged) := if_pos h

theorem fread_opened_of_lt (h : data.length < n) :
    (opened data damaged).fread n = (data,⟨[],damaged,!damaged,damaged⟩) := by
  simp [fread,opened,ended,not_le.mpr h]

@[simp] theorem fgetc_opened_nil :
    (opened [] damaged).fgetc = (endOfFile,⟨[],damaged,!damaged,damaged⟩) := by
  simp [fgetc,opened,ended]

@[simp] theorem fgetc_opened_cons :
    (opened (c::data) damaged).fgetc = ((c.toNat : ℤ),opened data damaged) := rfl

end Opened

theorem length_fread_lt {f : File} {n : ℕ} (h : (f.fread n).1.length ≠ 0) :
    (f.fread n).2.left.length < f.left.length := by
  unfold fread at h ⊢
  split_ifs at h ⊢ with hn
  · rw [List.length_take] at h
    rw [List.length_drop]
    omega
  · exact Nat.pos_of_ne_zero h

theorem length_fgetc_lt {f : File} (h : f.fgetc.1 ≠ endOfFile) :
    f.fgetc.2.left.length < f.left.length := by
  obtain ⟨left,damaged,eof,error⟩ := f
  cases left with
  | nil => exact absurd rfl h
  | cons c left => exact Nat.lt_succ_self _

section Fgets
variable {l rest : List UInt8} {n : ℕ}

theorem upToNewline_prefix (n : ℕ) (left : List UInt8) : upToNewline n left <+: left := by
  induction left generalizing n with
  | nil => cases n <;> exact List.nil_prefix
  | cons c left ih =>
    cases n with
    | zero => exact List.nil_prefix
    | succ n =>
      rw [upToNewline]
      split_ifs
      · exact List.cons_prefix_cons.mpr ⟨rfl,List.nil_prefix⟩
      · exact List.cons_prefix_cons.mpr ⟨rfl,ih n⟩

theorem upToNewline_append_newline (hl : newline ∉ l) (hn : l.length < n) :
    upToNewline n (l++newline::rest) = l++[newline] := by
  induction l generalizing n with
  | nil =>
    obtain ⟨n,rfl⟩ := Nat.exists_eq_add_one.mpr hn
    rw [List.nil_append,upToNewline,if_pos rfl,List.nil_append]
  | cons c l ih =>
    rw [List.mem_cons,not_or] at hl
    obtain ⟨n,rfl⟩ := Nat.exists_eq_add_one.mpr (Nat.zero_lt_of_lt hn)
    rw [List.cons_append,upToNewline,if_neg (Ne.symm hl.1),ih hl.2 (Nat.lt_of_succ_lt_succ hn),
      List.cons_append]

theorem upToNewline_of_notMem (hl : newline ∉ l) : upToNewline n l = l.take n := by
  induction l generalizing n with
  | nil => cases n <;> rfl
  | cons c l ih =>
    rw [List.mem_cons,not_or] at hl
    cases n with
    | zero => rfl
    | succ n => rw [upToNewline,if_neg (Ne.symm hl.1),ih hl.2,List.take_succ_cons]

/-- In a long line there is no newline yet. -/
theorem upToNewline_append_of_le (hl : newline ∉ l) (hn : n ≤ l.length) :
    upToNewline n (l++rest) = l.take n := by
  induction l generalizing n with
  | nil =>
    obtain rfl := Nat.le_zero.mp hn
    rfl
  | cons c l ih =>
    rw [List.mem_cons,not_or] at hl
    cases n with
    | zero => rfl
    | succ n =>
      rw [List.cons_append,upToNewline,if_neg (Ne.symm hl.1),ih hl.2 (Nat.le_of_succ_le_succ hn),
        List.take_succ_cons]

/-- What `fgets` has read is the beginning of what was left. -/
theorem fgets_eq_some {f g : File} {line : List UInt8} (hn : 2 ≤ n)
    (h : f.fgets n = (some line,g)) :
    g.left.length < f.left.length ∧ line ≠ [] ∧ line <+: f.left ∧ g.left <:+ f.left := by
  have hpre := upToNewline_prefix (n-1) f.left
  have hle := hpre.length_le
  simp only [fgets] at h
  split_ifs at h with hfull hnull
  · cases h
    have hne : upToNewline (n-1) f.left ≠ [] := by
      intro hnil
      rcases hfull with hlen | hmem
      · rw [hnil,List.length_nil] at hlen
        omega
      · rw [hnil] at hmem
        cases hmem
    have hpos := List.length_pos_of_ne_nil hne
    refine ⟨?_,hne,hpre,List.drop_suffix _ _⟩
    rw [List.length_drop]
    omega
  · cases h
  · cases h
    rw [not_or] at hnull
    have hpos := List.length_pos_of_ne_nil hnull.2
    exact ⟨lt_of_lt_of_le hpos hle,hnull.2,hpre,List.nil_suffix⟩

/-- A short line with its newline. -/
theorem fgets_opened_line {damaged : Bool} (hl : newline ∉ l) (hn : l.length+1 < n) :
    (opened (l++newline::rest) damaged).fgets n = (some (l++[newline]),opened rest damaged) := by
  have hline : upToNewline (n-1) (l++newline::rest) = l++[newline] :=
    upToNewline_append_newline hl (by omega)
  simp [fgets,opened,hline,List.drop_append]

/-- A long line, of which a part is left. -/
theorem fgets_opened_long {damaged : Bool} (hl : newline ∉ l) (hn : n-1 ≤ l.length) :
    (opened (l++rest) damaged).fgets n =
      (some (l.take (n-1)),opened ((l++rest).drop (n-1)) damaged) := by
  have hline : upToNewline (n-1) (l++rest) = l.take (n-1) := upToNewline_append_of_le hl hn
  simp [fgets,opened,hline,hn]

/-- The last line, without a newline. -/
theorem fgets_opened_last (hl : newline ∉ l) (hne : l ≠ []) (hn : l.length+1 < n) :
    (opened l false).fgets n = (some l,(opened l false).ended) := by
  have hline : upToNewline (n-1) l = l := by
    rw [upToNewline_of_notMem hl,List.take_of_length_le (by omega)]
  have hlen : l.length ≠ n-1 := by omega
  simp [fgets,opened,hline,hl,hne,hlen]

theorem fgets_nil {f : File} (hf : f.left = []) (hn : 2 ≤ n) : f.fgets n = (none,f.ended) := by
  have hline : upToNewline (n-1) [] = [] := by rw [upToNewline_of_notMem (by simp),List.take_nil]
  have hlen : n-1 ≠ 0 := by omega
  simp [fgets,hf,hline,Ne.symm hlen]

end Fgets

end File

/-- `fputc(c, stdout)` -/
def fputc (c : ℤ) (stdout : List UInt8) : List UInt8 := stdout++[UInt8.ofNat (c%256).toNat]

/-- `fwrite(buf, 1, n, stdout)` with the value it returns. -/
def fwrite (bytes stdout : List UInt8) : ℕ × List UInt8 := (bytes.length,stdout++bytes)

theorem fputc_byte (c : UInt8) (stdout : List UInt8) : fputc c.toNat stdout = stdout++[c] := by
  have hlt := c.toNat_lt
  have hmod : ((c.toNat : ℤ)%256).toNat = c.toNat := by omega
  rw [fputc,hmod,UInt8.ofNat_toNat]

theorem byte_ne_endOfFile (c : UInt8) : (c.toNat : ℤ) ≠ File.endOfFile := by
  unfold File.endOfFile
  omega

end CStudy.Foundation

import CStudy.Head.Model

/-! What the three programs print, in terms of the rows of their files. -/
namespace CStudy.Head
open CStudy.Foundation

/-- The first lines, with their newlines. -/
def firstRows (lines : ℤ) (s : List UInt8) : List UInt8 :=
  ((Text.rows File.newline s).take lines.toNat).flatten

/-- What can be read of the files that are opened, up to one that cannot be. -/
def printed (fs : FileSystem) (lines : ℤ) (names : List (List UInt8)) : Exit where
  status := if names.all fun name => (fs name).isSome then 0 else 1
  stdout := (names.takeWhile fun name => (fs name).isSome).flatMap fun name =>
    ((fs name).map fun fp => firstRows lines fp.left).getD []
  stderr := if names.all fun name => (fs name).isSome then [] else ["fopen"]

section Loops
variable {lines : ℤ} {stdout : List UInt8}

theorem firstRows_newline (h : 0 < lines) (s : List UInt8) :
    firstRows lines (File.newline::s) = File.newline::firstRows (lines-1) s := by
  obtain ⟨n,hn⟩ : ∃ n, lines.toNat = n+1 := ⟨lines.toNat-1,by omega⟩
  have hpred : (lines-1).toNat = n := by omega
  rw [firstRows,firstRows,Text.rows_newline_cons,hn,hpred,List.take_succ_cons,List.flatten_cons,
    List.singleton_append]

theorem firstRows_of_ne (h : 0 < lines) {c : UInt8} (hc : c ≠ File.newline) (s : List UInt8) :
    firstRows lines (c::s) = c::firstRows lines s := by
  obtain ⟨n,hn⟩ : ∃ n, lines.toNat = n+1 := ⟨lines.toNat-1,by omega⟩
  rw [firstRows,firstRows,Text.rows_cons_of_ne hc,hn,Text.glue_take,Text.flatten_glue]

theorem firstRows_of_le (h : lines ≤ 0) (s : List UInt8) : firstRows lines s = [] := by
  rw [firstRows,Int.toNat_of_nonpos h,List.take_zero,List.flatten_nil]

/-- The counter goes down to zero with the newlines. -/
theorem headLoop_eq (f : File) (h : 0 < lines) (stdout : List UInt8) :
    headLoop f lines stdout = stdout++firstRows lines f.left := by
  obtain ⟨left,damaged,eof,error⟩ := f
  induction left generalizing lines stdout with
  | nil =>
    rw [headLoop]
    simp [File.fgetc,firstRows,Text.rows,Text.splitRows]
  | cons c left ih =>
    have hget : (⟨c::left,damaged,eof,error⟩ : File).fgetc = ((c.toNat : ℤ),⟨left,damaged,eof,error⟩) :=
      rfl
    rw [headLoop,hget,if_neg (byte_ne_endOfFile c),fputc_byte]
    split_ifs with hnewline hlast
    · obtain rfl : c = File.newline := UInt8.toNat_inj.mp (Int.ofNat_inj.mp hnewline)
      rw [firstRows_newline h,hlast,firstRows_of_le le_rfl]
    · obtain rfl : c = File.newline := UInt8.toNat_inj.mp (Int.ofNat_inj.mp hnewline)
      rw [ih (by omega),firstRows_newline h,List.append_assoc,List.singleton_append]
    · have hc : c ≠ File.newline := fun he => hnewline (by rw [he])
      rw [ih h,firstRows_of_ne h hc,List.append_assoc,List.singleton_append]

theorem doHead_eq (f : File) (lines : ℤ) (stdout : List UInt8) :
    doHead f lines stdout = stdout++firstRows lines f.left := by
  rw [doHead]
  split_ifs with h
  · rw [firstRows_of_le h,List.append_nil]
  · exact headLoop_eq f (not_le.mp h) stdout

theorem headFiles_eq (fs : FileSystem) (lines : ℤ) (names : List (List UInt8))
    (stdout : List UInt8) : headFiles fs lines names stdout =
      { printed fs lines names with stdout := stdout++(printed fs lines names).stdout } := by
  induction names generalizing stdout with
  | nil => simp [headFiles,printed]
  | cons name names ih =>
    rw [headFiles]
    cases hname : fs name with
    | none => simp [printed,hname]
    | some fp => simp [ih,doHead_eq,printed,hname]

end Loops

section Options
variable {args : List (List UInt8)} {opts : List Opt} {lines : ℤ}

theorem readOptions_map (program : String) (args : List (List UInt8)) (opts : List Opt) (lines : ℤ) :
    readOptions program (args.map Opt.n++opts) lines =
      readOptions program opts ((args.getLast?.map atol).getD lines) := by
  induction args generalizing lines with
  | nil => rfl
  | cons arg args ih =>
    rw [List.map_cons,List.cons_append,readOptions,ih]
    cases args <;> simp [List.getLast?_cons]

end Options

/-- Behind a digit there is neither white space nor a sign to skip. -/
theorem atol_of_digits {s : List UInt8} (h : ∀ c ∈ s, isDigit c = true) :
    atol s = toLong (Text.readDecimal s) := by
  have hall : digits s = Text.readDecimal s := by
    rw [digits,List.takeWhile_eq_self_iff.mpr h]
  cases s with
  | nil => rfl
  | cons c s =>
    have hc := h c List.mem_cons_self
    have hspace : isSpace c = false := by
      simp only [isDigit,decide_eq_true_eq,UInt8.le_iff_toNat_le] at hc
      simp only [isSpace,Bool.or_eq_false_iff,decide_eq_false_iff_not,UInt8.le_iff_toNat_le,
        ← UInt8.toNat_inj]
      simp only [UInt8.reduceToNat] at hc ⊢
      omega
    rw [atol,List.dropWhile_cons_of_neg (by simp [hspace])]
    split
    · next heq =>
      cases heq
      cases hc
    · next heq =>
      cases heq
      cases hc
    · rw [hall]

/-- A number that has been printed is read back, unless it is too large for a `long`. -/
theorem atol_decimal (n : ℕ) : atol (Text.decimal n) = min (n : ℤ) (2^63-1) := by
  have hdigit : ∀ c ∈ Text.decimal n, isDigit c = true := by
    intro c hc
    have hrange := Text.mem_decimal hc
    simp only [isDigit,decide_eq_true_eq,UInt8.le_iff_toNat_le]
    exact hrange
  rw [atol_of_digits hdigit,Text.readDecimal_decimal,toLong]
  omega

end CStudy.Head

import Mathlib.Data.List.TakeWhile
import Mathlib.Tactic

/-! Lines, words and pieces of a sequence of characters. A line ends at a newline or at the end of the
text, and a text that ends with a newline has no line after it. The words are the maximal runs
without a delimiter. -/
namespace CStudy.Foundation.Text
variable {α : Type*}

section Lines
variable [DecidableEq α] (newline : α)

def lines : List α → List (List α)
  | [] => []
  | c::s =>
    if c = newline then []::lines s
    else
      match lines s with
      | [] => [[c]]
      | l::ls => (c::l)::ls

variable {newline} {l s : List α}

@[simp] theorem lines_nil : lines newline [] = [] := rfl

/-- A line up to its newline. -/
theorem lines_append_cons (hl : newline ∉ l) :
    lines newline (l++newline::s) = l::lines newline s := by
  induction l with
  | nil => simp [lines]
  | cons c l ih =>
    rw [List.mem_cons,not_or] at hl
    rw [List.cons_append,lines,if_neg (Ne.symm hl.1),ih hl.2]

/-- The last line, where the text does not end with a newline. -/
theorem lines_of_notMem (hl : newline ∉ l) (hne : l ≠ []) : lines newline l = [l] := by
  induction l with
  | nil => exact absurd rfl hne
  | cons c l ih =>
    rw [List.mem_cons,not_or] at hl
    rw [lines,if_neg (Ne.symm hl.1)]
    cases l with
    | nil => rfl
    | cons d l => rw [ih hl.2 (List.cons_ne_nil _ _)]

section First
variable (newline) (s)

/-- The line a text begins with. -/
def firstLine : List α := s.takeWhile fun c => decide (c ≠ newline)

/-- What is left behind the first line and its newline. -/
def afterLine : List α := (s.dropWhile fun c => decide (c ≠ newline)).drop 1

theorem notMem_firstLine : newline ∉ firstLine newline s := by
  intro h
  simpa using List.mem_takeWhile_imp h

/-- A text is its first line, or that line with a newline and what is left behind it. -/
theorem firstLine_cases : (firstLine newline s = s ∧ afterLine newline s = []) ∨
    s = firstLine newline s++newline::afterLine newline s := by
  have hsplit : firstLine newline s++s.dropWhile (fun c => decide (c ≠ newline)) = s :=
    List.takeWhile_append_dropWhile
  have hhead := List.head?_dropWhile_not (fun c => decide (c ≠ newline)) s
  unfold afterLine
  generalize s.dropWhile (fun c => decide (c ≠ newline)) = rest at hsplit hhead
  cases rest with
  | nil =>
    rw [List.append_nil] at hsplit
    exact .inl ⟨hsplit,rfl⟩
  | cons c rest =>
    have hc : c = newline := by simpa using hhead
    rw [hc] at hsplit
    exact .inr hsplit.symm

end First

@[simp] theorem firstLine_nil : firstLine newline [] = [] := rfl
@[simp] theorem afterLine_nil : afterLine newline [] = [] := rfl

@[simp] theorem firstLine_newline_cons : firstLine newline (newline::s) = [] := by simp [firstLine]
@[simp] theorem afterLine_newline_cons : afterLine newline (newline::s) = s := by simp [afterLine]

theorem firstLine_cons {c : α} (hc : c ≠ newline) :
    firstLine newline (c::s) = c::firstLine newline s := by simp [firstLine,hc]

theorem afterLine_cons {c : α} (hc : c ≠ newline) :
    afterLine newline (c::s) = afterLine newline s := by simp [afterLine,hc]

theorem firstLine_append_cons (hl : newline ∉ l) : firstLine newline (l++newline::s) = l := by
  induction l with
  | nil => simp
  | cons c l ih =>
    rw [List.mem_cons,not_or] at hl
    rw [List.cons_append,firstLine_cons (Ne.symm hl.1),ih hl.2]

theorem afterLine_append_cons (hl : newline ∉ l) : afterLine newline (l++newline::s) = s := by
  induction l with
  | nil => simp
  | cons c l ih =>
    rw [List.mem_cons,not_or] at hl
    rw [List.cons_append,afterLine_cons (Ne.symm hl.1),ih hl.2]

/-- A text is split in one way only at the last separator. -/
theorem append_cons_inj {s s' l l' : List α} (hs : newline ∉ s) (hs' : newline ∉ s')
    (h : l++newline::s = l'++newline::s') : l = l' ∧ s = s' := by
  have hreverse : s.reverse++newline::l.reverse = s'.reverse++newline::l'.reverse := by
    simpa using congrArg List.reverse h
  have hfirst := congrArg (firstLine newline) hreverse
  have hafter := congrArg (afterLine newline) hreverse
  rw [firstLine_append_cons (by simpa using hs),firstLine_append_cons (by simpa using hs')]
    at hfirst
  rw [afterLine_append_cons (by simpa using hs),afterLine_append_cons (by simpa using hs')]
    at hafter
  exact ⟨List.reverse_inj.mp hafter,List.reverse_inj.mp hfirst⟩

/-- The lines of a text one by one. -/
theorem lines_eq_cons (hs : s ≠ []) :
    lines newline s = firstLine newline s::lines newline (afterLine newline s) := by
  have hline := notMem_firstLine newline s
  rcases firstLine_cases newline s with ⟨hall,hrest⟩ | hsplit
  · rw [hall] at hline
    rw [hall,hrest,lines_nil]
    exact lines_of_notMem hline hs
  · have hlines := lines_append_cons (s := afterLine newline s) hline
    rwa [← hsplit] at hlines

theorem length_afterLine_lt (hs : s ≠ []) : (afterLine newline s).length < s.length := by
  have hle := (List.dropWhile_sublist (l := s) fun c => decide (c ≠ newline)).length_le
  have hpos := List.length_pos_of_ne_nil hs
  rw [afterLine,List.length_drop]
  omega

end Lines

/-- One more character in front of the first row. -/
def glue (c : α) : List (List α) → List (List α)
  | [] => [[c]]
  | row::l => (c::row)::l

theorem glue_take (c : α) (l : List (List α)) (n : ℕ) :
    (glue c l).take (n+1) = glue c (l.take (n+1)) := by cases l <;> simp [glue]

theorem flatten_glue (c : α) (l : List (List α)) : (glue c l).flatten = c::l.flatten := by
  cases l <;> rfl

section Rows
variable [DecidableEq α] (newline : α)

/-- One more character: it goes to the last row, and a newline ends that row. -/
def rowStep (r : List (List α) × List α) (c : α) : List (List α) × List α :=
  if c = newline then (r.1++[r.2++[c]],[]) else (r.1,r.2++[c])

/-- The rows that have a newline, and what is behind the last of them. -/
def splitRows (s : List α) : List (List α) × List α := s.foldl (rowStep newline) ([],[])

/-- The lines with their newlines. -/
def rows (s : List α) : List (List α) :=
  (splitRows newline s).1++if (splitRows newline s).2 = [] then [] else [(splitRows newline s).2]

variable {newline} {s : List α} {c : α}

theorem splitRows_concat : splitRows newline (s++[c]) = rowStep newline (splitRows newline s) c :=
  List.foldl_concat ..

theorem splitRows_newline : splitRows newline (s++[newline]) =
    ((splitRows newline s).1++[(splitRows newline s).2++[newline]],[]) := by
  rw [splitRows_concat,rowStep,if_pos rfl]

theorem splitRows_of_ne (hc : c ≠ newline) : splitRows newline (s++[c]) =
    ((splitRows newline s).1,(splitRows newline s).2++[c]) := by
  rw [splitRows_concat,rowStep,if_neg hc]

theorem length_splitRows : (splitRows newline s).1.length = s.count newline := by
  induction s using List.reverseRecOn with
  | nil => rfl
  | append_singleton s c ih =>
    by_cases hc : c = newline
    · subst hc
      simp [splitRows_newline,ih]
    · simp [splitRows_of_ne hc,ih,hc]

theorem ne_nil_of_mem_splitRows {row : List α} (h : row ∈ (splitRows newline s).1) : row ≠ [] := by
  induction s using List.reverseRecOn with
  | nil => cases h
  | append_singleton s c ih =>
    by_cases hc : c = newline
    · subst hc
      rw [splitRows_newline,List.mem_append,List.mem_singleton] at h
      rcases h with h | rfl
      · exact ih h
      · exact List.append_ne_nil_of_right_ne_nil _ (List.cons_ne_nil _ _)
    · rw [splitRows_of_ne hc] at h
      exact ih h

theorem flatten_splitRows : (splitRows newline s).1.flatten++(splitRows newline s).2 = s := by
  induction s using List.reverseRecOn with
  | nil => rfl
  | append_singleton s c ih =>
    by_cases hc : c = newline
    · subst hc
      rw [splitRows_newline,List.flatten_concat,List.append_nil,← List.append_assoc,ih]
    · rw [splitRows_of_ne hc,← List.append_assoc,ih]

theorem flatten_rows : (rows newline s).flatten = s := by
  rw [rows,List.flatten_append]
  split_ifs with hrest
  · have hflat : (splitRows newline s).1.flatten++_ = s := flatten_splitRows
    rwa [hrest] at hflat
  · rw [List.flatten_singleton]
    exact flatten_splitRows

theorem length_le_of_rows {n : ℕ} (h : ∀ row ∈ rows newline s, row.length ≤ n) :
    (∀ row ∈ (splitRows newline s).1, row.length ≤ n) ∧ (splitRows newline s).2.length ≤ n := by
  refine ⟨fun row hrow => h row (List.mem_append_left _ hrow),?_⟩
  by_cases hrest : (splitRows newline s).2 = []
  · simp [hrest]
  · apply h
    rw [rows,if_neg hrest]
    exact List.mem_append_right _ (List.mem_singleton_self _)

/-- Nothing is behind the last newline of a text that ends with it. -/
theorem splitRows_snd_eq_nil (hs : s ≠ []) :
    (splitRows newline s).2 = [] ↔ s.getLast? = some newline := by
  induction s using List.reverseRecOn with
  | nil => exact absurd rfl hs
  | append_singleton s c _ =>
    rw [List.getLast?_concat,Option.some_inj]
    by_cases hc : c = newline
    · subst hc
      simp [splitRows_newline]
    · simp [splitRows_of_ne hc,hc]

theorem splitRows_newline_cons : splitRows newline (newline::s) =
    ([newline]::(splitRows newline s).1,(splitRows newline s).2) := by
  induction s using List.reverseRecOn with
  | nil => simp [splitRows,rowStep]
  | append_singleton s d ih =>
    rw [← List.cons_append,splitRows_concat,splitRows_concat,ih,rowStep,rowStep]
    split_ifs <;> rfl

theorem splitRows_cons_of_ne (hc : c ≠ newline) : splitRows newline (c::s) =
    match (splitRows newline s).1 with
    | [] => ([],c::(splitRows newline s).2)
    | row::l => ((c::row)::l,(splitRows newline s).2) := by
  induction s using List.reverseRecOn with
  | nil => simp [splitRows,rowStep,hc]
  | append_singleton s d ih =>
    rw [← List.cons_append,splitRows_concat,splitRows_concat,ih,rowStep,rowStep]
    cases (splitRows newline s).1 <;> split_ifs <;> rfl

theorem rows_newline_cons : rows newline (newline::s) = [newline]::rows newline s := by
  rw [rows,rows,splitRows_newline_cons,List.cons_append]

theorem rows_cons_of_ne (hc : c ≠ newline) : rows newline (c::s) = glue c (rows newline s) := by
  rw [rows,rows,splitRows_cons_of_ne hc]
  cases (splitRows newline s).1 with
  | nil =>
    by_cases hrest : (splitRows newline s).2 = []
    · simp [glue,hrest]
    · simp [glue,hrest]
  | cons row l => simp [glue]

/-- The rows of the first rows are these. -/
theorem rows_take (n : ℕ) :
    rows newline ((rows newline s).take n).flatten = (rows newline s).take n := by
  induction s generalizing n with
  | nil => simp [rows,splitRows]
  | cons c s ih =>
    cases n with
    | zero => simp [rows,splitRows]
    | succ n =>
      by_cases hc : c = newline
      · subst hc
        rw [rows_newline_cons,List.take_succ_cons,List.flatten_cons,List.singleton_append,
          rows_newline_cons,ih]
      · rw [rows_cons_of_ne hc,glue_take,flatten_glue,rows_cons_of_ne hc,ih]

end Rows

section Words
variable (p : α → Bool)

/-- `p` tells the delimiters. -/
def words (s : List α) : List (List α) := (s.splitOnP p).filter fun w => !w.isEmpty

variable {p} {d : α} {w s : List α}

@[simp] theorem words_nil : words p [] = [] := by simp [words]

theorem words_cons_delimiter (hd : p d = true) : words p (d::s) = words p s := by
  simp [words,List.splitOnP_cons_eq_if_modifyHead,hd]

theorem words_dropWhile (s : List α) : words p (s.dropWhile p) = words p s := by
  induction s with
  | nil => rfl
  | cons c s ih =>
    cases hc : p c with
    | true => rw [List.dropWhile_cons_of_pos hc,words_cons_delimiter hc,ih]
    | false => rw [List.dropWhile_cons_of_neg (by simp [hc])]

/-- A word up to the delimiter behind it. -/
theorem words_append_cons (hw : ∀ c ∈ w, p c = false) (hne : w ≠ []) (hd : p d = true) :
    words p (w++d::s) = w::words p s := by
  rw [words,List.splitOnP_append_cons_of_forall_mem hw d hd,List.filter_cons_of_pos]
  · rfl
  · simp [hne]

theorem words_of_forall (hw : ∀ c ∈ w, p c = false) (hne : w ≠ []) : words p w = [w] := by
  rw [words,List.splitOnP_eq_singleton hw,List.filter_cons_of_pos]
  · rfl
  · simp [hne]

/-- The first word of a text that begins with one. -/
theorem words_cons_of_neg {c : α} (hc : p c = false) :
    words p (c::s) = (c::s).takeWhile (fun x => !p x)::
      words p (((c::s).dropWhile fun x => !p x).drop 1) := by
  set w := (c::s).takeWhile (fun x => !p x) with hw
  have hword : ∀ x ∈ w, p x = false := by
    intro x hx
    simpa using List.mem_takeWhile_imp hx
  have hne : w ≠ [] := by simp [hw,hc]
  have hhead := List.head?_dropWhile_not (fun x => !p x) (c::s)
  have hsplit : w++(c::s).dropWhile (fun x => !p x) = c::s := List.takeWhile_append_dropWhile
  generalize (c::s).dropWhile (fun x => !p x) = rest at hhead hsplit ⊢
  rw [← hsplit]
  cases rest with
  | nil => rw [List.append_nil,words_of_forall hword hne,List.drop_nil,words_nil]
  | cons d rest => exact words_append_cons hword hne (by simpa using hhead)

end Words

section Pieces
variable {ι : Type*} {pieces : List ι} {piece : ι → List α} {count : ι → ℕ}

theorem length_flatMap_take_le :
    (pieces.flatMap fun i => (piece i).take (count i)).length ≤ (pieces.flatMap piece).length := by
  induction pieces with
  | nil => exact le_rfl
  | cons i pieces ih =>
    simp only [List.flatMap_cons,List.length_append,List.length_take]
    omega

/-- Nothing of a text that is taken piece by piece is lost, exactly if every piece is taken whole. -/
theorem flatMap_take_eq_iff :
    (pieces.flatMap fun i => (piece i).take (count i)) = pieces.flatMap piece ↔
      ∀ i ∈ pieces, (piece i).length ≤ count i := by
  induction pieces with
  | nil => simp
  | cons i pieces ih =>
    rw [List.forall_mem_cons,← ih,List.flatMap_cons,List.flatMap_cons]
    constructor
    · intro h
      -- the other pieces cannot make up for a byte that is missing here
      have hrest : (pieces.flatMap fun i => (piece i).take (count i)).length ≤
          (pieces.flatMap piece).length := length_flatMap_take_le
      have hlen := congrArg List.length h
      simp only [List.length_append,List.length_take] at hlen
      have hwhole : (piece i).length ≤ count i := by omega
      rw [List.take_of_length_le hwhole] at h
      exact ⟨hwhole,List.append_cancel_left h⟩
    · rintro ⟨hwhole,hrest⟩
      rw [List.take_of_length_le hwhole,hrest]

end Pieces

section Decimal

def ascii (s : String) : List UInt8 := s.toList.map fun c => c.toNat.toUInt8

/-- A number as `%lu` prints it. -/
def decimal (n : ℕ) : List UInt8 :=
  if n = 0 then [48] else (Nat.digits 10 n).reverse.map fun d => 48+d.toUInt8

/-- The number of printed digits. -/
def readDecimal (s : List UInt8) : ℕ := Nat.ofDigits 10 (s.reverse.map fun c => c.toNat-48)

theorem toNat_digit {d : ℕ} (hd : d < 10) : (48+d.toUInt8).toNat = 48+d := by
  interval_cases d <;> rfl

theorem mem_decimal {n : ℕ} {c : UInt8} (h : c ∈ decimal n) : 48 ≤ c.toNat ∧ c.toNat ≤ 57 := by
  rw [decimal] at h
  split_ifs at h
  · rw [List.mem_singleton.mp h]
    decide
  · obtain ⟨d,hd,rfl⟩ := List.mem_map.mp h
    have hlt := Nat.digits_lt_base (by norm_num) (List.mem_reverse.mp hd)
    rw [toNat_digit hlt]
    omega

theorem readDecimal_decimal (n : ℕ) : readDecimal (decimal n) = n := by
  rw [readDecimal,decimal]
  split_ifs with hn
  · rw [hn]
    rfl
  · have hmap : (Nat.digits 10 n).map (fun d => (48+d.toUInt8).toNat-48) = Nat.digits 10 n := by
      conv_rhs => rw [← List.map_id (Nat.digits 10 n)]
      refine List.map_congr_left fun d hd => ?_
      rw [toNat_digit (Nat.digits_lt_base (by norm_num) hd)]
      exact Nat.add_sub_cancel_left 48 d
    rw [← List.map_reverse,List.reverse_reverse,List.map_map]
    change Nat.ofDigits 10 ((Nat.digits 10 n).map fun d => (48+d.toUInt8).toNat-48) = n
    rw [hmap,Nat.ofDigits_digits]

theorem decimal_injective : Function.Injective decimal :=
  Function.LeftInverse.injective readDecimal_decimal

/-- A digit is none of the other characters. -/
theorem notMem_decimal {n : ℕ} {c : UInt8} (hc : c.toNat < 48 ∨ 57 < c.toNat) : c ∉ decimal n := by
  intro h
  have hrange := mem_decimal h
  omega

end Decimal

end CStudy.Foundation.Text

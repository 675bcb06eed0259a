import CStudy.Shell.Model

/-! What the shell reads. `lsh_read_line` takes a line off the input and `lsh_split_line` returns its
words, whatever their lengths and their number: both buffers always have room for one more write. -/
namespace CStudy.Shell
open CStudy.Foundation

section Buffers
variable {α : Type} {bufSize step : ℕ} {buffer : List α}

theorem store_eq_some (h : buffer.length < bufSize) (x : α) :
    store bufSize buffer x = some (buffer++[x]) := if_pos h

/-- After a write the buffer is enlarged if it is full. -/
theorem length_lt_grow (hstep : 0 < step) (h : buffer.length < bufSize) (x : α) :
    (buffer++[x]).length < grow step bufSize (buffer++[x]) := by
  have hlen : (buffer++[x]).length = buffer.length+1 := by simp
  unfold grow
  split_ifs <;> omega

end Buffers

section ReadLine
variable {line : List UInt8}

/-- The loop copies the bytes of a line. -/
theorem readLoop_append (hline : newline ∉ line) (stdin : List UInt8) {buffer : List UInt8}
    {bufSize : ℕ} (hroom : buffer.length < bufSize) :
    ∃ bufSize', (buffer++line).length < bufSize' ∧
      readLoop (line++stdin) bufSize buffer = readLoop stdin bufSize' (buffer++line) := by
  induction line generalizing buffer bufSize with
  | nil => exact ⟨bufSize,by simpa using hroom,by simp⟩
  | cons c line ih =>
    rw [List.mem_cons,not_or] at hline
    have hgrown : (buffer++[c]).length < grow lineBufSize bufSize (buffer++[c]) :=
      length_lt_grow (by decide) hroom c
    obtain ⟨bufSize',hroom',heq⟩ := ih hline.2 hgrown
    rw [← List.append_cons] at hroom' heq
    refine ⟨bufSize',hroom',?_⟩
    rw [List.cons_append,readLoop,if_neg (Ne.symm hline.1),store_eq_some hroom,Option.bind_some,heq]

theorem readLoop_start (hline : newline ∉ line) (stdin : List UInt8) :
    ∃ bufSize, line.length < bufSize ∧
      lshReadLine (line++stdin) = readLoop stdin bufSize line := by
  have hroom : ([] : List UInt8).length < lineBufSize := by decide
  exact readLoop_append hline stdin hroom

theorem lshReadLine_newline (hline : newline ∉ line) (stdin : List UInt8) :
    lshReadLine (line++newline::stdin) = some (line++[0],stdin) := by
  obtain ⟨bufSize,hroom,heq⟩ := readLoop_start hline (newline::stdin)
  rw [heq,readLoop,if_pos rfl,store_eq_some hroom]
  rfl

theorem lshReadLine_eof (hline : newline ∉ line) : lshReadLine line = some (line++[0],[]) := by
  obtain ⟨bufSize,hroom,heq⟩ := readLoop_start hline []
  rw [List.append_nil] at heq
  rw [heq,readLoop,store_eq_some hroom]
  rfl

end ReadLine

/-- The words of a line, which a byte 0 cuts off. -/
def tokensOf (line : List UInt8) : List Str := Text.words isDelimiter (cString line)

section SplitLine

/-- `strtok` finds the first word, if there is one, and goes on behind it. -/
theorem strtok_cases (s : Str) :
    (strtok s = none ∧ Text.words isDelimiter s = []) ∨
      ∃ token rest, strtok s = some (token,rest) ∧ rest.length < s.length ∧
        Text.words isDelimiter s = token::Text.words isDelimiter rest := by
  have hwords : Text.words isDelimiter (s.dropWhile isDelimiter) = _ := Text.words_dropWhile s
  have hlen := (List.dropWhile_sublist (l := s) isDelimiter).length_le
  have hhead := List.head?_dropWhile_not isDelimiter s
  unfold strtok
  generalize s.dropWhile isDelimiter = t at hwords hlen hhead
  cases t with
  | nil => exact .inl ⟨rfl,by rw [← hwords,Text.words_nil]⟩
  | cons c t =>
    have hc : isDelimiter c = false := hhead
    refine .inr ⟨_,_,rfl,?_,hwords.symm.trans (Text.words_cons_of_neg hc)⟩
    have hdrop := (List.dropWhile_sublist (l := t) fun c => !isDelimiter c).length_le
    rw [List.dropWhile_cons_of_pos (by simp [hc]),List.length_drop]
    rw [List.length_cons] at hlen
    omega

/-- The loop appends the words, and `NULL`. -/
theorem splitLoop_eq {passes bufSize : ℕ} {tokens : List (Option Str)} {s : Str}
    (hpasses : s.length < passes) (hroom : tokens.length < bufSize) :
    splitLoop passes bufSize tokens s =
      some (tokens++(Text.words isDelimiter s).map some++[none]) := by
  induction passes generalizing bufSize tokens s with
  | zero => omega
  | succ passes ih =>
    rcases strtok_cases s with ⟨hnone,hwords⟩ | ⟨token,rest,hsome,hlen,hwords⟩
    · simp only [splitLoop,hnone]
      rw [store_eq_some hroom,hwords,List.map_nil,List.append_nil]
    · simp only [splitLoop,hsome]
      have hgrown : (tokens++[some token]).length <
          grow tokenBufSize bufSize (tokens++[some token]) :=
        length_lt_grow (by decide) hroom (some token)
      rw [store_eq_some hroom,Option.bind_some,ih (by omega) hgrown,hwords]
      simp

theorem lshSplitLine_eq (line : List UInt8) :
    lshSplitLine line = some ((tokensOf line).map some++[none]) := by
  have hroom : ([] : List (Option Str)).length < tokenBufSize := by decide
  exact splitLoop_eq (Nat.lt_succ_self _) hroom

/-- The terminator behind a line does not matter. -/
theorem cString_terminated (line : List UInt8) : cString (line++[0]) = cString line := by
  induction line with
  | nil => rfl
  | cons c line ih =>
    unfold cString at ih ⊢
    rw [List.cons_append,List.takeWhile_cons,List.takeWhile_cons,ih]

/-- A line that has been read, split into its tokens. -/
theorem lshSplitLine_terminated (line : List UInt8) :
    lshSplitLine (line++[0]) = some ((tokensOf line).map some++[none]) := by
  rw [lshSplitLine_eq,tokensOf,cString_terminated,tokensOf]

end SplitLine

/-- For every input: the line is taken off and returned with its terminator, and split into its
words up to a byte 0, with `NULL` behind them. A write at an index that is not below `buf_size`
would leave no result. -/
theorem lshReadLine_lshSplitLine (stdin : List UInt8) :
    lshReadLine stdin =
        some (Text.firstLine newline stdin++[0],Text.afterLine newline stdin) ∧
      lshSplitLine (Text.firstLine newline stdin++[0]) =
        some ((Text.words isDelimiter (cString (Text.firstLine newline stdin))).map some++[none]) := by
  refine ⟨?_,lshSplitLine_terminated _⟩
  have hline := Text.notMem_firstLine newline stdin
  rcases Text.firstLine_cases newline stdin with ⟨hall,hrest⟩ | hsplit
  · rw [hall] at hline
    rw [hall,hrest]
    exact lshReadLine_eof hline
  · have hread := lshReadLine_newline hline (Text.afterLine newline stdin)
    rwa [← hsplit] at hread

end CStudy.Shell

import CStudy.ReadLine.Model

/-! One call of `read_line`. Whatever is left over of a line for which there is no room is read all
the same, and an interruption changes nothing. Where the descriptor is at its end before a byte has
been stored, the call returns 0 and leaves the buffer as it found it. -/
namespace CStudy.ReadLine
open CStudy.Foundation

def Answer.byte? : Answer → Option UInt8
  | .byte ch => some ch
  | .interrupted => none
  | .failed _ => none

/-- The bytes that are to be read. -/
def bytes (input : List Answer) : List UInt8 := input.filterMap Answer.byte?

/-- Reading is interrupted now and then, and has no other error. -/
def Steady (input : List Answer) : Prop := ∀ errno, .failed errno ∉ input

@[simp] theorem bytes_nil : bytes [] = [] := rfl
@[simp] theorem bytes_byte (ch : UInt8) (input : List Answer) :
    bytes (.byte ch::input) = ch::bytes input := rfl
@[simp] theorem bytes_interrupted (input : List Answer) :
    bytes (.interrupted::input) = bytes input := rfl

theorem Steady.tail {a : Answer} {input : List Answer} (h : Steady (a::input)) : Steady input :=
  fun errno hmem => h errno (List.mem_cons_of_mem a hmem)

/-- The descriptor is at its end before a byte has been stored. -/
def Untouched (n : ℕ) (stored s : List UInt8) : Prop :=
  newline ∉ s ∧ (stored++s).take (n-1) = []

instance (n : ℕ) (stored s : List UInt8) : Decidable (Untouched n stored s) :=
  inferInstanceAs (Decidable (_ ∧ _))

/-- What is in the buffer in the end: the first bytes of the line, and the terminator. -/
def outcome (n : ℕ) (stored back s : List UInt8) (unread : List Answer) : Outcome :=
  if Untouched n stored s then ⟨.ok 0,stored++back,unread,"## check\n"⟩
  else
    let kept := (stored++Text.firstLine newline s).take (n-1)
    ⟨.ok kept.length,kept++0::back.drop (kept.length+1-stored.length),unread,""⟩

/-- The answers that are used up, and what they are. -/
structure Takes (input taken unread : List Answer) : Prop where
  split : input = taken++unread
  used : bytes taken = Text.firstLine newline (bytes input)++
    if newline ∈ bytes input then [newline] else []
  rest : bytes unread = Text.afterLine newline (bytes input)

section Loop
variable {n : ℕ} {input taken unread : List Answer} {stored back s : List UInt8} {ch : UInt8}

theorem Takes.interrupted (h : Takes input taken unread) :
    Takes (.interrupted::input) (.interrupted::taken) unread := by
  refine ⟨?_,h.used,h.rest⟩
  rw [h.split]
  rfl

theorem Takes.byte (h : Takes input taken unread) (hch : ch ≠ newline) :
    Takes (.byte ch::input) (.byte ch::taken) unread := by
  refine ⟨?_,?_,?_⟩
  · rw [h.split]
    rfl
  · simp only [bytes_byte,h.used,Text.firstLine_cons hch,List.mem_cons,Ne.symm hch,false_or,
      List.cons_append]
  · rw [h.rest,bytes_byte,Text.afterLine_cons hch]

theorem takes_nil : Takes [] [] [] := by
  refine ⟨rfl,?_,?_⟩ <;> simp

theorem takes_newline (input : List Answer) : Takes (.byte newline::input) [.byte newline] input := by
  refine ⟨rfl,?_,?_⟩ <;> simp

/-- The terminator is written behind the stored bytes. -/
theorem finish_eq (hback : back ≠ []) :
    finish (stored++back) stored.length stored.length unread =
      some ⟨.ok stored.length,stored++0::back.drop 1,unread,""⟩ := by
  rw [finish,Memory.write_append rfl hback]
  rfl

/-- The line has been stored whole, or as far as there is room. -/
theorem outcome_of_take (hkept : (stored++Text.firstLine newline s).take (n-1) = stored)
    (h : ¬ Untouched n stored s) :
    outcome n stored back s unread =
      ⟨.ok stored.length,stored++0::back.drop 1,unread,""⟩ := by
  simp only [outcome,if_neg h,hkept,Nat.add_sub_cancel_left]

theorem take_of_full {t : List UInt8} (hfull : n-1 = stored.length) :
    (stored++t).take (n-1) = stored := by
  rw [hfull,List.take_left]

/-- A byte for which there is room. -/
theorem outcome_store (hch : ch ≠ newline) (hroom : stored.length < n-1) :
    outcome n (stored++[ch]) (back.drop 1) s unread = outcome n stored back (ch::s) unread := by
  have hne : ∀ t : List UInt8, (stored++ch::t).take (n-1) ≠ [] := by
    intro t h
    have hlen := congrArg List.length h
    simp only [List.length_take,List.length_append,List.length_cons,List.length_nil] at hlen
    omega
  have hold : ¬ Untouched n (stored++[ch]) s := by
    rw [Untouched,← List.append_cons]
    exact fun h => hne _ h.2
  have hnew : ¬ Untouched n stored (ch::s) := fun h => hne _ h.2
  rw [outcome,outcome,if_neg hold,if_neg hnew,Text.firstLine_cons hch,← List.append_cons]
  have hkept : stored.length < ((stored++ch::Text.firstLine newline s).take (n-1)).length := by
    simp only [List.length_take,List.length_append,List.length_cons]
    omega
  have hdrop : 1+(((stored++ch::Text.firstLine newline s).take (n-1)).length+1-
      (stored++[ch]).length) =
        ((stored++ch::Text.firstLine newline s).take (n-1)).length+1-stored.length := by
    rw [List.length_append,List.length_singleton]
    omega
  simp only [List.drop_drop,hdrop]

/-- A byte for which there is no room. -/
theorem outcome_skip (hch : ch ≠ newline) (hfull : n-1 = stored.length) :
    outcome n stored back s unread = outcome n stored back (ch::s) unread := by
  have huntouched : Untouched n stored s ↔ Untouched n stored (ch::s) := by
    rw [Untouched,Untouched,take_of_full hfull,take_of_full hfull,List.mem_cons,
      or_iff_right (Ne.symm hch)]
  simp only [outcome,huntouched,Text.firstLine_cons hch,take_of_full hfull]

/-- The loop, from some bytes in the buffer on. -/
theorem readLoop_eq (hinput : Steady input) (hstored : stored.length < n)
    (hback : n ≤ stored.length+back.length) :
    ∃ taken unread, Takes input taken unread ∧
      readLoop n input (stored++back) stored.length stored.length =
        some (outcome n stored back (bytes input) unread) := by
  have hne : back ≠ [] := List.ne_nil_of_length_pos (by omega)
  induction input generalizing stored back with
  | nil =>
    refine ⟨[],[],takes_nil,?_⟩
    have htake : (stored++[]).take (n-1) = stored := by
      rw [List.append_nil,List.take_of_length_le (by omega)]
    rw [readLoop]
    split_ifs with hzero
    · rw [List.length_eq_zero_iff] at hzero
      have huntouched : Untouched n stored (bytes []) := ⟨List.not_mem_nil,htake.trans hzero⟩
      rw [outcome,if_pos huntouched]
    · have htouched : ¬ Untouched n stored (bytes []) := by
        rintro ⟨_,h⟩
        exact hzero (by rw [← htake]; exact congrArg List.length h)
      rw [finish_eq hne,outcome_of_take htake htouched]
  | cons a input ih =>
    cases a with
    | failed errno => exact absurd List.mem_cons_self (hinput errno)
    | interrupted =>
      obtain ⟨taken,unread,htakes,hloop⟩ := ih hinput.tail hstored hback hne
      exact ⟨_,unread,htakes.interrupted,hloop⟩
    | byte ch =>
      rw [readLoop]
      by_cases hch : ch = newline
      · subst hch
        refine ⟨_,input,takes_newline input,?_⟩
        have htouched : ¬ Untouched n stored (bytes (.byte newline::input)) :=
          fun h => h.1 List.mem_cons_self
        rw [if_neg (by simp),if_pos rfl,finish_eq hne,outcome_of_take ?_ htouched]
        rw [bytes_byte,Text.firstLine_newline_cons,List.append_nil,
          List.take_of_length_le (by omega)]
      · by_cases hroom : stored.length < n-1
        · have hlen : stored.length+1 = (stored++[ch]).length := by simp
          have hback' : n ≤ (stored++[ch]).length+(back.drop 1).length := by
            rw [← hlen,List.length_drop]
            omega
          obtain ⟨taken,unread,htakes,hloop⟩ := ih hinput.tail (by omega) hback'
            (List.ne_nil_of_length_pos (by omega))
          refine ⟨_,unread,htakes.byte hch,?_⟩
          rw [if_pos ⟨hroom,hch⟩,Memory.write_append rfl hne,Option.bind_some,List.append_cons,hlen,
            hloop,outcome_store hch hroom]
          rfl
        · obtain ⟨taken,unread,htakes,hloop⟩ := ih hinput.tail hstored hback hne
          refine ⟨_,unread,htakes.byte hch,?_⟩
          rw [if_neg (fun h => hroom h.1),if_neg hch,hloop,bytes_byte,
            outcome_skip hch (by omega)]

end Loop

section Calls
variable {n : ℕ} {input : List Answer} {buffer s : List UInt8} {unread : List Answer}

theorem readLine_eq (hinput : Steady input) (hn : 1 ≤ n) (hbuffer : n ≤ buffer.length) :
    ∃ taken unread, Takes input taken unread ∧
      readLine input (some buffer) n = some (outcome n [] buffer (bytes input) unread) := by
  cases n with
  | zero => omega
  | succ n =>
    have hback : n+1 ≤ ([] : List UInt8).length+buffer.length := by simpa using hbuffer
    exact readLoop_eq hinput (Nat.zero_lt_succ n) hback

/-- Nothing is stored where there is nothing to store or no room for it. -/
theorem untouched_iff : Untouched n [] s ↔ newline ∉ s ∧ (s = [] ∨ n ≤ 1) := by
  rw [Untouched,List.nil_append,List.take_eq_nil_iff,or_comm,Nat.sub_eq_zero_iff_le]

theorem touched_of_room (hs : s ≠ []) (hn : 2 ≤ n) : ¬ Untouched n [] s := by
  rw [untouched_iff]
  rintro ⟨_,hnil | hle⟩
  · exact hs hnil
  · omega

theorem outcome_of_touched (h : ¬ Untouched n [] s) :
    outcome n [] buffer s unread =
      ⟨.ok (min (Text.firstLine newline s).length (n-1)),
        (Text.firstLine newline s).take (n-1)++
          0::buffer.drop (min (Text.firstLine newline s).length (n-1)+1),unread,""⟩ := by
  simp [outcome,h,Nat.min_comm]

end Calls

/-- For any input that is not at its end, any interruptions and any buffer of at least `n` bytes: the
line is taken off with its newline, and as much of it as there is room for is in the buffer with a
terminator behind it. Where the buffer has just `n` bytes, a write behind them would be undefined. -/
theorem readLine_line (n : ℕ) (hn : 2 ≤ n) (buffer : List UInt8) (hbuffer : n ≤ buffer.length)
    (input : List Answer) (hinput : Steady input) (hne : bytes input ≠ []) :
    ∃ taken unread, input = taken++unread ∧
      bytes taken = Text.firstLine newline (bytes input)++
        (if newline ∈ bytes input then [newline] else []) ∧
      bytes unread = Text.afterLine newline (bytes input) ∧
      readLine input (some buffer) n =
        some ⟨.ok (min (Text.firstLine newline (bytes input)).length (n-1)),
          (Text.firstLine newline (bytes input)).take (n-1)++
            0::buffer.drop (min (Text.firstLine newline (bytes input)).length (n-1)+1),unread,""⟩ := by
  obtain ⟨taken,unread,htakes,hread⟩ := readLine_eq hinput (by omega) hbuffer
  refine ⟨taken,unread,htakes.split,htakes.used,htakes.rest,?_⟩
  rw [hread,outcome_of_touched (touched_of_room hne hn)]

/-- A line of four bytes, interrupted twice, and a buffer for three of them. -/
theorem readLine_line_test : ∃ taken unread,
    [.byte 97,.interrupted,.byte 98,.byte 99,.byte 100,.interrupted,.byte newline,.byte 101] =
      taken++unread ∧ bytes taken = [97,98,99,100,newline] ∧ bytes unread = [101] ∧
    readLine [.byte 97,.interrupted,.byte 98,.byte 99,.byte 100,.interrupted,.byte newline,.byte 101]
      (some [1,2,3,4,5]) 4 = some ⟨.ok 3,[97,98,99,0,5],unread,""⟩ :=
  readLine_line 4 (by decide) [1,2,3,4,5] (by decide) _ (by simp [Steady]) (by decide)

/-- The buffer holds a string of bytes that the call has read. -/
def ValidString (input : List Answer) (r : Outcome) : Prop :=
  ∀ total, r.ret = .ok total → r.buffer[total]? = some 0 ∧
    ∃ taken, input = taken++r.unread ∧ r.buffer.take total <+: bytes taken

theorem validString_zero {input taken unread : List Answer} {buffer : List UInt8} {stderr : String}
    (hsplit : input = taken++unread) :
    ValidString input ⟨.ok 0,buffer,unread,stderr⟩ ↔ buffer[0]? = some 0 := by
  constructor
  · intro h
    exact (h 0 rfl).1
  · intro h total htotal
    cases htotal
    exact ⟨h,taken,hsplit,List.nil_prefix⟩

theorem validString_terminated {input taken unread : List Answer} {kept back : List UInt8}
    {stderr : String} (hsplit : input = taken++unread) (hkept : kept <+: bytes taken) :
    ValidString input ⟨.ok kept.length,kept++0::back,unread,stderr⟩ := by
  intro total htotal
  cases htotal
  refine ⟨?_,taken,hsplit,?_⟩
  · simp
  · simpa using hkept

/-- For any input, any interruptions and any buffer of at least `n` bytes, the buffer holds a string
after the call exactly if there is a newline, or a byte and room for it, or if the buffer has begun
with a terminator before. -/
theorem validString_iff (n : ℕ) (hn : 1 ≤ n) (buffer : List UInt8) (hbuffer : n ≤ buffer.length)
    (input : List Answer) (hinput : Steady input) :
    ∃ r total, readLine input (some buffer) n = some r ∧ r.ret = .ok total ∧
      (ValidString input r ↔
        newline ∈ bytes input ∨ (bytes input ≠ [] ∧ 2 ≤ n) ∨ buffer[0]? = some 0) := by
  obtain ⟨taken,unread,htakes,hread⟩ := readLine_eq hinput hn hbuffer
  by_cases huntouched : Untouched n [] (bytes input)
  · refine ⟨_,0,hread,by rw [outcome,if_pos huntouched],?_⟩
    rw [outcome,if_pos huntouched,validString_zero htakes.split,List.nil_append]
    have hnone : newline ∉ bytes input := (untouched_iff.mp huntouched).1
    have hroom : ¬ (bytes input ≠ [] ∧ 2 ≤ n) :=
      fun h => touched_of_room h.1 h.2 huntouched
    simp only [hnone,hroom,false_or]
  · refine ⟨_,_,hread,by rw [outcome_of_touched huntouched],?_⟩
    have hkept : (Text.firstLine newline (bytes input)).take (n-1) <+: bytes taken := by
      rw [htakes.used]
      exact (List.take_prefix _ _).trans (List.prefix_append _ _)
    have hvalid : ValidString input (outcome n [] buffer (bytes input) unread) := by
      rw [outcome_of_touched huntouched,Nat.min_comm,← List.length_take]
      exact validString_terminated htakes.split hkept
    rw [untouched_iff,not_and_or,not_not,not_or,not_le] at huntouched
    constructor
    · intro _
      rcases huntouched with hmem | hroom
      · exact .inl hmem
      · exact .inr (.inl hroom)
    · intro _
      exact hvalid

/-- A buffer of one byte and a newline behind two bytes. -/
theorem validString_iff_test : 1 ≤ 1 ∧ ∃ r total,
    readLine [.byte 97,.byte 98,.byte newline] (some [120]) 1 = some r ∧ r.ret = .ok total ∧
    (ValidString [.byte 97,.byte 98,.byte newline] r ↔
      newline ∈ [97,98,newline] ∨ ([97,98,newline] ≠ [] ∧ 2 ≤ 1) ∨ [(120 : UInt8)][0]? = some 0) :=
  ⟨by decide,validString_iff 1 (by decide) [120] (by decide) _ (by simp [Steady])⟩

/-- At the end of the input the buffer keeps the line before. -/
theorem readLine_eof_stale :
    readLine [] (some [102,111,111,0]) 4 = some ⟨.ok 0,[102,111,111,0],[],"## check\n"⟩ ∧
      ¬ ValidString [] ⟨.ok 0,[102,111,111,0],[],"## check\n"⟩ := by
  refine ⟨rfl,?_⟩
  intro h
  have hzero := (h 0 rfl).1
  revert hzero
  decide

end CStudy.ReadLine

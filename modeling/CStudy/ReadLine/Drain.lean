import CStudy.ReadLine.Call

/-! Reading to the end. A caller that stops at 0 gets the lines before the first empty one: an empty
line is told by the same value as the end of the input. -/
namespace CStudy.ReadLine
open CStudy.Foundation

section Lines
variable {n : ℕ} {input taken unread : List Answer} {buffer : List UInt8}

theorem Takes.steady (h : Takes input taken unread) (hinput : Steady input) : Steady unread := by
  intro errno hmem
  refine hinput errno ?_
  rw [h.split]
  exact List.mem_append_right taken hmem

/-- A call for a line that there is room for. -/
theorem readLine_short {line : List UInt8} (hinput : Steady input) (hn : 2 ≤ n)
    (hbuffer : n ≤ buffer.length) (hne : bytes input ≠ [])
    (hline : Text.firstLine newline (bytes input) = line) (hshort : line.length ≤ n-1) :
    ∃ taken unread back, Takes input taken unread ∧ (line++0::back).length = buffer.length ∧
      readLine input (some buffer) n = some ⟨.ok line.length,line++0::back,unread,""⟩ := by
  obtain ⟨taken,unread,htakes,hread⟩ := readLine_eq hinput (by omega) hbuffer
  refine ⟨taken,unread,buffer.drop (line.length+1),htakes,?_,?_⟩
  · rw [List.length_append,List.length_cons,List.length_drop]
    omega
  · rw [hread,outcome_of_touched (touched_of_room hne hn),hline,Nat.min_eq_left hshort,
      List.take_of_length_le hshort]

/-- The call at the end of the input. -/
theorem readLine_end (hinput : Steady input) (hn : 1 ≤ n) (hbuffer : n ≤ buffer.length)
    (hnil : bytes input = []) :
    ∃ unread, bytes unread = [] ∧
      readLine input (some buffer) n = some ⟨.ok 0,buffer,unread,"## check\n"⟩ := by
  obtain ⟨taken,unread,htakes,hread⟩ := readLine_eq hinput hn hbuffer
  have huntouched : Untouched n [] (bytes input) := by
    rw [untouched_iff,hnil]
    exact ⟨List.not_mem_nil,.inl rfl⟩
  refine ⟨unread,?_,?_⟩
  · rw [htakes.rest,hnil,Text.afterLine_nil]
  · rw [hread,outcome,if_pos huntouched,List.nil_append]

/-- The lines before the first empty one. If there is none, nothing is left of the input. -/
theorem drainLoop_eq {calls : ℕ} (hcalls : (bytes input).length < calls) (hinput : Steady input)
    (hn : 2 ≤ n) (hbuffer : n ≤ buffer.length)
    (hlines : ∀ line ∈ Text.lines newline (bytes input), line.length ≤ n-1) :
    ∃ unread, drainLoop n calls buffer input =
        some ((Text.lines newline (bytes input)).takeWhile (fun line => decide (line ≠ [])),unread) ∧
      ([] ∉ Text.lines newline (bytes input) → bytes unread = []) := by
  induction calls generalizing input buffer with
  | zero => omega
  | succ calls ih =>
    by_cases hne : bytes input = []
    · obtain ⟨unread,hunread,hread⟩ := readLine_end hinput (by omega) hbuffer hne
      refine ⟨unread,?_,fun _ => hunread⟩
      rw [drainLoop,hread,hne]
      rfl
    · have hcons : Text.lines newline (bytes input) = _ := Text.lines_eq_cons hne
      have hrest : (Text.afterLine newline (bytes input)).length < _ := Text.length_afterLine_lt hne
      cases hline : Text.firstLine newline (bytes input) with
      | nil =>
        obtain ⟨taken,unread,back,htakes,_,hread⟩ :=
          readLine_short hinput hn hbuffer hne hline (Nat.zero_le _)
        refine ⟨unread,?_,?_⟩
        · rw [drainLoop,hread,hcons,hline]
          rfl
        · intro hfull
          rw [hcons,hline] at hfull
          exact absurd List.mem_cons_self hfull
      | cons c line =>
        rw [hcons,hline] at hlines ⊢
        obtain ⟨taken,unread,back,htakes,hlen,hread⟩ :=
          readLine_short hinput hn hbuffer hne hline (hlines _ List.mem_cons_self)
        rw [← htakes.rest] at hlines hrest ⊢
        obtain ⟨unread',hloop,hunread⟩ := ih (by omega) (htakes.steady hinput)
          (hbuffer.trans_eq hlen.symm) fun l hl => hlines l (List.mem_cons_of_mem _ hl)
        refine ⟨unread',?_,?_⟩
        · rw [drainLoop,hread]
          dsimp only [List.length_cons]
          rw [hloop]
          simp
        · intro hfull
          exact hunread fun hmem => hfull (List.mem_cons_of_mem _ hmem)

end Lines

/-- For every input, any interruptions, and `n` such that there is room for every line: calling
`read_line` until it returns 0 gives all the lines, and leaves nothing, exactly if no line is
empty. -/
theorem drain_lines_iff (n : ℕ) (hn : 2 ≤ n) (buffer : List UInt8) (hbuffer : n ≤ buffer.length)
    (input : List Answer) (hinput : Steady input)
    (hlines : ∀ line ∈ Text.lines newline (bytes input), line.length ≤ n-1) :
    (∃ unread, drain input buffer n = some (Text.lines newline (bytes input),unread) ∧
        bytes unread = []) ↔ [] ∉ Text.lines newline (bytes input) := by
  have hcalls : (bytes input).length < input.length+1 := by
    have hle := List.length_filterMap_le Answer.byte? input
    rw [bytes]
    omega
  obtain ⟨unread,hdrain,hunread⟩ := drainLoop_eq hcalls hinput hn hbuffer hlines
  rw [drain,hdrain]
  constructor
  · rintro ⟨_,heq,_⟩ hmem
    have hall := (Prod.mk.inj (Option.some.inj heq)).1
    rw [List.takeWhile_eq_self_iff] at hall
    simpa using hall [] hmem
  · intro hfull
    refine ⟨unread,?_,hunread hfull⟩
    rw [List.takeWhile_eq_self_iff.mpr]
    intro line hline
    have hne : line ≠ [] := fun h => hfull (h ▸ hline)
    exact decide_eq_true hne

/-- Two lines, with an interruption between them. -/
theorem drain_lines_iff_test :
    (∃ unread, drain [.byte 97,.byte newline,.interrupted,.byte 98,.byte 99] [1,2,3,4] 4 =
        some ([[97],[98,99]],unread) ∧ bytes unread = []) ↔ [] ∉ [[(97 : UInt8)],[98,99]] :=
  drain_lines_iff 4 (by decide) [1,2,3,4] (by decide)
    [.byte 97,.byte newline,.interrupted,.byte 98,.byte 99] (by simp [Steady]) (by decide)

/-- An empty line ends the reading. -/
theorem drain_stops_early : Text.lines newline [97,10,10,98,10] = [[97],[],[98]] ∧
    drain [.byte 97,.byte 10,.byte 10,.byte 98,.byte 10] [1,2,3,4] 4 =
      some ([[97]],[.byte 98,.byte 10]) := by
  decide

section Main
variable {input : List Answer} {buffer : List UInt8}

/-- A line that is the expected one passes the assertions. -/
theorem expectLine_eq {s rest : List UInt8} (hinput : Steady input) (hbuffer : 32 ≤ buffer.length)
    (hs : newline ∉ s) (hshort : s.length < 32) (hbytes : bytes input = s++newline::rest) :
    ∃ buffer' unread, expectLine s (buffer,input) = some (buffer',unread) ∧
      32 ≤ buffer'.length ∧ Steady unread ∧ bytes unread = rest := by
  have hne : bytes input ≠ [] := by simp [hbytes]
  have hline : Text.firstLine newline (bytes input) = s := by
    rw [hbytes]
    exact Text.firstLine_append_cons hs
  obtain ⟨taken,unread,back,htakes,hlen,hread⟩ :=
    readLine_short hinput (by decide) hbuffer hne hline (by omega)
  refine ⟨s++0::back,unread,?_,hbuffer.trans_eq hlen.symm,htakes.steady hinput,?_⟩
  · have hstr : streq (s++0::back) s = true := by
      rw [streq,List.append_cons,List.take_left' (by simp),decide_eq_true_iff]
    simp only [expectLine,hread]
    rw [if_pos ⟨hstr,trivial⟩]
  · rw [htakes.rest,hbytes]
    exact Text.afterLine_append_cons hs

theorem foldlM_expectLine {expected : List (List UInt8)} {rest : List UInt8}
    (hexpected : ∀ s ∈ expected, newline ∉ s ∧ s.length < 32) (hinput : Steady input)
    (hbuffer : 32 ≤ buffer.length)
    (hbytes : bytes input = (expected.flatMap fun s => s++[newline])++rest) :
    (expected.foldlM (fun r s => expectLine s r) (buffer,input)).isSome = true := by
  induction expected generalizing buffer input with
  | nil => rfl
  | cons s expected ih =>
    obtain ⟨hs,hshort⟩ := hexpected s List.mem_cons_self
    rw [List.flatMap_cons,List.append_assoc,List.append_assoc,List.singleton_append] at hbytes
    obtain ⟨buffer',unread,hexpect,hlen,hsteady,hunread⟩ :=
      expectLine_eq hinput hbuffer hs hshort hbytes
    rw [List.foldlM_cons,hexpect]
    exact ih (fun t ht => hexpected t (List.mem_cons_of_mem s ht)) hsteady hlen hunread

/-- The program passes its assertions on every input that begins with the lines of its test data,
however reading them is interrupted. -/
theorem main_eq (hinput : Steady input) (hbuffer : buffer.length = 32) {rest : List UInt8}
    (hbytes : bytes input = (testData.flatMap fun s => s++[newline])++rest) :
    main input buffer = some "OK\n" := by
  have hsome := foldlM_expectLine (by decide) hinput hbuffer.ge hbytes
  obtain ⟨r,hr⟩ := Option.isSome_iff_exists.mp hsome
  rw [main,hr]
  rfl

end Main

end CStudy.ReadLine

import CStudy.Foundation.Text
import CStudy.RunCommand.Model

/-! Whether the commands are the lines of `stdin`. Of each piece that `fgets` delivers the last byte
is cut off, which is a newline only if the whole line has been read. -/
namespace CStudy.RunCommand
open CStudy.Foundation
open CStudy.Foundation.File (newline)

/-- `fork` and `waitpid` succeed. -/
structure System.Succeeds (system : System) : Prop where
  fork : ∀ round, system.fork round = true
  waitpid : ∀ round, system.waitpid round ≠ none

/-- Every line with its newline fits into the buffer, and the last line has a newline. -/
def Fits (data : List UInt8) : Prop :=
  (∀ line ∈ Text.lines newline data, line.length ≤ 254) ∧
    (data = [] ∨ data.getLast? = some newline)

section Rounds
variable {system : System} {handled : ℕ → List String} {round : ℕ} {stdin rest : File}
  {buffer l data : List UInt8}

theorem strlen_of_notMem (h : 0 ∉ buffer) : strlen buffer = buffer.length := by
  have hall : ∀ c ∈ buffer, decide (c ≠ 0) = true := by
    rintro c hc
    rw [decide_eq_true_eq]
    rintro rfl
    exact h hc
  rw [strlen,List.takeWhile_eq_self_iff.mpr hall]

/-- A round cuts off the last byte of the buffer. -/
theorem loop_round (handled : ℕ → List String) (round : ℕ) (hsystem : system.Succeeds)
    (hnul : 0 ∉ stdin.left) (h : stdin.fgets 256 = (some buffer,rest)) :
    ∃ printed, loop system handled round stdin =
      (loop system handled (round+1) rest).map (Exit.after buffer.dropLast printed) := by
  obtain ⟨_,hne,hpre,_⟩ := File.fgets_eq_some (by omega) h
  have hlen : strlen buffer = buffer.length :=
    strlen_of_notMem fun hmem => hnul (hpre.subset hmem)
  have hpos := List.length_pos_of_ne_nil hne
  obtain ⟨status,hstatus⟩ := Option.ne_none_iff_exists'.mp (hsystem.waitpid round)
  have hloop : loop system handled round stdin = _ :=
    loop_of_some h (by omega) (hsystem.fork round) hstatus
  rw [hlen,← List.dropLast_eq_take] at hloop
  exact ⟨_,hloop⟩

theorem loop_isSome (hsystem : system.Succeeds) (hnul : 0 ∉ stdin.left) :
    ∃ exit, loop system handled round stdin = some exit := by
  induction hn : stdin.left.length using Nat.strong_induction_on generalizing stdin round with
  | h n ih =>
    rcases hgets : stdin.fgets 256 with ⟨_ | buffer,rest⟩
    · exact ⟨_,loop_of_none hgets⟩
    · obtain ⟨hlt,_,_,hsuf⟩ := File.fgets_eq_some (by omega) hgets
      obtain ⟨printed,hround⟩ := loop_round handled round hsystem hnul hgets
      obtain ⟨exit,hexit⟩ := ih rest.left.length (by omega)
        (fun hmem => hnul (hsuf.subset hmem)) rfl
      exact ⟨_,by rw [hround,hexit,Option.map_some]⟩

/-- What comes first is the buffer without its last byte. -/
theorem commands_cons (hsystem : system.Succeeds) (hnul : 0 ∉ stdin.left)
    (h : stdin.fgets 256 = (some buffer,rest)) :
    ∃ exit exit', loop system handled round stdin = some exit ∧
      loop system handled (round+1) rest = some exit' ∧
      exit.commands = buffer.dropLast::exit'.commands := by
  obtain ⟨_,_,_,hsuf⟩ := File.fgets_eq_some (by omega) h
  obtain ⟨printed,hround⟩ := loop_round handled round hsystem hnul h
  obtain ⟨exit,hexit⟩ := loop_isSome hsystem fun hmem => hnul (hsuf.subset hmem)
  exact ⟨_,exit,by rw [hround,hexit,Option.map_some],hexit,rfl⟩

/-- The first command is shorter than a first line that is long or has no newline. -/
theorem commands_ne_lines (hsystem : system.Succeeds) (hnul : 0 ∉ data) (hdata : data ≠ [])
    (hgets : (File.opened data false).fgets 256 = (some buffer,rest))
    (hle : buffer.length ≤ (Text.firstLine newline data).length) :
    ∃ exit, loop system handled round (.opened data false) = some exit ∧
      exit.commands ≠ Text.lines newline data := by
  obtain ⟨_,hne,_,_⟩ := File.fgets_eq_some (by omega) hgets
  have hpos := List.length_pos_of_ne_nil hne
  obtain ⟨exit,exit',hexit,_,hcommands⟩ := commands_cons hsystem hnul hgets
  refine ⟨exit,hexit,?_⟩
  rw [hcommands,Text.lines_eq_cons hdata]
  intro heq
  have hlen := congrArg List.length (List.cons.inj heq).1
  rw [List.length_dropLast] at hlen
  omega

/-- The loop ends, and its commands are the lines exactly if they fit. -/
def Agrees (system : System) (handled : ℕ → List String) (round : ℕ) (data : List UInt8) : Prop :=
  ∃ exit, loop system handled round (.opened data false) = some exit ∧
    (exit.commands = Text.lines newline data ↔ Fits data)

/-- The buffer is full before the newline. -/
theorem agrees_long (hsystem : system.Succeeds) (hnul : 0 ∉ data) (hdata : data ≠ [])
    (hlong : 254 < (Text.firstLine newline data).length) : Agrees system handled round data := by
  have hline := Text.notMem_firstLine newline data
  obtain ⟨tail,hsplit⟩ : ∃ tail, data = Text.firstLine newline data++tail := by
    rcases Text.firstLine_cases newline data with ⟨hall,_⟩ | hsplit
    · exact ⟨[],by rw [hall,List.append_nil]⟩
    · exact ⟨_,hsplit⟩
  have hgets : (File.opened (Text.firstLine newline data++tail) false).fgets 256 = _ :=
    File.fgets_opened_long hline (by omega)
  rw [← hsplit] at hgets
  obtain ⟨exit,hexit,hne⟩ := commands_ne_lines hsystem hnul hdata hgets
    (by rw [List.length_take]; omega)
  refine ⟨exit,hexit,iff_of_false hne ?_⟩
  rintro ⟨hall,_⟩
  have hle := hall (Text.firstLine newline data) (by
    rw [Text.lines_eq_cons hdata]
    exact List.mem_cons_self)
  omega

/-- The last line has no newline. -/
theorem agrees_last (hsystem : system.Succeeds) (hnul : 0 ∉ l) (hl : newline ∉ l) (hne : l ≠ [])
    (hlen : l.length ≤ 254) : Agrees system handled round l := by
  have hfirst : Text.firstLine newline l = l := by
    rcases Text.firstLine_cases newline l with ⟨hall,_⟩ | hsplit
    · exact hall
    · rw [hsplit] at hl
      simp at hl
  obtain ⟨exit,hexit,hcommands⟩ := commands_ne_lines hsystem hnul hne
    (File.fgets_opened_last hl hne (by omega)) (by rw [hfirst])
  refine ⟨exit,hexit,iff_of_false hcommands ?_⟩
  rintro ⟨_,hnil | hlast⟩
  · exact hne hnil
  · exact hl (List.mem_of_getLast? hlast)

theorem fits_cons (tail : List UInt8) (hl : newline ∉ l) (hlen : l.length ≤ 254) :
    Fits (l++newline::tail) ↔ Fits tail := by
  rw [Fits,Text.lines_append_cons hl,List.forall_mem_cons,and_iff_right hlen,Fits]
  refine and_congr_right fun _ => ?_
  cases tail with
  | nil => simp
  | cons c tail => simp [List.getLast?_append,List.getLast?_cons_cons]

/-- A line that is read with its newline. -/
theorem agrees_line {tail : List UInt8} (hsystem : system.Succeeds) (hnul : 0 ∉ l++newline::tail)
    (hl : newline ∉ l) (hlen : l.length ≤ 254) (h : Agrees system handled (round+1) tail) :
    Agrees system handled round (l++newline::tail) := by
  obtain ⟨exit,exit',hexit,hexit',hcommands⟩ := commands_cons hsystem hnul
    (File.fgets_opened_line hl (by omega))
  obtain ⟨_,htail,hiff⟩ := h
  cases hexit'.symm.trans htail
  refine ⟨exit,hexit,?_⟩
  rw [fits_cons tail hl hlen,← hiff,hcommands,List.dropLast_concat,Text.lines_append_cons hl,
    List.cons.injEq,and_iff_right rfl]

/-- The induction is on the text, line by line. -/
theorem loop_agrees (handled : ℕ → List String) (round : ℕ) (hsystem : system.Succeeds)
    (hnul : 0 ∉ data) : Agrees system handled round data := by
  induction hn : data.length using Nat.strong_induction_on generalizing data round with
  | h n ih =>
    by_cases hdata : data = []
    · subst hdata
      refine ⟨_,loop_of_none (File.fgets_nil rfl (by omega)),?_⟩
      simp [Fits]
    by_cases hlong : 254 < (Text.firstLine newline data).length
    · exact agrees_long hsystem hnul hdata hlong
    have hline := Text.notMem_firstLine newline data
    have hlt : (Text.afterLine newline data).length < data.length := Text.length_afterLine_lt hdata
    rcases Text.firstLine_cases newline data with ⟨hall,_⟩ | hsplit
    · rw [hall] at hline hlong
      exact agrees_last hsystem hnul hline hdata (by omega)
    · have hmem : 0 ∉ Text.afterLine newline data := by
        intro hmem
        rw [hsplit] at hnul
        exact hnul (List.mem_append_right _ (List.mem_cons_of_mem _ hmem))
      have htail := ih _ (by omega) (round+1) hmem rfl
      rw [hsplit] at hnul ⊢
      exact agrees_line hsystem hnul hline (by omega) htail

theorem prompted_eq_lines_iff (handled : ℕ → List String) (hsystem : system.Succeeds)
    (hnul : 0 ∉ data) :
    (prompted system handled (.opened data false)).map Exit.commands =
        some (Text.lines newline data) ↔ Fits data := by
  obtain ⟨exit,hexit,hiff⟩ := loop_agrees handled 0 hsystem hnul
  rw [prompted,hexit,Option.map_some,Option.map_some,Option.some.injEq,← hiff]

end Rounds

/-- For every `stdin` without a null character, where `fork` and `waitpid` succeed: the two programs
run the lines of `stdin` exactly if each line has at most 254 bytes and the last one ends with a
newline. -/
theorem commands_eq_lines_iff (system : System) (signals : ℕ → ℕ) (data : List UInt8)
    (hsystem : system.Succeeds) (hnul : 0 ∉ data) :
    ((runCommand system (.opened data false)).map Exit.commands =
          some (Text.lines newline data) ∧
        (runCommandWithSignal system signals (.opened data false)).map Exit.commands =
          some (Text.lines newline data)) ↔ Fits data := by
  rw [runCommand,runCommandWithSignal,prompted_eq_lines_iff _ hsystem hnul,
    prompted_eq_lines_iff _ hsystem hnul,and_self]

/-- All calls succeed, and every program exits with 0. -/
def quietSystem : System := ⟨fun _ => true,fun _ => some 0⟩

theorem quietSystem_succeeds : quietSystem.Succeeds := ⟨fun _ => rfl,fun _ => by simp [quietSystem]⟩

theorem commands_eq_lines_iff_test :
    ((runCommand quietSystem (.opened [108,115,10,112,115,10] false)).map Exit.commands =
          some [[108,115],[112,115]] ∧
        (runCommandWithSignal quietSystem (fun _ => 1)
            (.opened [108,115,10,112,115,10] false)).map Exit.commands =
          some [[108,115],[112,115]]) ↔ Fits [108,115,10,112,115,10] :=
  commands_eq_lines_iff quietSystem (fun _ => 1) [108,115,10,112,115,10] quietSystem_succeeds
    (by decide)

/-- Of a last line without a newline, here `"ls"`, the last byte is cut off. -/
theorem last_line_cut (handled : ℕ → List String) :
    (prompted quietSystem handled (.opened [108,115] false)).map Exit.commands = some [[108]] := by
  have hgets : (File.opened [108,115] false).fgets 256 = (some [108,115],⟨[],false,true,false⟩) := rfl
  rw [prompted,loop_of_some hgets (by decide) rfl rfl,loop_of_none (File.fgets_nil rfl (by omega))]
  rfl

theorem commands_ne_lines_ls :
    (runCommand quietSystem (.opened [108,115] false)).map Exit.commands = some [[108]] ∧
      (runCommandWithSignal quietSystem (fun _ => 0) (.opened [108,115] false)).map Exit.commands =
        some [[108]] ∧
      Text.lines newline [108,115] = [[108,115]] :=
  ⟨last_line_cut _,last_line_cut _,by decide⟩

end CStudy.RunCommand

import CStudy.Shell.Reading

/-! Whole sessions of the shell. A status other than 0 ends the session: `exit` returns 1, but so does
`lsh_execute` for a line without tokens. At the end of the input the shell reads an empty line and
ends for the same reason. -/
namespace CStudy.Shell
open CStudy.Foundation

def exitName : Str := [101,120,105,116]

def cdName : Str := [99,100]

/-- The function that has to deal with a command. -/
def dispatch (name : Str) : Function :=
  if name = cdName then .builtinCd else if name = exitName then .builtinExit else .lshLaunch

/-- The prompts and the calls, without what the called functions do. -/
def Event.ofLoop : Event → Bool
  | .prompt => true
  | .call _ _ => true
  | _ => false

/-- A session as it should be: a prompt for every line up to `exit` or the end of the input, and a
call for every line with a token. -/
def expected : List (List UInt8) → List Event
  | [] => [.prompt]
  | line::rest =>
    match tokensOf line with
    | [] => .prompt::expected rest
    | name::args =>
      .prompt::.call (dispatch name) ((name::args).map some++[none])::
        if name = exitName then [] else expected rest

/-- The lines up to the first one that begins with `exit`. -/
def upToExit : List (List UInt8) → List (List UInt8)
  | [] => []
  | line::rest => if (tokensOf line).head? = some exitName then [line] else line::upToExit rest

theorem expected_ne_nil (lines : List (List UInt8)) : expected lines ≠ [] := by
  cases lines with
  | nil => simp [expected]
  | cons line rest =>
    unfold expected
    split <;> simp

theorem lookup_eq_dispatch (name : Str) : lookup name = dispatch name := by
  unfold lookup dispatch builtinFunctions
  by_cases hcd : name = cdName
  · subst hcd
    rfl
  · by_cases hexit : name = exitName
    · subst hexit
      rfl
    · have hcd' : ¬ [99,100] = name := fun h => hcd h.symm
      have hexit' : ¬ [101,120,105,116] = name := fun h => hexit h.symm
      simp [hcd,hexit,hcd',hexit']

section Execute

theorem waitLoop_isSome {reports : List WaitStatus} (h : reports.any WaitStatus.isEnd = true) :
    waitLoop reports = some () := by
  induction reports with
  | nil => cases h
  | cons status reports ih =>
    rw [waitLoop]
    split_ifs with hend
    · rfl
    · exact ih (by simpa [hend] using h)

/-- However it ends, a command does not end the session. -/
theorem lshLaunch_eq {child : Option Child} (h : child.isSome = true) :
    lshLaunch child = some (0,[]) := by
  obtain ⟨child,rfl⟩ := Option.isSome_iff_exists.mp h
  rw [lshLaunch,waitLoop_isSome child.ends]
  rfl

/-- There is always a second entry of the array, if only the final `NULL`. -/
theorem builtinCd_eq (system : System) (n : ℕ) (name : Str) (args : List Str) :
    ∃ events, builtinCd system n ((name::args).map some++[none]) = some (0,events) ∧
      events.filter Event.ofLoop = [] := by
  have hbound : ∃ arg, ((name::args).map some++[none])[1]? = some arg := by
    cases args with
    | nil => exact ⟨none,rfl⟩
    | cons arg args => exact ⟨some arg,rfl⟩
  obtain ⟨arg,harg⟩ := hbound
  rw [builtinCd,harg,Option.map_some]
  refine ⟨_,rfl,?_⟩
  split_ifs <;> rfl

/-- A command with a name is handed to its function, and `exit` alone ends the session. -/
theorem lshExecute_cons {system : System} {n : ℕ} (hfork : (system.fork n).isSome = true)
    (name : Str) (args : List Str) :
    ∃ events, lshExecute system n ((name::args).map some++[none]) =
        some (if name = exitName then 1 else 0,events) ∧
      events.filter Event.ofLoop = [.call (dispatch name) ((name::args).map some++[none])] := by
  have hexecute : lshExecute system n ((name::args).map some++[none]) =
      callFunction system n ((name::args).map some++[none]) (dispatch name) := by
    rw [← lookup_eq_dispatch]
    rfl
  rw [hexecute,dispatch]
  split_ifs with hcd hexit hexit
  · subst hcd
    cases hexit
  · obtain ⟨events,hcd,hquiet⟩ := builtinCd_eq system n name args
    rw [callFunction,runFunction,hcd]
    refine ⟨_,rfl,?_⟩
    rw [List.filter_cons_of_pos rfl,hquiet]
  · exact ⟨_,rfl,rfl⟩
  · rw [callFunction,runFunction,lshLaunch_eq hfork]
    exact ⟨_,rfl,rfl⟩

end Execute

/-- The input is at its end, or a line of it is read. -/
theorem lshReadLine_cases (stdin : List UInt8) :
    stdin = [] ∨ ∃ line rest, lshReadLine stdin = some (line++[0],rest) ∧
      Text.lines newline stdin = line::Text.lines newline rest ∧ rest.length < stdin.length := by
  by_cases hmem : newline ∈ stdin
  · obtain ⟨line,rest,rfl,hline⟩ := List.eq_append_cons_of_mem hmem
    refine .inr ⟨line,rest,lshReadLine_newline hline rest,Text.lines_append_cons hline,?_⟩
    rw [List.length_append,List.length_cons]
    omega
  · by_cases hnil : stdin = []
    · exact .inl hnil
    · refine .inr ⟨stdin,[],lshReadLine_eof hmem,Text.lines_of_notMem hmem hnil,?_⟩
      exact List.length_pos_of_ne_nil hnil

/-- A session that ends at a line without tokens is too short. -/
theorem blank_line_iff {line : List UInt8} (h : tokensOf line = []) (rest : List (List UInt8)) :
    [Event.prompt].filter Event.ofLoop = expected (line::rest) ↔
      ∀ l ∈ upToExit (line::rest), tokensOf l ≠ [] := by
  have hshort : [Event.prompt].filter Event.ofLoop ≠ expected (line::rest) := by
    simp only [expected,h]
    intro heq
    exact expected_ne_nil _ (List.cons.inj heq).2.symm
  have hmem : line ∈ upToExit (line::rest) := by simp [upToExit,h]
  refine iff_of_false hshort ?_
  intro hall
  exact hall line hmem h

section Session
variable {system : System}

/-- One pass of the loop over a line. -/
theorem mainLoop_line {passes n : ℕ} {stdin line rest : List UInt8}
    (hread : lshReadLine stdin = some (line++[0],rest)) :
    mainLoop system (passes+1) n stdin =
      (lshExecute system n ((tokensOf line).map some++[none])).bind fun r =>
        if r.1 ≠ 0 then some (.prompt::r.2)
        else (mainLoop system passes (n+1) rest).bind fun events =>
          some (.prompt::r.2++events) := by
  rw [mainLoop,hread]
  simp only [Option.bind_eq_bind,Option.bind_some,lshSplitLine_terminated]
  congr

/-- The rest of a session does what it should exactly if it meets no line without tokens. -/
theorem mainLoop_expected_iff (hfork : ∀ n, (system.fork n).isSome = true) {passes n : ℕ}
    {stdin : List UInt8} (hpasses : stdin.length < passes) :
    ∃ events, mainLoop system passes n stdin = some events ∧
      (events.filter Event.ofLoop = expected (Text.lines newline stdin) ↔
        ∀ line ∈ upToExit (Text.lines newline stdin), tokensOf line ≠ []) := by
  -- each pass takes a line off the input; at its end the line read is empty and ends the loop
  induction passes generalizing n stdin with
  | zero => omega
  | succ passes ih =>
    rcases lshReadLine_cases stdin with hnil | ⟨line,rest,hread,hlines,hlen⟩
    · subst hnil
      have hempty : tokensOf [] = [] := rfl
      rw [mainLoop_line (lshReadLine_eof (List.not_mem_nil)),hempty]
      refine ⟨[.prompt],rfl,?_⟩
      simp [expected,upToExit,Event.ofLoop]
    · rw [mainLoop_line hread,hlines]
      cases htokens : tokensOf line with
      | nil => exact ⟨[.prompt],rfl,blank_line_iff htokens _⟩
      | cons name args =>
        obtain ⟨events,hexecute,hcall⟩ := lshExecute_cons (hfork n) name args
        rw [hexecute,Option.bind_some]
        simp only [expected,upToExit,htokens,List.head?_cons,Option.some.injEq]
        by_cases hexit : name = exitName
        · simp only [hexit,if_true]
          refine ⟨_,if_pos one_ne_zero,?_⟩
          rw [List.filter_cons_of_pos rfl,hcall,hexit]
          simp [htokens]
        · simp only [hexit,if_false]
          obtain ⟨more,hmore,hiff⟩ := ih (n := n+1) (show rest.length < passes by omega)
          rw [if_neg (not_not.mpr rfl),hmore,Option.bind_some]
          refine ⟨_,rfl,?_⟩
          rw [List.filter_append,List.filter_cons_of_pos rfl,hcall,List.forall_mem_cons,htokens]
          simp [hiff]

end Session

/-- On every input the shell ends, and its session is as it should be exactly if every line up to
the first `exit`, or to the end of the input, has a token. -/
theorem session_expected_iff (system : System) (stdin : List UInt8)
    (hfork : ∀ n, (system.fork n).isSome = true) :
    ∃ events, main system stdin = some events ∧
      (events.filter Event.ofLoop = expected (Text.lines newline stdin) ↔
        ∀ line ∈ upToExit (Text.lines newline stdin), tokensOf line ≠ []) :=
  mainLoop_expected_iff hfork (Nat.lt_succ_self _)

/-- All commands stop once and then exit. -/
def plainSystem : System := ⟨some [47],fun _ _ => true,fun _ => some ⟨[.stopped 19,.exited 0],rfl⟩⟩

/-- `ls -a` and `exit` -/
theorem session_expected_iff_test : (∀ n, (plainSystem.fork n).isSome = true) ∧
    ∃ events, main plainSystem [108,115,32,45,97,10,101,120,105,116,10,108,115,10] = some events ∧
      (events.filter Event.ofLoop =
          expected (Text.lines newline [108,115,32,45,97,10,101,120,105,116,10,108,115,10]) ↔
        ∀ line ∈ upToExit (Text.lines newline
          [108,115,32,45,97,10,101,120,105,116,10,108,115,10]), tokensOf line ≠ []) :=
  ⟨fun _ => rfl,session_expected_iff plainSystem _ fun _ => rfl⟩

/-- An empty line before `ls` ends the session. -/
theorem blank_line_ends_session : (∀ n, (plainSystem.fork n).isSome = true) ∧
    main plainSystem [10,108,115,10] = some [.prompt] ∧
    expected (Text.lines newline [10,108,115,10]) =
      [.prompt,.prompt,.call .lshLaunch [some [108,115],none],.prompt] ∧
    [Event.prompt].filter Event.ofLoop ≠ expected (Text.lines newline [10,108,115,10]) :=
  ⟨fun _ => rfl,by decide +kernel,by decide +kernel,by decide +kernel⟩

end CStudy.Shell

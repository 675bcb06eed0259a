import CStudy.Foundation.Text
import CStudy.Cat.Descriptor

/-! Whether `cat` copies everything it reads. What a short `write` has not accepted is never written
again, and the program still exits with 0. -/
namespace CStudy.Cat.Descriptor
open CStudy.Foundation

namespace Turn

/-- What is read. -/
def chunk : Turn → List UInt8
  | .copy c => c.chunk
  | _ => []

/-- How many bytes of it are written. -/
def count : Turn → ℕ
  | .copy c => c.written.getD 0
  | _ => 0

/-- What is accepted. -/
def accepted (turn : Turn) : List UInt8 := turn.chunk.take turn.count

/-- The program goes on. -/
def goesOn : Turn → Bool
  | .copy c => c.written.isSome
  | .interrupted => true
  | .failed => false

/-- `write` does not accept a part of the bytes only. -/
def whole : Turn → Bool
  | .copy c => c.written.all (· == c.chunk.length)
  | _ => true

end Turn

namespace Argument

/-- The passes of `do_cat` over the file. -/
def turns (arg : Argument) : List Turn :=
  match arg.opened with
  | .error _ => []
  | .ok turns => turns

/-- No call fails. -/
def succeeds (arg : Argument) : Bool := arg.opened.isOk && arg.turns.all Turn.goesOn && arg.closed

end Argument

/-- All passes of `do_cat`, without arguments over `stdin`. -/
def passes (stdin : List Turn) (args : List Argument) : List Turn :=
  if args = [] then stdin else args.flatMap Argument.turns

/-- What the files hold, one after another. -/
def contents (stdin : List Turn) (args : List Argument) : List UInt8 :=
  (passes stdin args).flatMap Turn.chunk

/-- No call fails, but for interrupted reads. -/
def succeeds (stdin : List Turn) (args : List Argument) : Bool :=
  if args = [] then stdin.all Turn.goesOn else args.all Argument.succeeds

section Runs
variable {turns stdin : List Turn} {args : List Argument}

/-- Either all passes go on and all that is accepted comes behind `stdout`, or the program ends with
an error. -/
theorem doCat_cases (turns : List Turn) (stdout : List UInt8) :
    (turns.all Turn.goesOn = true ∧
        doCat turns stdout = .ok (stdout++turns.flatMap Turn.accepted)) ∨
      (turns.all Turn.goesOn = false ∧ ∃ ended, doCat turns stdout = .error ended ∧
        ended.status = 1) := by
  induction turns generalizing stdout with
  | nil => simp [doCat]
  | cons turn turns ih =>
    cases turn with
    | interrupted => simpa [doCat,Turn.goesOn,Turn.accepted,Turn.chunk] using ih stdout
    | failed => simp [doCat,Turn.goesOn]
    | copy c =>
      cases hwritten : c.written with
      | none => simp [doCat,Turn.goesOn,hwritten]
      | some count =>
        simpa [doCat,Turn.goesOn,Turn.accepted,Turn.chunk,Turn.count,hwritten]
          using ih (stdout++c.chunk.take count)

theorem catFiles_cases (args : List Argument) (stdout : List UInt8) :
    (args.all Argument.succeeds = true ∧
        catFiles args stdout =
          ⟨0,stdout++(args.flatMap Argument.turns).flatMap Turn.accepted,[]⟩) ∨
      (args.all Argument.succeeds = false ∧ (catFiles args stdout).status = 1) := by
  induction args generalizing stdout with
  | nil => simp [catFiles]
  | cons arg args ih =>
    obtain ⟨name,opened,closed⟩ := arg
    cases opened with
    | error reason => simp [catFiles,Argument.succeeds,Except.isOk,Except.toBool]
    | ok turns =>
      obtain ⟨hgo,heq⟩ | ⟨hgo,ended,heq,hstatus⟩ := doCat_cases turns stdout
      · cases closed with
        | false => simp [catFiles,Argument.succeeds,heq]
        | true =>
          have hih := ih (stdout++turns.flatMap Turn.accepted)
          simpa [catFiles,Argument.succeeds,Argument.turns,heq,hgo,Except.isOk,Except.toBool]
            using hih
      · simp [catFiles,Argument.succeeds,Argument.turns,heq,hgo,hstatus]

theorem main_cases (stdin : List Turn) (args : List Argument) :
    (succeeds stdin args = true ∧
        main stdin args = ⟨0,(passes stdin args).flatMap Turn.accepted,[]⟩) ∨
      (succeeds stdin args = false ∧ (main stdin args).status = 1) := by
  cases args with
  | nil =>
    obtain ⟨hgo,heq⟩ | ⟨hgo,ended,heq,hstatus⟩ := doCat_cases stdin []
    · simp [main,succeeds,passes,hgo,heq]
    · simp [main,succeeds,passes,hgo,heq,hstatus]
  | cons arg args =>
    have hlen : ¬ (arg::args).length+1 < 2 := by
      rw [List.length_cons]
      omega
    simpa only [main,succeeds,passes,if_neg hlen,List.cons_ne_nil,if_false,List.nil_append]
      using catFiles_cases (arg::args) []

theorem Turn.length_le_count_iff {turn : Turn} (h : turn.goesOn = true) :
    turn.chunk.length ≤ turn.count ↔ turn.whole = true := by
  cases turn with
  | interrupted => simp [Turn.chunk,Turn.whole]
  | failed => cases h
  | copy c =>
    obtain ⟨count,hwritten⟩ := Option.isSome_iff_exists.mp h
    have hle := (c.written_le count hwritten).2
    simp only [Turn.chunk,Turn.count,Turn.whole,hwritten,Option.getD_some,Option.all_some,
      beq_iff_eq]
    omega

theorem flatMap_accepted_eq_iff (h : turns.all Turn.goesOn = true) :
    turns.flatMap Turn.accepted = turns.flatMap Turn.chunk ↔ turns.all Turn.whole = true := by
  unfold Turn.accepted
  rw [Text.flatMap_take_eq_iff,List.all_eq_true]
  exact forall₂_congr fun turn hmem => Turn.length_le_count_iff (List.all_eq_true.mp h turn hmem)

theorem passes_goesOn (h : succeeds stdin args = true) :
    (passes stdin args).all Turn.goesOn = true := by
  unfold succeeds at h
  unfold passes
  split_ifs at h ⊢ with hargs
  · exact h
  · rw [List.all_eq_true]
    intro turn hmem
    obtain ⟨arg,harg,hturn⟩ := List.mem_flatMap.mp hmem
    have hsucceeds := List.all_eq_true.mp h arg harg
    simp only [Argument.succeeds,Bool.and_eq_true] at hsucceeds
    exact List.all_eq_true.mp hsucceeds.1.2 turn hturn

end Runs

/-- For every list of files, every way in which they are read and every answer of the calls: that an
exit with 0 means that everything has been copied holds exactly if no `write` is short where all
calls succeed. -/
theorem main_copies_iff (stdin : List Turn) (args : List Argument) :
    ((main stdin args).status = 0 → (main stdin args).stdout = contents stdin args) ↔
      (succeeds stdin args = true → (passes stdin args).all Turn.whole = true) := by
  obtain ⟨hok,heq⟩ | ⟨hok,hstatus⟩ := main_cases stdin args
  · rw [heq,contents,flatMap_accepted_eq_iff (passes_goesOn hok)]
    simp [hok]
  · simp [hok,hstatus]

/-- A file of two bytes that are read at once, of which only one is written. -/
def shortFile : Argument := ⟨"a",.ok [.copy ⟨[104,105],some 1,by decide,by decide⟩],true⟩

theorem main_loses_byte :
    main [] [shortFile] = ⟨0,[104],[]⟩ ∧ contents [] [shortFile] = [104,105] := by decide

end CStudy.Cat.Descriptor

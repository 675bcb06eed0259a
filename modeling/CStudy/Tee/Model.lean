import CStudy.Foundation.Machine

/-! `tee01`, which copies what comes from the pipe on `stdin` to `stdout` and to a file: `tee`
duplicates bytes without consuming them, then `splice` moves them to the file. -/
namespace CStudy.Tee
open CStudy.Foundation

/-- Where the program is: at the call of `tee`, at the call of `splice` with so many bytes that have
been duplicated and not yet moved, or at its end. -/
inductive Position
  | teeing
  | splicing (len : ℕ)
  | exited (status : ℕ)
  deriving DecidableEq

/-- The condition of the inner loop. -/
def Position.inner (len : ℕ) : Position := if 0 < len then .splicing len else .teeing

/-- What has not been taken from the pipe, and what has been written. -/
structure State where
  stdin : List UInt8
  stdout : List UInt8
  file : List UInt8
  position : Position
  deriving DecidableEq

/-- The answers to the system calls. -/
inductive Answer
  /-- `tee` duplicates so many bytes -/
  | teed (count : ℕ)
  /-- `tee` returns -1 with `EAGAIN` -/
  | teeAgain
  /-- `tee` returns -1 with another error -/
  | teeFailed
  /-- `tee` returns 0 -/
  | teeEnded
  /-- `splice` moves so many bytes -/
  | spliced (count : ℕ)
  | spliceFailed
  deriving DecidableEq

/-- `INT_MAX` -/
def intMax : ℕ := 2^31-1

namespace State
variable (s : State)

def tee (count : ℕ) : State :=
  { s with stdout := s.stdout++s.stdin.take count, position := .inner count }

def splice (len count : ℕ) : State :=
  { s with
    stdin := s.stdin.drop count
    file := s.file++s.stdin.take count
    position := .inner (len-count) }

def move (position : Position) : State := { s with position := position }

end State

/-- The two loops over the calls, with the messages of `perror`. -/
def step : Machine State Answer (List String)
  | s,.teed count =>
    if s.position = .teeing ∧ 1 ≤ count ∧ count ≤ intMax ∧ count ≤ s.stdin.length then
      some (s.tee count,[])
    else none
  | s,.teeAgain => if s.position = .teeing then some (s,[]) else none
  | s,.teeFailed => if s.position = .teeing then some (s.move (.exited 1),["tee"]) else none
  | s,.teeEnded =>
    if s.position = .teeing ∧ s.stdin = [] then some (s.move (.exited 0),[]) else none
  | s,.spliced count =>
    match s.position with
    | .splicing len =>
      if 1 ≤ count ∧ count ≤ len ∧ count ≤ s.stdin.length then some (s.splice len count,[]) else none
    | _ => none
  | s,.spliceFailed =>
    match s.position with
    | .splicing _ => some (s.move .teeing,["splice"])
    | _ => none

/-- `main` up to its loop: the program has ended, or the file has been opened and is empty. -/
def main (argv : List String) (opened : Bool) (stdin : List UInt8) : State × List String :=
  if argv.length < 2 then (⟨stdin,[],[],.exited 1⟩,["Usage: "++argv.headD ""++" file\n"])
  else if opened then (⟨stdin,[],[],.teeing⟩,[])
  else (⟨stdin,[],[],.exited 1⟩,["open"])

/-- What a step can do. -/
inductive Change (s : State) : Answer → State → Prop
  | tee {count : ℕ} (position : s.position = .teeing) (le : count ≤ s.stdin.length) :
      Change s (.teed count) (s.tee count)
  | again : Change s .teeAgain s
  | failed (position : s.position = .teeing) : Change s .teeFailed (s.move (.exited 1))
  | ended (position : s.position = .teeing) (stdin : s.stdin = []) :
      Change s .teeEnded (s.move (.exited 0))
  | splice {len count : ℕ} (position : s.position = .splicing len) (le : count ≤ len)
      (le_stdin : count ≤ s.stdin.length) : Change s (.spliced count) (s.splice len count)
  | spliceFailed {len : ℕ} (position : s.position = .splicing len) :
      Change s .spliceFailed (s.move .teeing)

section Cases
variable {s t : State} {answer : Answer} {messages : List String}

theorem change_of_step (h : step s answer = some (t,messages)) : Change s answer t := by
  cases answer with
  | teed count =>
    simp only [step] at h
    split_ifs at h with hcond
    cases h
    exact .tee hcond.1 hcond.2.2.2
  | teeAgain =>
    simp only [step] at h
    split_ifs at h
    cases h
    exact .again
  | teeFailed =>
    simp only [step] at h
    split_ifs at h with hpos
    cases h
    exact .failed hpos
  | teeEnded =>
    simp only [step] at h
    split_ifs at h with hcond
    cases h
    exact .ended hcond.1 hcond.2
  | spliced count =>
    simp only [step] at h
    split at h
    · next len hpos =>
      split_ifs at h with hcond
      cases h
      exact .splice hpos hcond.2.1 hcond.2.2
    · cases h
  | spliceFailed =>
    simp only [step] at h
    split at h
    · next len hpos =>
      cases h
      exact .spliceFailed hpos
    · cases h

end Cases

end CStudy.Tee

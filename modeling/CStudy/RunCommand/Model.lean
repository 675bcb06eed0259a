import CStudy.Foundation.Stdio

/-! `run_command` and `run_command_with_signal`, which run each line of `stdin` as the name of a
program. The second one also has a handler for `SIGINT`, which prints a message. -/
namespace CStudy.RunCommand
open CStudy.Foundation

/-- The answers of the system calls in each round of the loop. -/
structure System where
  /-- `fork` succeeds -/
  fork : ℕ → Bool
  /-- the status that `waitpid` gives, `none` when it fails -/
  waitpid : ℕ → Option ℤ

/-- How a program ends, with the names that have been passed to `execlp`. -/
structure Exit where
  commands : List (List UInt8)
  stdout : List String
  stderr : List String
  status : ℕ
  deriving DecidableEq

/-- The string in a buffer is what stands before its first null character. -/
def strlen (buffer : List UInt8) : ℕ := (buffer.takeWhile fun c => decide (c ≠ 0)).length

/-- What `print_prompt` prints. -/
def prompt : String := "> "

/-- A round in which `execlp` is called with the name, and what has been printed up to its end. -/
def Exit.after (name : List UInt8) (printed : List String) (exit : Exit) : Exit :=
  { exit with commands := name::exit.commands, stdout := printed++exit.stdout }

/-- The loop, with what the handler prints in each round. There is no result when a byte in front of
the buffer is overwritten. -/
def loop (system : System) (handled : ℕ → List String) (round : ℕ) (stdin : File) : Option Exit :=
  match _h : stdin.fgets 256 with
  | (none,_) => some ⟨[],handled round,["fgets"],1⟩
  | (some buffer,rest) =>
    let len := strlen buffer
    if len = 0 then none
    else if system.fork round then
      let name := buffer.take (len-1)
      match system.waitpid round with
      | none => some ⟨[name],handled round,["waitpid"],1⟩
      | some status =>
        (loop system handled (round+1) rest).map
          (Exit.after name (handled round++["## exit status="++toString status++"\n",prompt]))
    else some ⟨[],handled round,["fork"],1⟩
termination_by stdin.left.length
decreasing_by exact (File.fgets_eq_some (by omega : 2 ≤ 256) ‹_›).1

section Equations
variable {system : System} {handled : ℕ → List String} {round : ℕ} {stdin rest : File}
  {buffer : List UInt8} {status : ℤ}

theorem loop_of_none (h : stdin.fgets 256 = (none,rest)) :
    loop system handled round stdin = some ⟨[],handled round,["fgets"],1⟩ := by
  rw [loop]
  split
  · rfl
  · next heq => cases h.symm.trans heq

/-- A round in which all calls succeed. -/
theorem loop_of_some (h : stdin.fgets 256 = (some buffer,rest)) (hlen : strlen buffer ≠ 0)
    (hfork : system.fork round = true) (hwait : system.waitpid round = some status) :
    loop system handled round stdin = (loop system handled (round+1) rest).map
      (Exit.after (buffer.take (strlen buffer-1))
        (handled round++["## exit status="++toString status++"\n",prompt])) := by
  rw [loop]
  split
  · next heq => cases h.symm.trans heq
  · next buffer' rest' heq =>
    cases h.symm.trans heq
    simp only [hlen,hfork,hwait,if_false,if_true]

end Equations

/-- `main`: the first prompt and the loop. -/
def prompted (system : System) (handled : ℕ → List String) (stdin : File) : Option Exit :=
  (loop system handled 0 stdin).map fun exit => { exit with stdout := prompt::exit.stdout }

def runCommand (system : System) (stdin : File) : Option Exit := prompted system (fun _ => []) stdin

/-- `sigint_handler` runs so many times in each round. -/
def runCommandWithSignal (system : System) (signals : ℕ → ℕ) (stdin : File) : Option Exit :=
  prompted system (fun round => List.replicate (signals round) "got SIGINT\n") stdin

end CStudy.RunCommand

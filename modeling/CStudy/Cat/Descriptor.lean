import CStudy.Cat.Model

/-! The `cat` that reads from a descriptor and writes to another one. Each call of `write` gets what
the `read` before it has delivered, and how many bytes it accepts is not looked at. -/
namespace CStudy.Cat.Descriptor
open CStudy.Foundation

/-- A `read` that delivers bytes, and the value of the `write` behind it, `none` for -1. -/
structure Copy where
  chunk : List UInt8
  written : Option ℕ
  chunk_size : 1 ≤ chunk.length ∧ chunk.length ≤ 4096
  written_le : ∀ count ∈ written, 1 ≤ count ∧ count ≤ chunk.length

/-- One pass of the loop in `do_cat` that is not its last one. -/
inductive Turn
  | copy (c : Copy)
  /-- `read` returns -1 with `EINTR` -/
  | interrupted
  /-- it returns -1 with another error -/
  | failed

/-- `do_cat`: how the program ends, or what has been accepted when `read` has returned 0. -/
def doCat : List Turn → List UInt8 → Except Exit (List UInt8)
  | [],stdout => .ok stdout
  | .interrupted::turns,stdout => doCat turns stdout
  | .failed::_,stdout => .error ⟨1,stdout,["read"]⟩
  | .copy c::turns,stdout =>
    match c.written with
    | none => .error ⟨1,stdout,["write"]⟩
    | some count => doCat turns (stdout++c.chunk.take count)

/-- An argument, with what `open` makes of it: the text of its error, or a descriptor. -/
structure Argument where
  name : String
  opened : Except String (List Turn)
  /-- `close` succeeds -/
  closed : Bool

/-- The loop of `main` over its arguments. -/
def catFiles : List Argument → List UInt8 → Exit
  | [],stdout => ⟨0,stdout,[]⟩
  | arg::args,stdout =>
    match arg.opened with
    | .error reason => ⟨1,stdout,["failed to open "++arg.name++": "++reason++"\n"]⟩
    | .ok turns =>
      match doCat turns stdout with
      | .error ended => ended
      | .ok stdout => if arg.closed then catFiles args stdout else ⟨1,stdout,["close"]⟩

def main (stdin : List Turn) (args : List Argument) : Exit :=
  if args.length+1 < 2 then
    match doCat stdin [] with
    | .error ended => ended
    | .ok stdout => ⟨0,stdout,[]⟩
  else catFiles args []

end CStudy.Cat.Descriptor

import CStudy.Foundation.Stdio

/-! Two programs that count the lines of files: `wc` reads blocks from a descriptor and counts in a
`size_t`, `wc2` reads byte by byte and counts in an `int`. -/
namespace CStudy.WordCount
open CStudy.Foundation
open CStudy.Foundation.File (newline)

/-- What a call of `read` gives. -/
inductive ReadResult
  | chunk (bytes : List UInt8) (size : 1 ≤ bytes.length ∧ bytes.length ≤ 4096)
  /-- -1 with `EINTR` -/
  | interrupted
  /-- -1 with another error -/
  | failed
  /-- 0 -/
  | endOfFile
  deriving DecidableEq

/-- What the calls of `read` on a descriptor give, one after another. -/
abbrev Reads := ℕ → ReadResult

/-- How `do_wc` ends: how often it has called `read`, what it returns and the messages of `perror`. -/
structure Counted where
  reads : ℕ
  lines : UInt64
  stderr : List String
  deriving DecidableEq

/-- The loop of `do_wc` over the bytes of the buffer. -/
def countLines (bytes : List UInt8) (lines : UInt64) : UInt64 :=
  bytes.foldl (fun lines c => if c = newline then lines+1 else lines) lines

/-- `do_wc` before a call of `read`. It has no result when the fuel does not suffice. -/
def doWc (reads : Reads) : ℕ → ℕ → UInt64 → Option Counted
  | 0,_,_ => none
  | fuel+1,next,lines =>
    match reads next with
    | .interrupted => doWc reads fuel (next+1) lines
    | .failed => (doWc reads fuel (next+1) lines).map fun c => { c with stderr := "read"::c.stderr }
    | .endOfFile => some ⟨next+1,lines,[]⟩
    | .chunk bytes _ => doWc reads fuel (next+1) (countLines bytes lines)

/-- An argument, with what opening the file gives. -/
structure Argument (α : Type) where
  name : String
  opened : Option α

structure Exit where
  stdout : List String
  stderr : List String
  status : ℕ
  deriving DecidableEq

/-- A number with the width of a conversion of `printf`. -/
def padded (width : ℕ) (n : ℤ) : String := "".pushn ' ' (width-(toString n).length)++toString n

/-- `%zd` takes a `size_t` for a signed number. -/
def signed (n : UInt64) : ℤ := n.toInt64.toInt

/-- The loop of `main` in `wc` over the arguments. -/
def wcFiles (fuel : ℕ) : List (Argument Reads) → UInt64 → Option Exit
  | [],total => some ⟨[padded 5 (signed total)++" total\n"],[],0⟩
  | arg::args,total =>
    match arg.opened with
    | none => some ⟨[],["open"],1⟩
    | some fd => (doWc fd fuel 0 0).bind fun c =>
      (wcFiles fuel args (total+c.lines)).map fun exit =>
        { exit with
          stdout := (padded 5 (signed c.lines)++" "++arg.name++"\n")::exit.stdout
          stderr := c.stderr++exit.stderr }

def wc (fuel : ℕ) (stdin : Reads) (args : List (Argument Reads)) : Option Exit :=
  if args.length+1 < 2 then
    (doWc stdin fuel 0 0).map fun c => ⟨[toString (signed c.lines)++"\n"],c.stderr,0⟩
  else wcFiles fuel args 0

/-- The loop of `wc2` over a file. -/
def wc2Lines (fp : File) (lines : Int32) : Int32 :=
  if fp.fgetc.1 = File.endOfFile then lines
  else wc2Lines fp.fgetc.2 (if fp.fgetc.1 = newline.toNat then lines+1 else lines)
termination_by fp.left.length
decreasing_by exact File.length_fgetc_lt ‹_›

/-- The loop of `wc2` over the arguments. -/
def wc2Files : List (Argument File) → Exit
  | [] => ⟨[],[],0⟩
  | arg::args =>
    match arg.opened with
    | none => ⟨[],["fopen"],1⟩
    | some fp =>
      let exit := wc2Files args
      { exit with stdout := (padded 5 (wc2Lines fp 0).toInt++" "++arg.name++"\n")::exit.stdout }

def wc2 (args : List (Argument File)) : Exit :=
  if args.length+1 < 2 then ⟨[],["Usage: wc2 file1 file2 ...\n"],1⟩ else wc2Files args

end CStudy.WordCount

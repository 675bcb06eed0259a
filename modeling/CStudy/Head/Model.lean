import CStudy.Foundation.Stdio
import CStudy.Foundation.Text

/-! Three programs that print the first lines of their files: `head1` of `stdin`, `head2` of the files
it is given, and `head3`, which takes options. What `getopt_long` makes of the arguments is given. -/
namespace CStudy.Head
open CStudy.Foundation

/-- What `fopen` returns, by name. -/
abbrev FileSystem := List UInt8 → Option File

/-- How a program ends: its status, what it has written to `stdout`, and its messages on `stderr`. -/
structure Exit where
  status : ℕ
  stdout : List UInt8
  stderr : List String
  deriving DecidableEq

def isSpace (c : UInt8) : Bool := decide (c = 32) || decide (9 ≤ c ∧ c ≤ 13)

def isDigit (c : UInt8) : Bool := decide (48 ≤ c ∧ c ≤ 57)

/-- A `long`, as `strtol` cuts off what is out of range. -/
def toLong (x : ℤ) : ℤ := max (-2^63) (min x (2^63-1))

/-- The value of the digits at the beginning. -/
def digits (s : List UInt8) : ℤ := Text.readDecimal (s.takeWhile isDigit)

def atol (s : List UInt8) : ℤ :=
  match s.dropWhile isSpace with
  | 45::s => toLong (-digits s)
  | 43::s => toLong (digits s)
  | s => toLong (digits s)

/-- The loop of `do_head`. -/
def headLoop (f : File) (lines : ℤ) (stdout : List UInt8) : List UInt8 :=
  if f.fgetc.1 = File.endOfFile then stdout
  else if f.fgetc.1 = File.newline.toNat then
    if lines-1 = 0 then fputc f.fgetc.1 stdout
    else headLoop f.fgetc.2 (lines-1) (fputc f.fgetc.1 stdout)
  else headLoop f.fgetc.2 lines (fputc f.fgetc.1 stdout)
termination_by f.left.length
decreasing_by all_goals exact File.length_fgetc_lt ‹_›

/-- `do_head`: what is on `stdout` after it. -/
def doHead (f : File) (lines : ℤ) (stdout : List UInt8) : List UInt8 :=
  if lines ≤ 0 then stdout else headLoop f lines stdout

/-- The loop over the files. -/
def headFiles (fs : FileSystem) (lines : ℤ) : List (List UInt8) → List UInt8 → Exit
  | [],stdout => ⟨0,stdout,[]⟩
  | name::names,stdout =>
    match fs name with
    | none => ⟨1,stdout,["fopen"]⟩
    | some fp => headFiles fs lines names (doHead fp lines stdout)

def head1 (program : String) (stdin : File) : List (List UInt8) → Exit
  | [] => ⟨1,[],["Usage: "++program++" lines\n"]⟩
  | arg::_ => ⟨0,doHead stdin (atol arg) [],[]⟩

/-- Without a file nothing is read. -/
def head2 (fs : FileSystem) (stdin : File) : List (List UInt8) → Exit
  | [] => ⟨0,doHead stdin 10 [],[]⟩
  | arg::names => headFiles fs (atol arg) names []

/-- A return value of `getopt_long`, with `optarg`. -/
inductive Opt
  | n (optarg : List UInt8)
  | h
  | unknown
  deriving DecidableEq

def defaultLines : ℤ := 10

def usage (program : String) : List UInt8 :=
  Text.ascii ("Usage: "++program++" [-n lines] [-h] file1 ...\n")

/-- The loop over the options: the program ends, or goes on with the number of lines. -/
def readOptions (program : String) : List Opt → ℤ → Except Exit ℤ
  | [],lines => .ok lines
  | .n optarg::opts,_ => readOptions program opts (atol optarg)
  | .h::_,_ => .error ⟨0,usage program,[]⟩
  | .unknown::_,_ => .error ⟨1,usage program,[]⟩

/-- The operands are what `getopt_long` has left behind `optind`. -/
def head3 (program : String) (fs : FileSystem) (stdin : File) (opts : List Opt)
    (operands : List (List UInt8)) : Exit :=
  match readOptions program opts defaultLines with
  | .error ended => ended
  | .ok lines =>
    if operands = [] then ⟨0,doHead stdin lines [],[]⟩ else headFiles fs lines operands []

end CStudy.Head

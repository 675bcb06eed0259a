import CStudy.Foundation.Text

/-! The shell of `simple_shell01`. A write beyond the end of a buffer and a read beyond the end of
the argument array are undefined. Memory can always be had. A `char *` stands for its string, which
nothing changes while the shell uses it. -/
namespace CStudy.Shell
open CStudy.Foundation

/-- The bytes of a C string, without the terminator. -/
abbrev Str := List UInt8

def newline : UInt8 := 10

section Buffers
variable {α : Type}

/-- `buffer[pos] = x`, where `pos` is the number of elements written so far. -/
def store (bufSize : ℕ) (buffer : List α) (x : α) : Option (List α) :=
  if buffer.length < bufSize then some (buffer++[x]) else none

/-- `if (pos >= buf_size) { buf_size += step; }` -/
def grow (step bufSize : ℕ) (buffer : List α) : ℕ :=
  if buffer.length ≥ bufSize then bufSize+step else bufSize

end Buffers

def lineBufSize : ℕ := 256

/-- The loop of `lsh_read_line`: the memory it returns, and what is left of the input. -/
def readLoop : List UInt8 → ℕ → List UInt8 → Option (List UInt8 × List UInt8)
  | [],bufSize,buffer => (store bufSize buffer 0).map fun buffer => (buffer,[])
  | c::stdin,bufSize,buffer =>
    if c = newline then (store bufSize buffer 0).map fun buffer => (buffer,stdin)
    else (store bufSize buffer c).bind fun buffer =>
      readLoop stdin (grow lineBufSize bufSize buffer) buffer

def lshReadLine (stdin : List UInt8) : Option (List UInt8 × List UInt8) :=
  readLoop stdin lineBufSize []

def tokenBufSize : ℕ := 128

/-- `" \t\r\n\a"` -/
def tokenDelimiter : List UInt8 := [32,9,13,10,7]

def isDelimiter (c : UInt8) : Bool := decide (c ∈ tokenDelimiter)

/-- The next token of a string, and the string in which `strtok` goes on. -/
def strtok (s : Str) : Option (Str × Str) :=
  let s := s.dropWhile isDelimiter
  if s = [] then none
  else some (s.takeWhile fun c => !isDelimiter c,(s.dropWhile fun c => !isDelimiter c).drop 1)

/-- The loop of `lsh_split_line`: the array it returns, with `NULL` as `none`. Each token takes
one of the passes. -/
def splitLoop : ℕ → ℕ → List (Option Str) → Str → Option (List (Option Str))
  | 0,_,_,_ => none
  | passes+1,bufSize,tokens,s =>
    match strtok s with
    | none => store bufSize tokens none
    | some (token,rest) =>
      (store bufSize tokens (some token)).bind fun tokens =>
        splitLoop passes (grow tokenBufSize bufSize tokens) tokens rest

/-- The string at the beginning of a piece of memory. -/
def cString (memory : List UInt8) : Str := memory.takeWhile fun c => decide (c ≠ 0)

def lshSplitLine (line : List UInt8) : Option (List (Option Str)) :=
  splitLoop ((cString line).length+1) tokenBufSize [] (cString line)

/-- What `waitpid` reports of a child. -/
inductive WaitStatus
  | exited (status : UInt8)
  | signaled (signal : ℕ)
  | stopped (signal : ℕ)
  deriving DecidableEq

def WaitStatus.isEnd : WaitStatus → Bool
  | .exited _ => true
  | .signaled _ => true
  | .stopped _ => false

/-- A child in its states as the parent sees them, up to its end. -/
structure Child where
  reports : List WaitStatus
  ends : reports.any WaitStatus.isEnd = true

/-- What the system answers. `chdir n` and `fork n` are for the `n`-th line: whether the directory
can be entered, and the child if there is one. -/
structure System where
  home : Option Str
  chdir : ℕ → Option Str → Bool
  fork : ℕ → Option Child

inductive Function
  | lshLaunch
  | builtinCd
  | builtinExit
  deriving DecidableEq

/-- What the shell does that can be seen. -/
inductive Event
  /-- `printf("> ")` -/
  | prompt
  /-- a command is handed to a function -/
  | call (func : Function) (args : List (Option Str))
  | chdir (dir : Option Str)
  | perror (message : String)
  deriving DecidableEq

/-- `do { waitpid(pid, &status, WUNTRACED); } while (…)` -/
def waitLoop : List WaitStatus → Option Unit
  | [] => none
  | status::reports => if status.isEnd then some () else waitLoop reports

def lshLaunch (child : Option Child) : Option (ℤ × List Event) :=
  match child with
  | none => some (-1,[.perror "fork"])
  | some child => (waitLoop child.reports).map fun _ => (0,[])

def builtinCd (system : System) (n : ℕ) (args : List (Option Str)) : Option (ℤ × List Event) :=
  args[1]?.map fun arg =>
    let dir := arg.elim system.home some
    (0,if system.chdir n dir then [.chdir dir] else [.chdir dir,.perror "chdir"])

def builtinExit : Option (ℤ × List Event) := some (1,[])

/-- `cd` and `exit` -/
def builtinFunctions : List (Str × Function) :=
  [([99,100],.builtinCd),([101,120,105,116],.builtinExit)]

def runFunction (system : System) (n : ℕ) (args : List (Option Str)) :
    Function → Option (ℤ × List Event)
  | .lshLaunch => lshLaunch (system.fork n)
  | .builtinCd => builtinCd system n args
  | .builtinExit => builtinExit

/-- The call of a function, noted before what it does. -/
def callFunction (system : System) (n : ℕ) (args : List (Option Str)) (func : Function) :
    Option (ℤ × List Event) :=
  (runFunction system n args func).map fun r => (r.1,.call func args::r.2)

/-- The function a command is handed to: the first builtin with its name. -/
def lookup (name : Str) : Function :=
  ((builtinFunctions.find? fun b => decide (b.1 = name)).map Prod.snd).getD .lshLaunch

def lshExecute (system : System) (n : ℕ) (args : List (Option Str)) : Option (ℤ × List Event) :=
  match args[0]? with
  | none => none
  | some none => some (1,[])
  | some (some name) => callFunction system n args (lookup name)

/-- The loop of `main`, from line `n` on, in at most so many passes. -/
def mainLoop (system : System) : ℕ → ℕ → List UInt8 → Option (List Event)
  | 0,_,_ => none
  | passes+1,n,stdin => do
    let (line,stdin) ← lshReadLine stdin
    let args ← lshSplitLine line
    let (status,events) ← lshExecute system n args
    if status ≠ 0 then return .prompt::events
    else return .prompt::events++(← mainLoop system passes (n+1) stdin)

/-- What the shell does on an input. Each pass of its loop but the last takes a byte off it. -/
def main (system : System) (stdin : List UInt8) : Option (List Event) :=
  mainLoop system (stdin.length+1) 0 stdin

end CStudy.Shell

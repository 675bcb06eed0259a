import CStudy.Foundation.Memory

/-! The directory walk of `count_file_types`. All levels of the recursion write into one buffer for
the path, which is reached through a pointer and may be moved when it is enlarged. An access to a
block that is not allocated or beyond its end is undefined, and so is an `int` that overflows.
`malloc` is taken to succeed. -/
namespace CStudy.DirWalk
open CStudy.Foundation

/-- The bytes of a C string, without the terminator. -/
abbrev Str := List UInt8

def slash : UInt8 := 47

/-- `"."` and `".."` -/
def dot : Str := [46]
def dotDot : Str := [46,46]

def pathMax : ℕ := 4096

/-- `mode_t`: the bits under `S_IFMT` tell the type of a file. -/
abbrev Mode := UInt32

def sIfmt : Mode := 0o170000

def hasType (type mode : Mode) : Bool := decide (mode &&& sIfmt = type)

def sIsReg : Mode → Bool := hasType 0o100000
def sIsBlk : Mode → Bool := hasType 0o060000
def sIsChr : Mode → Bool := hasType 0o020000
def sIsFifo : Mode → Bool := hasType 0o010000
def sIsLnk : Mode → Bool := hasType 0o120000
def sIsSock : Mode → Bool := hasType 0o140000
def sIsDir : Mode → Bool := hasType 0o040000

structure FileStatistic where
  regularFiles : ℤ
  blockDevices : ℤ
  characterDevices : ℤ
  fifos : ℤ
  links : ℤ
  sockets : ℤ
  directories : ℤ
  deriving DecidableEq

/-- After `memset(&statistic, 0, sizeof(statistic))`. -/
def FileStatistic.zero : FileStatistic := ⟨0,0,0,0,0,0,0⟩

/-- `++` of an `int` -/
def increment (x : ℤ) : Option ℤ := if x < 2^31-1 then some (x+1) else none

def fileCallback (_path : Str) (mode : Mode) (fs : FileStatistic) : Option FileStatistic :=
  if sIsReg mode then (increment fs.regularFiles).map fun n => { fs with regularFiles := n }
  else if sIsBlk mode then (increment fs.blockDevices).map fun n => { fs with blockDevices := n }
  else if sIsChr mode then
    (increment fs.characterDevices).map fun n => { fs with characterDevices := n }
  else if sIsFifo mode then (increment fs.fifos).map fun n => { fs with fifos := n }
  else if sIsLnk mode then (increment fs.links).map fun n => { fs with links := n }
  else if sIsSock mode then (increment fs.sockets).map fun n => { fs with sockets := n }
  else if sIsDir mode then (increment fs.directories).map fun n => { fs with directories := n }
  else some fs

/-- What `print_statistic` prints: the directory, and a line for each counter. -/
structure Report where
  dir : Str
  lines : List (String × ℤ)
  deriving DecidableEq

def printStatistic (dir : Str) (fs : FileStatistic) : Report :=
  ⟨dir,[("regular files:     ",fs.regularFiles),("block_devices:     ",fs.blockDevices),
    ("character devices: ",fs.characterDevices),("fifos:             ",fs.fifos),
    ("symbolic links:    ",fs.links),("sockets:           ",fs.sockets),
    ("directories:       ",fs.directories)]⟩

/-- How `realloc` ends. -/
inductive Realloc
  | inPlace
  | moved
  | failed
  deriving DecidableEq

/-- What the system answers. `opendir` gives the names that `readdir` will give, in its order. The
`n`-th block that is allocated or enlarged has held `stale n` before. -/
structure System where
  lstat : Str → Option Mode
  opendir : Str → Option (List Str)
  realloc : ℕ → Realloc
  stale : ℕ → ℕ → UInt8

/-- The blocks by their addresses, of which those from `top` on are not in use, and what the callback
works on. -/
structure State (σ : Type) where
  blocks : ℕ → Option (List UInt8)
  top : ℕ
  allocations : ℕ
  stderr : List String
  arg : σ

namespace State
variable {σ : Type}

def string (s : State σ) (p : ℕ) : Option Str := (s.blocks p).bind Memory.string

/-- What a function does to one block. -/
def modify (s : State σ) (p : ℕ) (f : List UInt8 → Option (List UInt8)) : Option (State σ) :=
  ((s.blocks p).bind f).map fun memory => { s with
    blocks := Function.update s.blocks p (some memory) }

/-- `p[i] = x` -/
def write (s : State σ) (p i : ℕ) (x : UInt8) : Option (State σ) :=
  s.modify p fun memory => Memory.write memory i x

/-- `strcpy(&p[i], name)` -/
def strcpy (s : State σ) (p i : ℕ) (name : Str) : Option (State σ) :=
  s.modify p fun memory => Memory.copy memory i (name++[0])

def perror (s : State σ) (message : String) : State σ := { s with stderr := s.stderr++[message] }

end State

/-- A block of `size` bytes that begins with what is in `memory`. -/
def resize (stale : ℕ → UInt8) (memory : List UInt8) (size : ℕ) : List UInt8 :=
  memory.take size++(List.range (size-memory.length)).map fun i => stale (memory.length+i)

section Walk
variable {σ : Type} (system : System)

/-- `realloc(p, size)` -/
def realloc (s : State σ) (p size : ℕ) : Option (Option ℕ × State σ) :=
  (s.blocks p).map fun memory =>
    let s' := { s with allocations := s.allocations+1 }
    let memory' := resize (system.stale s.allocations) memory size
    match system.realloc s.allocations with
    | .inPlace => (some p,{ s' with blocks := Function.update s.blocks p (some memory') })
    | .moved => (some s.top,{ s' with
        blocks := Function.update (Function.update s.blocks p none) s.top (some memory')
        top := s.top+1 })
    | .failed => (none,s')

/-- `if (path_len > buf_len / 2)`: the buffer and its size behind it. -/
def enlarge (path bufLen pathLen : ℕ) (s : State σ) : Option (Option ℕ × ℕ × State σ) :=
  if pathLen > bufLen/2 then
    (realloc system s path (bufLen*2)).map fun r => (r.1,bufLen*2,r.2)
  else some (some path,bufLen,s)

/-- The loop over the entries of a directory, with the walk it calls. -/
def walkEntries (walk : ℕ → ℕ → State σ → Option (ℤ × State σ)) (path bufLen pathEnd : ℕ) :
    List Str → State σ → Option (ℤ × State σ)
  | [],s => some (0,s)
  | name::names,s =>
    if name = dot ∨ name = dotDot then walkEntries walk path bufLen pathEnd names s
    else do
      let s ← s.strcpy path pathEnd name
      let (ret,s) ← walk path bufLen s
      if ret ≠ 0 then return (ret,s) else walkEntries walk path bufLen pathEnd names s

/-- `dir_walk` from `size_t path_len = strlen(path);` on. -/
def walkDirectory (walk : ℕ → ℕ → State σ → Option (ℤ × State σ)) (path bufLen pathLen : ℕ)
    (s : State σ) : Option (ℤ × State σ) := do
  let (path?,bufLen,s) ← enlarge system path bufLen pathLen s
  match path? with
  | none => return (-1,s.perror "realloc")
  | some path =>
    let s ← s.write path pathLen slash
    let s ← s.write path (pathLen+1) 0
    let pathEnd := pathLen+1
    let name ← s.string path
    match system.opendir name with
    | none => return (-1,s.perror "opendir")
    | some names =>
      let (ret,s) ← walkEntries walk path bufLen pathEnd names s
      let s ← s.write path (pathEnd-1) 0
      return (ret,s)

/-- `dir_walk`, down to a depth. -/
def dirWalk (fn : Str → Mode → σ → Option σ) : ℕ → ℕ → ℕ → State σ → Option (ℤ × State σ)
  | 0,_,_,_ => none
  | depth+1,path,bufLen,s => do
    let name ← s.string path
    match system.lstat name with
    | none => return (-1,s.perror "lstat")
    | some mode =>
      let arg ← fn name mode s.arg
      let s := { s with arg := arg }
      if !sIsDir mode then return (0,s)
      else walkDirectory system (dirWalk fn depth) path bufLen name.length s

/-- `main` up to the call of `dir_walk`: the buffer, its size, and the state. -/
def prepare (root : Str) (arg : σ) : Option (Option ℕ × ℕ × State σ) :=
  let memory := resize (system.stale 0) [] (pathMax+1)
  let s : State σ := ⟨Function.update (fun _ => none) 0 (some memory),1,1,[],arg⟩
  if root.length ≥ pathMax+1 then
    (realloc system s 0 (root.length*2)).bind fun r =>
      match r with
      | (none,s) => some (none,root.length*2,s.perror "realloc")
      | (some path,s) => (s.strcpy path 0 root).map fun s => (some path,root.length*2,s)
  else (s.strcpy 0 0 root).map fun s => (some 0,pathMax+1,s)

/-- What `main` returns and what it prints, walking down to a depth. -/
def main (depth : ℕ) (root : Str) : Option (ℤ × Option Report) := do
  let (path?,bufLen,s) ← prepare system root FileStatistic.zero
  match path? with
  | none => return (1,none)
  | some path =>
    let (_,s) ← dirWalk system fileCallback depth path bufLen s
    let dir ← s.string path
    return (0,some (printStatistic dir s.arg))

end Walk

end CStudy.DirWalk

import CStudy.Foundation.Stdio

/-! Two programs that print files one after another: `cat2` byte by byte, and `cat4` in blocks of
1024 bytes. -/
namespace CStudy.Cat
open CStudy.Foundation

/-- The files that can be opened, by their names. -/
abbrev FileSystem := List UInt8 → Option File

/-- How a program ends: its status, what it has written to `stdout`, and the messages of `perror`. -/
structure Exit where
  status : ℕ
  stdout : List UInt8
  stderr : List String
  deriving DecidableEq

/-- `do_cat`: what is on `stdout` after it. -/
def doCat (f : File) (stdout : List UInt8) : List UInt8 :=
  if f.fgetc.1 = File.endOfFile then stdout
  else doCat f.fgetc.2 (fputc f.fgetc.1 stdout)
termination_by f.left.length
decreasing_by exact File.length_fgetc_lt ‹_›

/-- The loop of `cat2` over its arguments. -/
def cat2Files (fs : FileSystem) : List (List UInt8) → List UInt8 → Exit
  | [],stdout => ⟨0,stdout,[]⟩
  | name::names,stdout =>
    match fs name with
    | none => ⟨1,stdout,["fopen"]⟩
    | some fp => cat2Files fs names (doCat fp stdout)

def cat2 (fs : FileSystem) (stdin : File) (names : List (List UInt8)) : Exit :=
  if names.length+1 < 2 then ⟨0,doCat stdin [],[]⟩ else cat2Files fs names []

/-- The inner loop of `cat4`: how the program ends, or what is on `stdout` when the file is closed. -/
def cat4File (fp : File) (stdout : List UInt8) : Except Exit (List UInt8) :=
  let r := fp.fread 1024
  if r.2.error then .error ⟨1,stdout,["fread"]⟩
  else
    let w := fwrite r.1 stdout
    if w.1 = 0 then .error ⟨1,w.2,["fwrite"]⟩
    else if r.2.eof then .ok w.2
    else cat4File r.2 w.2
termination_by fp.left.length
decreasing_by exact File.length_fread_lt ‹_›

/-- The loop of `cat4` over its arguments. -/
def cat4Files (fs : FileSystem) : List (List UInt8) → List UInt8 → Exit
  | [],stdout => ⟨0,stdout,[]⟩
  | name::names,stdout =>
    match fs name with
    | none => ⟨1,stdout,["fopen"]⟩
    | some fp =>
      match cat4File fp stdout with
      | .error ended => ended
      | .ok stdout => cat4Files fs names stdout

def cat4 (fs : FileSystem) (names : List (List UInt8)) : Exit := cat4Files fs names []

end CStudy.Cat

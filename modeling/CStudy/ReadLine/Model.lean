import CStudy.Foundation.Memory
import CStudy.Foundation.Text

/-! `read_line`, which takes a line off a file descriptor byte by byte. A write beyond the end of the
buffer is undefined. The bytes are unbounded in number, as is `total`, which counts those in the
buffer. -/
namespace CStudy.ReadLine
open CStudy.Foundation

/-- What `read(fd, &ch, 1)` gives. Behind its last answer a descriptor is at the end of the file. -/
inductive Answer
  | byte (ch : UInt8)
  /-- -1 with `EINTR` -/
  | interrupted
  /-- -1 with another error -/
  | failed (errno : ℕ)
  deriving DecidableEq

def newline : UInt8 := 10

def einval : ℕ := 22

/-- The value of the call, with -1 as its `errno`, the buffer and the descriptor behind it, and what
it has printed to `stderr`. -/
structure Outcome where
  ret : Except ℕ ℕ
  buffer : List UInt8
  unread : List Answer
  stderr : String
  deriving DecidableEq

/-- `*buf = '\0'; return total;` -/
def finish (buffer : List UInt8) (buf total : ℕ) (unread : List Answer) : Option Outcome :=
  (Memory.write buffer buf 0).map fun buffer => ⟨.ok total,buffer,unread,""⟩

/-- The loop, with the index `buf` points to. -/
def readLoop (n : ℕ) : List Answer → List UInt8 → ℕ → ℕ → Option Outcome
  | [],buffer,buf,total =>
    if total = 0 then some ⟨.ok 0,buffer,[],"## check\n"⟩ else finish buffer buf total []
  | .interrupted::input,buffer,buf,total => readLoop n input buffer buf total
  | .failed errno::input,buffer,_,_ => some ⟨.error errno,buffer,input,""⟩
  | .byte ch::input,buffer,buf,total =>
    if total < n-1 ∧ ch ≠ newline then
      (Memory.write buffer buf ch).bind fun buffer => readLoop n input buffer (buf+1) (total+1)
    else if ch = newline then finish buffer buf total input
    else readLoop n input buffer buf total

/-- `NULL` is `none`. -/
def readLine (input : List Answer) : Option (List UInt8) → ℕ → Option Outcome
  | none,_ => some ⟨.error einval,[],input,""⟩
  | some buffer,0 => some ⟨.error einval,buffer,input,""⟩
  | some buffer,n+1 => readLoop (n+1) input buffer 0 0

/-- `strcmp(buffer, s) == 0` -/
def streq (buffer s : List UInt8) : Bool := decide (buffer.take (s.length+1) = s++[0])

/-- `n = read_line(fd, buffer, 32);` with the two assertions behind it. -/
def expectLine (s : List UInt8) (r : List UInt8 × List Answer) :
    Option (List UInt8 × List Answer) :=
  match readLine r.2 (some r.1) 32 with
  | some ⟨.ok n,buffer,unread,_⟩ =>
    if streq buffer s ∧ n = s.length then some (buffer,unread) else none
  | _ => none

/-- `"foo"`, `"apple orange"` and `"baz"` -/
def testData : List (List UInt8) :=
  [[102,111,111],[97,112,112,108,101,32,111,114,97,110,103,101],[98,97,122]]

/-- `main` on a descriptor that is open, up to its `printf`. A failed assertion ends it. -/
def main (input : List Answer) (buffer : List UInt8) : Option String :=
  (testData.foldlM (fun r s => expectLine s r) (buffer,input)).map fun _ => "OK\n"

/-- `read_line` is called until it returns 0. The lines are what it leaves in the buffer, and an
error has no result, nor have more calls than that. -/
def drainLoop (n : ℕ) : ℕ → List UInt8 → List Answer → Option (List (List UInt8) × List Answer)
  | 0,_,_ => none
  | calls+1,buffer,input =>
    match readLine input (some buffer) n with
    | some ⟨.ok 0,_,unread,_⟩ => some ([],unread)
    | some ⟨.ok (total+1),buffer,unread,_⟩ =>
      (drainLoop n calls buffer unread).map fun r => (buffer.take (total+1)::r.1,r.2)
    | _ => none

/-- Each call but the last takes a byte off the input. -/
def drain (input : List Answer) (buffer : List UInt8) (n : ℕ) :
    Option (List (List UInt8) × List Answer) :=
  drainLoop n (input.length+1) buffer input

end CStudy.ReadLine

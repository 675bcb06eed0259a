import CStudy.Foundation.Memory
import CStudy.Foundation.Stdio

/-! `tail1`, which keeps the lines it reads in a ring of ten blocks. What the blocks hold before they
are written is whatever `malloc` has found there. A write beyond the end of a block is undefined, and
so is the string in a block without a terminator, and an `int` that overflows. -/
namespace CStudy.Tail
open CStudy.Foundation

/-- `'\n'` as an `int` -/
def newlineChar : ℤ := 10

/-- The blocks `malloc` has returned. -/
structure Slots where
  blocks : List (List UInt8)
  ten : blocks.length = 10
  size : ∀ block ∈ blocks, block.length = 4096

/-- The variables of `main`. -/
structure Reader where
  lines : List (List UInt8)
  index : ℕ
  pos : ℕ
  line : ℕ

/-- `++` of an `int` -/
def increment (x : ℕ) : Option ℕ := if x < 2^31-1 then some (x+1) else none

/-- An `int` that is stored in a `char`. -/
def toChar (c : ℤ) : UInt8 := UInt8.ofNat (c%256).toNat

/-- `lines[index][pos] = x` -/
def store (lines : List (List UInt8)) (index pos : ℕ) (x : UInt8) : Option (List (List UInt8)) := do
  let block ← lines[index]?
  let block ← Memory.write block pos x
  return lines.set index block

/-- The body of the loop. -/
def Reader.put (r : Reader) (c : ℤ) : Option Reader := do
  let lines ← store r.lines r.index r.pos (toChar c)
  let pos := r.pos+1
  if c = newlineChar then
    let line ← increment r.line
    let lines ← store lines r.index pos 0
    return ⟨lines,(r.index+1)%10,0,line⟩
  else return ⟨lines,r.index,pos,r.line⟩

/-- `while ((c = fgetc(fp)) != EOF)` -/
def readLoop (fp : File) (r : Reader) : Option Reader :=
  if fp.fgetc.1 = File.endOfFile then some r
  else (r.put fp.fgetc.1).bind (readLoop fp.fgetc.2)
termination_by fp.left.length
decreasing_by exact File.length_fgetc_lt ‹_›

/-- The loop with `printf("%s", lines[j])`. -/
def printLines (lines : List (List UInt8)) (start : ℕ) : Option (List UInt8) :=
  ((List.range 10).mapM fun i => (lines[(start+i)%10]?).bind Memory.string).map List.flatten

/-- What `main` prints. Where `fopen` has failed, reading is undefined. -/
def main (slots : Slots) (fp : Option File) : Option (List UInt8) := do
  let fp ← fp
  let r ← readLoop fp ⟨slots.blocks,0,0,0⟩
  let lines ← store r.lines r.index r.pos 0
  let start := if r.line < 10 then 0 else r.index+1
  printLines lines start

end CStudy.Tail

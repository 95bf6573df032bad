/-
# The bzip2 format

A stream is a header, blocks of bits, and the check sum of all blocks. A block holds a check sum of its
bytes, the bytes that occur in it, the codes that its symbols are written in, and the symbols, which
reach its bytes through the layers of a block. `bunzip2?` gives the bytes of a stream. What stands
behind the stream is not looked at.
-/
import JavaMachine.Archive.Bzip2.Scramble
import JavaMachine.Archive.Bzip2.Transform
import JavaMachine.Archive.Crc32
import JavaMachine.Archive.Huffman

namespace JavaMachine

namespace Bzip2

/-- The number that the next `n` bits spell. -/
def number (n : Nat) : BitIntake Nat := BitIntake.numberHighFirst n

/-! ## The tables of a block -/

/-- The bytes that occur in a block: sixteen bits tell which rows of the table of bytes have some, and
sixteen bits for each such row tell which. -/
def occurring : BitIntake (List UInt8) := do
  let rows ← Intake.take 16
  let flags ← rows.mapM fun isUsed =>
    if isUsed then Intake.take 16 else return List.replicate 16 false
  return (flags.flatten.zipIdx.filter (·.1)).map fun (_, i) => UInt8.ofNat i

/-- A number below `bound` as that many ones and a zero. -/
def unary : (bound : Nat) → BitIntake Nat
  | 0 => failure
  | bound + 1 => do
    if ← Intake.next then return (← unary bound) + 1 else return 0

/-- No more selectors than these are needed; more are read, and not used. -/
def selectorLimit : Nat := 18002

/-- Which of `codes` codes each group of symbols is written in: places in a list of the codes that
moves each one met to the front. -/
def selectors (codes : Nat) : BitIntake (List Nat) := do
  let count ← number 15
  if count = 0 then failure
  let places ← (List.range count).mapM fun _ => unary codes
  let step := fun (order, chosen) place =>
    match moveToFront? place order with
    | some (code, order) => (order, code :: chosen)
    | none => (order, chosen)
  return ((places.take selectorLimit).foldl step (List.range codes, [])).2.reverse

/-- A code length, told by steps from the one before: a zero ends them, two bits are a step up or
down. It stays from 1 to 20 on the way. -/
def codeLength (current : Nat) : BitIntake Nat
  | false :: rest => if 1 ≤ current ∧ current ≤ 20 then some (current, rest) else none
  | true :: down :: rest =>
    if 1 ≤ current ∧ current ≤ 20 then
      codeLength (if down then current - 1 else current + 1) rest
    else none
  | _ => none

/-- The next `n` code lengths. -/
def codeLengths (current : Nat) : (n : Nat) → BitIntake (List Nat)
  | 0 => return []
  | n + 1 => do
    let length ← codeLength current
    return length :: (← codeLengths length n)

/-- A code, by its code lengths. -/
def code (alphabetSize : Nat) : BitIntake PrefixTree := do
  return .ofLengths (← codeLengths (← number 5) alphabetSize)

/-! ## Symbols -/

/-- The symbols of a group, at most `n`, behind those so far, and whether the group has the last symbol
of the block, which is not kept. -/
def group (tree : PrefixTree) (last : Nat) : (n : Nat) → Array Nat → BitIntake (Array Nat × Bool)
  | 0, sofar => return (sofar, false)
  | n + 1, sofar => do
    let s ← tree.next
    if s = last then return (sofar, true) else group tree last n (sofar.push s)

/-- The symbols of a block: groups of fifty, each in the code selected for it. -/
def symbols (last : Nat) : List PrefixTree → Array Nat → BitIntake (Array Nat)
  | [], _ => failure
  | tree :: trees, sofar => do
    let (sofar, isLast) ← group tree last 50 sofar
    if isLast then return sofar else symbols last trees sofar

/-! ## Blocks -/

/-- The bytes of a block behind its signature, and its check sum. -/
def block (limit : Nat) : BitIntake (Array UInt8 × UInt32) := do
  let checkSum := UInt32.ofNat (← number 32)
  let isScrambled ← Intake.next
  let row ← number 24
  let alphabet ← occurring
  if alphabet.isEmpty then failure
  let codes ← number 3
  if codes < 2 ∨ 6 < codes then failure
  let chosen ← selectors codes
  let trees ← (List.range codes).mapM fun _ => code (alphabet.length + 2)
  let chosenTrees := chosen.map fun i => trees[i]?.getD .absent
  let all ← symbols (alphabet.length + 1) chosenTrees #[]
  let last ← lastColumn? limit alphabet all
  if last.size ≤ row then failure
  let sorted := unrotate last row
  let bytes ← expandRuns? (if isScrambled then unscramble sorted else sorted)
  if crc32HighFirst bytes ≠ checkSum then failure
  return (bytes, checkSum)

def blockSignature : Nat := 0x314159265359
def endSignature : Nat := 0x177245385090

/-- The blocks and the check sum behind them, which combines theirs. -/
def blocks (limit : Nat) :
    (bound : Nat) → (combined : UInt32) → Array UInt8 → BitIntake (Array UInt8)
  | 0, _, _ => failure
  | bound + 1, combined, out => do
    let signature ← number 48
    if signature = blockSignature then
      let (bytes, checkSum) ← block limit
      blocks limit bound ((combined <<< 1 ||| combined >>> 31) ^^^ checkSum) (out ++ bytes)
    else if signature = endSignature then
      if (← number 32) = combined.toNat then return out else failure
    else failure

/-- The bytes of a stream. Its header tells how many bytes a block has at most, before its runs are
expanded, in hundred thousands. -/
def stream : BitIntake (Array UInt8) := do
  let signature ← number 24
  let level ← number 8
  if signature ≠ 0x425A68 ∨ level < 0x31 ∨ 0x39 < level then failure
  blocks (100000 * (level - 0x30)) ((← Intake.remaining) + 1) 0 #[]

end Bzip2

/-- The bytes of a bzip2 stream; `none` when it is not of the format, ends early or fails one of its
check sums. -/
def bunzip2? (data : Bytes) : Option Bytes :=
  (Bzip2.stream.run' (bitsHighFirst data)).map (·.toList)

end JavaMachine

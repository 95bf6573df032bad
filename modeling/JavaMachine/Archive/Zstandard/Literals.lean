/-
# The literals of a compressed block

A compressed block starts with literals, the bytes that it does not copy from elsewhere: as they are,
as one byte repeated, or in a prefix code. `literals?` reads them. The code is given by weights, which
may be written in an entropy code themselves; or it is the code of the literals before.
-/
import JavaMachine.Archive.Huffman
import JavaMachine.Archive.Zstandard.Entropy

namespace JavaMachine

namespace Zstandard

/-- A block has at most this many bytes. -/
def blockLimit : Nat := 1 <<< 17

/-! ## The weights of a code -/

/-- The symbols of two states that take turns, at most `left` and one, behind those so far, which are in
reverse. When the bits do not suffice to go on from one state, the other has the last symbol. -/
def alternating (t : EntropyTable) :
    (left state other : Nat) → List Nat → List Bool → Option (List Nat)
  | 0, _, _, _, _ => none
  | left + 1, state, other, sofar, bits =>
    let sofar := (t.cell state).symbol :: sofar
    match (t.next state).run bits with
    | some (state, bits) => alternating t left other state sofar bits
    | none => some ((t.cell other).symbol :: sofar).reverse

/-- The weights that some bytes hold in an entropy code. -/
def codedWeights? (bytes : Bytes) : Option (List Nat) := do
  let (distribution, bytes) ← readDistribution? 255 bytes
  if 6 < distribution.accuracy then failure
  let table := EntropyTable.ofDistribution distribution
  let bits ← backwardBits? bytes
  let (state, bits) ← table.start.run bits
  let (other, bits) ← table.start.run bits
  alternating table 254 state other [] bits

/-- The weights in front of some bytes, and the bytes behind them. A first byte below 128 is the size of
an entropy code; another tells how many weights of four bits follow. -/
def weights : Intake UInt8 (List Nat) := do
  let size ← ByteIntake.number 1
  if size < 128 then codedWeights? (← Intake.take size)
  else
    let bytes ← Intake.take ((size - 127 + 1) / 2)
    return (bytes.flatMap fun b => [b.toNat / 16, b.toNat % 16]).take (size - 127)

/-- The code of some weights. A word of weight `w` takes `1 <<< (w - 1)` parts of the code, one of
weight zero none; the weight of one more symbol makes the code whole. Words are in the order of their
weights, those of one weight in the order of their symbols. -/
def codeOfWeights? (given : List Nat) : Option PrefixTree := do
  if given.any (12 < ·) then failure
  let total := given.foldr (fun w sum => 1 <<< w / 2 + sum) 0
  if total = 0 then failure
  let depth := Nat.log2 total + 1
  if 12 < depth then failure
  let missing := 1 <<< depth - total
  let last := Nat.log2 missing + 1
  if 1 <<< (last - 1) ≠ missing then failure
  let weights := given ++ [last]
  let lightest := weights.count 1
  if lightest < 2 ∨ lightest % 2 = 1 then failure
  let ordered := (List.range depth).flatMap fun w => weights.zipIdx.filter (·.1 = w + 1)
  let step := fun (start, words) (w, symbol) =>
    (start + 1 <<< (w - 1),
      (symbol, PrefixTree.wordOf (start >>> (w - 1)) (depth + 1 - w)) :: words)
  return .ofWords (ordered.foldl step (0, [])).2.reverse

example : (codeOfWeights? [2, 1]).map (fun t => (List.range 4).map fun n =>
      (t.decode? [n.testBit 1, n.testBit 0]).map (·.1)) =
    some [some 1, some 2, some 0, some 0] := by decide +kernel

/-! ## Streams of symbols -/

/-- The `n` symbols of a stream, which holds nothing else. -/
def stream? (code : PrefixTree) (n : Nat) (bytes : Bytes) : Option (Array UInt8) := do
  let (symbols, rest) ← (code.nextSymbols n #[]).run (← backwardBits? bytes)
  if rest.isEmpty then return symbols.map UInt8.ofNat else failure

/-- The `n` symbols of four streams, which hold equally many but for the last. In front of them stand
the sizes of the first three. -/
def fourStreams? (code : PrefixTree) (n : Nat) (bytes : Bytes) : Option (Array UInt8) := do
  let quarter := (n + 3) / 4
  if bytes.length < 10 ∨ n < 3 * quarter then failure
  let read : Intake UInt8 (Array UInt8) := do
    let first ← ByteIntake.number 2
    let second ← ByteIntake.number 2
    let third ← ByteIntake.number 2
    let a ← stream? code quarter (← Intake.take first)
    let b ← stream? code quarter (← Intake.take second)
    let c ← stream? code quarter (← Intake.take third)
    return a ++ b ++ c
  let (abc, rest) ← read.run bytes
  return abc ++ (← stream? code (n - 3 * quarter) rest)

/-! ## Literals -/

/-- The sizes that stand in front of literals that are not in a code: the number of bytes that tell the
size, and the size. -/
def plainSize (form header : Nat) : Nat × Nat :=
  match form with
  | 1 => (2, header >>> 4 % 4096)
  | 3 => (3, header >>> 4 % 1048576)
  | _ => (1, header >>> 3 % 32)

/-- The sizes that stand in front of literals in a code: the number of bytes that tell the sizes, the
number of literals, and the number of bytes that they take. -/
def codedSizes (form header : Nat) : Nat × Nat × Nat :=
  let width := match form with | 2 => 14 | 3 => 18 | _ => 10
  ((4 + 2 * width) / 8, header >>> 4 % (1 <<< width), header >>> (4 + width) % (1 <<< width))

/-- The literals in front of a block's bytes, the code that they are in or the one before, and the bytes
behind them. -/
def literals? (before : Option PrefixTree) (block : Bytes) :
    Option (Array UInt8 × Option PrefixTree × Bytes) := do
  if block.length < 3 then failure
  let header := ofBytesLowFirst (block.take 5)
  let kind := header % 4
  let form := header / 4 % 4
  if kind < 2 then
    let (told, size) := plainSize form header
    if blockLimit < size then failure
    let taken := if kind = 0 then size else 1
    let data := (block.drop told).take taken
    if data.length < taken then failure
    let bytes := if kind = 0 then data.toArray else Array.replicate size (data.headD 0)
    return (bytes, before, block.drop (told + taken))
  else
    if block.length < 5 then failure
    let (told, size, taken) := codedSizes form header
    if blockLimit < size then failure
    let data := (block.drop told).take taken
    if data.length < taken then failure
    let (code, data) ←
      if kind = 3 then before.map (·, data)
      else do
        if form ≠ 0 ∧ size = 0 then failure
        let (weights, data) ← weights.run data
        pure (← codeOfWeights? weights, data)
    let bytes ← if form = 0 then stream? code size data else fourStreams? code size data
    return (bytes, some code, block.drop (told + taken))

end Zstandard

end JavaMachine

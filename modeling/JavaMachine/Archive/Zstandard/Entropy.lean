/-
# Finite state entropy codes

A table of cells codes symbols by states. A cell holds the symbol that its state stands for; the bits
that it asks for lead to the next state. Symbols get cells in proportion to their shares, which a
distribution tells. `readDistribution?` reads one, and `EntropyTable.ofDistribution` spreads its symbols
over a table. Such codes are read backwards: `backwardBits?` gives the bits from the end on.
-/
import JavaMachine.Archive.Bits

namespace JavaMachine

namespace Zstandard

/-- The bits of some bytes from the end on; the highest one bit of the last byte, which has one, only
marks where they start. -/
def backwardBits? (bytes : Bytes) : Option (List Bool) :=
  match bytes.reverse with
  | [] => none
  | last :: rest =>
    if last = 0 then none
    else some (((bitsHighFirst [last]).dropWhile (!·)).tail ++ bitsHighFirst rest)

example : backwardBits? [0x03, 0x05] =
    some [false, true, false, false, false, false, false, false, true, true] := by decide +kernel

/-! ## Distributions -/

/-- How many cells each symbol gets, of a table with two to the `accuracy` cells. -/
structure Distribution where
  accuracy : Nat
  /-- By symbol. A rare symbol has the share -1: it gets one cell, at the end of the table. -/
  shares : List Int
deriving DecidableEq, Repr

/-- A number of further symbols without a share: pairs of bits, the lower first, up to one that is not
three, count together. -/
def zeroRun (sofar : Nat) : BitIntake Nat
  | low :: high :: rest =>
    if low ∧ high then zeroRun (sofar + 3) rest
    else some (sofar + low.toNat + 2 * high.toNat, rest)
  | _ => none

/-- A share, written as a number up to `vacant` that is one more. The low numbers take one bit less
than the others. -/
def share (vacant : Nat) : BitIntake Int := do
  let width := Nat.log2 vacant
  let short := (1 <<< (width + 1)) - 1 - vacant
  let n ← BitIntake.numberLowFirst width
  if n < short then return (n : Int) - 1
  else if ← Intake.next then
    return ((1 <<< width) + n - short : Nat) - (1 : Int)
  else return (n : Int) - 1

/-- The shares of symbols up to `highest`, behind those so far, which are in reverse. There is always
one cell more vacant than is left to share. -/
def shares (highest : Nat) : (bound vacant : Nat) → List Int → BitIntake (List Int)
  | 0, _, _ => failure
  | bound + 1, vacant, sofar => do
    if vacant = 1 then return sofar.reverse
    if highest < sofar.length then failure
    let s ← share vacant
    if s = 0 then
      let more ← zeroRun 0
      if highest < sofar.length + 1 + more then failure
      shares highest bound vacant (List.replicate (more + 1) 0 ++ sofar)
    else shares highest bound (vacant - s.natAbs) (s :: sofar)

/-- A distribution over the symbols up to `highest`, and the bytes behind it. -/
def readDistribution? (highest : Nat) (bytes : Bytes) : Option (Distribution × Bytes) := do
  let bits := bitsLowFirst bytes
  let read : BitIntake Distribution := do
    let accuracy := 5 + (← BitIntake.numberLowFirst 4)
    if 15 < accuracy then failure
    return { accuracy, shares := ← shares highest (highest + 2) ((1 <<< accuracy) + 1) [] }
  let (distribution, rest) ← read.run bits
  return (distribution, bytes.drop ((bits.length - rest.length + 7) / 8))

/-! ## Tables -/

/-- What a state stands for and leads to: the next state is `base` and the number that `width` bits
spell. -/
structure Cell where
  symbol : Nat
  width : Nat
  base : Nat
deriving DecidableEq, Repr

structure EntropyTable where
  accuracy : Nat
  cells : Array Cell
deriving DecidableEq, Repr

namespace EntropyTable

/-- The symbol of each cell. Rare symbols take cells from the end down. The others are dealt out over
the other cells in steps of five eighths of the table and three cells. -/
def spread (d : Distribution) : Array Nat :=
  let size := 1 <<< d.accuracy
  let rare := (d.shares.zipIdx.filter (·.1 = -1)).map (·.2)
  let dealt := d.shares.zipIdx.flatMap fun (s, symbol) => List.replicate s.toNat symbol
  let step := size / 2 + size / 8 + 3
  let places := ((List.range size).map (· * step % size)).filter (· < size - rare.length)
  let last := (List.range rare.length).map (size - 1 - ·)
  (places.zip dealt ++ last.zip rare).foldl
    (fun cells (place, symbol) => cells.setIfInBounds place symbol) (Array.replicate size 0)

/-- The table of a distribution. The cells of a symbol, which are as many as its share, are numbered
from its share on; the higher the number, the fewer bits lead on from its cell. -/
def ofDistribution (d : Distribution) : EntropyTable :=
  let step := fun (cells, numbers) symbol =>
    let number := Array.getD numbers symbol 0
    let width := d.accuracy - Nat.log2 number
    (cells.push { symbol, width, base := number <<< width - 1 <<< d.accuracy },
      numbers.setIfInBounds symbol (number + 1))
  { accuracy := d.accuracy
    cells := ((spread d).foldl step (#[], (d.shares.map Int.natAbs).toArray)).1 }

/-- The table of a code with one symbol, which takes no bits. -/
def constant (symbol : Nat) : EntropyTable := ⟨0, #[⟨symbol, 0, 0⟩]⟩

/-- The cell of a state. -/
def cell (t : EntropyTable) (state : Nat) : Cell := t.cells.getD state ⟨0, 0, 0⟩

/-- The state to start with. -/
def start (t : EntropyTable) : BitIntake Nat := BitIntake.numberHighFirst t.accuracy

/-- The state behind another. -/
def next (t : EntropyTable) (state : Nat) : BitIntake Nat := do
  let cell := t.cell state
  return cell.base + (← BitIntake.numberHighFirst cell.width)

end EntropyTable

example : (EntropyTable.ofDistribution ⟨5, [31, -1]⟩).cells.toList =
    ⟨0, 1, 30⟩ :: (List.range 30).map (⟨0, 0, ·⟩) ++ [⟨1, 5, 0⟩] := by decide +kernel

end Zstandard

end JavaMachine

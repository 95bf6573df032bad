/-
# The DEFLATE format

A compressed stream is a sequence of blocks of bits: bytes stored as they are, or symbols of a prefix
code that stand for bytes, for the end of the block, or for a run to copy from what was already
written. What was written counts as having zeros in front of it, so that a run may start there.
`inflate?` gives the bytes of a stream. The stream has to have its last block, whole; what stands
behind that is not looked at.
-/
import JavaMachine.Archive.Huffman

namespace JavaMachine

namespace Deflate

/-- Reading bits and writing bytes. -/
abbrev Inflater := StateT (Array UInt8) BitIntake

/-- The number that the next `n` bits spell. -/
def take (n : Nat) : Inflater Nat := BitIntake.numberLowFirst n

/-- The number of bits that are left. -/
def bitsLeft : Inflater Nat := (Intake.remaining : BitIntake Nat)

def write (b : UInt8) : Inflater Unit := modify (·.push b)

/-- Writes `length` bytes again, from `distance` bytes back. -/
def copy (distance : Nat) : (length : Nat) → Inflater Unit
  | 0 => return
  | n + 1 => do
    let out ← get
    write (if distance ≤ out.size then out[out.size - distance]?.getD 0 else 0)
    copy distance n

/-! ## Lengths and distances -/

/-- For each length symbol from 257 on: the extra bits, and the length when they are zero. -/
def lengthCodes : List (Nat × Nat) :=
  [(0, 3), (0, 4), (0, 5), (0, 6), (0, 7), (0, 8), (0, 9), (0, 10), (1, 11), (1, 13), (1, 15),
   (1, 17), (2, 19), (2, 23), (2, 27), (2, 31), (3, 35), (3, 43), (3, 51), (3, 59), (4, 67),
   (4, 83), (4, 99), (4, 115), (5, 131), (5, 163), (5, 195), (5, 227), (0, 258)]

/-- For each distance symbol: the extra bits, and the distance when they are zero. -/
def distanceCodes : List (Nat × Nat) :=
  [(0, 1), (0, 2), (0, 3), (0, 4), (1, 5), (1, 7), (2, 9), (2, 13), (3, 17), (3, 25), (4, 33),
   (4, 49), (5, 65), (5, 97), (6, 129), (6, 193), (7, 257), (7, 385), (8, 513), (8, 769),
   (9, 1025), (9, 1537), (10, 2049), (10, 3073), (11, 4097), (11, 6145), (12, 8193), (12, 12289),
   (13, 16385), (13, 24577)]

/-- A base from one of the two tables with its extra bits added. -/
def extended (codes : List (Nat × Nat)) (i : Nat) : Inflater Nat := do
  match codes[i]? with
  | some (extra, base) => return base + (← take extra)
  | none => failure

/-! ## Blocks -/

/-- The symbols of a block, up to the one that ends it. Each symbol takes at least one bit, so the
number of bits bounds their number. -/
def symbols (literals distances : PrefixTree) : (bound : Nat) → Inflater Unit
  | 0 => failure
  | bound + 1 => do
    let s ← literals.next
    if s < 256 then
      write (UInt8.ofNat s)
      symbols literals distances bound
    else if s = 256 then return
    else
      let length ← extended lengthCodes (s - 257)
      let distance ← extended distanceCodes (← distances.next)
      copy distance length
      symbols literals distances bound

/-- A block of bytes that are stored as they are, from the next whole byte on. -/
def stored : Inflater Unit := do
  discard (take ((← bitsLeft) % 8))
  let length ← take 16
  let complement ← take 16
  if length + complement ≠ 0xFFFF then failure
  for _ in List.range length do
    write (UInt8.ofNat (← take 8))

/-- The code lengths of the fixed codes. -/
def fixedLiterals : List Nat :=
  List.replicate 144 8 ++ List.replicate 112 9 ++ List.replicate 24 7 ++ List.replicate 8 8

def fixedDistances : List Nat := List.replicate 30 5

/-- The order in which a block gives the lengths of the code for code lengths. -/
def lengthOrder : List Nat := [16, 17, 18, 0, 8, 7, 9, 6, 10, 5, 11, 4, 12, 3, 13, 2, 14, 1, 15]

/-- The code lengths that a block gives, at least `wanted` of them: plain ones, repetitions of the
last one and runs of zeros. -/
def codeLengths (tree : PrefixTree) (wanted : Nat) : (bound : Nat) → List Nat → Inflater (List Nat)
  | 0, sofar => return sofar.reverse
  | bound + 1, sofar => do
    if wanted ≤ sofar.length then return sofar.reverse
    let s ← tree.next
    if s < 16 then codeLengths tree wanted bound (s :: sofar)
    else if s = 16 then
      match sofar with
      | [] => failure
      | last :: _ => codeLengths tree wanted bound (List.replicate (3 + (← take 2)) last ++ sofar)
    else if s = 17 then codeLengths tree wanted bound (List.replicate (3 + (← take 3)) 0 ++ sofar)
    else codeLengths tree wanted bound (List.replicate (11 + (← take 7)) 0 ++ sofar)

/-- The code of some lengths: it is complete, has a lone word of one bit, or has no words. -/
def code? (lengths : List Nat) : Option PrefixTree :=
  if PrefixTree.isComplete lengths ∨ lengths.filter (0 < ·) ∈ [[], [1]] then some (.ofLengths lengths)
  else none

/-- The two codes that a block gives for itself. Of the symbols that they could name, the two highest
of each are not allowed. -/
def ownCodes : Inflater (PrefixTree × PrefixTree) := do
  let literalCount := 257 + (← take 5)
  let distanceCount := 1 + (← take 5)
  let given := 4 + (← take 4)
  if literalCount > 286 ∨ distanceCount > 30 then failure
  let lengths ← (List.range given).mapM fun _ => take 3
  let ofSymbol (s : Nat) : Nat := (lengths[lengthOrder.idxOf s]?).getD 0
  let ofSymbols := (List.range 19).map ofSymbol
  if !PrefixTree.isComplete ofSymbols then failure
  let wanted := literalCount + distanceCount
  let all ← codeLengths (.ofLengths ofSymbols) wanted wanted []
  if all.length ≠ wanted then failure
  match code? (all.take literalCount), code? (all.drop literalCount) with
  | some literals, some distances => return (literals, distances)
  | _, _ => failure

/-- The blocks up to the last one. -/
def blocks : (bound : Nat) → Inflater Unit
  | 0 => failure
  | bound + 1 => do
    let final ← take 1
    match ← take 2 with
    | 0 => stored
    | 1 => symbols (.ofLengths fixedLiterals) (.ofLengths fixedDistances) ((← bitsLeft) + 1)
    | 2 =>
      let (literals, distances) ← ownCodes
      symbols literals distances ((← bitsLeft) + 1)
    | _ => failure
    if final = 1 then return else blocks bound

end Deflate

/-- The bytes of a compressed stream; `none` when the stream is not of the format or ends early. -/
def inflate? (data : Bytes) : Option Bytes :=
  let bits := bitsLowFirst data
  ((Deflate.blocks (bits.length + 1)).run #[]).run' bits |>.map fun (_, out) => out.toList

example : inflate? [0x4b, 0x4c, 0x04, 0x02, 0x00] = some [0x61, 0x61, 0x61, 0x61, 0x61] := by
  decide +kernel
example : inflate? [0x4b, 0x4c, 0x04, 0x02] = none ∧ inflate? [] = none := by decide +kernel
example : inflate? [0x03, 0x02, 0x00] = some [0, 0, 0] := by decide +kernel

end JavaMachine

/-
# The Zstandard format

Compressed contents are frames one behind the other. A frame has a header, blocks, and perhaps a check
sum; a frame of another kind is skipped. The blocks of a frame hold bytes as they are, a byte
repeated, or literals and sequences. `decompress?` gives the bytes of all frames.

A frame is decompressed in one go when its header tells how many bytes it holds and there is room for
them; otherwise block by block, in a window that moves over its bytes. A window has at most 128 MiB, and
a block in it is no larger than the window.
-/
import JavaMachine.Archive.XxHash64
import JavaMachine.Archive.Zstandard.Sequences

namespace JavaMachine

namespace Zstandard

/-- What the header of a frame tells. -/
structure FrameHeader where
  /-- How far back runs may be copied from. -/
  window : Nat
  /-- How many bytes the frame holds. -/
  size : Option Nat
  hasCheckSum : Bool
deriving DecidableEq, Repr

/-- The size of a window: a power of two from 1 KiB on, and some eighths of it. -/
def window : Intake UInt8 Nat := do
  let n ← ByteIntake.number 1
  if 21 < n / 8 then failure
  let power := 1 <<< (n / 8 + 10)
  return power + power / 8 * (n % 8)

/-- The header of a frame. A frame in one segment has no window but its own size. Dictionaries are not
supported. -/
def frameHeader : Intake UInt8 FrameHeader := do
  let flags ← ByteIntake.number 1
  let isOneSegment := flags.testBit 5
  if flags.testBit 3 then failure
  let window ← if isOneSegment then pure 0 else window
  let dictionary ← ByteIntake.number ([0, 1, 2, 4].getD (flags % 4) 0)
  if dictionary ≠ 0 then failure
  let size ← match flags / 64 with
    | 0 => if isOneSegment then some <$> ByteIntake.number 1 else pure none
    | 1 => (some <| · + 256) <$> ByteIntake.number 2
    | 2 => some <$> ByteIntake.number 4
    | _ => some <$> ByteIntake.number 8
  return {
    window := if isOneSegment then size.getD 0 else window
    size := size.filter (· ≠ 0xFFFFFFFFFFFFFFFF)
    hasCheckSum := flags.testBit 2 }

/-- How much a block may hold: all of a frame that is decompressed in one go, otherwise no more than the
window. -/
def FrameHeader.blockLimit (f : FrameHeader) (isInOneGo : Bool) : Nat :=
  if isInOneGo then f.size.getD 0 else min f.window Zstandard.blockLimit

/-- The blocks of a frame. Block by block, a frame may have an empty last block before its size is
reached; in one go there are no compressed blocks without bytes. -/
def blocks (f : FrameHeader) (isInOneGo : Bool) : (bound : Nat) → Progress → Intake UInt8 Progress
  | 0, _ => failure
  | bound + 1, p => do
    let header ← ByteIntake.number 3
    let size := header / 8
    let limit := f.blockLimit isInOneGo
    let p ← match header / 2 % 4 with
      | 0 => do
        if limit < size then failure
        let data ← Intake.take size
        pure { p with out := p.out ++ data }
      | 1 => do
        if limit < size then failure
        let data ← Intake.next
        pure { p with out := p.out ++ Array.replicate size data }
      | 2 => do
        if limit < size ∧ !isInOneGo ∨ Zstandard.blockLimit ≤ size then failure
        let data ← Intake.take size
        if size = 0 ∧ !isInOneGo then pure p else p.pushCompressed limit data
      | _ => failure
    if header % 2 = 0 then blocks f isInOneGo bound p
    else
      let isShortAllowed := !isInOneGo && size = 0 && header / 2 % 4 ≠ 1
      if f.size.any fun n => n < p.out.size ∨ p.out.size < n ∧ !isShortAllowed then failure
      return p

/-- The bytes of a frame behind its signature. There is room for `room` bytes. -/
def frame (bound room : Nat) : Intake UInt8 (Array UInt8) := do
  let header ← frameHeader
  let isInOneGo := header.size.any (· ≤ room)
  if 1 <<< 27 + 1 < header.window ∧ !isInOneGo then failure
  let p ← blocks header isInOneGo bound {}
  if header.hasCheckSum then
    if (← ByteIntake.number 4) ≠ (xxHash64 p.out).toUInt32.toNat then failure
  return p.out

/-- How much room there is for a frame when `written` of `expected` bytes are there: contents are taken
in pieces of no more than 8192 bytes into the room that is expected to be left, and where little or none
is, 32 bytes at a time. -/
def roomFor (expected written : Nat) : Nat :=
  if expected ≤ written ∨ written = 0 ∧ expected < 32 then 32 else min 8192 (expected - written)

def frameSignature : Nat := 0xFD2FB528

/-- The sixteen signatures of frames to skip differ in their lowest four bits. -/
def skippedSignature : Nat := 0x184D2A5

/-- The bytes of some frames behind those so far. There is at least one more, and nothing behind the last. -/
def frames (size expected : Nat) : (bound : Nat) → Array UInt8 → Intake UInt8 (Array UInt8)
  | 0, _ => failure
  | bound + 1, out => do
    let signature ← ByteIntake.number 4
    let out ←
      if signature = frameSignature then do
        pure (out ++ (← frame size (roomFor expected out.size)))
      else if signature / 16 = skippedSignature then do
        discard (Intake.take (← ByteIntake.number 4))
        pure out
      else failure
    if ← Intake.isAtEnd then return out else frames size expected bound out

/-- The bytes of compressed contents, which are expected to be `expected`; `none` when they are not of the
format or end early. -/
def decompress? (expected : Nat) (data : Bytes) : Option Bytes :=
  ((frames data.length expected (data.length + 1) #[]).run' data).map (·.toList)

example : decompress? 3 [0x28, 0xb5, 0x2f, 0xfd, 0x20, 0x03, 0x1b, 0x00, 0x00, 0x61] =
    some [0x61, 0x61, 0x61] := by decide +kernel

end Zstandard

end JavaMachine

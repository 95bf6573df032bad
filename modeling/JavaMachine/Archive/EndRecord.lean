/-
# Where the directory of an archive is

A zip archive ends with a record that tells where its directory is, behind which only a comment may stand.
Of an archive that is too large for the numbers of this record, a larger record stands in front of it,
and a locator between them tells where that record is. Other bytes may stand in front of an archive:
all positions are counted from where it begins.
-/
import JavaMachine.Archive.Entry

namespace JavaMachine

/-- The record at the end of an archive. -/
structure EndRecord where
  /-- Where the record is. -/
  position : Nat
  /-- The numbers of this part of the archive, and of the part with the directory. -/
  part : Nat
  directoryPart : Nat
  /-- The numbers of entries in this part, and of all entries. -/
  entriesHere : Nat
  entries : Nat
  /-- The size of the directory, and where it is. -/
  size : Nat
  offset : Nat
  commentLength : Nat
deriving DecidableEq, Repr

/-- Where the directory of an archive is. -/
structure DirectoryPlace where
  /-- Where the archive begins. -/
  start : Nat
  /-- Where the directory begins. -/
  position : Nat
  /-- The number of entries. -/
  count : Nat
deriving DecidableEq, Repr

namespace EndRecord

def signature : Nat := 0x06054b50
def locatorSignature : Nat := 0x07064b50
def largeSignature : Nat := 0x06064b50

/-- The least sizes of the record, of the locator, and of the larger record. -/
def leastSize : Nat := 22
def locatorSize : Nat := 20
def largeSize : Nat := 56

/-- The record at a position. Its comment must be there. -/
def read? (image : Array UInt8) (p : Nat) : Option EndRecord := do
  let commentLength ← number? image (p + 20) 2
  guard (p + leastSize + commentLength ≤ image.size)
  return {
    position := p, commentLength
    part := ← number? image (p + 4) 2
    directoryPart := ← number? image (p + 6) 2
    entriesHere := ← number? image (p + 8) 2
    entries := ← number? image (p + 10) 2
    size := ← number? image (p + 12) 4
    offset := ← number? image (p + 16) 4 }

/-- The end record of an image: the one at the last place where its signature stands, near enough to the
end for a comment behind it. -/
def find? (image : Array UInt8) : Option EndRecord := do
  guard (leastSize ≤ image.size)
  let last := image.size - leastSize
  let p ← ((List.range (min last 0xFFFF + 1)).map (last - ·)).find? fun p =>
    number? image p 4 = some signature
  read? image p

/-- Whether one of the numbers is too large for the record. -/
def isTooSmall (r : EndRecord) : Bool :=
  [r.part, r.directoryPart, r.entriesHere, r.entries].contains 0xFFFF ||
    [r.size, r.offset].contains overfull32

/-- Where the locator is, counted from the end of the image: bytes behind the comment move it. -/
def locator? (r : EndRecord) (image : Array UInt8) : Option Nat := do
  let behind := locatorSize + leastSize + r.commentLength
  guard (behind ≤ image.size)
  guard (number? image (image.size - behind) 4 = some locatorSignature)
  return image.size - behind

/-- The place of the directory that the record itself tells: the directory ends where the record begins. -/
def place? (r : EndRecord) : Option DirectoryPlace := do
  guard (r.size + r.offset ≤ r.position)
  return {
    start := r.position - r.size - r.offset
    position := r.position - r.size
    count := r.entriesHere }

/-- The place of the directory that the larger record tells, which a locator leads to. The larger record is
looked for from where it should be on: how far it has moved tells where the archive begins. -/
def largePlace? (r : EndRecord) (image : Array UInt8) (locator : Nat) : Option DirectoryPlace := do
  let directoryPart ← number? image (locator + 4) 4
  let nominal ← number? image (locator + 8) 8
  guard (r.isTooSmall ∨ r.part = directoryPart)
  guard (largeSize + 4 ≤ r.position)
  let last := r.position - (largeSize + 4)
  let p ← ((List.range (last + 1 - nominal)).map (nominal + ·)).find? fun p =>
    number? image p 4 = some largeSignature
  guard ((← number? image (p + 16) 4) = (← number? image (p + 20) 4))
  let count ← number? image (p + 32) 8
  let offset ← number? image (p + 48) 8
  return { start := p - nominal, position := offset + (p - nominal), count }

end EndRecord

/-- The place of the directory of an image. -/
def directoryPlace? (image : Array UInt8) : Option DirectoryPlace := do
  let r ← EndRecord.find? image
  guard (r.isTooSmall ∨ r.part = r.directoryPart)
  let place ← match r.locator? image with
    | some locator => r.largePlace? image locator
    | none => r.place?
  guard (place.position < 1 <<< 63)
  return place

end JavaMachine

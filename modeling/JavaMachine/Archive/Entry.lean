/-
# Entries of an archive

The directory of a zip archive lists entries. `directoryEntry?` reads one: its name, how its contents are
compressed, how large they are and where they are. Fields of 32 bits that are too small for that are
filled up, and the true value stands in an extra field behind the name; another extra field tells that
contents are under lock.
-/
import JavaMachine.Archive.Bits
import JavaMachine.Text.Lossy

namespace JavaMachine

/-! ## Numbers in the image -/

/-- The little-endian number of `width` bytes at a position. -/
def number? (image : Array UInt8) (position width : Nat) : Option Nat :=
  if position + width ≤ image.size then
    some (ofBytesLowFirst (image.extract position (position + width)).toList)
  else none

/-- The bytes from a position on, at most `length` of them. -/
def slice (image : Array UInt8) (position length : Nat) : Bytes :=
  (image.extract position (position + length)).toList

/-! ## Compression -/

/-- The ways to compress contents that can be undone. -/
inductive Compression where
  | stored
  | deflated
  | blockSorted
  | zstandard
deriving DecidableEq, Repr

/-- The way to compress that a method names. -/
def Compression.ofMethod? : Nat → Option Compression
  | 0 => some .stored
  | 8 => some .deflated
  | 12 => some .blockSorted
  | 93 => some .zstandard
  | _ => none

/-! ## Entries -/

/-- An entry of an archive's directory. -/
structure ArchiveEntry where
  name : String
  encrypted : Bool
  /-- Whether an extra field tells how the contents are locked. -/
  hasLock : Bool := false
  method : Nat
  checkSum : UInt32
  /-- The sizes of the contents as they are and as they are stored. -/
  size : Nat
  compressedSize : Nat
  /-- Where the entry's own header is. -/
  position : Nat
deriving DecidableEq, Repr

/-- Where 32 bits hold a number that needs more of them, they are all ones. -/
def overfull32 : Nat := 0xFFFFFFFF

/-- A number that may be too large for its field: if it is, it stands in front of the bytes. When they end
early, nothing is left of them. -/
def trueNumber (n : Nat) (bytes : Bytes) : Nat × Bytes :=
  if n = overfull32 then ((ByteIntake.number 8).run bytes).getD (n, []) else (n, bytes)

/-- What an extra field tells of a lock: the version of its format, who defined it, its strength, and the
method that the contents are compressed with. -/
structure Lock where
  version : Nat
  definer : Nat
  strength : Nat
  method : Nat
deriving DecidableEq, Repr

namespace Lock

def read : Intake UInt8 Lock := do
  return { version := ← ByteIntake.number 2, definer := ← ByteIntake.number 2
           strength := ← ByteIntake.number 1, method := ← ByteIntake.number 2 }

def isKnown (l : Lock) : Bool :=
  l.version ∈ [1, 2] ∧ l.definer = 0x4541 ∧ l.strength ∈ [1, 2, 3]

end Lock

namespace ArchiveEntry

/-- The size of an extra field that tells of a lock. -/
def lockSize : Nat := 7

/-- The method of contents that are locked. -/
def lockedMethod : Nat := 99

/-- The entry with the true numbers from an extra field, and the bytes behind them. -/
def enlarge (e : ArchiveEntry) (bytes : Bytes) : ArchiveEntry × Bytes :=
  let (size, bytes) := trueNumber e.size bytes
  let (compressedSize, bytes) := trueNumber e.compressedSize bytes
  let (position, bytes) := trueNumber e.position bytes
  ({ e with size, compressedSize, position }, bytes)

/-- The entry with what its extra fields tell; `none` when one tells of a lock that is not known. Fields
that end early are left out. A field that tells of a lock is followed by as many bytes again. -/
def withExtra? : (bound : Nat) → ArchiveEntry → Bytes → Option ArchiveEntry
  | 0, e, _ => some e
  | bound + 1, e, bytes =>
    match (do return (← ByteIntake.number 2, ← ByteIntake.number 2) : Intake UInt8 _).run bytes with
    | none => some e
    | some ((1, length), bytes) =>
      let (e, rest) := e.enlarge bytes
      withExtra? bound e (rest.drop (length - (bytes.length - rest.length)))
    | some ((0x9901, length), bytes) =>
      if length ≠ lockSize then none
      else
        match Lock.read.run bytes with
        | none => some e
        | some (lock, rest) =>
          if lock.isKnown then
            withExtra? bound { e with hasLock := true, method := lock.method } (rest.drop lockSize)
          else none
    | some ((_, length), bytes) => withExtra? bound e (bytes.drop length)

/-- How the contents are compressed, if they can be read. -/
def compression? (e : ArchiveEntry) : Option Compression :=
  if e.encrypted ∨ e.hasLock then none else Compression.ofMethod? e.method

end ArchiveEntry

/-! ## Names -/

/-- The characters of the bytes from 80 on in code page 437. -/
def codePage437Upper : List Char := [
  'Ç', 'ü', 'é', 'â', 'ä', 'à', 'å', 'ç', 'ê', 'ë', 'è', 'ï', 'î', 'ì', 'Ä', 'Å',
  'É', 'æ', 'Æ', 'ô', 'ö', 'ò', 'û', 'ù', 'ÿ', 'Ö', 'Ü', '¢', '£', '¥', '₧', 'ƒ',
  'á', 'í', 'ó', 'ú', 'ñ', 'Ñ', 'ª', 'º', '¿', '⌐', '¬', '½', '¼', '¡', '«', '»',
  '░', '▒', '▓', '│', '┤', '╡', '╢', '╖', '╕', '╣', '║', '╗', '╝', '╜', '╛', '┐',
  '└', '┴', '┬', '├', '─', '┼', '╞', '╟', '╚', '╔', '╩', '╦', '╠', '═', '╬', '╧',
  '╨', '╤', '╥', '╙', '╘', '╒', '╓', '╫', '╪', '┘', '┌', '█', '▄', '▌', '▐', '▀',
  'α', 'ß', 'Γ', 'π', 'Σ', 'σ', 'µ', 'τ', 'Φ', 'Θ', 'Ω', 'δ', '∞', 'φ', 'ε', '∩',
  '≡', '±', '≥', '≤', '⌠', '⌡', '÷', '≈', '°', '∙', '·', '√', 'ⁿ', '²', '■', '\u00a0']

/-- The character that a byte stands for in names that are not announced as UTF-8. -/
def ofCodePage437 (b : UInt8) : Char :=
  if b < 0x80 then Char.ofNat b.toNat else codePage437Upper.getD (b.toNat - 0x80) ' '

example : codePage437Upper.length = 128 := rfl

/-- The name that some bytes spell. -/
def entryName (isUtf8 : Bool) (bytes : Bytes) : String :=
  if isUtf8 then decodeLossy bytes else String.ofList (bytes.map ofCodePage437)

/-! ## The directory -/

def directorySignature : Nat := 0x02014b50

/-- The directory entry at a position, and the position behind it. Positions in the directory are
counted from `start`, where the archive begins in the image. -/
def directoryEntry? (image : Array UInt8) (start p : Nat) : Option (ArchiveEntry × Nat) := do
  guard ((← number? image p 4) = directorySignature)
  let flags ← number? image (p + 8) 2
  let method ← number? image (p + 10) 2
  let checkSum ← number? image (p + 16) 4
  let compressedSize ← number? image (p + 20) 4
  let size ← number? image (p + 24) 4
  let nameLength ← number? image (p + 28) 2
  let extraLength ← number? image (p + 30) 2
  let commentLength ← number? image (p + 32) 2
  let position ← number? image (p + 42) 4
  let next := p + 46 + nameLength + extraLength + commentLength
  guard (next ≤ image.size)
  let entry : ArchiveEntry := {
    name := entryName (flags.testBit 11) (slice image (p + 46) nameLength)
    encrypted := flags.testBit 0, method, checkSum := UInt32.ofNat checkSum
    size, compressedSize, position }
  let entry ← entry.withExtra? extraLength (slice image (p + 46 + nameLength) extraLength)
  guard (entry.method = ArchiveEntry.lockedMethod → entry.hasLock)
  guard (entry.position + start < 1 <<< 64)
  return ({ entry with position := entry.position + start }, next)

end JavaMachine

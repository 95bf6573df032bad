/-
# Zip archives

A zip archive has a directory, which lists the entries; each entry points at a header of its own with the
contents behind it. `Archive.open?` reads the directory, `Archive.find?` gives the contents of an entry
and `Archive.contains` tells whether there is one to read. The contents of an entry can be read unless
they are encrypted or compressed in a way that is not known.
-/
import JavaMachine.Archive.Bzip2.Stream
import JavaMachine.Archive.Crc32
import JavaMachine.Archive.Deflate
import JavaMachine.Archive.EndRecord
import JavaMachine.Archive.Zstandard.Frame

namespace JavaMachine

/-- An archive: its bytes and its directory. -/
structure Archive where
  image : Array UInt8
  entries : List ArchiveEntry

namespace Archive

/-! ## The directory -/

/-- `count` directory entries from a position on. -/
def directory? (image : Array UInt8) (start : Nat) : (count p : Nat) → Option (List ArchiveEntry)
  | 0, _ => some []
  | count + 1, p => do
    let (entry, next) ← directoryEntry? image start p
    let rest ← directory? image start count next
    return entry :: rest

/-- The archive that some bytes are; `none` when they are none. -/
def open? (bytes : Bytes) : Option Archive := do
  let image := bytes.toArray
  let place ← directoryPlace? image
  return { image, entries := ← directory? image place.start place.count place.position }

/-! ## Contents -/

/-- The entry of a name; of several, the one listed last. -/
def entry? (a : Archive) (name : String) : Option ArchiveEntry :=
  a.entries.reverse.find? (·.name = name)

def entrySignature : Nat := 0x04034b50

/-- The contents of an entry as they are stored, and how they are compressed. -/
def stored? (a : Archive) (e : ArchiveEntry) : Option (Compression × Bytes) := do
  guard ((← number? a.image e.position 4) = entrySignature)
  let nameLength ← number? a.image (e.position + 26) 2
  let extraLength ← number? a.image (e.position + 28) 2
  let compression ← e.compression?
  return (compression,
    slice a.image (e.position + 30 + nameLength + extraLength) e.compressedSize)

/-- The contents of an entry, if they are what their check sum says. -/
def contents? (a : Archive) (e : ArchiveEntry) : Option Bytes := do
  let (compression, data) ← a.stored? e
  let bytes ← match compression with
    | .stored => some data
    | .deflated => inflate? data
    | .blockSorted => bunzip2? data
    | .zstandard => Zstandard.decompress? e.size data
  if crc32 bytes = e.checkSum then some bytes else none

/-- The contents of the entry of a name. -/
def find? (a : Archive) (name : String) : Option Bytes := (a.entry? name).bind a.contents?

/-- Whether there is an entry of a name that can be read. Its contents are not looked at. -/
def contains (a : Archive) (name : String) : Bool := ((a.entry? name).bind a.stored?).isSome

end Archive

end JavaMachine

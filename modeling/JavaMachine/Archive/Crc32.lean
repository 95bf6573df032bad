/-
# The 32-bit cyclic redundancy check

The check sum of some contents is the remainder of a division: the contents are read as a polynomial
over the two-element field and divided by the check polynomial, starting from and finishing with all
bits inverted. Archives take the lowest bit of each byte first (`crc32`), block-sorted data the
highest (`crc32HighFirst`).
-/
import JavaMachine.Text.Modified

namespace JavaMachine

/-- One bit of the division by the check polynomial, the lowest bit first. -/
def crcStep (crc : UInt32) : UInt32 :=
  if crc &&& 1 = 1 then (crc >>> 1) ^^^ 0xEDB88320 else crc >>> 1

/-- Takes one byte into the remainder, its lowest bit first. -/
def crcByte (crc : UInt32) (b : UInt8) : UInt32 :=
  crcStep (crcStep (crcStep (crcStep (crcStep (crcStep (crcStep (crcStep (crc ^^^ b.toUInt32))))))))

/-- The check sum of some bytes, the lowest bit of each first. -/
def crc32 (bytes : Bytes) : UInt32 := bytes.foldl crcByte 0xFFFFFFFF ^^^ 0xFFFFFFFF

/-- One bit of the division by the check polynomial, the highest bit first. -/
def crcStepHighFirst (crc : UInt32) : UInt32 :=
  if crc >>> 31 = 1 then (crc <<< 1) ^^^ 0x04C11DB7 else crc <<< 1

/-- Takes one byte into the remainder, its highest bit first. -/
def crcByteHighFirst (crc : UInt32) (b : UInt8) : UInt32 :=
  let crc := crc ^^^ (b.toUInt32 <<< 24)
  crcStepHighFirst (crcStepHighFirst (crcStepHighFirst (crcStepHighFirst
    (crcStepHighFirst (crcStepHighFirst (crcStepHighFirst (crcStepHighFirst crc)))))))

/-- The check sum of some bytes, the highest bit of each first. -/
def crc32HighFirst (bytes : Array UInt8) : UInt32 :=
  bytes.foldl crcByteHighFirst 0xFFFFFFFF ^^^ 0xFFFFFFFF

example : crc32 ("123456789".toList.map fun c => UInt8.ofNat c.toNat) = 0xCBF43926 := by
  decide +kernel
example : crc32HighFirst ("123456789".toList.map fun c => UInt8.ofNat c.toNat).toArray =
    0xFC891918 := by decide +kernel

end JavaMachine

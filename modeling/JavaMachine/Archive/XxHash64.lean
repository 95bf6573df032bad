/-
# The 64-bit xxHash

A hash of some bytes, with which a compressed frame may check its contents. Whole stripes of 32 bytes
go through four lanes, which are then merged; what is left goes in as words of eight, four and one
bytes; and the last steps spread every bit over the result.
-/
import JavaMachine.Archive.Bits

namespace JavaMachine

namespace XxHash64

def prime1 : UInt64 := 0x9E3779B185EBCA87
def prime2 : UInt64 := 0xC2B2AE3D27D4EB4F
def prime3 : UInt64 := 0x165667B19E3779F9
def prime4 : UInt64 := 0x85EBCA77C2B2AE63
def prime5 : UInt64 := 0x27D4EB2F165667C5

/-- The bits of a word, moved up around its end. -/
def rotate (word : UInt64) (n : UInt64) : UInt64 := word <<< n ||| word >>> (64 - n)

/-- The number that the `width` bytes at a position spell, the lowest first. -/
def word (data : Array UInt8) (position width : Nat) : UInt64 :=
  UInt64.ofNat (ofBytesLowFirst (data.extract position (position + width)).toList)

/-- Takes a word into a lane. -/
def round (lane word : UInt64) : UInt64 := rotate (lane + word * prime2) 31 * prime1

/-- Takes a lane into the hash. -/
def merge (hash lane : UInt64) : UInt64 := (hash ^^^ round 0 lane) * prime1 + prime4

/-- The hash of `n` stripes, with the four lanes as they start. -/
def stripes (data : Array UInt8) (n : Nat) : UInt64 :=
  let (a, b, c, d) := (List.range n).foldl
    (fun (a, b, c, d) i =>
      (round a (word data (32 * i) 8), round b (word data (32 * i + 8) 8),
        round c (word data (32 * i + 16) 8), round d (word data (32 * i + 24) 8)))
    (prime1 + prime2, prime2, 0, 0 - prime1)
  [a, b, c, d].foldl merge (rotate a 1 + rotate b 7 + rotate c 12 + rotate d 18)

/-- Spreads every bit over the hash. -/
def finish (hash : UInt64) : UInt64 :=
  let hash := (hash ^^^ hash >>> 33) * prime2
  let hash := (hash ^^^ hash >>> 29) * prime3
  hash ^^^ hash >>> 32

end XxHash64

open XxHash64 in
/-- The hash of some bytes. -/
def xxHash64 (data : Array UInt8) : UInt64 :=
  let size := data.size
  let hash := (if size < 32 then prime5 else stripes data (size / 32)) + UInt64.ofNat size
  let eights := size % 32 / 8
  let hash := (List.range eights).foldl
    (fun h i => rotate (h ^^^ round 0 (word data (size / 32 * 32 + 8 * i) 8)) 27 * prime1 + prime4) hash
  let hash :=
    if size % 8 < 4 then hash
    else rotate (hash ^^^ word data (size / 8 * 8) 4 * prime1) 23 * prime2 + prime3
  let hash := (List.range (size % 4)).foldl
    (fun h i => rotate (h ^^^ word data (size / 4 * 4 + i) 1 * prime5) 11 * prime1) hash
  finish hash

example : xxHash64 #[] = 0xEF46DB3751D8E999 := by decide +kernel
example : xxHash64 #[0x61, 0x62, 0x63] = 0x44BC2CF5AD770999 := by decide +kernel

end JavaMachine

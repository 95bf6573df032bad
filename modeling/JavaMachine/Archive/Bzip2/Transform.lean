/-
# The layers of a block

A block's bytes reach its symbols through four layers, undone here one by one: runs of equal bytes are
shortened (`expandRuns?` undoes that), the rotations of the result are sorted and the last byte of each
is kept (`unrotate`), bytes are replaced by their places in an alphabet that moves each byte met to
the front, and runs of the first place are written as numbers (`lastColumn?` undoes the last two).
-/
import JavaMachine.Text.Modified

namespace JavaMachine

namespace Bzip2

/-! ## Places in the alphabet -/

/-- The item at a place of a list, and the list with it moved to the front. -/
def moveToFront? {α : Type} (place : Nat) (items : List α) : Option (α × List α) :=
  items[place]?.map fun a => (a, a :: items.eraseIdx place)

/-- The bytes so far, the alphabet, and a run of its first byte that is not written yet. -/
structure Unpacking where
  alphabet : List UInt8
  out : Array UInt8 := #[]
  run : Nat := 0
  /-- What the next digit of the run's length counts. -/
  unit : Nat := 1

namespace Unpacking

/-- Writes the run. A block holds at most `limit` bytes. -/
def flush (limit : Nat) (u : Unpacking) : Option Unpacking :=
  if u.out.size + u.run ≤ limit then
    some { alphabet := u.alphabet
           out := u.out ++ Array.replicate u.run (u.alphabet.headD 0) }
  else none

/-- Takes one symbol. The symbols 0 and 1 are the digits one and two of a run's length, the lowest
first; there are at most 21 in a row. A higher symbol is one more than a place in the alphabet. -/
def push (limit : Nat) (u : Unpacking) (s : Nat) : Option Unpacking :=
  if s < 2 then
    if u.unit < 1 <<< 21 then
      some { u with run := u.run + (s + 1) * u.unit, unit := 2 * u.unit }
    else none
  else do
    let u ← u.flush limit
    let (b, alphabet) ← moveToFront? (s - 1) u.alphabet
    if u.out.size < limit then some { u with alphabet, out := u.out.push b } else none

end Unpacking

/-- The bytes that some symbols stand for, at most `limit`. -/
def lastColumn? (limit : Nat) (alphabet : List UInt8) (symbols : Array Nat) :
    Option (Array UInt8) := do
  let u ← symbols.foldlM (Unpacking.push limit) { alphabet }
  return (← u.flush limit).out

example : lastColumn? 9 [97, 98, 99] #[1, 2, 0, 0, 3] = some #[97, 97, 98, 98, 98, 98, 99] := by
  decide +kernel
example : lastColumn? 6 [97, 98, 99] #[1, 2, 0, 0, 3] = none := by decide +kernel

/-! ## Sorted rotations -/

/-- The places of the last column in the order of their bytes, equal bytes in their own order: row `i`
of the sorted table starts with the byte at place `i` of this list, which is the row that follows. -/
def followers (last : Array UInt8) : Array Nat :=
  (last.zipIdx.foldl (fun places (b, i) => places.modify b.toNat (·.push i))
    (Array.replicate 256 #[])).flatten

/-- The next `n` bytes of the last column on the way from a row to its followers. -/
def walk (last : Array UInt8) (follower : Array Nat) : (n row : Nat) → Array UInt8 → Array UInt8
  | 0, _, out => out
  | n + 1, row, out =>
    walk last follower n (follower.getD row 0) (out.push (last.getD row 0))

/-- The bytes whose sorted rotations have a last column, when they stand at a row of the table. -/
def unrotate (last : Array UInt8) (row : Nat) : Array UInt8 :=
  let follower := followers last
  walk last follower last.size (follower.getD row 0) #[]

-- The rotations of "banana" in order end in "nnbaaa", and the word itself is the fourth.
example : unrotate #[110, 110, 98, 97, 97, 97] 3 = #[98, 97, 110, 97, 110, 97] := by decide +kernel

/-! ## Shortened runs -/

/-- The bytes so far, and how often the last of them was met in a row. -/
structure Expansion where
  out : Array UInt8 := #[]
  last : UInt8 := 0
  count : Nat := 0

/-- Takes one byte. Behind four equal bytes it tells how many more of them follow. -/
def Expansion.push (e : Expansion) (b : UInt8) : Expansion :=
  if e.count = 4 then { out := e.out ++ Array.replicate b.toNat e.last }
  else
    { out := e.out.push b, last := b, count := if e.last = b then e.count + 1 else 1 }

/-- The bytes whose runs were shortened; `none` when the last run lacks its number. -/
def expandRuns? (bytes : Array UInt8) : Option (Array UInt8) :=
  let e := bytes.foldl Expansion.push {}
  if e.count = 4 then none else some e.out

example : expandRuns? #[7, 7, 7, 7, 2, 7, 8] = some #[7, 7, 7, 7, 7, 7, 7, 8] := by decide +kernel
example : expandRuns? #[7, 7, 7, 7] = none := by decide +kernel

end Bzip2

end JavaMachine

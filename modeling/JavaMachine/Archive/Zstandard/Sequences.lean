/-
# The sequences of a compressed block

Behind its literals a compressed block has sequences. Each writes some of the literals and then copies
a run of what was already written, from an offset back. Its three numbers are written as codes with
extra bits, the codes in three entropy codes that take turns. An offset may also be one of the three
used last. Literals that no sequence writes come at the end of the block.
-/
import JavaMachine.Archive.Zstandard.Literals

namespace JavaMachine

namespace Zstandard

/-! ## Codes of numbers -/

/-- For each code of a number of literals: the extra bits, and the number when they are zero. -/
def literalCodes : List (Nat × Nat) :=
  (List.range 16).map (0, ·) ++
  [(1, 16), (1, 18), (1, 20), (1, 22), (2, 24), (2, 28), (3, 32), (3, 40), (4, 48), (6, 64),
   (7, 128), (8, 256), (9, 512), (10, 1024), (11, 2048), (12, 4096), (13, 8192), (14, 16384),
   (15, 32768), (16, 65536)]

/-- For each code of the length of a run: the extra bits, and the length when they are zero. -/
def runCodes : List (Nat × Nat) :=
  (List.range 32).map (0, · + 3) ++
  [(1, 35), (1, 37), (1, 39), (1, 41), (2, 43), (2, 47), (3, 51), (3, 59), (4, 67), (4, 83),
   (5, 99), (7, 131), (8, 259), (9, 515), (10, 1027), (11, 2051), (12, 4099), (13, 8195),
   (14, 16387), (15, 32771), (16, 65539)]

/-- A base from one of the two lists with its extra bits added. -/
def extended (codes : List (Nat × Nat)) (i : Nat) : BitIntake Nat := do
  match codes[i]? with
  | some (extra, base) => return base + (← BitIntake.numberHighFirst extra)
  | none => failure

/-- Three offsets, the one used last first. -/
structure RecentOffsets where
  first : Nat := 1
  second : Nat := 4
  third : Nat := 8
deriving DecidableEq, Repr

namespace RecentOffsets

/-- Uses an offset of its own. -/
def push (r : RecentOffsets) (offset : Nat) : RecentOffsets := ⟨offset, r.first, r.second⟩

/-- Uses one of the three again, or for the index 3 one less than the first, which is not zero. -/
def reuse (r : RecentOffsets) : (index : Nat) → RecentOffsets
  | 0 => r
  | 1 => ⟨r.second, r.first, r.third⟩
  | 2 => ⟨r.third, r.first, r.second⟩
  | _ => ⟨max 1 (r.first - 1), r.first, r.second⟩

/-- The offsets behind one that a code tells. The codes 0 and 1 use an offset again; a sequence without
literals does not use the first of them as it is, which would only lengthen the run before. -/
def next (r : RecentOffsets) (code : Nat) (hasLiterals : Bool) : BitIntake RecentOffsets := do
  let n ← BitIntake.numberHighFirst code
  if code < 2 then return r.reuse (code + n + (!hasLiterals).toNat)
  else return r.push (1 <<< code + n - 3)

end RecentOffsets

/-! ## Tables -/

/-- The entropy codes of literal numbers, offsets and run lengths. -/
structure SequenceTables where
  literals : EntropyTable
  offsets : EntropyTable
  runs : EntropyTable

/-- The distributions of the codes when a block tells none. -/
def SequenceTables.standard : SequenceTables where
  literals := .ofDistribution ⟨6, [4, 3, 2, 2, 2, 2, 2, 2, 2, 2, 2, 2, 2, 1, 1, 1, 2, 2, 2, 2, 2, 2, 2, 2, 2,
    3, 2, 1, 1, 1, 1, 1, -1, -1, -1, -1]⟩
  offsets := .ofDistribution ⟨5, [1, 1, 1, 1, 1, 1, 2, 2, 2, 1, 1, 1, 1, 1, 1, 1, 1, 1, 1, 1, 1, 1, 1, 1, -1,
    -1, -1, -1, -1]⟩
  runs := .ofDistribution ⟨6, [1, 4, 3, 2, 2, 2, 2, 2, 2, 1, 1, 1, 1, 1, 1, 1, 1, 1, 1, 1, 1, 1, 1, 1, 1, 1, 1,
    1, 1, 1, 1, 1, 1, 1, 1, 1, 1, 1, 1, 1, 1, 1, 1, 1, 1, 1, -1, -1, -1, -1, -1, -1, -1]⟩

example : (SequenceTables.standard.offsets.cells.toList.take 4).map (·.symbol) = [0, 6, 9, 15] := by
  decide +kernel

/-- The code that a block names: the standard one, one of a single symbol, one with a distribution of its
own, or the one before. Symbols go up to `highest`. -/
def readTable (standard : EntropyTable) (highest accuracy : Nat) (before : Option EntropyTable) :
    (kind : Nat) → Intake UInt8 EntropyTable
  | 0 => return standard
  | 1 => do
    let symbol ← ByteIntake.number 1
    if highest < symbol then failure
    return .constant symbol
  | 2 => fun bytes => do
    let (distribution, rest) ← readDistribution? highest bytes
    if accuracy < distribution.accuracy then failure
    return (.ofDistribution distribution, rest)
  | _ => liftM before

/-- The number of sequences of a block. -/
def sequenceCount : Intake UInt8 Nat := do
  let n ← ByteIntake.number 1
  if n < 128 then return n
  else if n < 255 then return (n - 128) * 256 + (← ByteIntake.number 1)
  else return 0x7F00 + (← ByteIntake.number 2)

/-- The three codes of a block's sequences. -/
def readTables (before : Option SequenceTables) : Intake UInt8 SequenceTables := do
  let kinds ← ByteIntake.number 1
  let standard := SequenceTables.standard
  return {
    literals := ← readTable standard.literals 35 9 (before.map (·.literals)) (kinds / 64)
    offsets := ← readTable standard.offsets 31 8 (before.map (·.offsets)) (kinds / 16 % 4)
    runs := ← readTable standard.runs 52 9 (before.map (·.runs)) (kinds / 4 % 4) }

/-! ## Carrying sequences out -/

/-- What was written of a frame, the offsets used last, and the codes to use again. -/
structure Progress where
  out : Array UInt8 := #[]
  offsets : RecentOffsets := {}
  code : Option PrefixTree := none
  tables : Option SequenceTables := none

/-- Writes `length` bytes again, from `offset` bytes back. -/
def copy (offset : Nat) : (length : Nat) → Array UInt8 → Array UInt8
  | 0, out => out
  | n + 1, out => copy offset n (out.push (out.getD (out.size - offset) 0))

/-- The states of the three codes. -/
structure SequenceStates where
  literals : Nat
  offsets : Nat
  runs : Nat

/-- What was written, the offsets used last, and the literals that are left. -/
structure Execution where
  out : Array UInt8
  offsets : RecentOffsets
  literals : Bytes

/-- Carries out `n` sequences. No more than `limit` bytes may be written. The bits suffice for all
sequences, and are too few to go on once more, or just enough. -/
def sequences (t : SequenceTables) (limit : Nat) :
    (n : Nat) → SequenceStates → Execution → BitIntake Execution
  | 0, _, e => return e
  | n + 1, s, e => do
    let literalCell := t.literals.cell s.literals
    let offsetCell := t.offsets.cell s.offsets
    let runCell := t.runs.cell s.runs
    let offsets ← e.offsets.next offsetCell.symbol (literalCell.symbol ≠ 0)
    let run ← extended runCodes runCell.symbol
    let count ← extended literalCodes literalCell.symbol
    let literals := e.literals.take count
    let out := e.out ++ literals
    if literals.length < count ∨ out.size < offsets.first ∨ limit < out.size + run then failure
    let e := { out := copy offsets.first run out, offsets, literals := e.literals.drop count }
    if n = 0 then
      if literalCell.width + runCell.width + offsetCell.width < (← Intake.remaining) then failure
      return e
    else
      let literalState ← t.literals.next s.literals
      let runState ← t.runs.next s.runs
      let offsetState ← t.offsets.next s.offsets
      sequences t limit n ⟨literalState, offsetState, runState⟩ e

/-- The states to start with. -/
def startStates (t : SequenceTables) : BitIntake SequenceStates := do
  return { literals := ← t.literals.start, offsets := ← t.offsets.start, runs := ← t.runs.start }

/-- Takes a compressed block. It writes at most `limit` bytes. Nothing stands behind a byte of zero that tells
that there are no sequences; where two bytes tell it, the codes still follow. -/
def Progress.pushCompressed (limit : Nat) (p : Progress) (block : Bytes) : Option Progress := do
  let (literals, code, rest) ← literals? p.code block
  let limit := p.out.size + limit
  let finish (p : Progress) (literals : Bytes) : Option Progress :=
    let out := p.out ++ literals
    if limit < out.size then none else some { p with out, code }
  if rest.head? = some 0 then if rest = [0] then finish p literals.toList else none
  else
    let (count, rest) ← sequenceCount.run rest
    let (tables, rest) ← (readTables p.tables).run rest
    if count = 0 then finish { p with tables := p.tables.map fun _ => tables } literals.toList
    else
      let run : BitIntake Execution := do
        sequences tables limit count (← startStates tables)
          { out := p.out, offsets := p.offsets, literals := literals.toList }
      let e ← run.run' (← backwardBits? rest)
      finish { p with out := e.out, offsets := e.offsets, tables := some tables } e.literals

end Zstandard

end JavaMachine

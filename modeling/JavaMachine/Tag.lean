/-
# Storage kinds

A field, an array element or an argument is stored as one of nine kinds: the eight primitive kinds
and the reference. The kind decides the width in memory, the descriptor letter and the conversions
that a value admits.
-/

namespace JavaMachine

/-! ## Primitive kinds -/

/-- The eight primitive kinds. -/
inductive Primitive where
  | byte | boolean | char | short | float | double | int | long
deriving DecidableEq, Repr

namespace Primitive

/-- The primitive kinds in the order in which tables list them. -/
def all : List Primitive := [byte, boolean, char, short, float, double, int, long]

/-- The position of a kind in `all`. -/
def ordinal : Primitive → Nat
  | byte => 0 | boolean => 1 | char => 2 | short => 3
  | float => 4 | double => 5 | int => 6 | long => 7

/-- The letter that a descriptor uses for the kind. -/
def letter : Primitive → Char
  | byte => 'B' | boolean => 'Z' | char => 'C' | short => 'S'
  | float => 'F' | double => 'D' | int => 'I' | long => 'J'

/-- The keyword of the kind. -/
def name : Primitive → String
  | byte => "byte" | boolean => "boolean" | char => "char" | short => "short"
  | float => "float" | double => "double" | int => "int" | long => "long"

/-- Bytes that a value of the kind takes in an object or an array. -/
def size : Primitive → Nat
  | byte => 1 | boolean => 1 | char => 2 | short => 2
  | float => 4 | double => 8 | int => 4 | long => 8

/-- Whether a static field of the kind takes a 64-bit slot. -/
def isWide : Primitive → Bool
  | double | long => true
  | _ => false

/-- The kind that a descriptor letter stands for. -/
def ofLetter? (c : Char) : Option Primitive := all.find? (·.letter = c)

/-- Reading a kind's letter gives the kind back. -/
theorem ofLetter?_letter (p : Primitive) : ofLetter? p.letter = some p := by
  cases p <;> rfl

/-- Every kind is listed at its position. -/
theorem getElem?_all_ordinal (p : Primitive) : all[p.ordinal]? = some p := by
  cases p <;> rfl

/-- No kind is stored in zero bytes. -/
theorem size_pos (p : Primitive) : 0 < p.size := by
  cases p <;> decide

end Primitive

/-! ## Kinds -/

/-- Bytes that a reference takes in an object or an array. -/
def referenceSize : Nat := 4

/-- A storage kind: a primitive kind or the reference. -/
inductive Tag where
  | primitive (p : Primitive)
  | reference
deriving DecidableEq, Repr

namespace Tag

/-- The kind that the first letter of a field descriptor announces: a primitive letter, or `L` or
`[` for a reference. -/
def ofLetter? (c : Char) : Option Tag :=
  if c = 'L' ∨ c = '[' then some reference else (Primitive.ofLetter? c).map primitive

/-- The letter of a kind; all references share `L`. -/
def letter : Tag → Char
  | primitive p => p.letter
  | reference => 'L'

/-- The name of a kind as messages give it. -/
def name : Tag → String
  | primitive p => p.name
  | reference => "reference"

def isPrimitive : Tag → Bool
  | primitive _ => true
  | reference => false

def isWide : Tag → Bool
  | primitive p => p.isWide
  | reference => false

/-- Bytes that a value of the kind takes in an object or an array. -/
def size : Tag → Nat
  | primitive p => p.size
  | reference => referenceSize

/-- Reading a kind's letter gives the kind back. -/
theorem ofLetter?_letter (t : Tag) : ofLetter? t.letter = some t := by
  cases t with
  | primitive p => cases p <;> rfl
  | reference => rfl

/-- No kind is stored in zero bytes. -/
theorem size_pos (t : Tag) : 0 < t.size := by
  cases t with
  | primitive p => exact p.size_pos
  | reference => decide

end Tag

end JavaMachine

/-
# Values

A value is a primitive payload with its kind, or a reference that may be null. Floating-point
payloads are bit patterns. `Value.coerce` is the conversion that every store into a field, an array
or a parameter goes through: it widens, it never narrows, and it keeps references and primitives
apart.
-/
import JavaMachine.Number.Binary
import JavaMachine.Tag
import JavaMachine.Throwable

namespace JavaMachine

/-- A tagged value. -/
inductive Value where
  | byte (v : Int8)
  | boolean (v : Bool)
  | char (v : UInt16)
  | short (v : Int16)
  | float (bits : UInt32)
  | double (bits : UInt64)
  | int (v : Int32)
  | long (v : Int64)
  | reference (r : Option ObjectRef)
deriving DecidableEq

namespace Value

/-- The null reference. -/
def null : Value := reference none

/-- A reference to an object. -/
def ref (r : ObjectRef) : Value := reference (some r)

/-- The kind of a value. -/
def tag : Value → Tag
  | byte _ => .primitive .byte
  | boolean _ => .primitive .boolean
  | char _ => .primitive .char
  | short _ => .primitive .short
  | float _ => .primitive .float
  | double _ => .primitive .double
  | int _ => .primitive .int
  | long _ => .primitive .long
  | reference _ => .reference

def isNull : Value → Bool
  | reference none => true
  | _ => false

/-- The payload of a reference; a primitive value has none. -/
def reference? : Value → Option (Option ObjectRef)
  | reference r => some r
  | _ => none

/-! ## Payload bits -/

/-- The payload of a primitive value as a word, with zeros above the value's own width. -/
def bits? : Value → Option UInt64
  | byte v => some v.toUInt8.toUInt64
  | boolean v => some (if v then 1 else 0)
  | char v => some v.toUInt64
  | short v => some v.toUInt16.toUInt64
  | float b => some b.toUInt64
  | double b => some b
  | int v => some v.toUInt32.toUInt64
  | long v => some v.toUInt64
  | reference _ => none

/-- The value of a primitive kind that the low bits of a word spell; any pattern but zero is
`true`. -/
def ofBits (p : Primitive) (bits : UInt64) : Value :=
  match p with
  | .byte => byte bits.toUInt8.toInt8
  | .boolean => boolean (bits.toUInt8 ≠ 0)
  | .char => char bits.toUInt16
  | .short => short bits.toUInt16.toInt16
  | .float => float bits.toUInt32
  | .double => double bits
  | .int => int bits.toUInt32.toInt32
  | .long => long bits.toInt64

/-- The zero of a kind: zero, false or null. -/
def zero : Tag → Value
  | .primitive p => ofBits p 0
  | .reference => null

/-- What a word spells has the kind it was read at. -/
theorem tag_ofBits (p : Primitive) (bits : UInt64) : (ofBits p bits).tag = .primitive p := by
  cases p <;> rfl

/-- The zero of a kind is of that kind. -/
theorem tag_zero (t : Tag) : (zero t).tag = t := by
  cases t with
  | primitive p => exact tag_ofBits p 0
  | reference => rfl

/-- A value has payload bits exactly when it is primitive. -/
theorem bits?_isSome (v : Value) : v.bits?.isSome = v.tag.isPrimitive := by
  cases v <;> rfl

/-! ## Conversion -/

/-- The value that widening to another kind gives, where there is such a conversion. An integer
that a floating-point kind cannot hold exactly goes to the nearest number. -/
def widen? : Value → Tag → Option Value
  | byte v, .primitive .short => some (short v.toInt16)
  | byte v, .primitive .int => some (int v.toInt32)
  | byte v, .primitive .long => some (long v.toInt64)
  | byte v, .primitive .float => some (float (singleOfInt v.toInt))
  | byte v, .primitive .double => some (double (doubleOfInt v.toInt))
  | short v, .primitive .int => some (int v.toInt32)
  | short v, .primitive .long => some (long v.toInt64)
  | short v, .primitive .float => some (float (singleOfInt v.toInt))
  | short v, .primitive .double => some (double (doubleOfInt v.toInt))
  | char v, .primitive .int => some (int v.toUInt32.toInt32)
  | char v, .primitive .long => some (long v.toUInt64.toInt64)
  | char v, .primitive .float => some (float (singleOfInt v.toNat))
  | char v, .primitive .double => some (double (doubleOfInt v.toNat))
  | int v, .primitive .long => some (long v.toInt64)
  | int v, .primitive .float => some (float (singleOfInt v.toInt))
  | int v, .primitive .double => some (double (doubleOfInt v.toInt))
  | long v, .primitive .float => some (float (singleOfInt v.toInt))
  | long v, .primitive .double => some (double (doubleOfInt v.toInt))
  | float b, .primitive .double => some (double (doubleOfSingle b))
  | _, _ => none

/-- Brings a value to a storage kind. A value of that kind is kept as it is; null becomes no
primitive, and two kinds without a widening conversion between them do not mix. -/
def coerce (v : Value) (t : Tag) : Except Throwable Value :=
  if v.tag = t then .ok v
  else if v.isNull then .error .nullPointer
  else
    match v.widen? t with
    | some w => .ok w
    | none => .error (.illegalArgument ("cannot convert " ++ v.tag.name ++ " to " ++ t.name))

/-- A widened value has the kind it was widened to. -/
theorem tag_widen? {v w : Value} {t : Tag} (h : v.widen? t = some w) : w.tag = t := by
  unfold widen? at h
  split at h <;> cases h <;> rfl

/-- A converted value has the kind it was converted to. -/
theorem tag_coerce {v w : Value} {t : Tag} (h : v.coerce t = .ok w) : w.tag = t := by
  unfold coerce at h
  split at h
  · next ht => cases h; exact ht
  · split at h
    · cases h
    · split at h
      · next hw => cases h; exact tag_widen? hw
      · cases h

end Value

end JavaMachine

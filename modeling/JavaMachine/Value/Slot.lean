/-
# Static slots

A static field lives in a slot of its class. Slots have three shapes: the narrow primitive kinds
share a 32-bit word, `long` and `double` take a 64-bit one, and a reference has a slot of its own.
-/
import JavaMachine.Value

namespace JavaMachine

/-- The storage of a static field. -/
inductive Slot where
  | word (w : UInt32)
  | wide (w : UInt64)
  | reference (r : Option ObjectRef)
deriving DecidableEq, Repr

namespace Slot

/-- The slot of a field that was never written. -/
def zero : Tag → Slot
  | .primitive p => if p.isWide then wide 0 else word 0
  | .reference => reference none

/-- The slot that holds a value. -/
def ofValue (v : Value) : Slot :=
  match v.reference? with
  | some r => reference r
  | none =>
    let bits := v.bits?.getD 0
    if v.tag.isWide then wide bits else word bits.toUInt32

/-- The value of a kind that a slot holds; `none` when the slot has another shape. -/
def load? : Slot → Tag → Option Value
  | reference r, .reference => some (.reference r)
  | word w, .primitive p => if p.isWide then none else some (.ofBits p w.toUInt64)
  | wide w, .primitive p => if p.isWide then some (.ofBits p w) else none
  | _, _ => none

/-- An unwritten field reads as the zero of its kind. -/
theorem load?_zero (t : Tag) : (zero t).load? t = some (Value.zero t) := by
  cases t with
  | primitive p => cases p <;> rfl
  | reference => rfl

end Slot

end JavaMachine

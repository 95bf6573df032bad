/-
# Natives of fields and arrays
-/
import JavaMachine.Machine.ArrayAccess
import JavaMachine.Native.Basic

namespace JavaMachine

namespace Builtin

/-! ## Fields -/

/-- The value of a field, boxed. -/
def fieldGet (args : Arguments) : Action Value := do
  let r ← args.object 0
  let f ← (← get).reflectedField r
  let target ← args.reference 1
  Action.box (← (← get).getField f target)

/-- Writes a field. -/
def fieldSet (args : Arguments) : Action Value := do
  let r ← args.object 0
  let f ← (← get).reflectedField r
  let target ← args.reference 1
  let v ← args.value 2
  Action.updating (·.setField f target v)
  return .null

/-! ## Arrays -/

/-- An element of an array, boxed. -/
def arrayGet (args : Arguments) : Action Value := do
  let array ← args.reference 0
  let index ← args.int 1
  Action.box (← (← get).arrayLoad array index)

/-- Writes an element of an array. -/
def arraySet (args : Arguments) : Action Value := do
  let array ← args.reference 0
  let index ← args.int 1
  let v ← args.value 2
  Action.updating (·.arrayStore array index v)
  return .null

/-- The number of elements of an array. -/
def arrayGetLength (args : Arguments) : Action Value := do
  let array ← args.reference 0
  return .int (Int32.ofNat (← (← get).arrayLength array))

/-- A new array over the class of a class object. -/
def arrayMake (args : Arguments) : Action Value := do
  let r ← args.object 0
  let c ← (← get).reflectedClass r
  let length ← args.int 1
  return .ref (← Action.newArray c length)

/-- Copies elements between arrays. -/
def systemArrayCopy (args : Arguments) : Action Value := do
  let src ← args.reference 0
  let srcPos ← args.int 1
  let dst ← args.reference 2
  let dstPos ← args.int 3
  let count ← args.int 4
  Action.updating (·.arrayCopy src srcPos dst dstPos count)
  return .null

end Builtin

end JavaMachine

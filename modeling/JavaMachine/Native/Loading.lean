/-
# Natives of class loading and resources

Names of classes arrive dotted and are brought to the internal spelling. A resource is opened by its
path, read by position under the number that opening gave, and closed.
-/
import JavaMachine.Machine.ArrayAccess
import JavaMachine.Native.Basic

namespace JavaMachine

namespace Machine

/-- The contents of a byte array, and of nothing else; `message` is the failure for other objects. -/
def byteArray (m : Machine) (r : ObjectRef) (message : String) : Except Stop Bytes := do
  match (← m.heap.get r).body with
  | .array (.primitive .byte data) => return data
  | _ => raise (.illegalArgument message)

/-- A range of a byte array that holds a class file. -/
def classFileRange (m : Machine) (array : Option ObjectRef) (offset length : Int32) :
    Except Stop Bytes := do
  let r ← nonNull array
  let data ← m.byteArray r "class bytes are not a byte[]"
  match rangeWithin? offset length data.length with
  | some (start, n) => return (data.drop start).take n
  | none => raise (.arrayIndexOutOfBounds (offset.toInt + length.toInt) data.length)

/-- The internal class name that a string object spells. -/
def nameArgument (m : Machine) (name : Option ObjectRef) : Except Stop String := do
  let r ← nonNull name
  return internalName (← m.stringValue r)

end Machine

namespace Action

/-- Defines the class in a range of a byte array. The range is copied first, and the copy counts as
scratch space until the definition has ended. -/
def defineRange (path : ClassPath) (array : Option ObjectRef) (offset length : Int32) :
    Action ClassId := do
  let bytes ← (← get).classFileRange array offset length
  modify fun m => { m with scratchBytes := m.scratchBytes + bytes.length }
  (defineClass path bytes).andFinally fun m =>
    { m with scratchBytes := m.scratchBytes - bytes.length }

end Action

namespace Builtin

/-! ## Classes -/

/-- Defines the class in a range of a byte array. -/
def loaderDefine {W : Type} : Native W := fun p _ args => do
  let array ← args.reference 0
  let offset ← args.int 1
  let length ← args.int 2
  let c ← Exec.onMachine (Action.defineRange p.classPath array offset length)
  return .ref (← Exec.onMachine (Action.classObject c))

/-- The class object of a class that is loaded, or null. -/
def loaderFindLoaded (args : Arguments) : Action Value := do
  let name ← args.reference 0
  let name ← (← get).nameArgument name
  match (← get).classes.find? name with
  | some c => return .ref (← Action.classObject c)
  | none => return .null

/-- The class object of a class, loaded from the class path if need be. -/
def loaderFind {W : Type} : Native W := fun p _ args => do
  let name ← args.reference 0
  let name ← (← Exec.machine).nameArgument name
  let c ← Exec.onMachine (Action.resolve p.classPath name)
  return .ref (← Exec.onMachine (Action.classObject c))

/-- Whether a resource is on the class path. -/
def loaderResourceExists {W : Type} : Native W := fun p _ args => do
  let r ← args.object 0
  let path ← (← Exec.machine).stringValue r
  return .boolean (p.classPath.contains path)

/-! ## Resources -/

/-- Opens a resource; zero when there is none. -/
def resourceOpen {W : Type} : Native W := fun p _ args => do
  let r ← args.object 0
  let path ← (← Exec.machine).stringValue r
  match p.classPath.find? path with
  | none => return .long 0
  | some data =>
    let (resources, number) := (← Exec.machine).resources.add data
    Exec.modifyMachine ({ · with resources })
    return .long number

/-- The byte of a resource at a position, or -1. -/
def resourceRead (args : Arguments) : Action Value := do
  let number ← args.long 0
  let data ← (← get).resources.get number
  let position ← args.int 1
  if position < 0 then return .int (-1)
  match data[position.toInt.toNat]? with
  | some b => return .int b.toUInt32.toInt32
  | none => return .int (-1)

/-- Writes bytes into a byte array from an offset on. -/
def writeBytes (m : Machine) (buffer : ObjectRef) (offset : Int32) (bytes : Bytes) :
    Except Stop Machine := do
  let target ← m.byteArray buffer "buffer is not a byte[]"
  if 0 ≤ offset ∧ offset.toInt.toNat + bytes.length ≤ target.length then
    let body : Body :=
      .array (.primitive .byte (ArrayBody.overwrite target offset.toInt.toNat bytes))
    return { m with heap := m.heap.updateBody buffer fun _ => body }
  else raise (.arrayIndexOutOfBounds offset.toInt target.length)

/-- Copies bytes of a resource, from a position on and at most a number of them, into a byte array.
Gives how many they were; -1 for a position outside the resource, or a number below zero. -/
def resourceReadInto (args : Arguments) : Action Value := do
  let number ← args.long 0
  let data ← (← get).resources.get number
  let position ← args.int 1
  let buffer ← args.object 2
  let offset ← args.int 3
  let length ← args.int 4
  let count := min length.toInt (data.length - position.toInt)
  if count < 0 ∨ position < 0 then return .int (-1)
  Action.updating fun m =>
    writeBytes m buffer offset ((data.drop position.toInt.toNat).take count.toNat)
  return .int (Int32.ofInt count)

/-- Closes a resource. -/
def resourceClose (args : Arguments) : Action Value := do
  let number ← args.long 0
  let resources ← (← get).resources.close number
  modify ({ · with resources })
  return .null

end Builtin

end JavaMachine

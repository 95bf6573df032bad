/-
# Natives of objects, classes, strings and the runtime
-/
import JavaMachine.Machine.ArrayAccess
import JavaMachine.Machine.Reflection
import JavaMachine.Native.Basic

namespace JavaMachine

namespace Builtin

/-! ## Objects -/

/-- The dotted class name of an object and its identity hash in hexadecimal. -/
def objectToString (args : Arguments) : Action Value := do
  let o ← (← get).heap.get (← args.object 0)
  let name ← (← get).classes.dotted o.owner
  return .ref (← Action.newString (name ++ "@" ++ String.ofList (Nat.toDigits 16 o.hash.toNat)))

/-- The class object of an object. -/
def objectGetClass (args : Arguments) : Action Value := do
  let c ← (← get).classOf (← args.object 0)
  return .ref (← Action.classObject c)

/-- The identity hash of an object. -/
def identityHash (args : Arguments) : Action Value := do
  let o ← (← get).heap.get (← args.object 0)
  return .int o.hash.toInt32

/-! ## Classes -/

/-- The primitive class of a descriptor letter, `V` standing for `void`. -/
def primitiveOfUnit (unit : UInt16) : Except Throwable ClassId :=
  if 0xFF < unit then .error (.illegalArgument "not a primitive descriptor")
  else
    let c := Char.ofNat unit.toNat
    if c = 'V' then .ok .void
    else
      match Primitive.ofLetter? c with
      | some p => .ok (.ofPrimitive p)
      | none => .error (.illegalArgument ("not a primitive descriptor: " ++ String.singleton c))

def classPrimitive (args : Arguments) : Action Value := do
  let c ← primitiveOfUnit (← args.char 0)
  return .ref (← Action.classObject c)

/-- Initializes the class of a class object. -/
def classInitialize {W : Type} : Native W := fun p t args => do
  let r ← args.object 0
  let c ← (← Exec.machine).reflectedClass r
  initializeClass p t c
  return .null

/-- Whether the class of one class object takes values of the class of another. -/
def classIsAssignable (args : Arguments) : Action Value := do
  let target ← args.object 0
  let source ← args.object 1
  let m ← get
  let target ← m.reflectedClass target
  let source ← m.reflectedClass source
  return .boolean (m.classes.isAssignable target source)

/-! ## Strings -/

/-- The string object that stands for all strings of a text. -/
def stringIntern (args : Arguments) : Action Value := do
  let r ← args.object 0
  return .ref (← Action.intern (← (← get).stringValue r))

/-! ## The runtime -/

/-- Loads a library of native code. -/
def runtimeLoadLibrary {W : Type} : Native W := fun p _ args => do
  let r ← args.object 1
  let name ← (← Exec.machine).stringValue r
  match (← p.loadLibrary name).throwable? name with
  | none => return .null
  | some e => raise e

/-- Collects garbage. -/
def runtimeGc {W : Type} : Native W := fun p t _ => do
  let w ← Exec.world
  discard (Exec.onMachine (Action.collect t (p.keep w)))
  return .null

/-- Ends the machine. -/
def runtimeExit {W : Type} : Native W := fun _ _ args => do
  let code ← args.int 1
  throw (.exit code)

/-- What is left of the heap budget. -/
def runtimeFreeMemory {W : Type} : Native W := fun p _ _ => do
  let free := (← Exec.machine).freeMemory p.config.maxHeapBytes
  return .long (Int64.ofNat (min free Int64.maxValue.toNatClampNeg))

end Builtin

end JavaMachine

/-
# Arguments of native methods

A native method gets its arguments as a list of values, the receiver of an instance method first.
Each accessor here takes one of them at the kind that the method needs; an argument that is missing
or of another kind is an exception.
-/
import JavaMachine.Value

namespace JavaMachine

/-- The values that a native method is called with. -/
abbrev Arguments := List Value

namespace Arguments

/-- The failure of an argument that is not of the kind that is needed. -/
def mismatch (i : Nat) (expected : String) : Throwable :=
  .illegalArgument ("argument " ++ toString i ++ " is not a " ++ expected)

/-- An argument of any kind. -/
def value (args : Arguments) (i : Nat) : Except Throwable Value :=
  match args[i]? with
  | some v => .ok v
  | none => .error (.illegalArgument ("missing argument " ++ toString i))

/-- A reference that may be null. -/
def reference (args : Arguments) (i : Nat) : Except Throwable (Option ObjectRef) := do
  match (← args.value i).reference? with
  | some r => return r
  | none => throw (mismatch i "reference")

/-- A reference that must not be null. -/
def object (args : Arguments) (i : Nat) : Except Throwable ObjectRef := do
  match ← args.reference i with
  | some r => return r
  | none => throw .nullPointer

/-- An integer of at most 32 bits. -/
def int (args : Arguments) (i : Nat) : Except Throwable Int32 := do
  match ← args.value i with
  | .int v => return v
  | .short v => return v.toInt32
  | .byte v => return v.toInt32
  | .char v => return v.toUInt32.toInt32
  | _ => throw (mismatch i "int")

/-- An integer of 32 or 64 bits. -/
def long (args : Arguments) (i : Nat) : Except Throwable Int64 := do
  match ← args.value i with
  | .long v => return v
  | .int v => return v.toInt64
  | _ => throw (mismatch i "long")

/-- A UTF-16 unit. -/
def char (args : Arguments) (i : Nat) : Except Throwable UInt16 := do
  match ← args.value i with
  | .char v => return v
  | _ => throw (mismatch i "char")

end Arguments

end JavaMachine

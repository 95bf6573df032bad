/-
# Natives of reflective calls and stack traces

A trace is the stack of a thread at some moment, the innermost call first. Calls that only create the
exception are left out: when the trace would begin in the class of all exceptions, its constructors
at the front are skipped.
-/
import JavaMachine.Machine.Reflection
import JavaMachine.Native.Basic

namespace JavaMachine

/-! ## Capturing a stack -/

/-- The name of constructors. -/
def constructorName : String := "<init>"

/-- Drops the constructors in front, if the first call is of the class of all exceptions. -/
def skipConstructors (frames : List Frame) : List Frame :=
  match frames with
  | [] => []
  | f :: _ =>
    if f.method.owner = .throwable then
      frames.dropWhile fun f => f.method.name = constructorName
    else frames

/-- The calls of a trace: those under way without the innermost `skip`. A program asks for fewer than 2³¹
to be skipped (`Builtin.throwableTrace`), so that counting one more of them fits into a machine word. -/
def captureTrace (t : Thread) (skip : Nat) : List Frame := skipConstructors (t.frames.drop skip)

/-- A call of a trace with its names and its source line. -/
def traceLine (m : Machine) (f : Frame) : Except Stop TraceLine := do
  let cls ← m.classes.get f.method.owner
  return { declaringClass := cls.dotted, methodName := f.method.name, fileName := cls.sourceFile
           line := f.method.lineAt f.ip }

/-- The lines of a trace. -/
def traceLines (m : Machine) (frames : List Frame) : Except Stop (List TraceLine) :=
  frames.mapM (traceLine m)

namespace Builtin

/-! ## Calls -/

/-- Calls the method of a reflection object. -/
def methodInvoke {W : Type} : Native W := fun p t args => do
  let r ← args.object 0
  let x ← (← Exec.machine).reflectedMethod r
  let target ← args.reference 1
  let arguments ← args.reference 2
  invokeMethod p t x target arguments

/-- The method two calls below the caller of this one, or null. -/
def methodGetCaller {W : Type} : Native W := fun _ t _ => do
  match (← (← Exec.machine).thread t).frames[2]? with
  | none => return .null
  | some f => return .ref (← Exec.onMachine (Action.methodObject f.method))

/-- A new instance of the class of a class object. -/
def makeInstance (args : Arguments) : Action Value := do
  let r ← args.object 0
  let c ← (← get).reflectedClass r
  return .ref (← Action.newInstance c)

/-! ## Traces -/

/-- Captures the trace of the calling thread in an object. A negative number of calls to skip counts
as zero. -/
def throwableTrace {W : Type} : Native W := fun _ t args => do
  let skip ← args.int 0
  let frames := captureTrace (← (← Exec.machine).thread t) skip.toInt.toNat
  return .ref (← Exec.onMachine (Action.allocate .object (.trace frames)))

/-- Fills an array with references, as one write. There have to be as many as it has elements. -/
def fillArray (array : ObjectRef) (refs : List (Option ObjectRef)) : Action Unit := do
  match ← (← get).arrayBody array with
  | .references slots =>
    if slots.length ≠ refs.length then abort (.mismatchedArray array)
    modify fun m =>
      { m with heap := (m.heap.updateBody array fun _ => .array (.references refs)).noteWrite array }
  | .primitive _ _ => abort (.mismatchedArray array)

/-- The lines of a captured trace, in an array of objects. -/
def throwableResolveTrace (args : Arguments) : Action Value := do
  let r ← args.object 0
  let m ← get
  match (← m.heap.get r).body with
  | .trace frames =>
    let lines ← traceLines m frames
    let array ← Action.newArray .stackTraceElement (Int32.ofNat lines.length)
    let refs ← lines.mapM fun l => Action.allocate .stackTraceElement (.traceLine l)
    fillArray array (refs.map some)
    return .ref array
  | _ => raise (.illegalArgument "not a captured trace")

end Builtin

end JavaMachine

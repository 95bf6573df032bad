/-
# Class initialization and reflective calls

A class with a static initializer is initialized once. The class counts as initialized from the
moment its initialization begins, so that an initializer that comes back to its own class finds
nothing to do; the superclass is initialized before the initializer runs.

A reflective call runs a method with boxed arguments. The arguments and the receiver are checked, and
the arguments unboxed and widened, before anything runs. A failure of the method itself is wrapped;
one of initializing its class is not.
-/
import JavaMachine.Machine.ArrayAccess
import JavaMachine.Platform

namespace JavaMachine

/-! ## Initialization -/

/-- Initializes a class: runs its static initializer after that of its superclass, unless it has
none or was begun before. A failure of an initializer ends the whole initialization. -/
def initializeClass {W : Type} (p : Platform W) (t : ThreadId) (c : ClassId) : Exec W Unit := do
  let m ← Exec.machine
  let cls ← m.classes.get c
  if cls.needsInit && !cls.initStarted then
    Exec.modifyMachine fun m =>
      { m with classes := m.classes.update c ({ · with initStarted := true }) }
    match m.classes.superclass? c with
    | some s => initializeClass p t s.1
    | none => pure ()
    match cls.method? initializerName "()V" with
    | some x => discard (p.invoke t x none [])
    | none => pure ()
termination_by c.index
decreasing_by exact s.2

/-! ## Reflective calls -/

namespace Machine

/-- The receiver of a reflective call: none for a static method, and otherwise an instance of the
declaring class. -/
def callReceiver (m : Machine) (x : Method) (target : Option ObjectRef) :
    Except Stop (Option ObjectRef) := do
  if x.isStatic then return none
  else
    let r ← nonNull target
    let c ← m.classOf r
    if m.classes.isAssignable x.owner c then return some r
    else
      let name ← m.classes.dotted c
      let owner ← m.classes.dotted x.owner
      raise (.illegalArgument
        ("object of class " ++ name ++ " is not an instance of " ++ owner))

/-- One argument, brought to the kind of its parameter. -/
def callArgument (m : Machine) (t : Tag) (arg : Option ObjectRef) : Except Throwable Value :=
  match t, arg with
  | .primitive p, none => .error (.illegalArgument ("null for " ++ p.name ++ " parameter"))
  | t, arg => m.heap.coerceFor t (.reference arg)

/-- The arguments in an array of references, brought to the kinds of the parameters. -/
def callArguments (m : Machine) (x : Method) (array : ObjectRef) : Except Stop (List Value) := do
  match (← m.heap.get array).body with
  | .array (.references slots) =>
    if slots.length ≠ x.params.length then
      raise (.wrongArgumentCount x.params.length slots.length)
    ((x.params.zip slots).mapM fun (t, arg) => m.callArgument t arg :
      Except Throwable (List Value))
  | _ => raise (.illegalArgument "arguments are not an Object[]")

end Machine

/-- Runs a method through the engine and wraps the exception that it ends with. -/
def invokeWrapped {W : Type} (p : Platform W) (t : ThreadId) (x : Method)
    (receiver : Option ObjectRef) (args : List Value) : Exec W Value := do
  match ← Exec.attempt (p.invoke t x receiver args) with
  | .ok v => return v
  | .error e => raise (.invocationTarget e)

/-- Calls a method reflectively. The result is boxed; a method without a result gives null. -/
def invokeMethod {W : Type} (p : Platform W) (t : ThreadId) (x : Method)
    (target arguments : Option ObjectRef) : Exec W Value := do
  let m ← Exec.machine
  let array ← Machine.nonNull arguments
  let receiver ← m.callReceiver x target
  let args ← m.callArguments x array
  if x.isStatic then initializeClass p t x.owner
  let result ← invokeWrapped p t x receiver args
  match x.result with
  | some _ => Exec.onMachine (Action.box result)
  | none => return .null

end JavaMachine

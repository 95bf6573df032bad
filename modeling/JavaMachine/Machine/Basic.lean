/-
# The machine

The state of a machine: its classes and objects, the strings that are interned, the symbols that
native methods are linked to, monitors, threads and open resources.

`Action` is a computation on that state which may end early for a reason of `Stop`; the state
reached by then stays. A function that returns `Except Stop` reads the state only, or gives the new
one beside its result, and so changes nothing when it fails.
-/
import JavaMachine.Class.Bootstrap
import JavaMachine.Monitor
import JavaMachine.Resource
import JavaMachine.Thread

namespace JavaMachine

/-- The state of a machine. -/
structure Machine where
  classes : ClassTable := .bootstrap
  heap : Heap := {}
  interned : Table String ObjectRef := {}
  /-- The symbol that each native method is linked to, by class and place in the class. -/
  links : Table (ClassId × Nat) String := {}
  monitors : MonitorTable := {}
  threads : ThreadTable := {}
  resources : OpenResources := {}
  /-- The names of the classes whose definition is under way. -/
  defining : List String := []
  /-- Bytes held in copies of class files that are being defined. -/
  scratchBytes : Nat := 0

/-- A computation on a machine. -/
abbrev Action := ExceptT Stop (StateM Machine)

/-! ## Failing with an exception -/

instance : MonadLift (Except Throwable) (Except Stop) := ⟨Except.mapError Stop.thrown⟩

/-- Ends with an exception. -/
def raise {m : Type → Type} [MonadExceptOf Stop m] {α : Type} (t : Throwable) : m α :=
  throw (Stop.thrown t)

/-- Ends because an invariant is broken. -/
def abort {m : Type → Type} [MonadExceptOf Stop m] {α : Type} (f : Fault) : m α :=
  throw (Stop.broken f)

namespace Action

/-- Runs a computation and hands out its exception, if it ends with one. -/
def attempt {α : Type} (a : Action α) : Action (Except Throwable α) := fun s =>
  match a s with
  | (.ok x, s) => (.ok (.ok x), s)
  | (.error (.thrown t), s) => (.ok (.error t), s)
  | (.error e, s) => (.error e, s)

/-- Runs a computation and then changes the state, however the computation ends. -/
def andFinally {α : Type} (a : Action α) (f : Machine → Machine) : Action α := fun s =>
  let (r, s) := a s
  (r, f s)

/-- A computation that only reads. -/
def reading {α : Type} (f : Machine → Except Stop α) : Action α := fun s => (f s, s)

/-- A computation that changes nothing when it fails. -/
def updating (f : Machine → Except Stop Machine) : Action Unit := fun s =>
  match f s with
  | .ok s' => (.ok (), s')
  | .error e => (.error e, s)

end Action

namespace Machine

/-! ## Objects -/

/-- The class of an object. -/
def classOf (m : Machine) (r : ObjectRef) : Except Stop ClassId := (m.heap.get r).map Object.owner

/-- The text of a string object. -/
def stringValue (m : Machine) (r : ObjectRef) : Except Stop String := do
  match (← m.heap.get r).body with
  | .string s => return s
  | _ => raise (.illegalArgument "not a string")

/-- The class that a class object stands for. -/
def reflectedClass (m : Machine) (r : ObjectRef) : Except Stop ClassId := do
  match (← m.heap.get r).body with
  | .reflected (.ofClass c) => return c
  | _ => raise (.illegalArgument "not a java.lang.Class")

/-- The field that a reflection object stands for. -/
def reflectedField (m : Machine) (r : ObjectRef) : Except Stop Field := do
  match (← m.heap.get r).body with
  | .reflected (.ofField f) => return f
  | _ => raise (.illegalArgument "not a java.lang.reflect.Field")

/-- The method that a reflection object stands for. -/
def reflectedMethod (m : Machine) (r : ObjectRef) : Except Stop Method := do
  match (← m.heap.get r).body with
  | .reflected (.ofMethod x) => return x
  | _ => raise (.illegalArgument "not a java.lang.reflect.Method")

/-- What is left of a heap budget. -/
def freeMemory (m : Machine) (budget : Nat) : Nat := budget - m.heap.bytesUsed

/-- The context of a thread. -/
def thread (m : Machine) (t : ThreadId) : Except Stop Thread :=
  match m.threads.contexts.get? t with
  | some x => .ok x
  | none => .error (.broken (.unknownThread t))

/-- Changes the context of a thread. -/
def updateThread (m : Machine) (t : ThreadId) (f : Thread → Thread) : Machine :=
  { m with threads := { m.threads with contexts := m.threads.contexts.modify t f } }

end Machine

/-! ## Making objects -/

namespace Action

/-- Adds an object to the heap. -/
def allocate (owner : ClassId) (body : Body) : Action ObjectRef :=
  modifyGet fun m =>
    let (heap, r) := m.heap.allocate owner body
    (r, { m with heap })

/-- Changes the context of a thread. -/
def updateThread (t : ThreadId) (f : Thread → Thread) : Action Unit :=
  modify (·.updateThread t f)

def newString (s : String) : Action ObjectRef := allocate .string (.string s)

/-- The string object that stands for all strings of a text. -/
def intern (s : String) : Action ObjectRef := do
  match (← get).interned.get? s with
  | some r => return r
  | none =>
    let r ← newString s
    modify fun m => { m with interned := m.interned.insert s r }
    return r

/-- A primitive value in an object of its own; a reference as it is. -/
def box (v : Value) : Action Value := do
  match v.tag with
  | .primitive p => return .ref (← allocate (.box p) (.boxed v))
  | .reference => return v

/-- A new instance of a class, with all fields zero or null. -/
def newInstance (c : ClassId) : Action ObjectRef := do
  let cls ← (← get).classes.get c
  if cls.isArray || cls.isPrimitive then
    raise (.illegalArgument ("cannot instantiate " ++ cls.dotted))
  allocate c (.ofLayout cls.layout)

/-- The array class over a class. -/
def arrayClass (component : ClassId) : Action ClassId := do
  let (classes, c) ← (← get).classes.arrayClass component
  modify ({ · with classes })
  return c

/-- A new array, with all elements zero or null. -/
def newArray (component : ClassId) (length : Int32) : Action ObjectRef := do
  if length < 0 then raise (.negativeArraySize length.toInt)
  if (← (← get).classes.get component).kind = .primitive none then
    raise (.illegalArgument "array of void")
  let c ← arrayClass component
  let element := (← (← get).classes.get c).element?.getD .reference
  allocate c (.array (.zeroed element length.toInt.toNat))

/-- The object that stands for a class, made when it is first asked for. -/
def classObject (c : ClassId) : Action ObjectRef := do
  match (← (← get).classes.get c).classObject with
  | some r => return r
  | none =>
    let r ← allocate .classClass (.reflected (.ofClass c))
    modify fun m => { m with classes := m.classes.update c ({ · with classObject := some r }) }
    return r

/-- A new object that stands for a field. -/
def fieldObject (f : Field) : Action ObjectRef := allocate .reflectField (.reflected (.ofField f))

/-- A new object that stands for a method. -/
def methodObject (x : Method) : Action ObjectRef := allocate .reflectMethod (.reflected (.ofMethod x))

end Action

end JavaMachine

/-
# Defining and resolving classes

`Action.define` turns a class file into a class. The superclass and the interfaces are resolved
first, which may in turn define them from the class path. Instance fields then continue the layout
of the superclass: a primitive field goes to the next multiple of its size, a reference to the next
slot. Each static field gets a slot that holds its constant, or zero.

`Action.resolve` finds a class by its name, or makes it: an array class over its component, any other
class from its file on the class path. A class that is met again while it is being defined is an
error, so a chain of definitions is never longer than the class path has files.
-/
import JavaMachine.ClassFile.Parser
import JavaMachine.ClassPath.Basic
import JavaMachine.Machine.Basic

namespace JavaMachine

/-- A failure of reading a class file, as the exception it is reported by. -/
def formatError {α : Type} (r : Except ClassFileError α) : Except Throwable α :=
  r.mapError fun e => .classFormat e.message

instance : MonadLift (Except Throwable) Action := ⟨fun r => liftM (r.mapError Stop.thrown)⟩

/-! ## Fields -/

/-- The next multiple of `size` from `n` on. -/
def alignUp (n size : Nat) : Nat := (n + size - 1) / size * size

/-- What laying out the fields of a class has come to. -/
structure FieldPlan where
  layout : Layout
  statics : List Slot := []
  fields : List Field := []

namespace FieldPlan

/-- Places an instance field, and gives its offset. -/
def place (l : Layout) (t : Tag) : Layout × Nat :=
  match t with
  | .reference => ({ l with refs := l.refs + 1 }, l.refs)
  | .primitive p =>
    let offset := alignUp l.bytes p.size
    ({ l with bytes := offset + p.size }, offset)

/-- Adds an instance field; `build` makes it from its offset. -/
def addInstance (p : FieldPlan) (t : Tag) (build : Nat → Field) : FieldPlan :=
  let (layout, offset) := place p.layout t
  { p with layout, fields := p.fields ++ [build offset] }

/-- Adds a static field with its slot. -/
def addStatic (p : FieldPlan) (s : Slot) (build : Nat → Field) : FieldPlan :=
  { p with statics := p.statics ++ [s], fields := p.fields ++ [build p.statics.length] }

end FieldPlan

/-- The kind that the first letter of a field descriptor announces. -/
def fieldTag (descriptor : String) : Except Throwable Tag :=
  match descriptor.toList.head?.bind Tag.ofLetter? with
  | some t => .ok t
  | none => .error (.classFormat ("bad field descriptor " ++ descriptor))

/-- The value of a constant for a static field of a primitive kind: integers are cut down to the
narrow kinds, and any but zero is true. -/
def constantFor? (c : Constant) (t : Tag) : Option Value :=
  match c, t with
  | .integer v, .primitive .int => some (.int v)
  | .integer v, .primitive .short => some (.short v.toInt16)
  | .integer v, .primitive .char => some (.char v.toUInt32.toUInt16)
  | .integer v, .primitive .byte => some (.byte v.toInt8)
  | .integer v, .primitive .boolean => some (.boolean (v ≠ 0))
  | .float b, .primitive .float => some (.float b)
  | .long v, .primitive .long => some (.long v)
  | .double b, .primitive .double => some (.double b)
  | _, _ => none

namespace Action

/-- The starting value of a static field with a constant. -/
def constantValue (pool : ConstantPool) (index : UInt16) (t : Tag) : Action Value := do
  match ← formatError (pool.get index), t with
  | .string text, .reference =>
    let s ← formatError (pool.text text)
    return .ref (← intern s)
  | c, t =>
    match constantFor? c t with
    | some v => return v
    | none => raise (.classFormat ("bad ConstantValue at index " ++ toString index.toNat))

/-- The starting slot of a static field: its constant, or zero. -/
def initialSlot (pool : ConstantPool) (info : MemberInfo) (t : Tag) : Action Slot := do
  match info.constantValue? with
  | none => return .zero t
  | some index => return .ofValue (← constantValue pool index t)

/-- Adds a field of a class file to the plan of its class. -/
def planField (pool : ConstantPool) (owner : ClassId) (plan : FieldPlan) (info : MemberInfo) :
    Action FieldPlan := do
  let name ← formatError (pool.text info.name)
  let descriptor ← formatError (pool.text info.descriptor)
  let tag ← fieldTag descriptor
  let build (offset : Nat) : Field := { owner, name, descriptor, tag, offset, flags := info.flags }
  if hasFlag info.flags staticFlag then
    return plan.addStatic (← initialSlot pool info tag) build
  else return plan.addInstance tag build

end Action

/-! ## Methods -/

/-- The order of line table entries: by offset, then by line. -/
def lineLe (a b : UInt16 × UInt16) : Bool := a.1 < b.1 ∨ (a.1 = b.1 ∧ a.2 ≤ b.2)

/-- The line table of some code, all its tables together in order. -/
def lineTable (c : Code) : List (UInt16 × UInt16) :=
  (c.lineEntries.map fun e => (e.startPc, e.line)).mergeSort lineLe

/-- A method of a class file. -/
def methodOf (pool : ConstantPool) (owner : ClassId) (info : MemberInfo) :
    Except Throwable Method := do
  let name ← formatError (pool.text info.name)
  let descriptor ← formatError (pool.text info.descriptor)
  match Method.ofDescriptor? owner name descriptor info.flags with
  | none => throw (.classFormat ("bad method descriptor " ++ descriptor))
  | some x =>
    match info.code? with
    | none => return x
    | some c => return { x with code := some c.code, lines := lineTable c }

/-- The name of static initializers. -/
def initializerName : String := "<clinit>"

namespace Action

/-! ## Defining -/

/-- Runs a part of a definition with the class's name among those under way, and takes the name off
again however that ends. A name that is already there is an error. -/
def whileDefining {α : Type} (name : String) (a : Action α) : Action α := do
  if name ∈ (← get).defining then raise (.classCircularity name)
  modify fun m => { m with defining := name :: m.defining }
  a.andFinally fun m => { m with defining := m.defining.erase name }

/-- The superclass of a class file, resolved. -/
def superclassOf (resolve : String → Action ClassId) (cf : ClassFile) (name : String) :
    Action (Option ClassId) := do
  match ← formatError cf.superClassName? with
  | none => return none
  | some s => if s = name then raise (.classCircularity name) else return some (← resolve s)

/-- Adds the class of a class file to the table, once its name is known to be free. -/
def build (resolve : String → Action ClassId) (cf : ClassFile) (name : String) :
    Action ClassId := do
  let superclass ← superclassOf resolve cf name
  let interfaces ← (← formatError cf.interfaceNames).mapM resolve
  let m ← get
  let owner := m.classes.nextId
  let inherited := ((superclass.bind m.classes.get?).map Class.layout).getD {}
  let plan ← cf.fields.foldlM (planField cf.pool owner) { layout := inherited }
  let methods ← cf.methods.mapM fun info => methodOf cf.pool owner info
  let sourceFile ← formatError cf.sourceFile?
  let cls : Class :=
    { name, superclass, kind := .ordinary, interfaces, flags := cf.flags, fields := plan.fields,
      methods, layout := plan.layout, sourceFile, statics := plan.statics,
      needsInit := methods.any (·.name = initializerName) }
  let (classes, c) ← (← get).classes.define cls
  modify ({ · with classes })
  return c

/-- Defines the class that some bytes hold. Where a name is expected, the class has to have it. -/
def define (resolve : String → Action ClassId) (bytes : Bytes) (expected : Option String) :
    Action ClassId := do
  let cf ← formatError (ClassFile.parse bytes)
  let name ← formatError cf.className
  match expected.filter (· ≠ name) with
  | some e => raise (.wrongName e name)
  | none => pure ()
  if ((← get).classes.find? name).isSome then raise (.duplicateClass name)
  whileDefining name (build resolve cf name)

/-! ## Resolving -/

/-- What the name of an array class says about its components. -/
inductive ComponentName where
  | primitive (p : Primitive)
  | named (name : String)

/-- The component that stands behind the bracket of an array class's name. -/
def componentName? (descriptor : List Char) : Option ComponentName :=
  match descriptor with
  | [] => none
  | 'L' :: rest =>
    if rest.getLast? = some ';' then some (.named (String.ofList rest.dropLast)) else none
  | '[' :: _ => some (.named (String.ofList descriptor))
  | [c] => (Primitive.ofLetter? c).map .primitive
  | _ => none

/-- The class of a component. -/
def resolveComponent (resolve : String → Action ClassId) : ComponentName → Action ClassId
  | .primitive p => return .ofPrimitive p
  | .named name => resolve name

/-- Defines a class from its file on the class path. When it was defined meanwhile, that is the
class. -/
def load (resolve : String → Action ClassId) (path : ClassPath) (name : String) :
    Action ClassId := do
  match path.find? (name ++ ".class") with
  | none => raise (.classNotFound name)
  | some bytes =>
    match ← attempt (define resolve bytes (some name)) with
    | .ok c => return c
    | .error t =>
      if t.kind = .linkage then
        match (← get).classes.find? name with
        | some c => return c
        | none => raise t
      else raise t

/-- The class of a name, through at most `bound` resolutions inside each other. -/
def resolveWithin (path : ClassPath) : (bound : Nat) → String → Action ClassId
  | 0, _ => abort .endlessResolution
  | bound + 1, name => do
    match (← get).classes.find? name with
    | some c => return c
    | none =>
      match name.toList with
      | '[' :: descriptor =>
        match componentName? descriptor with
        | none => raise (.classNotFound name)
        | some component =>
          arrayClass (← resolveComponent (resolveWithin path bound) component)
      | _ => load (resolveWithin path bound) path name

/-- The longest name that a class file can spell. -/
def maxNameLength : Nat := 0xFFFF

/-- A number of resolutions inside each other that is not reached: a name of an array class gets
shorter with each, and each class on the way is defined from a resource of its own. -/
def resolutionBound (path : ClassPath) (name : String) : Nat :=
  name.length + 1 + path.size * (maxNameLength + 1)

/-- The class of a name. -/
def resolve (path : ClassPath) (name : String) : Action ClassId :=
  resolveWithin path (resolutionBound path name) name

/-- Defines the class that some bytes hold. -/
def defineClass (path : ClassPath) (bytes : Bytes) : Action ClassId :=
  define (resolve path) bytes none

end Action

end JavaMachine

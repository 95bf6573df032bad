/-
# Classes

A class as it lives in the class table: its name and kind, its supertypes, its fields and methods,
the layout of its instances, and the little state it has of its own: the slots of its static fields,
how far its initialization has come, and the object that stands for it.
-/
import JavaMachine.Descriptor
import JavaMachine.Text.Modified
import JavaMachine.Value.Slot

namespace JavaMachine

/-! ## Access flags -/

def publicFlag : UInt16 := 0x0001
def staticFlag : UInt16 := 0x0008
def finalFlag : UInt16 := 0x0010
def nativeFlag : UInt16 := 0x0100
def interfaceFlag : UInt16 := 0x0200
def abstractFlag : UInt16 := 0x0400

/-- Whether a set of flags holds a flag. -/
def hasFlag (flags flag : UInt16) : Bool := flags &&& flag ≠ 0

/-! ## Fields and methods -/

/-- A field. Its offset counts bytes for an instance field of a primitive kind, reference slots for
an instance field of reference kind, and static slots for a static field. -/
structure Field where
  owner : ClassId
  name : String
  descriptor : String
  tag : Tag
  offset : Nat
  flags : UInt16
deriving DecidableEq, Repr

def Field.isStatic (f : Field) : Bool := hasFlag f.flags staticFlag

/-- A method. The line table pairs offsets into the code with source lines. -/
structure Method where
  owner : ClassId
  name : String
  descriptor : String
  flags : UInt16
  params : List Tag
  result : Option Tag
  lines : List (UInt16 × UInt16) := []
  code : Option Bytes := none
deriving DecidableEq, Repr

namespace Method

/-- A method without code; `none` when the descriptor is not that of a method. -/
def ofDescriptor? (owner : ClassId) (name descriptor : String) (flags : UInt16) : Option Method :=
  (MethodType.parse? descriptor).map fun type =>
    { owner, name, descriptor, flags, params := type.params.map (·.tag),
      result := type.result.map (·.tag) }

def isStatic (m : Method) : Bool := hasFlag m.flags staticFlag

def isNative (m : Method) : Bool := hasFlag m.flags nativeFlag

/-- The number of values a call takes: the parameters, and the receiver of an instance method. -/
def parameterCount (m : Method) : Nat := m.params.length + if m.isStatic then 0 else 1

/-- The source line at an offset into the code: the last entry of the table's front part that starts
at or before the offset, -1 when there is none, and always -2 in a native method. -/
def lineAt (m : Method) (ip : Nat) : Int :=
  if m.isNative then -2
  else
    match (m.lines.takeWhile (·.1.toNat ≤ ip)).getLast? with
    | some (_, line) => line.toNat
    | none => -1

end Method

/-! ## Classes -/

/-- The handle of the class above all others, which is the first in every table. -/
def ClassId.object : ClassId := ⟨0⟩

/-- What sort of class it is. A primitive class without a kind is `void`. -/
inductive ClassKind where
  | ordinary
  | array (element : Tag) (component : ClassId)
  | primitive (kind : Option Primitive)
deriving DecidableEq, Repr

/-- The size of an instance: bytes for primitive fields, and reference slots. -/
structure Layout where
  bytes : Nat := 0
  refs : Nat := 0
deriving DecidableEq, Repr

/-- A class. -/
structure Class where
  name : String
  superclass : Option ClassId
  kind : ClassKind
  interfaces : List ClassId := []
  flags : UInt16 := publicFlag
  fields : List Field := []
  methods : List Method := []
  layout : Layout := {}
  sourceFile : Option String := none
  statics : List Slot := []
  /-- Whether the class declares a static initializer. -/
  needsInit : Bool := false
  /-- Whether the initializer was started. -/
  initStarted : Bool := false
  classObject : Option ObjectRef := none
deriving DecidableEq, Repr

namespace Class

def dotted (c : Class) : String := dottedName c.name

def isInterface (c : Class) : Bool := hasFlag c.flags interfaceFlag

/-- The kind of the elements of an array class. -/
def element? (c : Class) : Option Tag :=
  match c.kind with
  | .array element _ => some element
  | _ => none

/-- The class of the components of an array class. -/
def component? (c : Class) : Option ClassId :=
  match c.kind with
  | .array _ component => some component
  | _ => none

def isArray (c : Class) : Bool := c.element?.isSome

def isPrimitive (c : Class) : Bool :=
  match c.kind with
  | .primitive _ => true
  | _ => false

/-- Bytes that an element takes; 0 for a class of no arrays. -/
def elementSize (c : Class) : Nat := (c.element?.map Tag.size).getD 0

/-- The state of initialization as two bits: 1 for "has an initializer", 2 for "was started". -/
def initBits (c : Class) : Nat := (if c.needsInit then 1 else 0) + if c.initStarted then 2 else 0

/-- The first field of a name that the class itself declares. -/
def field? (c : Class) (name : String) : Option Field := c.fields.find? (·.name = name)

/-- The place of the first method of a name and a descriptor that the class itself declares. -/
def methodIndex? (c : Class) (name descriptor : String) : Option Nat :=
  c.methods.findIdx? fun m => m.name = name ∧ m.descriptor = descriptor

/-- The first method of a name and a descriptor that the class itself declares. -/
def method? (c : Class) (name descriptor : String) : Option Method :=
  c.methods.find? fun m => m.name = name ∧ m.descriptor = descriptor

/-- A class is an array class exactly when its elements take bytes. -/
theorem elementSize_pos_iff (c : Class) : 0 < c.elementSize ↔ c.isArray := by
  unfold elementSize isArray
  cases c.element? with
  | none => simp
  | some t => simpa using t.size_pos

end Class

end JavaMachine

/-
# The classes that are always there

Every machine starts with the same table: the classes that it makes objects of by itself, the box
classes and the primitive classes. Their handles are constants, and the end of the file checks that
the table has the classes of these names there. Array classes are made when they are first asked for.
-/
import JavaMachine.Class.Table

namespace JavaMachine

namespace ClassId

/-! ## Handles -/

def classClass : ClassId := ⟨1⟩
def string : ClassId := ⟨2⟩
def thread : ClassId := ⟨3⟩
def throwable : ClassId := ⟨4⟩
def stackTraceElement : ClassId := ⟨5⟩
def reflectField : ClassId := ⟨6⟩
def reflectMethod : ClassId := ⟨7⟩
def number : ClassId := ⟨8⟩

/-- The class whose objects hold one value of a primitive kind. -/
def box (p : Primitive) : ClassId := ⟨9 + p.ordinal⟩

/-- The class of a primitive kind. -/
def ofPrimitive (p : Primitive) : ClassId := ⟨17 + p.ordinal⟩

/-- The class of `void`. -/
def void : ClassId := ⟨25⟩

end ClassId

/-! ## The table -/

/-- The internal name of the box class of a kind. -/
def boxName : Primitive → String
  | .byte => "java/lang/Byte" | .boolean => "java/lang/Boolean"
  | .char => "java/lang/Character" | .short => "java/lang/Short"
  | .float => "java/lang/Float" | .double => "java/lang/Double"
  | .int => "java/lang/Integer" | .long => "java/lang/Long"

/-- The superclass of the box class of a kind. -/
def boxSuper : Primitive → ClassId
  | .boolean | .char => .object
  | _ => .number

/-- The flags of a class that no class file declares. -/
def syntheticFlags : UInt16 := publicFlag ||| finalFlag ||| abstractFlag

def ordinaryClass (name : String) (superclass : Option ClassId) : Class :=
  { name, superclass, kind := .ordinary }

def primitiveClass (name : String) (kind : Option Primitive) : Class :=
  { name, superclass := none, kind := .primitive kind, flags := syntheticFlags }

/-- The classes of a new machine, in the order of their handles. -/
def bootstrapClasses : List Class :=
  ordinaryClass "java/lang/Object" none ::
    (["java/lang/Class", "java/lang/String", "java/lang/Thread", "java/lang/Throwable",
      "java/lang/StackTraceElement", "java/lang/reflect/Field", "java/lang/reflect/Method",
      "java/lang/Number"].map (ordinaryClass · (some .object)) ++
    Primitive.all.map (fun p => ordinaryClass (boxName p) (some (boxSuper p))) ++
    Primitive.all.map (fun p => primitiveClass p.name (some p)) ++
    [primitiveClass "void" none])

/-- The class table of a new machine. -/
def ClassTable.bootstrap : ClassTable := ⟨bootstrapClasses.toArray⟩

/-! ## Array classes -/

/-- The name and the element kind of the array class over a class; `void` has none. -/
def arrayShape? (component : Class) : Option (String × Tag) :=
  match component.kind with
  | .primitive none => none
  | .primitive (some p) => some ("[" ++ String.singleton p.letter, .primitive p)
  | .array _ _ => some ("[" ++ component.name, .reference)
  | .ordinary => some ("[L" ++ component.name ++ ";", .reference)

/-- The array class of a name. -/
def arrayClassOf (name : String) (element : Tag) (component : ClassId) : Class :=
  { name, superclass := some .object, kind := .array element component, flags := syntheticFlags }

/-- The array class over a component class: the class of that name, made when there is none. -/
def ClassTable.arrayClass (t : ClassTable) (component : ClassId) :
    Except Stop (ClassTable × ClassId) := do
  match arrayShape? (← t.get component) with
  | none => throw (.broken .arrayOfVoid)
  | some (name, element) =>
    match t.find? name with
    | some existing => return (t, existing)
    | none => return (t.push (arrayClassOf name element component), t.nextId)

/-! ## The handles name the right classes -/

example : ClassTable.bootstrap.size = 26 := by decide +kernel
example : ClassTable.bootstrap.find? "java/lang/Number" = some .number := by decide +kernel
example : ∀ p ∈ Primitive.all, ClassTable.bootstrap.find? (boxName p) = some (.box p) ∧
    ClassTable.bootstrap.find? p.name = some (.ofPrimitive p) := by decide +kernel
example : ClassTable.bootstrap.find? "void" = some .void := by decide +kernel

end JavaMachine

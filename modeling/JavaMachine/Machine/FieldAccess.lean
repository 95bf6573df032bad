/-
# Fields of objects and classes

Reading and writing a field. A static field lives in its class, and the object that is passed does
not matter. An instance field is read at its offset in the object, which has to be of the class that
declares the field. All checks come before the write.
-/
import JavaMachine.Machine.Basic
import JavaMachine.Value.Codec

namespace JavaMachine

/-- Brings a value to a storage kind. Primitive storage also takes a boxed value. -/
def Heap.coerceFor (h : Heap) (t : Tag) (v : Value) : Except Throwable Value :=
  match t with
  | .reference => v.coerce .reference
  | .primitive _ => (h.unbox v).coerce t

namespace Machine

/-- The object whose field is meant, with its contents: not null, and of the declaring class. -/
def receiver (m : Machine) (f : Field) (target : Option ObjectRef) :
    Except Stop (ObjectRef × Body) := do
  match target with
  | none => raise .nullPointer
  | some r =>
    let o ← m.heap.get r
    if m.classes.isAssignable f.owner o.owner then return (r, o.body)
    else
      let name ← m.classes.dotted o.owner
      raise (.illegalArgument ("field " ++ f.name ++ " does not belong to " ++ name))

/-- The value at the place of a field in an instance. -/
def loadAt (f : Field) (bytes : Bytes) (refs : List (Option ObjectRef)) : Option Value :=
  match f.tag with
  | .reference => refs[f.offset]?.map .reference
  | .primitive p => loadValue? p (bytes.drop f.offset)

/-- An instance with a value written at the place of a field. -/
def storeAt (f : Field) (bytes : Bytes) (refs : List (Option ObjectRef)) (v : Value) :
    Option Body :=
  match v with
  | .reference r =>
    if f.offset < refs.length then some (.fields bytes (refs.set f.offset r)) else none
  | v => (storeValue? v (bytes.drop f.offset)).map fun tail =>
      .fields (bytes.take f.offset ++ tail) refs

/-- A slot of a class's static fields. -/
def staticSlot? (m : Machine) (f : Field) : Option Slot := do
  let cls ← m.classes.get? f.owner
  cls.statics[f.offset]?

/-- The value of a field. A primitive value is not boxed. -/
def getField (m : Machine) (f : Field) (target : Option ObjectRef) : Except Stop Value := do
  if f.isStatic then
    match (m.staticSlot? f).bind (·.load? f.tag) with
    | some v => return v
    | none => abort (.fieldOutsideLayout f.name)
  else
    match ← m.receiver f target with
    | (_, .fields bytes refs) =>
      match loadAt f bytes refs with
      | some v => return v
      | none => abort (.fieldOutsideLayout f.name)
    | _ => abort (.fieldOutsideLayout f.name)

/-- The machine after a value was written to a field; the value is unboxed and widened as the field
needs it. -/
def setField (m : Machine) (f : Field) (target : Option ObjectRef) (v : Value) :
    Except Stop Machine := do
  if f.isStatic then
    let v ← m.heap.coerceFor f.tag v
    match m.staticSlot? f with
    | some _ =>
      return { m with
        classes := m.classes.update f.owner fun c =>
          { c with statics := c.statics.set f.offset (.ofValue v) } }
    | none => abort (.fieldOutsideLayout f.name)
  else
    let (r, body) ← m.receiver f target
    let v ← m.heap.coerceFor f.tag v
    match body with
    | .fields bytes refs =>
      match storeAt f bytes refs v with
      | some body =>
        let heap := m.heap.updateBody r fun _ => body
        return { m with heap := if v.tag = .reference then heap.noteWrite r else heap }
      | none => abort (.fieldOutsideLayout f.name)
    | _ => abort (.fieldOutsideLayout f.name)

end Machine

end JavaMachine

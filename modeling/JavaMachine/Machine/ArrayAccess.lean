/-
# Elements of arrays

Reading and writing one element of an array, and copying a range of elements from one array to
another of the same class. All checks come before the write.
-/
import JavaMachine.Machine.FieldAccess

namespace JavaMachine

namespace ArrayBody

/-- The element at an index. -/
def load? (a : ArrayBody) (i : Nat) : Option Value :=
  match a with
  | primitive p data => loadValue? p (data.drop (i * p.size))
  | references slots => slots[i]?.map .reference

/-- The array with an element written at an index. -/
def store? (a : ArrayBody) (i : Nat) (v : Value) : Option ArrayBody :=
  match a, v with
  | references slots, .reference r =>
    if i < slots.length then some (references (slots.set i r)) else none
  | primitive p data, v =>
    (storeValue? v (data.drop (i * p.size))).map fun tail =>
      primitive p (data.take (i * p.size) ++ tail)
  | references _, _ => none

/-- A list with the items from `start` on replaced by others. -/
def overwrite {α : Type} (l : List α) (start : Nat) (items : List α) : List α :=
  l.take start ++ items ++ l.drop (start + items.length)

/-- The items of a list from `start` on, as many as `count`, if there are that many. -/
def slice? {α : Type} (l : List α) (start count : Nat) : Option (List α) :=
  if start + count ≤ l.length then some ((l.drop start).take count) else none

/-- A list with the items from `start` on replaced by others, if they lie within it. -/
def splice? {α : Type} (l : List α) (start : Nat) (items : List α) : Option (List α) :=
  if start + items.length ≤ l.length then some (overwrite l start items) else none

/-- The array `dst` with `count` elements of `src`, from `srcStart` on, written from `dstStart` on.
The elements are those that `src` has before the copy; primitive ones are copied as bytes. -/
def copy? (src : ArrayBody) (srcStart : Nat) (dst : ArrayBody) (dstStart count : Nat) :
    Option ArrayBody :=
  match src, dst with
  | references s, references d => do
    return references (← splice? d dstStart (← slice? s srcStart count))
  | primitive p s, primitive q d => do
    let items ← slice? s (srcStart * p.size) (count * p.size)
    return primitive q (← splice? d (dstStart * q.size) items)
  | _, _ => none

end ArrayBody

namespace Machine

/-- The class of an object that has to be an array. -/
def arrayClassOf (m : Machine) (r : ObjectRef) : Except Stop Class := do
  let cls ← m.classes.get (← m.classOf r)
  if cls.elementSize = 0 then raise (.illegalArgument (cls.dotted ++ " is not an array"))
  return cls

/-- The elements of an object of an array class. -/
def arrayBody (m : Machine) (r : ObjectRef) : Except Stop ArrayBody := do
  match (← m.heap.get r).body with
  | .array a => return a
  | _ => abort (.mismatchedArray r)

/-- A reference that must not be null. -/
def nonNull (r : Option ObjectRef) : Except Stop ObjectRef :=
  match r with
  | some r => .ok r
  | none => raise .nullPointer

/-- An index into an array of a length. -/
def checkedIndex (index : Int32) (length : Nat) : Except Stop Nat :=
  if 0 ≤ index ∧ index.toInt.toNat < length then .ok index.toInt.toNat
  else raise (.arrayIndexOutOfBounds index.toInt length)

/-- The number of elements of an array. -/
def arrayLength (m : Machine) (array : Option ObjectRef) : Except Stop Nat := do
  let r ← nonNull array
  let _ ← m.arrayClassOf r
  return (← m.arrayBody r).length

/-- An element of an array. A primitive element is not boxed. -/
def arrayLoad (m : Machine) (array : Option ObjectRef) (index : Int32) : Except Stop Value := do
  let r ← nonNull array
  let _ ← m.arrayClassOf r
  let body ← m.arrayBody r
  match body.load? (← checkedIndex index body.length) with
  | some v => return v
  | none => abort (.mismatchedArray r)

/-- A value as it is stored into an array of a class. A reference has to be of the component class
or null. -/
def elementFor (m : Machine) (cls : Class) (v : Value) : Except Stop Value := do
  let v ← m.heap.coerceFor (cls.element?.getD .reference) v
  match v, cls.component? with
  | .reference (some x), some component =>
    let source ← m.classOf x
    if m.classes.isAssignable component source then return v
    else
      let name ← m.classes.dotted source
      raise (.illegalArgument ("array element type mismatch: " ++ name ++ " into " ++ cls.dotted))
  | _, _ => return v

/-- The machine after an element of an array was written; the value is unboxed and widened as the
array needs it. -/
def arrayStore (m : Machine) (array : Option ObjectRef) (index : Int32) (v : Value) :
    Except Stop Machine := do
  let r ← nonNull array
  let cls ← m.arrayClassOf r
  let body ← m.arrayBody r
  let i ← checkedIndex index body.length
  let v ← m.elementFor cls v
  match body.store? i v with
  | some body =>
    let heap := m.heap.updateBody r fun _ => .array body
    return { m with heap := if body.tag = .reference then heap.noteWrite r else heap }
  | none => abort (.mismatchedArray r)

/-- The first index and the number of a range that lies within a length. -/
def rangeWithin? (start count : Int32) (length : Nat) : Option (Nat × Nat) :=
  if 0 ≤ start ∧ 0 ≤ count ∧ start.toInt.toNat + count.toInt.toNat ≤ length then
    some (start.toInt.toNat, count.toInt.toNat)
  else none

/-- The machine after elements were copied from one array to another of the same class. Within one
array the elements are copied as they were before. -/
def arrayCopy (m : Machine) (src : Option ObjectRef) (srcPos : Int32) (dst : Option ObjectRef)
    (dstPos count : Int32) : Except Stop Machine := do
  match src, dst with
  | some src, some dst =>
    let srcClass ← m.classOf src
    let dstClass ← m.classOf dst
    if srcClass ≠ dstClass then
      let srcName ← m.classes.dotted srcClass
      let dstName ← m.classes.dotted dstClass
      raise (.arrayStore (srcName ++ " to " ++ dstName))
    if (← m.classes.get srcClass).elementSize = 0 then raise (.arrayStore "not an array")
    let srcBody ← m.arrayBody src
    let dstBody ← m.arrayBody dst
    match rangeWithin? srcPos count srcBody.length, rangeWithin? dstPos count dstBody.length with
    | some (srcStart, n), some (dstStart, _) =>
      if n = 0 then return m
      match srcBody.copy? srcStart dstBody dstStart n with
      | some body =>
        return { m with heap := (m.heap.updateBody dst fun _ => .array body).noteWrite dst }
      | none => abort (.mismatchedArray dst)
    | _, _ =>
      raise (.arrayStore ("copy of " ++ toString count.toInt ++ " from " ++ toString srcPos.toInt ++
        " (length " ++ toString srcBody.length ++ ") to " ++ toString dstPos.toInt ++
        " (length " ++ toString dstBody.length ++ ")"))
  | _, _ => raise .nullPointer

end Machine

end JavaMachine

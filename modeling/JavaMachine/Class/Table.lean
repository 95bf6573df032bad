/-
# The class table

The table holds all defined classes, each at the position that its handle gives; classes are only
ever added at the end. A name is looked up by a search, so what keeps names unique is that a class
is added under a name only when the search for it fails.

A class refers to classes that were defined before it. The walks over supertypes and components
follow only such references, which is why they end.
-/
import JavaMachine.Class.Basic

namespace JavaMachine

/-- All defined classes, by position. -/
structure ClassTable where
  classes : Array Class := #[]

namespace ClassTable

/-! ## Looking up -/

def size (t : ClassTable) : Nat := t.classes.size

/-- The class of a handle. -/
def get? (t : ClassTable) (c : ClassId) : Option Class := t.classes[c.index]?

/-- The class of a handle that has to be in the table. -/
def get (t : ClassTable) (c : ClassId) : Except Stop Class :=
  match t.get? c with
  | some cls => .ok cls
  | none => .error (.broken (.unknownClass c))

/-- The handle of the class of a name. -/
def find? (t : ClassTable) (name : String) : Option ClassId :=
  (t.classes.findIdx? (·.name = name)).map ClassId.mk

/-- The dotted name of a class, for messages. -/
def dotted (t : ClassTable) (c : ClassId) : Except Stop String := (t.get c).map Class.dotted

/-! ## Adding and updating -/

/-- The handle that the next class gets. -/
def nextId (t : ClassTable) : ClassId := ⟨t.size⟩

def push (t : ClassTable) (cls : Class) : ClassTable := ⟨t.classes.push cls⟩

/-- Adds a class under its name, which must be new. -/
def define (t : ClassTable) (cls : Class) : Except Throwable (ClassTable × ClassId) :=
  match t.find? cls.name with
  | some _ => .error (.duplicateClass cls.name)
  | none => .ok (t.push cls, t.nextId)

/-- Changes the class of a handle. -/
def update (t : ClassTable) (c : ClassId) (f : Class → Class) : ClassTable :=
  ⟨t.classes.modify c.index f⟩

/-- Adding a class changes no other. -/
theorem get?_push_of_lt {t : ClassTable} {cls : Class} {c : ClassId} (h : c.index < t.size) :
    (t.push cls).get? c = t.get? c := by
  simp [get?, push, Array.getElem?_push_lt h, Array.getElem?_eq_getElem h]

/-- The added class is found at its handle. -/
theorem get?_push_nextId (t : ClassTable) (cls : Class) :
    (t.push cls).get? t.nextId = some cls := by
  simp [get?, push, nextId, size]

/-! ## Walks -/

/-- The superclass of a class, provided that it is older. -/
def superclass? (t : ClassTable) (c : ClassId) : Option { s : ClassId // s.index < c.index } :=
  match (t.get? c).bind Class.superclass with
  | some s => if h : s.index < c.index then some ⟨s, h⟩ else none
  | none => none

/-- The interfaces that a class names itself, as far as they are older. -/
def interfaces (t : ClassTable) (c : ClassId) : List { i : ClassId // i.index < c.index } :=
  ((t.get? c).elim [] Class.interfaces).filterMap fun i =>
    if h : i.index < c.index then some ⟨i, h⟩ else none

/-- A class and its superclasses, from the class up. -/
def ancestors (t : ClassTable) (c : ClassId) : List ClassId :=
  c :: match t.superclass? c with
    | some s => ancestors t s.1
    | none => []
termination_by c.index
decreasing_by exact s.2

/-- Whether a class is another one or below it in the superclass order. -/
def isSubclass (t : ClassTable) (sub sup : ClassId) : Bool := (t.ancestors sub).contains sup

/-- Whether a class, one of its superclasses or an interface of these names an interface. -/
def implements (t : ClassTable) (c interface : ClassId) : Bool :=
  ((t.interfaces c).any fun i => i.1 = interface || implements t i.1 interface) ||
    match t.superclass? c with
    | some s => implements t s.1 interface
    | none => false
termination_by c.index
decreasing_by
  · exact i.2
  · exact s.2

/-- Whether a value of class `source` can be stored where class `target` is expected. -/
def isAssignable (t : ClassTable) (target source : ClassId) : Bool :=
  if target = source then true
  else
    match t.get? target, t.get? source with
    | some tc, some sc =>
      match tc.kind, sc.kind with
      | .primitive _, _ => false
      | _, .primitive _ => false
      | .ordinary, kind =>
        if tc.isInterface then t.implements source target
        else
          match kind with
          | .array _ _ => target = .object
          | _ => t.isSubclass source target
      | .array .reference tcomp, .array .reference scomp =>
        if _h : tcomp.index < target.index then isAssignable t tcomp scomp else false
      | .array _ _, _ => false
    | _, _ => false
termination_by target.index

/-- The first method of a name and a descriptor among a class and its superclasses. -/
def findMethod? (t : ClassTable) (c : ClassId) (name descriptor : String) : Option Method :=
  (t.ancestors c).findSome? fun a => (t.get? a).bind (·.method? name descriptor)

end ClassTable

end JavaMachine

/-
# The heap

Objects live in an arena of slots; a reference is the position of a slot. A slot that is freed goes
on a list, and the next object takes the slot that was freed last. Beside the slots the heap keeps
the bytes in use, the seed of identity hashes and the list of objects that were written to.

An instance keeps its primitive fields in a row of bytes and its references in a row of slots, so
that the offset of a field counts in one or in the other.
-/
import JavaMachine.Class.Basic

namespace JavaMachine

/-! ## Bodies -/

/-- What a reflection object stands for. -/
inductive Reflected where
  | ofClass (c : ClassId)
  | ofField (f : Field)
  | ofMethod (m : Method)
deriving DecidableEq, Repr

/-- A call on a thread's stack: the method and the offset reached in its code. -/
structure Frame where
  method : Method
  ip : Nat := 0
deriving DecidableEq, Repr

/-- A line of a stack trace, ready to print. -/
structure TraceLine where
  declaringClass : String
  methodName : String
  fileName : Option String
  line : Int
deriving DecidableEq, Repr

/-- The elements of an array: bytes, or references. -/
inductive ArrayBody where
  | primitive (kind : Primitive) (data : Bytes)
  | references (slots : List (Option ObjectRef))
deriving DecidableEq

namespace ArrayBody

/-- An array of zeros or nulls. -/
def zeroed (t : Tag) (length : Nat) : ArrayBody :=
  match t with
  | .primitive p => primitive p (List.replicate (length * p.size) 0)
  | .reference => references (List.replicate length none)

/-- The number of elements. -/
def length : ArrayBody → Nat
  | primitive p data => data.length / p.size
  | references slots => slots.length

/-- The kind of the elements. -/
def tag : ArrayBody → Tag
  | primitive p _ => .primitive p
  | references _ => .reference

/-- A new array has the length that was asked for. -/
theorem length_zeroed (t : Tag) (n : Nat) : (zeroed t n).length = n := by
  cases t with
  | primitive p => simp [zeroed, length, p.size_pos]
  | reference => simp [zeroed, length]

/-- A new array has elements of the kind that was asked for. -/
theorem tag_zeroed (t : Tag) (n : Nat) : (zeroed t n).tag = t := by
  cases t <;> rfl

end ArrayBody

/-- The contents of an object. -/
inductive Body where
  | fields (bytes : Bytes) (refs : List (Option ObjectRef))
  | array (a : ArrayBody)
  | string (s : String)
  | boxed (v : Value)
  | reflected (r : Reflected)
  | trace (frames : List Frame)
  | traceLine (l : TraceLine)
deriving DecidableEq

namespace Body

/-- The body of a new instance. -/
def ofLayout (l : Layout) : Body :=
  fields (List.replicate l.bytes 0) (List.replicate l.refs none)

/-- Bytes that an object is charged with before its contents. -/
def headerSize : Nat := 16

/-- Bytes that an object is charged with. -/
def footprint (b : Body) : Nat :=
  headerSize +
    match b with
    | fields bytes refs => bytes.length + refs.length * referenceSize
    | array (.primitive _ data) => data.length
    | array (.references slots) => slots.length * referenceSize
    | string s => s.utf8ByteSize
    | boxed _ => 8
    | reflected _ => referenceSize
    | trace frames => frames.length * 2 * referenceSize
    | traceLine l => l.declaringClass.utf8ByteSize + l.methodName.utf8ByteSize + 4

end Body

/-- An object. Its class and its identity hash stay as they are for its whole life. -/
structure Object where
  owner : ClassId
  hash : UInt32
  body : Body
deriving DecidableEq

/-! ## The arena -/

/-- The object arena. -/
structure Heap where
  slots : Array (Option Object) := #[]
  /-- The free slots, the one freed last first. -/
  free : List Nat := []
  /-- The objects written to since the list was last taken, the latest first. -/
  written : List ObjectRef := []
  bytesUsed : Nat := 0
  seed : UInt32 := 0

/-! ## Identity hashes -/

/-- The seed that follows a seed. -/
def nextSeed (seed : UInt32) : UInt32 := seed + 0x9E3779B9

/-- Spreads the bits of a seed over the 31 bits of a hash. -/
def hashOfSeed (seed : UInt32) : UInt32 :=
  let mixed := (seed ^^^ seed >>> 16) * 0x85EBCA6B
  (mixed ^^^ mixed >>> 13) &&& 0x7FFFFFFF

namespace Heap

/-! ## Objects -/

/-- The live object at a reference. -/
def get? (h : Heap) (r : ObjectRef) : Option Object := (h.slots[r.index]?).join

/-- The object at a reference that has to be live. -/
def get (h : Heap) (r : ObjectRef) : Except Stop Object :=
  match h.get? r with
  | some o => .ok o
  | none => .error (.broken (.danglingReference r))

/-- Adds an object, in the slot that was freed last or at the end. -/
def allocate (h : Heap) (owner : ClassId) (body : Body) : Heap × ObjectRef :=
  let seed := nextSeed h.seed
  let object : Object := { owner, hash := hashOfSeed seed, body }
  let bytesUsed := h.bytesUsed + body.footprint
  match h.free with
  | i :: free => ({ h with slots := h.slots.setIfInBounds i (some object), free, bytesUsed, seed }, ⟨i⟩)
  | [] => ({ h with slots := h.slots.push (some object), bytesUsed, seed }, ⟨h.slots.size⟩)

/-- Changes the contents of a live object. -/
def updateBody (h : Heap) (r : ObjectRef) (f : Body → Body) : Heap :=
  { h with slots := h.slots.modify r.index (Option.map fun o => { o with body := f o.body }) }

/-- The value in a box; any other value is itself. -/
def unbox (h : Heap) (v : Value) : Value :=
  match v with
  | .reference (some r) =>
    match (h.get? r).map Object.body with
    | some (.boxed w) => w
    | _ => v
  | v => v

/-! ## Written objects -/

/-- Records that an object was written to. Writing to it twice in a row is recorded once. -/
def noteWrite (h : Heap) (r : ObjectRef) : Heap :=
  if h.written.head? = some r then h else { h with written := r :: h.written }

/-- The objects written to, in the order of the writes, and the heap with none recorded. -/
def takeWritten (h : Heap) : Heap × List ObjectRef := ({ h with written := [] }, h.written.reverse)

/-! ## Counting and freeing -/

/-- The live objects with their references, in the order of the arena. -/
def objects (h : Heap) : List (ObjectRef × Object) :=
  h.slots.toList.zipIdx.filterMap fun (slot, i) => slot.map fun o => (⟨i⟩, o)

/-- The number of live objects. -/
def liveCount (h : Heap) : Nat := h.slots.size - h.free.length

/-- The live objects that a collection does not keep. -/
def rejected (h : Heap) (keep : ObjectRef → Object → Bool) : List (ObjectRef × Object) :=
  h.objects.filter fun (r, o) => !keep r o

/-- Frees one object. -/
def freeOne (h : Heap) (r : ObjectRef) (o : Object) : Heap :=
  { h with
    slots := h.slots.setIfInBounds r.index none
    free := r.index :: h.free
    bytesUsed := h.bytesUsed - o.body.footprint }

/-- Frees every live object that `keep` rejects, in the order of the arena, and forgets them as
written objects. Also gives the number of objects freed. -/
def sweep (h : Heap) (keep : ObjectRef → Object → Bool) : Heap × Nat :=
  let freed := h.rejected keep
  let swept := freed.foldl (fun h (r, o) => h.freeOne r o) h
  ({ swept with written := swept.written.filter fun r => (swept.get? r).isSome }, freed.length)

end Heap

end JavaMachine

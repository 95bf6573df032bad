/-
# Class files

What a class file holds: versions, a constant pool, flags, the indices of the class and its
supertypes, fields, methods and attributes. Indices into the pool stay indices here; the functions
that follow them fail with the reason of `ClassFileError`.
-/
import JavaMachine.Text.Modified

namespace JavaMachine

/-! ## Failures -/

/-- Why a sequence of bytes is no class file, or an index of one leads nowhere. -/
inductive ClassFileError where
  | unexpectedEnd
  | invalidMagic (magic : UInt32)
  | invalidIndex (index : UInt16)
  | invalidConstantTag (tag : UInt8)
  | invalidText
  | invalidAttribute (name : String)
  | trailingBytes (count : Nat)
deriving DecidableEq, Repr

/-- The wording of a failure. -/
def ClassFileError.message : ClassFileError → String
  | unexpectedEnd => "unexpected end of file"
  | invalidMagic magic => "invalid magic: 0x" ++ String.ofList (Nat.toDigits 16 magic.toNat)
  | invalidIndex index => "invalid constant pool index: " ++ toString index.toNat
  | invalidConstantTag tag => "invalid constant pool tag: " ++ toString tag.toNat
  | invalidText => "invalid UTF-8"
  | invalidAttribute name => "invalid attribute: " ++ name
  | trailingBytes count => toString count ++ " trailing bytes after class file"

/-! ## The constant pool -/

/-- An entry of the constant pool. Floating-point constants are bit patterns. -/
inductive Constant where
  | utf8 (text : String)
  | integer (value : Int32)
  | float (bits : UInt32)
  | long (value : Int64)
  | double (bits : UInt64)
  | classRef (name : UInt16)
  | string (text : UInt16)
  | fieldRef (owner nameAndType : UInt16)
  | methodRef (owner nameAndType : UInt16)
  | interfaceMethodRef (owner nameAndType : UInt16)
  | nameAndType (name descriptor : UInt16)
  | methodHandle (kind : UInt8) (reference : UInt16)
  | methodType (descriptor : UInt16)
  | dynamic (bootstrap nameAndType : UInt16)
  | invokeDynamic (bootstrap nameAndType : UInt16)
  | moduleRef (name : UInt16)
  | packageRef (name : UInt16)
deriving DecidableEq, Repr

/-- Whether an entry takes two places of the pool. -/
def Constant.isWide : Constant → Bool
  | long _ | double _ => true
  | _ => false

/-- A constant pool, place by place. Place 0 and the place after a wide entry are empty. -/
structure ConstantPool where
  entries : Array (Option Constant)

namespace ConstantPool

/-- The number of places, the empty ones included. -/
def size (pool : ConstantPool) : Nat := pool.entries.size

def isEmpty (pool : ConstantPool) : Bool := pool.size ≤ 1

/-- The entry at an index. -/
def get (pool : ConstantPool) (index : UInt16) : Except ClassFileError Constant :=
  if index = 0 then .error (.invalidIndex index)
  else
    match pool.entries[index.toNat]? with
    | some (some c) => .ok c
    | _ => .error (.invalidIndex index)

/-- The text of the text entry at an index. -/
def text (pool : ConstantPool) (index : UInt16) : Except ClassFileError String := do
  match ← pool.get index with
  | .utf8 s => return s
  | _ => throw (.invalidIndex index)

/-- The name of the class entry at an index. -/
def className (pool : ConstantPool) (index : UInt16) : Except ClassFileError String := do
  match ← pool.get index with
  | .classRef name => pool.text name
  | _ => throw (.invalidIndex index)

end ConstantPool

/-! ## Attributes and members -/

/-- A range of code that an exception handler covers. -/
structure HandlerRange where
  startPc : UInt16
  endPc : UInt16
  handlerPc : UInt16
  catchType : UInt16
deriving DecidableEq, Repr

/-- The offset at which the code of a source line starts, and the line. -/
structure LineEntry where
  startPc : UInt16
  line : UInt16
deriving DecidableEq, Repr

/-- The code of a method, over the type of the attributes that it holds in turn. -/
structure CodeOf (α : Type) where
  maxStack : UInt16
  maxLocals : UInt16
  code : Bytes
  handlers : List HandlerRange
  attributes : List α

/-- An attribute. Those that defining a class does not need stay bytes. -/
inductive Attribute where
  | constantValue (index : UInt16)
  | code (code : CodeOf Attribute)
  | exceptions (indices : List UInt16)
  | sourceFile (index : UInt16)
  | lineNumbers (entries : List LineEntry)
  | unknown (name : String) (info : Bytes)

/-- The code of a method. -/
abbrev Code := CodeOf Attribute

/-- The entries of all line tables of some code, in the order of the file. -/
def CodeOf.lineEntries (c : Code) : List LineEntry :=
  c.attributes.flatMap fun
    | .lineNumbers entries => entries
    | _ => []

/-- A field or a method as the file gives it. -/
structure MemberInfo where
  flags : UInt16
  name : UInt16
  descriptor : UInt16
  attributes : List Attribute

/-- The index that the first constant-value attribute of a member holds. -/
def MemberInfo.constantValue? (m : MemberInfo) : Option UInt16 :=
  m.attributes.findSome? fun
    | .constantValue index => some index
    | _ => none

/-- The first code attribute of a member. -/
def MemberInfo.code? (m : MemberInfo) : Option Code :=
  m.attributes.findSome? fun
    | .code c => some c
    | _ => none

/-! ## Class files -/

/-- A class file. -/
structure ClassFile where
  minorVersion : UInt16
  majorVersion : UInt16
  pool : ConstantPool
  flags : UInt16
  thisClass : UInt16
  superClass : UInt16
  interfaces : List UInt16
  fields : List MemberInfo
  methods : List MemberInfo
  attributes : List Attribute

namespace ClassFile

def className (cf : ClassFile) : Except ClassFileError String :=
  cf.pool.className cf.thisClass

/-- The name of the superclass; index 0 stands for no superclass. -/
def superClassName? (cf : ClassFile) : Except ClassFileError (Option String) :=
  if cf.superClass = 0 then .ok none else (cf.pool.className cf.superClass).map some

def interfaceNames (cf : ClassFile) : Except ClassFileError (List String) :=
  cf.interfaces.mapM cf.pool.className

/-- The text of the first source-file attribute. -/
def sourceFile? (cf : ClassFile) : Except ClassFileError (Option String) :=
  match cf.attributes.findSome? fun | .sourceFile index => some index | _ => none with
  | none => .ok none
  | some index => (cf.pool.text index).map some

end ClassFile

end JavaMachine

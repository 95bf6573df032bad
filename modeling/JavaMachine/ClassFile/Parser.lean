/-
# The class-file parser

`ClassFile.parse` reads a whole class file. Attributes are delimited by a length: an attribute of a
known name has to use up exactly its bytes, and one of an unknown name is kept as bytes. Code holds
attributes of its own, so reading an attribute is recursive; as each attribute is shorter than the
bytes it is read from, their number bounds the depth.
-/
import JavaMachine.ClassFile.Reader

namespace JavaMachine

namespace Reader

/-! ## Constants -/

def textConstant : Reader Constant := do
  let length ← u2
  match decodeModified? (← bytes length.toNat) with
  | some s => return .utf8 s
  | none => throw .invalidText

/-- A constant whose two halves are indices. -/
def indexPair (build : UInt16 → UInt16 → Constant) : Reader Constant := do
  let first ← u2
  let second ← u2
  return build first second

/-- The constant that a tag announces. -/
def constantOfTag (tag : UInt8) : Reader Constant := do
  match tag with
  | 1 => textConstant
  | 3 => return .integer (← u4).toInt32
  | 4 => return .float (← u4)
  | 5 => return .long (← u8).toInt64
  | 6 => return .double (← u8)
  | 7 => return .classRef (← u2)
  | 8 => return .string (← u2)
  | 9 => indexPair .fieldRef
  | 10 => indexPair .methodRef
  | 11 => indexPair .interfaceMethodRef
  | 12 => indexPair .nameAndType
  | 15 =>
    let kind ← u1
    return .methodHandle kind (← u2)
  | 16 => return .methodType (← u2)
  | 17 => indexPair .dynamic
  | 18 => indexPair .invokeDynamic
  | 19 => return .moduleRef (← u2)
  | 20 => return .packageRef (← u2)
  | tag => throw (.invalidConstantTag tag)

def constant : Reader Constant := do constantOfTag (← u1)

/-- The places of the pool that are left to fill. A wide constant fills its own place and leaves the
next one empty, also when it stands in the last. -/
def poolPlaces : Nat → (afterWide : Bool) → Reader (List (Option Constant))
  | 0, false => return []
  | 0, true => return [none]
  | n + 1, true => do return none :: (← poolPlaces n false)
  | n + 1, false => do
    let c ← constant
    return some c :: (← poolPlaces n c.isWide)

/-- The constant pool: a count, which includes the empty place 0, and the entries. -/
def constantPool : Reader ConstantPool := do
  let count ← u2
  let places ← poolPlaces (count.toNat - 1) false
  return ⟨(none :: places).toArray⟩

/-! ## Attributes -/

def lineEntry : Reader LineEntry := do
  let startPc ← u2
  let line ← u2
  return { startPc, line }

def handlerRange : Reader HandlerRange := do
  let startPc ← u2
  let endPc ← u2
  let handlerPc ← u2
  let catchType ← u2
  return { startPc, endPc, handlerPc, catchType }

/-- The code of a method, given a reader for the table of attributes inside it. -/
def codeOf {α : Type} (attributes : Reader (List α)) : Reader (CodeOf α) := do
  let maxStack ← u2
  let maxLocals ← u2
  let length ← u4
  let code ← bytes length.toNat
  let handlers ← table handlerRange
  return { maxStack, maxLocals, code, handlers, attributes := ← attributes }

/-- The reader for the body of an attribute of a known name. -/
def knownBody? (inner : Reader (List Attribute)) (name : String) : Option (Reader Attribute) :=
  if name = "ConstantValue" then some (Attribute.constantValue <$> u2)
  else if name = "Code" then some (Attribute.code <$> codeOf inner)
  else if name = "Exceptions" then some (Attribute.exceptions <$> table u2)
  else if name = "SourceFile" then some (Attribute.sourceFile <$> u2)
  else if name = "LineNumberTable" then some (Attribute.lineNumbers <$> table lineEntry)
  else none

/-- The attribute of a name that its bytes spell. -/
def attributeBody (inner : Reader (List Attribute)) (name : String) (body : Bytes) :
    Reader Attribute :=
  match knownBody? inner name with
  | none => return .unknown name body
  | some known => do
    let (value, rest) ← within known body
    if rest.isEmpty then return value else throw (.invalidAttribute name)

/-- One attribute, in which code is nested at most `depth` deep. A file without bytes left ends
here, so a depth of the number of bytes is never too small. -/
def oneAttribute (pool : ConstantPool) : (depth : Nat) → Reader Attribute
  | 0 => throw .unexpectedEnd
  | depth + 1 => do
    let index ← u2
    let length ← u4
    let name ← StateT.lift (pool.text index)
    let body ← bytes length.toNat
    attributeBody (table (oneAttribute pool depth)) name body

/-- A table of attributes. -/
def attributes (pool : ConstantPool) : Reader (List Attribute) := do
  table (oneAttribute pool (← get).length)

/-! ## Members and the whole file -/

/-- A field or a method. -/
def member (pool : ConstantPool) : Reader MemberInfo := do
  let flags ← u2
  let name ← u2
  let descriptor ← u2
  return { flags, name, descriptor, attributes := ← attributes pool }

/-- The number that every class file starts with. -/
def magic : UInt32 := 0xCAFEBABE

/-- A class file. -/
def classFile : Reader ClassFile := do
  let start ← u4
  if start ≠ magic then throw (.invalidMagic start)
  let minorVersion ← u2
  let majorVersion ← u2
  let pool ← constantPool
  let flags ← u2
  let thisClass ← u2
  let superClass ← u2
  let interfaces ← table u2
  let fields ← table (member pool)
  let methods ← table (member pool)
  return { minorVersion, majorVersion, pool, flags, thisClass, superClass, interfaces, fields,
           methods, attributes := ← attributes pool }

end Reader

/-- The class file that a sequence of bytes is as a whole. -/
def ClassFile.parse (input : Bytes) : Except ClassFileError ClassFile := do
  let (cf, rest) ← Reader.classFile.run input
  if rest.isEmpty then return cf else throw (.trailingBytes rest.length)

end JavaMachine

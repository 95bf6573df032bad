/-
# Exceptions

A failure that a program running on the machine can see is a `Throwable`: its kind, a message, the
exception that caused it and the object that stands for it, if there is one. Each way in which the
library itself fails has a constructor function here, which holds its wording.

A computation of the machine ends early for one of the reasons of `Stop`: an exception, a broken
internal invariant, an exit of the whole machine, or a wait that only another thread can end.

A class has one name in two spellings. Tables and class files use the internal one, whose parts are
joined by `/`; messages and strings that programs pass around use the dotted one.
-/
import JavaMachine.Handle

namespace JavaMachine

/-! ## Class names -/

/-- The dotted spelling of an internal class name. -/
def dottedName (name : String) : String :=
  name.map fun c => if c = '/' then '.' else c

/-- The internal spelling of a dotted class name. -/
def internalName (name : String) : String :=
  name.map fun c => if c = '.' then '/' else c

/-! ## Kinds -/

/-- What went wrong, as far as it decides the class of the exception. -/
inductive ThrowableKind where
  | nullPointer
  | illegalArgument
  | arrayIndexOutOfBounds
  | arrayStore
  | negativeArraySize
  | invocationTarget
  | runtime
  | classNotFound
  | classFormat
  | linkage
  /-- A reflective call with the wrong number of arguments. It has the class of `illegalArgument`,
  and is told apart from it here only. -/
  | wrongArgumentCount
  /-- An exception of any other class, given by its internal name. -/
  | other (className : String)
deriving DecidableEq, Repr, Inhabited

/-- The internal name of the class of exceptions of a kind. -/
def ThrowableKind.className : ThrowableKind → String
  | nullPointer => "java/lang/NullPointerException"
  | illegalArgument => "java/lang/IllegalArgumentException"
  | arrayIndexOutOfBounds => "java/lang/ArrayIndexOutOfBoundsException"
  | arrayStore => "java/lang/ArrayStoreException"
  | negativeArraySize => "java/lang/NegativeArraySizeException"
  | invocationTarget => "java/lang/reflect/InvocationTargetException"
  | runtime => "java/lang/RuntimeException"
  | classNotFound => "java/lang/ClassNotFoundException"
  | classFormat => "java/lang/ClassFormatError"
  | linkage => "java/lang/LinkageError"
  | wrongArgumentCount => "java/lang/IllegalArgumentException"
  | other name => name

/-- The dotted name of the class of exceptions of a kind. -/
def ThrowableKind.text (k : ThrowableKind) : String := dottedName k.className

/-! ## Exceptions -/

/-- An exception. -/
structure Throwable where
  kind : ThrowableKind
  message : Option String := none
  cause : Option Throwable := none
  object : Option ObjectRef := none
deriving Inhabited

namespace Throwable

/-- The class of the exception, then its message if it has one. -/
def text (t : Throwable) : String :=
  match t.message with
  | some m => t.kind.text ++ ": " ++ m
  | none => t.kind.text

def nullPointer : Throwable := { kind := .nullPointer }

def illegalArgument (message : String) : Throwable :=
  { kind := .illegalArgument, message := some message }

def arrayIndexOutOfBounds (index : Int) (length : Nat) : Throwable :=
  { kind := .arrayIndexOutOfBounds,
    message := some ("Index " ++ toString index ++ " out of bounds for length " ++ toString length) }

def arrayStore (message : String) : Throwable :=
  { kind := .arrayStore, message := some message }

def negativeArraySize (length : Int) : Throwable :=
  { kind := .negativeArraySize, message := some (toString length) }

/-- A failure inside a method that was called reflectively. -/
def invocationTarget (cause : Throwable) : Throwable :=
  { kind := .invocationTarget, cause := some cause }

def runtime (message : String) : Throwable :=
  { kind := .runtime, message := some message }

def libraryNotFound (name : String) : Throwable :=
  runtime ("library not found: " ++ name)

def classNotFound (name : String) : Throwable :=
  { kind := .classNotFound, message := some (dottedName name) }

def classFormat (message : String) : Throwable :=
  { kind := .classFormat, message := some message }

def linkage (message : String) : Throwable :=
  { kind := .linkage, message := some message }

def duplicateClass (name : String) : Throwable :=
  linkage ("duplicate class definition: " ++ dottedName name)

def wrongArgumentCount (expected actual : Nat) : Throwable :=
  { kind := .wrongArgumentCount,
    message := some ("wrong number of arguments: expected " ++ toString expected ++ ", got " ++
      toString actual) }

/-- An exception of any class, as a running program raises it. -/
def ofClass (className : String) (message : Option String := none) : Throwable :=
  { kind := .other className, message := message }

/-- A class that is met again while it is being defined. -/
def classCircularity (name : String) : Throwable :=
  ofClass "java/lang/ClassCircularityError" (some (dottedName name))

/-- A resource that holds a class of another name. -/
def wrongName (expected actual : String) : Throwable :=
  ofClass "java/lang/NoClassDefFoundError"
    (some (expected ++ " (wrong name: " ++ actual ++ ")"))

/-- A native method that no symbol provides. -/
def unsatisfiedLink (className methodName descriptor : String) : Throwable :=
  ofClass "java/lang/UnsatisfiedLinkError"
    (some (dottedName className ++ "." ++ methodName ++ descriptor))

/-- A native method that is linked to a symbol of a library, which only the engine can call. -/
def boundToLibrary (methodName : String) : Throwable :=
  ofClass "java/lang/UnsatisfiedLinkError" (some (methodName ++ " is bound to a library symbol"))

end Throwable

/-! ## Ends of a computation -/

/-- An internal invariant that turned out to be broken. None of these arises from what a program
can do with live references. -/
inductive Fault where
  /-- A reference to no live object. -/
  | danglingReference (r : ObjectRef)
  /-- A class handle that the table does not hold. -/
  | unknownClass (c : ClassId)
  /-- A thread handle that the table does not hold. -/
  | unknownThread (t : ThreadId)
  /-- A field whose place is not in the layout of its object. -/
  | fieldOutsideLayout (field : String)
  /-- An object of an array class that holds no elements, or elements of another kind. -/
  | mismatchedArray (r : ObjectRef)
  /-- The array class over `void`. -/
  | arrayOfVoid
  /-- A second exception left pending on one thread. -/
  | pendingOverwritten
  /-- A chain of class resolutions longer than the class path allows. -/
  | endlessResolution
deriving DecidableEq

/-- Why a computation ends without a value. -/
inductive Stop where
  | thrown (t : Throwable)
  | broken (f : Fault)
  /-- The machine is asked to end with this code. -/
  | exit (code : Int32)
  /-- The thread waits for something that only another thread can do. -/
  | blocked

end JavaMachine

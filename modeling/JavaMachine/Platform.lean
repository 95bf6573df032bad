/-
# The platform of a machine

A machine does not run methods, start threads, decide what is garbage or link foreign code by itself:
it is given an engine, a host, a collector and a loader, which may keep a state `W` of their own beside
the machine's. An `Exec W` is a computation on both states.

The class path and the limits of a machine are fixed with its platform.
-/
import JavaMachine.Library
import JavaMachine.Machine.Linking

namespace JavaMachine

/-- A computation on a machine and the state that its platform keeps. -/
abbrev Exec (W : Type) := ExceptT Stop (StateM (Machine × W))

namespace Exec

variable {W α : Type}

/-- A computation on the machine alone. -/
def onMachine (a : Action α) : Exec W α := fun (m, w) =>
  let (r, m) := a m
  (r, (m, w))

instance : MonadLift Action (Exec W) := ⟨onMachine⟩

instance : MonadLift (Except Throwable) (Exec W) := ⟨fun r => liftM (r.mapError Stop.thrown)⟩

/-- The state of the machine. -/
def machine : Exec W Machine := fun s => (.ok s.1, s)

/-- The state that the platform keeps. -/
def world : Exec W W := fun s => (.ok s.2, s)

/-- Changes the state of the machine. -/
def modifyMachine (f : Machine → Machine) : Exec W Unit := fun (m, w) => (.ok (), (f m, w))

/-- Changes the state that the platform keeps. -/
def modifyWorld (f : W → W) : Exec W Unit := fun (m, w) => (.ok (), (m, f w))

/-- Runs a computation and hands out its exception, if it ends with one. -/
def attempt (a : Exec W α) : Exec W (Except Throwable α) := fun s =>
  match a s with
  | (.ok x, s) => (.ok (.ok x), s)
  | (.error (.thrown t), s) => (.ok (.error t), s)
  | (.error e, s) => (.error e, s)

end Exec

/-! ## Limits -/

/-- The settings of a machine. -/
structure Config where
  maxHeapBytes : Nat := 64 * 1024 * 1024
  /-- The stack size to ask for when a thread is started. -/
  threadStackSize : Option Nat := none
  /-- A thread is named by this and its number. -/
  threadNamePrefix : String := "java-thread-"
deriving DecidableEq, Repr

/-! ## Collaborators -/

/-- What the host is told about a thread to start. -/
structure StartRequest where
  thread : ThreadId
  name : String
  stackSize : Option Nat

/-- What the host does about it. -/
inductive StartVerdict where
  | refused
  /-- The thread runs to its end before the start returns. -/
  | inline
  /-- The thread is run later. -/
  | deferred
deriving DecidableEq, Repr

/-- All that a machine is built over. -/
structure Platform (W : Type) where
  /-- Runs a method: the thread, the method, the receiver unless the method is static, and the
  arguments without the receiver. -/
  invoke : ThreadId → Method → Option ObjectRef → List Value → Exec W Value
  start : StartRequest → W → StartVerdict × W
  /-- Which objects a collection keeps. -/
  keep : W → ObjectRef → Object → Bool
  classPath : ClassPath := {}
  libraryPath : LibraryPath := {}
  /-- Without a loader no file can be linked. -/
  loader : Option (Loader W) := none
  config : Config := {}

/-! ## Libraries -/

namespace Platform

variable {W : Type}

/-- The libraries that are loaded. -/
def libraries (p : Platform W) (w : W) : Libraries :=
  match p.loader with
  | some loader => loader.libraries w
  | none => {}

/-- Asks the loader for a library. -/
def loadLibrary (p : Platform W) (name : String) : Exec W LibraryOutcome := fun (m, w) =>
  match p.loader with
  | some loader =>
    let (outcome, l) := (loader.libraries w).load loader.link? p.libraryPath name
    (.ok outcome, m, loader.store l w)
  | none => (.ok (({} : Libraries).load (fun _ => none) p.libraryPath name).1, m, w)

end Platform

/-! ## Failures of building a machine -/

/-- A place on the class path as the embedding gives it. -/
inductive ClassPathSource where
  | directory (d : Directory)
  /-- A file, which has to be an archive. -/
  | file (bytes : Bytes)
  | missing (location : String)

/-- Why a machine cannot be built. -/
inductive SetupError where
  | noEngine
  | missingEntry (location : String)
  | badArchive
deriving DecidableEq, Repr

/-- The wording of a failure, where it is fixed. -/
def SetupError.message? : SetupError → Option String
  | noEngine => some "no execution engine configured"
  | missingEntry location => some ("classpath entry does not exist: " ++ location)
  | badArchive => none

/-- Opens a place on the class path. -/
def ClassPathSource.openEntry : ClassPathSource → Except SetupError ClassPathEntry
  | directory d => .ok (.directory d)
  | file bytes =>
    match Archive.open? bytes with
    | some a => .ok (.archive a)
    | none => .error .badArchive
  | missing location => .error (.missingEntry location)

/-- The class path of some places, with finders of the embedding behind them. -/
def ClassPath.ofSources (sources : List ClassPathSource) (finders : List (Table String Bytes)) :
    Except SetupError ClassPath := do
  let entries ← sources.mapM ClassPathSource.openEntry
  return ⟨entries ++ finders.map .memory⟩

/-- The platform of an engine, if there is one, over some places. -/
def Platform.build {W : Type} (engine : Option (Platform W)) (sources : List ClassPathSource)
    (finders : List (Table String Bytes)) : Except SetupError (Platform W) := do
  match engine with
  | none => throw .noEngine
  | some p => return { p with classPath := ← ClassPath.ofSources sources finders }

end JavaMachine

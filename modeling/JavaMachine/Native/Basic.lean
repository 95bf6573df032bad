/-
# Native methods

A native method is run by the machine itself. It is found in a registry, under a symbol made of its
class and its name; a declared method is linked to its symbol once and keeps it. A method without such a
symbol may be linked to one that a library exports, which the machine cannot call.

An exception that a native method ends with is left pending on the thread, and the call gives null.
-/
import JavaMachine.Machine.Threads
import JavaMachine.Native.Arguments
import JavaMachine.Symbol

namespace JavaMachine

/-- A native method. -/
abbrev Native (W : Type) := Platform W → ThreadId → Arguments → Exec W Value

/-- A native method that needs the machine alone. -/
def Native.ofAction {W : Type} (f : Arguments → Action Value) : Native W :=
  fun _ _ args => Exec.onMachine (f args)

/-- Native methods by symbol. -/
abbrev Registry (W : Type) := Table String (Native W)

/-- The registry of a list of native methods. The last one of a symbol counts. -/
def Registry.ofList {W : Type} (l : List (String × Native W)) : Registry W :=
  l.foldl (fun t (symbol, native) => t.insert symbol native) {}

/-! ## Linking -/

/-- A method by the class that declares it and its place there. -/
abbrev MethodPlace := ClassId × Nat

/-- The symbols that a method of a class may be found under: the short one, then the long one. -/
def candidateSymbols (className : String) (x : Method) : List String :=
  shortSymbol className x.name :: (longSymbol? className x.name x.descriptor).toList

/-- The registered symbol that a declared method is linked to. The first call links it. -/
def linkNative {W : Type} (registry : Registry W) (place : MethodPlace) : Action String := do
  let m ← get
  match m.links.get? place with
  | some symbol => return symbol
  | none =>
    let cls ← m.classes.get place.1
    match cls.methods[place.2]? with
    | none => abort (.unknownClass place.1)
    | some x =>
      match (candidateSymbols cls.name x).find? registry.contains with
      | some symbol =>
        modify fun m => { m with links := m.links.insert place symbol }
        return symbol
      | none => raise (.unsatisfiedLink cls.name x.name x.descriptor)

/-- The symbol of a declared method that some libraries export. -/
def exportedSymbol? (m : Machine) (libraries : Libraries) (place : MethodPlace) : Option String := do
  let cls ← m.classes.get? place.1
  let x ← cls.methods[place.2]?
  (candidateSymbols cls.name x).find? libraries.exports

/-- The symbol that a declared method is linked to: one that is registered, or else one that a loaded
library exports. -/
def linkMethod {W : Type} (p : Platform W) (registry : Registry W) (place : MethodPlace) :
    Exec W String := do
  match ← Exec.attempt (Exec.onMachine (linkNative registry place)) with
  | .ok symbol => return symbol
  | .error e =>
    let m ← Exec.machine
    match exportedSymbol? m (p.libraries (← Exec.world)) place with
    | some symbol =>
      Exec.modifyMachine fun m => { m with links := m.links.insert place symbol }
      return symbol
    | none => raise e

/-! ## Calling -/

/-- Runs a native method on a thread. -/
def callNative {W : Type} (p : Platform W) (t : ThreadId) (native : Native W) (args : Arguments) :
    Exec W Value := do
  match ← Exec.attempt (native p t args) with
  | .ok v => return v
  | .error e =>
    Exec.onMachine (Action.setPending t e)
    return .null

/-- Links a declared native method and runs it, in a call of its own. One that is linked to a symbol of a
library is not run. -/
def runNative {W : Type} (p : Platform W) (registry : Registry W) (t : ThreadId)
    (place : MethodPlace) (args : Arguments) : Exec W Value := do
  match ← Exec.attempt (linkMethod p registry place) with
  | .error e =>
    Exec.onMachine (Action.setPending t e)
    return .null
  | .ok symbol =>
    let m ← Exec.machine
    let cls ← m.classes.get place.1
    match cls.methods[place.2]?, registry.get? symbol with
    | some x, some native =>
      Exec.onMachine (Action.updateThread t (·.pushFrame x))
      let v ← callNative p t native args
      Exec.onMachine (Action.updateThread t Thread.popFrame)
      return v
    | some x, none =>
      Exec.onMachine (Action.setPending t (.boundToLibrary x.name))
      return .null
    | none, _ => abort (.unknownClass place.1)

end JavaMachine

/-
# The class path

Classes and other resources are looked for in a list of places, in order: directories, archives, and
finders that the embedding supplies.
-/
import JavaMachine.Archive.Zip
import JavaMachine.ClassPath.Directory

namespace JavaMachine

/-- A place to look for resources. -/
inductive ClassPathEntry where
  | directory (d : Directory)
  | archive (a : Archive)
  /-- Resources by exact path. -/
  | memory (files : Table String Bytes)

namespace ClassPathEntry

/-- The bytes of a resource. -/
def find? (e : ClassPathEntry) (path : String) : Option Bytes :=
  match e with
  | directory d => d.find? path
  | archive a => a.find? (String.ofList (trimSlashes path))
  | memory files => files.get? path

/-- Whether there is a resource. -/
def contains (e : ClassPathEntry) (path : String) : Bool :=
  match e with
  | directory d => d.contains path
  | archive a => a.contains (String.ofList (trimSlashes path))
  | memory files => files.contains path

/-- The number of resources. -/
def size : ClassPathEntry → Nat
  | directory d => d.files.size
  | archive a => a.entries.length
  | memory files => files.size

end ClassPathEntry

/-- The places to look for resources, in order. -/
structure ClassPath where
  entries : List ClassPathEntry := []

namespace ClassPath

/-- The bytes of a resource, from the first place that has them. -/
def find? (p : ClassPath) (path : String) : Option Bytes :=
  p.entries.findSome? (·.find? path)

/-- Whether some place has a resource. -/
def contains (p : ClassPath) (path : String) : Bool := p.entries.any (·.contains path)

/-- The number of resources in all places. -/
def size (p : ClassPath) : Nat := p.entries.foldr (fun e n => e.size + n) 0

end ClassPath

end JavaMachine

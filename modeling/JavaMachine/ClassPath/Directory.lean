/-
# Directories of resources

A resource is named by a path whose parts are joined by `/`. A directory holds files by the parts of
their paths. Only paths that stay below the directory lead to a file: slashes in front are ignored,
empty parts and parts `.` inside a path are skipped, and a path that starts with `.` or has a part
`..` leads nowhere. A path that ends in `/` or `/.` asks for a directory, which is no resource.

The system is asked for the whole path, the location of the directory in front, and it may refuse one
that is too long for it.
-/
import JavaMachine.Table
import JavaMachine.Text.Modified

namespace JavaMachine

/-! ## Paths -/

/-- The parts of a text between its slashes. -/
def segments : List Char → List (List Char)
  | [] => [[]]
  | c :: rest =>
    if c = '/' then [] :: segments rest
    else
      match segments rest with
      | [] => [[c]]
      | s :: ss => (c :: s) :: ss

/-- Whether a part of a path changes nothing: it is empty or `.`. -/
def isSkipped (segment : List Char) : Bool := segment = [] ∨ segment = ['.']

/-- A path below a directory. -/
structure RelativePath where
  parts : List (List Char)
  /-- Whether the path can only name a directory. -/
  asksDirectory : Bool
deriving DecidableEq, Repr

/-- A path without its leading slashes. -/
def trimSlashes (path : String) : List Char := path.toList.dropWhile (· = '/')

/-- The path below a directory that a text spells; `none` when it could lead elsewhere. -/
def relativePath? (path : String) : Option RelativePath :=
  let all := segments (trimSlashes path)
  let parts := all.filter (!isSkipped ·)
  if all.head? = some ['.'] ∨ ['.', '.'] ∈ parts then none
  else some { parts, asksDirectory := all.getLast?.any isSkipped }

example : (relativePath? "//a/./b//c").map RelativePath.parts = some [['a'], ['b'], ['c']] := by
  decide +kernel
example : relativePath? "./a" = none ∧ relativePath? "a/../b" = none := by decide +kernel

/-- The path to what stands below a location. A slash comes between the two where it is needed. -/
def joinPath (location below : String) : String :=
  if location = "" ∨ location.toList.getLast? = some '/' then location ++ below
  else location ++ "/" ++ below

example : joinPath "a" "b" = "a/b" ∧ joinPath "a/" "b" = "a/b" ∧ joinPath "" "b" = "b" := by
  decide +kernel

/-! ## Directories -/

/-- A directory: its files, by the parts of their paths below it. -/
structure Directory where
  files : Table (List (List Char)) Bytes
  /-- The path that leads to the directory. -/
  location : String := ""
  /-- The longest path in bytes that the system follows, where it has a limit. -/
  pathLimit : Option Nat := none

namespace Directory

/-- The directory at a location with files at some paths below it. -/
def ofFiles (files : List (String × Bytes)) (location : String) (pathLimit : Option Nat) : Directory where
  files := files.foldl (fun t (path, data) =>
    t.insert ((segments (trimSlashes path)).filter (!isSkipped ·)) data) {}
  location := location
  pathLimit := pathLimit

/-- The whole path to what a path names. It is joined to the location as it is spelled, with the parts that
change nothing, so these count too. -/
def wholePath (d : Directory) (path : String) : String :=
  joinPath d.location (String.ofList (trimSlashes path))

/-- Whether the system follows the whole path. -/
def follows (d : Directory) (path : String) : Bool :=
  d.pathLimit.all ((d.wholePath path).utf8ByteSize ≤ ·)

/-- The bytes of the file at a path. -/
def find? (d : Directory) (path : String) : Option Bytes := do
  let p ← relativePath? path
  if p.asksDirectory || !d.follows path then none else d.files.get? p.parts

/-- Whether there is a file at a path. -/
def contains (d : Directory) (path : String) : Bool :=
  match relativePath? path with
  | some p => !p.asksDirectory && d.follows path && d.files.contains p.parts
  | none => false

/-- There is a file exactly where there are bytes to read. -/
theorem contains_eq_isSome_find? (d : Directory) (path : String) :
    d.contains path = (d.find? path).isSome := by
  unfold contains find?
  cases relativePath? path with
  | none => rfl
  | some p =>
    cases h : p.asksDirectory with
    | true => simp [h]
    | false => cases h' : d.follows path <;> simp [h, Table.contains]

end Directory

end JavaMachine

/-
# Libraries of native code

A program can ask for a library by name. The file for it is looked for in a list of directories, and a
file that can be linked is loaded for good: native methods that the machine does not have itself may be
linked to the symbols that it exports. How a file is linked is up to the system, and the platform keeps
what is loaded (`Loader`).
-/
import JavaMachine.ClassPath.Directory
import JavaMachine.Throwable

namespace JavaMachine

/-! ## Finding the file of a library -/

/-- A directory that libraries are looked for in. -/
structure LibraryDirectory where
  location : String
  files : Table String Bytes

/-- The directories to look for libraries in, in order. -/
structure LibraryPath where
  directories : List LibraryDirectory := []

/-- The name of the file that holds a library. -/
def libraryFileName (name : String) : String := "lib" ++ name ++ ".so"

/-- The file that holds a library, with the path to it: that of the first directory which has one. -/
def LibraryPath.find? (p : LibraryPath) (name : String) : Option (String × Bytes) :=
  p.directories.findSome? fun d =>
    (d.files.get? (libraryFileName name)).map fun bytes =>
      (joinPath d.location (libraryFileName name), bytes)

/-! ## Loading -/

/-- What came of asking for a library. -/
inductive LibraryOutcome where
  | loaded (file : String)
  | alreadyLoaded
  | notFound
  /-- The file was found and is no code that can be linked. -/
  | unreadable
deriving DecidableEq, Repr

/-- The exception that reports it to the program, if it is a failure. A library that cannot be loaded is
reported as one that was not found. -/
def LibraryOutcome.throwable? (name : String) : LibraryOutcome → Option Throwable
  | loaded _ => none
  | alreadyLoaded => none
  | notFound => some (.libraryNotFound name)
  | unreadable => some (.libraryNotFound name)

/-- A library that is loaded, with the symbols that it exports. -/
structure LoadedLibrary where
  name : String
  file : String
  symbols : List String
deriving DecidableEq, Repr

/-- The libraries that are loaded, in the order in which they were. -/
structure Libraries where
  loaded : List LoadedLibrary := []

namespace Libraries

/-- The file that a library was loaded from. -/
def file? (l : Libraries) (name : String) : Option String :=
  (l.loaded.find? (·.name = name)).map LoadedLibrary.file

/-- Whether a library of that name is loaded. -/
def isLoaded (l : Libraries) (name : String) : Bool := l.loaded.any (·.name = name)

/-- Whether a symbol is exported by some library. -/
def exports (l : Libraries) (symbol : String) : Bool := l.loaded.any (symbol ∈ ·.symbols)

/-- Loads a library, unless there is one of that name. `link?` gives the symbols that the code in a file
exports, if it can be linked. -/
def load (link? : Bytes → Option (List String)) (path : LibraryPath) (name : String)
    (l : Libraries) : LibraryOutcome × Libraries :=
  if l.isLoaded name then (.alreadyLoaded, l)
  else
    match path.find? name with
    | none => (.notFound, l)
    | some (file, bytes) =>
      match link? bytes with
      | none => (.unreadable, l)
      | some symbols => (.loaded file, ⟨l.loaded ++ [{ name, file, symbols }]⟩)

variable {link? : Bytes → Option (List String)} {path : LibraryPath} {name symbol file : String}
  {l : Libraries}

/-- What is loaded has a file, and nothing else has. -/
theorem isLoaded_iff_exists_file? : l.isLoaded name = true ↔ ∃ file, l.file? name = some file := by
  unfold isLoaded file?
  rw [← Option.isSome_iff_exists, Option.isSome_map, List.find?_isSome, List.any_eq_true]

/-- A library is there after it was asked for, unless that is reported as a failure. -/
theorem isLoaded_load_iff :
    (l.load link? path name).2.isLoaded name = true ↔
      (l.load link? path name).1.throwable? name = none := by
  unfold load
  split
  · next h => exact iff_of_true h rfl
  · next h =>
    split
    · exact iff_of_false h nofun
    · split
      · exact iff_of_false h nofun
      · refine iff_of_true ?_ rfl
        simp [isLoaded]

/-- A failure changes nothing. -/
theorem load_of_throwable? {e : Throwable}
    (h : (l.load link? path name).1.throwable? name = some e) : (l.load link? path name).2 = l := by
  unfold load at h ⊢
  split
  · rfl
  · next hnew =>
    rw [if_neg hnew] at h
    split
    · rfl
    · next file bytes hfile =>
      rw [hfile] at h
      dsimp only at h
      split
      · rfl
      · next symbols hlink =>
        rw [hlink] at h
        cases h

/-- Asking for a library again changes nothing. -/
theorem load_load (h : (l.load link? path name).1.throwable? name = none) :
    (l.load link? path name).2.load link? path name =
      (.alreadyLoaded, (l.load link? path name).2) := by
  rw [load, if_pos (isLoaded_load_iff.mpr h)]

/-- Whatever is asked for, what is loaded stays so. -/
theorem exists_loaded_load (l : Libraries) (link? : Bytes → Option (List String)) (path : LibraryPath)
    (name : String) : ∃ added, (l.load link? path name).2.loaded = l.loaded ++ added := by
  unfold load
  split
  · exact ⟨[], (List.append_nil _).symm⟩
  · split
    · exact ⟨[], (List.append_nil _).symm⟩
    · split
      · exact ⟨[], (List.append_nil _).symm⟩
      · exact ⟨_, rfl⟩

/-- The file of a library stays the same. -/
theorem file?_load (h : l.file? name = some file) (other : String) :
    (l.load link? path other).2.file? name = some file := by
  obtain ⟨added, hadded⟩ := l.exists_loaded_load link? path other
  obtain ⟨library, hfind, hfile⟩ := Option.map_eq_some_iff.mp h
  rw [file?, hadded, List.find?_append, hfind]
  exact congrArg some hfile

/-- What is exported stays so. -/
theorem exports_load (h : l.exports symbol = true) :
    (l.load link? path name).2.exports symbol = true := by
  obtain ⟨added, hadded⟩ := l.exists_loaded_load link? path name
  rw [exports, hadded, List.any_append, show l.loaded.any (symbol ∈ ·.symbols) = true from h,
    Bool.true_or]

end Libraries

/-! ## Loaders -/

/-- How the system links a file, and where a platform with the state `W` keeps what is loaded. -/
structure Loader (W : Type) where
  link? : Bytes → Option (List String)
  libraries : W → Libraries
  store : Libraries → W → W
  libraries_store : ∀ l w, libraries (store l w) = l

/-- The loader of a platform that keeps something else beside. -/
def Loader.onFirst {W V : Type} (loader : Loader W) : Loader (W × V) where
  link? := loader.link?
  libraries := fun (w, _) => loader.libraries w
  store := fun l (w, v) => (loader.store l w, v)
  libraries_store := fun l (w, _) => loader.libraries_store l w

end JavaMachine

/-
# Looking resources up

A directory of the class path is a folder of a file system (`Directory.Lists`).  A look-up in it gives
what the system reads under the whole path, the location of the directory in front (`FileSystem.read`),
but for paths that could lead elsewhere.  The two sides differ: the look-up drops the parts that change
nothing and asks the directory for what is left at once, while the system walks from where the path starts
through a folder with each part, those of the location first (`FileTree.read_eq_some_iff`), and refuses a
whole path that is too long for it.  So only files below the folder are found.

Whether there is a resource is decided apart from what its bytes are, in each place and on the whole
class path.  Both agree, so a resource exists exactly when opening it gives a number, and its bytes are
those of the first place that has it (`resource_lookups`).
-/
import JavaMachine.Proofs.ResourceHandles
import Mathlib.Data.List.Induction

namespace JavaMachine

/-! ## Trees of files -/

/-- What stands at a place of a tree. -/
inductive FileNode where
  | file (data : Bytes)
  | folder
deriving DecidableEq, Repr

/-- A tree of folders and files that can be read, by the names on the way to them.  There are no links:
whatever stands somewhere stands in a folder. -/
structure FileTree where
  node? : List (List Char) → Option FileNode
  folder_of_child : ∀ path name, (node? (path ++ [name])).isSome → node? path = some .folder

namespace FileTree

/-- Follows the parts of a path from a place on.  Each part asks for a folder to go on from: an empty one
and `.` stay there, `..` leads to the folder above, and any other is a name in the folder. -/
def walk (fs : FileTree) : List (List Char) → List (List Char) → Option (List (List Char))
  | here, [] => some here
  | here, s :: rest =>
    match fs.node? here with
    | some .folder =>
      if isSkipped s then fs.walk here rest
      else if s = ['.', '.'] then fs.walk here.dropLast rest
      else if (fs.node? (here ++ [s])).isSome then fs.walk (here ++ [s]) rest
      else none
    | _ => none

/-- The bytes of the file that the parts of a path lead to. -/
def read (fs : FileTree) (root segs : List (List Char)) : Option Bytes :=
  match (fs.walk root segs).bind fs.node? with
  | some (.file data) => some data
  | _ => none

variable {fs : FileTree} {here names segs rest : List (List Char)} {s : List Char} {data : Bytes}

/-- Whatever has something below it is a folder. -/
theorem folder_of_below (hne : names ≠ []) (h : (fs.node? (here ++ names)).isSome) :
    fs.node? here = some .folder := by
  induction names using List.reverseRecOn with
  | nil => exact absurd rfl hne
  | append_singleton before name ih =>
    rw [← List.append_assoc] at h
    have hfolder := fs.folder_of_child _ _ h
    by_cases hbefore : before = []
    · rw [hbefore, List.append_nil] at hfolder
      exact hfolder
    · exact ih hbefore (hfolder ▸ rfl)

/-- A walk along two paths, one after the other. -/
theorem walk_append (before : List (List Char)) :
    fs.walk here (before ++ segs) = (fs.walk here before).bind (fs.walk · segs) := by
  fun_induction walk fs here before with
  | case1 here => rfl
  | case2 here s rest hfolder hskip ih => rw [List.cons_append, walk, hfolder, ← ih, if_pos hskip]
  | case3 here rest hfolder hskip ih =>
    rw [List.cons_append, walk, hfolder, ← ih, if_neg hskip, if_pos rfl]
  | case4 here s rest hfolder hskip hup hchild ih =>
    rw [List.cons_append, walk, hfolder, ← ih, if_neg hskip, if_neg hup, if_pos hchild]
  | case5 here s rest hfolder hskip hup hchild =>
    rw [List.cons_append, walk, hfolder, if_neg hskip, if_neg hup, if_neg hchild, Option.bind_none]
  | case6 here s rest hfolder =>
    rw [List.cons_append, walk, Option.bind_none]
    split
    · next h => exact absurd h hfolder
    · rfl

/-- Reading goes on from the place that the front of a path leads to. -/
theorem read_append {before : List (List Char)} {there : List (List Char)}
    (h : fs.walk here before = some there) : fs.read here (before ++ segs) = fs.read there segs := by
  rw [read, walk_append, h]
  rfl

/-- A path that is empty but for a slash behind it stays where it is. -/
theorem eq_of_walk_empty {there : List (List Char)} (h : fs.walk here [[]] = some there) :
    here = there := by
  rw [walk] at h
  split at h
  · exact Option.some.inj h
  · cases h

/-- Behind a file there is nothing. -/
theorem read_cons_of_not_folder (h : fs.node? here ≠ some .folder) :
    fs.read here (s :: rest) = none := by
  unfold read walk
  split
  · next hwalk =>
    split at hwalk
    · next hfolder => exact absurd hfolder h
    · cases hwalk
  · rfl

/-- An empty segment, or one for the folder itself, leads nowhere else. -/
theorem read_cons_skipped (h : fs.node? here = some .folder) (hs : isSkipped s = true) :
    fs.read here (s :: rest) = fs.read here rest := by
  rw [read, walk, h]
  simp only [hs, if_true]
  rfl

/-- A name leads into the folder. -/
theorem read_cons_name (h : fs.node? here = some .folder) (hs : isSkipped s = false)
    (hup : s ≠ ['.', '.']) (hchild : (fs.node? (here ++ [s])).isSome) :
    fs.read here (s :: rest) = fs.read (here ++ [s]) rest := by
  rw [read, walk, h]
  simp only [hs, hup, hchild, if_true, if_false, Bool.false_eq_true]
  rfl

/-- A name that a folder does not have leads to nothing. -/
theorem read_cons_missing (h : fs.node? here = some .folder) (hs : isSkipped s = false)
    (hup : s ≠ ['.', '.']) (hchild : ¬ (fs.node? (here ++ [s])).isSome) :
    fs.read here (s :: rest) = none := by
  rw [read, walk, h]
  simp only [hs, hup, hchild, if_false, Bool.false_eq_true]
  rfl

/-- A path ends at a file. -/
theorem read_nil_eq_some_iff : fs.read here [] = some data ↔ fs.node? here = some (.file data) := by
  rw [read, walk, Option.bind_some]
  split
  · next other h => rw [h, Option.some.injEq, Option.some.injEq, FileNode.file.injEq]
  · next hnot =>
    refine iff_of_false nofun fun h => hnot data h

/-- A path whose last part is a name has names. -/
theorem names_ne_nil (hne : segs ≠ []) (hlast : segs.getLast?.any isSkipped = false) :
    segs.filter (!isSkipped ·) ≠ [] := by
  rw [List.getLast?_eq_some_getLast hne, Option.any_some] at hlast
  have hmem : segs.getLast hne ∈ segs.filter (!isSkipped ·) :=
    List.mem_filter.mpr ⟨List.getLast_mem hne, by rw [hlast]; rfl⟩
  exact List.ne_nil_of_mem hmem

/-- A path that never leads up is read as the file under its names, unless it ends with a part that asks
for a folder. -/
theorem read_eq_some_iff (hne : segs ≠ []) (hup : ['.', '.'] ∉ segs) :
    fs.read here segs = some data ↔ fs.node? here = some .folder ∧
      fs.node? (here ++ segs.filter (!isSkipped ·)) = some (.file data) ∧
      segs.getLast?.any isSkipped = false := by
  induction segs generalizing here with
  | nil => exact absurd rfl hne
  | cons s rest ih =>
    have hs : s ≠ ['.', '.'] := fun h => hup (h ▸ List.mem_cons_self)
    have hrest : ['.', '.'] ∉ rest := fun h => hup (List.mem_cons_of_mem _ h)
    by_cases hfolder : fs.node? here = some .folder
    · cases hskip : isSkipped s with
      | true =>
        rw [read_cons_skipped hfolder hskip, List.filter_cons_of_neg (by simp [hskip])]
        rcases rest with _ | ⟨s', rest⟩
        · rw [read_nil_eq_some_iff, hfolder]
          simp [hskip]
        · rw [ih (List.cons_ne_nil _ _) hrest, List.getLast?_cons_cons]
      | false =>
        have hnames : (s :: rest).filter (!isSkipped ·) = [s] ++ rest.filter (!isSkipped ·) :=
          List.filter_cons_of_pos (by simp [hskip])
        rw [hnames, ← List.append_assoc]
        by_cases hchild : (fs.node? (here ++ [s])).isSome
        · rw [read_cons_name hfolder hskip hs hchild]
          rcases rest with _ | ⟨s', rest⟩
          · simp [read_nil_eq_some_iff, hskip, hfolder]
          · rw [ih (List.cons_ne_nil _ _) hrest, List.getLast?_cons_cons]
            refine and_congr_left fun ⟨hfile, hlast⟩ => iff_of_true ?_ hfolder
            exact folder_of_below (names_ne_nil (List.cons_ne_nil _ _) hlast) (hfile ▸ rfl)
        · rw [read_cons_missing hfolder hskip hs hchild]
          refine iff_of_false nofun fun ⟨_, hfile, _⟩ => hchild ?_
          by_cases hbelow : rest.filter (!isSkipped ·) = []
          · rw [hbelow, List.append_nil] at hfile
            exact hfile ▸ rfl
          · rw [folder_of_below hbelow (by rw [hfile]; rfl)]
            rfl
    · rw [read_cons_of_not_folder hfolder]
      exact iff_of_false nofun fun h => hfolder h.1

end FileTree

/-! ## File systems -/

/-- A file system, as a program on it reads files: its tree, the folder that the program works in, and the
longest path in bytes that it follows, where it has a limit. -/
structure FileSystem where
  tree : FileTree
  working : List (List Char)
  pathLimit : Option Nat

namespace FileSystem

/-- The folder that a path starts from: the top if a slash stands in front. -/
def start (sys : FileSystem) (path : List Char) : List (List Char) :=
  if path.head? = some '/' then [] else sys.working

/-- The bytes of the file that a path leads to, unless the path is too long. -/
def read (sys : FileSystem) (path : List Char) : Option Bytes :=
  if ∃ limit ∈ sys.pathLimit, limit < (String.ofList path).utf8ByteSize then none
  else sys.tree.read (sys.start path) (segments path)

end FileSystem

/-- The spelling of a path below a location.  A slash stands between the two, unless the location is empty
or has one at its end. -/
inductive SpelledBelow (location path : List Char) : List Char → Prop
  | empty (h : location = []) : SpelledBelow location path path
  | slashed {folder : List Char} (h : location = folder ++ ['/']) :
      SpelledBelow location path (folder ++ '/' :: path)
  | slash {folder : List Char} {last : Char} (h : location = folder ++ [last]) (hlast : last ≠ '/') :
      SpelledBelow location path (folder ++ last :: '/' :: path)

/-! ## Paths -/

/-- A name that a file or a folder can have. -/
def IsFileName (s : List Char) : Prop := s ≠ [] ∧ s ≠ ['.'] ∧ s ≠ ['.', '.'] ∧ '/' ∉ s

/-- A path that cannot lead elsewhere: behind the slashes in front it does not start with `.`, and it has
no part `..`. -/
structure StaysBelow (path : String) : Prop where
  start : (segments (trimSlashes path)).head? ≠ some ['.']
  down : ['.', '.'] ∉ segments (trimSlashes path)

theorem segments_ne_nil (l : List Char) : segments l ≠ [] := by
  induction l with
  | nil => exact List.cons_ne_nil _ _
  | cons c rest ih =>
    unfold segments
    split
    · exact List.cons_ne_nil _ _
    · split <;> exact List.cons_ne_nil _ _

/-- The parts before and behind a slash. -/
theorem segments_append_slash (l l' : List Char) :
    segments (l ++ '/' :: l') = segments l ++ segments l' := by
  induction l with
  | nil => rfl
  | cons c rest ih =>
    obtain ⟨s, ss, h⟩ := List.exists_cons_of_ne_nil (segments_ne_nil rest)
    rw [List.cons_append, segments.eq_2 c (rest ++ _), segments.eq_2 c rest, ih, h]
    split <;> rfl

/-- There is no slash in a part between slashes. -/
theorem slash_not_mem_of_mem_segments {l s : List Char} (h : s ∈ segments l) : '/' ∉ s := by
  induction l generalizing s with
  | nil =>
    obtain rfl := List.mem_singleton.mp h
    exact List.not_mem_nil
  | cons c rest ih =>
    unfold segments at h
    split at h
    · rcases List.mem_cons.mp h with rfl | h
      · exact List.not_mem_nil
      · exact ih h
    · next hc =>
      have hc : ¬ '/' = c := fun h => hc h.symm
      split at h
      · obtain rfl := List.mem_singleton.mp h
        simpa using hc
      · next s' rest' hsegments =>
        rcases List.mem_cons.mp h with rfl | h
        · have hs' := ih (hsegments ▸ List.mem_cons_self)
          simp [hc, hs']
        · exact ih (hsegments ▸ List.mem_cons_of_mem _ h)

/-- The names in a path, which are its parts but for those that change nothing. -/
def namesOf (path : String) : List (List Char) := (segments path.toList).filter (!isSkipped ·)

/-- The slashes in front of a path hide none of its names. -/
theorem filter_segments_trimSlashes (path : String) :
    (segments (trimSlashes path)).filter (!isSkipped ·) = namesOf path := by
  unfold trimSlashes namesOf
  induction path.toList with
  | nil => rfl
  | cons c rest ih =>
    by_cases hc : c = '/'
    · have hsegments : segments (c :: rest) = [] :: segments rest := by
        rw [segments, if_pos hc]
      rw [List.dropWhile_cons_of_pos (by simpa using hc), ih, hsegments]
      exact (List.filter_cons_of_neg (by decide)).symm
    · rw [List.dropWhile_cons_of_neg (by simpa using hc)]

/-- A part `..` is a name of the path. -/
theorem up_mem_namesOf_iff {path : String} :
    ['.', '.'] ∈ namesOf path ↔ ['.', '.'] ∈ segments path.toList := by
  unfold namesOf
  rw [List.mem_filter]
  exact and_iff_left (by decide)

/-- Slashes in front hide no step up. -/
theorem up_mem_trimSlashes_iff {path : String} :
    ['.', '.'] ∈ segments (trimSlashes path) ↔ ['.', '.'] ∈ namesOf path := by
  rw [← filter_segments_trimSlashes, List.mem_filter]
  exact (and_iff_left (by decide)).symm

theorem relativePath?_eq_some_iff {path : String} {q : RelativePath} :
    relativePath? path = some q ↔ StaysBelow path ∧
      q.parts = namesOf path ∧
      q.asksDirectory = (segments (trimSlashes path)).getLast?.any isSkipped := by
  unfold relativePath?
  simp only [filter_segments_trimSlashes, ← up_mem_trimSlashes_iff]
  split
  · next hout =>
    refine iff_of_false nofun fun ⟨hbelow, _⟩ => ?_
    exact hout.elim hbelow.start hbelow.down
  · next hin =>
    rw [not_or] at hin
    obtain ⟨parts, asksDirectory⟩ := q
    rw [Option.some.injEq, RelativePath.mk.injEq]
    constructor
    · rintro ⟨rfl, rfl⟩
      exact ⟨⟨hin.1, hin.2⟩, rfl, rfl⟩
    · rintro ⟨-, rfl, rfl⟩
      exact ⟨rfl, rfl⟩

/-! ## Directories -/

/-- The location of the directory leads to a folder of a file system, and the directory has the files that
stand below it. -/
structure Directory.Lists (d : Directory) (sys : FileSystem) (root : List (List Char)) : Prop where
  leads : sys.tree.walk (sys.start d.location.toList) (segments d.location.toList) = some root
  folder : sys.tree.node? root = some .folder
  pathLimit : d.pathLimit = sys.pathLimit
  get?_iff : ∀ names data,
    d.files.get? names = some data ↔ sys.tree.node? (root ++ names) = some (.file data)

/-- No slash is left in front of a path. -/
theorem head?_trimSlashes_ne (path : String) : (trimSlashes path).head? ≠ some '/' := by
  intro h
  have hfirst := List.head?_dropWhile_not (· = '/') path.toList
  rw [show path.toList.dropWhile (· = '/') = trimSlashes path from rfl, h] at hfirst
  exact absurd hfirst (by decide)

/-- The whole path is the path behind its slashes, spelled below the location. -/
theorem Directory.spelledBelow_wholePath (d : Directory) (path : String) :
    SpelledBelow d.location.toList (trimSlashes path) (d.wholePath path).toList := by
  unfold wholePath joinPath
  split
  · next h =>
    rw [String.toList_append, String.toList_ofList]
    rcases h with h | h
    · rw [h]
      exact .empty rfl
    · obtain ⟨folder, hfolder⟩ := List.getLast?_eq_some_iff.mp h
      rw [hfolder, List.append_assoc]
      exact .slashed rfl
  · next h =>
    obtain ⟨hne, hlast⟩ := not_or.mp h
    obtain ⟨folder, last, hfolder⟩ :=
      (List.eq_nil_or_concat' d.location.toList).resolve_left (hne ∘ String.toList_eq_nil_iff.mp)
    rw [String.toList_append, String.toList_append, hfolder]
    simp only [List.append_assoc, String.toList_ofList]
    refine .slash rfl fun hslash => hlast ?_
    rw [hfolder, hslash, List.getLast?_concat]

/-- There is one spelling of a path below a location. -/
theorem SpelledBelow.unique {location path whole other : List Char}
    (h : SpelledBelow location path whole) (h' : SpelledBelow location path other) : whole = other := by
  cases h with
  | empty h => cases h' <;> simp_all
  | slashed h => cases h' <;> simp_all
  | slash h hlast =>
    cases h' with
    | empty h' => simp_all
    | slashed h' =>
      obtain ⟨-, hends⟩ := List.append_inj' (h.symm.trans h') rfl
      exact absurd (List.singleton_inj.mp hends) hlast
    | slash h' _ =>
      obtain ⟨rfl, hends⟩ := List.append_inj' (h.symm.trans h') rfl
      rw [List.singleton_inj.mp hends]

namespace Directory.Lists

variable {d : Directory} {sys : FileSystem} {root : List (List Char)} {path : String}
  {whole : List Char} {data : Bytes}

/-- Walking the whole path leads through the folder of the directory. -/
theorem read_whole (h : d.Lists sys root)
    (hwhole : SpelledBelow d.location.toList (trimSlashes path) whole) :
    sys.tree.read (sys.start whole) (segments whole) =
      sys.tree.read root (segments (trimSlashes path)) := by
  have hleads := h.leads
  cases hwhole with
  | empty hempty =>
    -- The path does not start with a slash, so it starts where the program works.
    rw [hempty] at hleads
    have hstart : sys.start (trimSlashes path) = sys.start [] :=
      (if_neg (head?_trimSlashes_ne path)).trans (if_neg nofun).symm
    rw [hstart, FileTree.eq_of_walk_empty hleads]
  | @slashed folder hslashed =>
    rw [hslashed, segments_append_slash, FileTree.walk_append, Option.bind_eq_some_iff] at hleads
    obtain ⟨there, hthere, hstays⟩ := hleads
    obtain rfl := FileTree.eq_of_walk_empty hstays
    have hstart : sys.start (folder ++ '/' :: trimSlashes path) = sys.start (folder ++ ['/']) := by
      cases folder <;> rfl
    rw [segments_append_slash, hstart, FileTree.read_append hthere]
  | @slash folder last hslash hlast =>
    rw [hslash] at hleads
    have hstart : sys.start (folder ++ last :: '/' :: trimSlashes path) =
        sys.start (folder ++ [last]) := by
      cases folder <;> rfl
    rw [hstart, show folder ++ last :: '/' :: trimSlashes path =
      (folder ++ [last]) ++ '/' :: trimSlashes path by simp, segments_append_slash,
      FileTree.read_append hleads]

/-- The directory follows what is not too long for the file system. -/
theorem follows_iff (h : d.Lists sys root)
    (hwhole : SpelledBelow d.location.toList (trimSlashes path) whole) :
    d.follows path = true ↔
      ¬ ∃ limit ∈ sys.pathLimit, limit < (String.ofList whole).utf8ByteSize := by
  rw [hwhole.unique (d.spelledBelow_wholePath path), String.ofList_toList, ← h.pathLimit]
  unfold Directory.follows
  cases d.pathLimit <;> simp

/-- A directory finds what the system reads under the whole path, if the path stays below. -/
theorem find?_eq_some_iff (h : d.Lists sys root)
    (hwhole : SpelledBelow d.location.toList (trimSlashes path) whole) :
    d.find? path = some data ↔ StaysBelow path ∧ sys.read whole = some data := by
  have hread : StaysBelow path → (sys.tree.read root (segments (trimSlashes path)) = some data ↔
      (segments (trimSlashes path)).getLast?.any isSkipped = false ∧
        d.files.get? (namesOf path) = some data) := by
    intro hbelow
    rw [FileTree.read_eq_some_iff (segments_ne_nil _) hbelow.down, and_iff_right h.folder,
      filter_segments_trimSlashes, ← h.get?_iff, and_comm]
  have hfollows := h.follows_iff hwhole
  unfold Directory.find? FileSystem.read
  rw [Option.bind_eq_bind, Option.bind_eq_some_iff, h.read_whole hwhole]
  constructor
  · rintro ⟨q, hq, hfile⟩
    obtain ⟨hbelow, hparts, hasks⟩ := relativePath?_eq_some_iff.mp hq
    rw [hasks, hparts] at hfile
    split at hfile
    · cases hfile
    · next hopen =>
      rw [Bool.or_eq_true, not_or, Bool.not_eq_true, Bool.not_eq_true, Bool.not_eq_false'] at hopen
      exact ⟨hbelow, (if_neg (hfollows.mp hopen.2)).trans ((hread hbelow).mpr ⟨hopen.1, hfile⟩)⟩
  · rintro ⟨hbelow, hfile⟩
    split at hfile
    · cases hfile
    · next hlimit =>
      obtain ⟨hlast, hfile⟩ := (hread hbelow).mp hfile
      refine ⟨⟨namesOf path, false⟩, relativePath?_eq_some_iff.mpr ⟨hbelow, rfl, hlast.symm⟩, ?_⟩
      rw [hfollows.mpr hlimit]
      exact hfile

/-- What a directory finds is the file under the names in the path, strictly below its folder. -/
theorem file_of_find? (h : d.Lists sys root) (hfind : d.find? path = some data) :
    namesOf path ≠ [] ∧ (∀ s ∈ namesOf path, IsFileName s) ∧
      sys.tree.node? (root ++ namesOf path) = some (.file data) := by
  have hwhole := d.spelledBelow_wholePath path
  obtain ⟨hbelow, hread⟩ := (h.find?_eq_some_iff hwhole).mp hfind
  unfold FileSystem.read at hread
  rw [h.read_whole hwhole] at hread
  obtain ⟨-, hread⟩ := Option.ite_none_left_eq_some.mp hread
  obtain ⟨-, hfile, hlast⟩ :=
    (FileTree.read_eq_some_iff (segments_ne_nil _) hbelow.down).mp hread
  have hne := FileTree.names_ne_nil (segments_ne_nil _) hlast
  rw [filter_segments_trimSlashes] at hfile hne
  refine ⟨hne, fun s hs => ?_, hfile⟩
  obtain ⟨hmem, hkept⟩ := List.mem_filter.mp hs
  have hkept : ¬ (s = [] ∨ s = ['.']) := by simpa [isSkipped] using hkept
  obtain ⟨hnonempty, hdot⟩ := not_or.mp hkept
  refine ⟨hnonempty, hdot, fun hup => ?_, slash_not_mem_of_mem_segments hmem⟩
  exact hbelow.down (up_mem_trimSlashes_iff.mpr (hup ▸ hs))

/-- A path with a part `..` leads nowhere. -/
theorem find?_of_up (h : d.Lists sys root) (hup : ['.', '.'] ∈ segments path.toList) :
    d.find? path = none := by
  refine Option.eq_none_iff_forall_ne_some.mpr fun data hfind => ?_
  obtain ⟨hbelow, -⟩ := (h.find?_eq_some_iff (d.spelledBelow_wholePath path)).mp hfind
  exact hbelow.down (up_mem_trimSlashes_iff.mpr (up_mem_namesOf_iff.mpr hup))

end Directory.Lists

/-! ## Places -/

/-- A place that the class path is put together from: a location in a file system, or a finder. -/
inductive Place where
  | directory (sys : FileSystem) (location : String)
  | memory (files : Table String Bytes)

/-- An entry of the class path for a place. -/
inductive Place.Entry : Place → ClassPathEntry → Prop
  | directory {sys : FileSystem} {root : List (List Char)} {d : Directory} (h : d.Lists sys root) :
      Entry (.directory sys d.location) (.directory d)
  | memory (files : Table String Bytes) : Entry (.memory files) (.memory files)

/-- A place has some bytes under a path. -/
inductive Place.Has : Place → String → Bytes → Prop
  | directory {sys : FileSystem} {location path : String} {whole : List Char} {data : Bytes}
      (hbelow : StaysBelow path)
      (hwhole : SpelledBelow location.toList (trimSlashes path) whole)
      (hread : sys.read whole = some data) : Has (.directory sys location) path data
  | memory {files : Table String Bytes} {path : String} {data : Bytes}
      (h : files.get? path = some data) : Has (.memory files) path data

/-- The bytes are those of the first of some places that has a path. -/
def FirstHas (places : List Place) (path : String) (data : Bytes) : Prop :=
  ∃ before place after, places = before ++ place :: after ∧ place.Has path data ∧
    ∀ other ∈ before, ∀ d, ¬ other.Has path d

section Places

variable {place : Place} {e : ClassPathEntry} {places : List Place} {entries : List ClassPathEntry}
  {path : String} {data : Bytes}

theorem Place.Entry.find?_eq_some_iff (h : place.Entry e) :
    e.find? path = some data ↔ place.Has path data := by
  cases h with
  | @directory sys root d h =>
    rw [ClassPathEntry.find?]
    constructor
    · intro hfind
      have hwhole := d.spelledBelow_wholePath path
      obtain ⟨hbelow, hread⟩ := (h.find?_eq_some_iff hwhole).mp hfind
      exact .directory hbelow hwhole hread
    · rintro ⟨hbelow, hwhole, hread⟩
      exact (h.find?_eq_some_iff hwhole).mpr ⟨hbelow, hread⟩
  | memory files =>
    refine ⟨fun h => .memory h, fun h => ?_⟩
    cases h with
    | memory h => exact h

theorem Place.Entry.contains_eq (h : place.Entry e) : e.contains path = (e.find? path).isSome := by
  cases h with
  | directory h => exact Directory.contains_eq_isSome_find? ..
  | memory files => rfl

/-- The first entry that has the path gives the bytes. -/
theorem findSome?_eq_some_iff_first (h : List.Forall₂ Place.Entry places entries) :
    entries.findSome? (·.find? path) = some data ↔ FirstHas places path data := by
  induction h with
  | nil =>
    refine iff_of_false nofun ?_
    rintro ⟨before, place, after, hsplit, -⟩
    exact absurd hsplit.symm (List.append_ne_nil_of_right_ne_nil _ (List.cons_ne_nil _ _))
  | @cons place e places entries hplace hplaces ih =>
    rw [List.findSome?_cons]
    cases hfind : e.find? path with
    | some d =>
      have hhas := hplace.find?_eq_some_iff.mp hfind
      constructor
      · rintro ⟨⟩
        exact ⟨[], place, places, rfl, hhas, fun _ h => absurd h List.not_mem_nil⟩
      · rintro ⟨before, first, after, hsplit, hfirst, hbefore⟩
        cases before with
        | nil =>
          obtain ⟨rfl, rfl⟩ := List.cons.inj hsplit
          exact hfind.symm.trans (hplace.find?_eq_some_iff.mpr hfirst)
        | cons other before =>
          obtain ⟨rfl, -⟩ := List.cons.inj hsplit
          exact absurd hhas (hbefore _ List.mem_cons_self d)
    | none =>
      have hnone : ∀ d, ¬ place.Has path d :=
        fun d h => nomatch hfind.symm.trans (hplace.find?_eq_some_iff.mpr h)
      rw [ih]
      constructor
      · rintro ⟨before, first, after, rfl, hfirst, hbefore⟩
        exact ⟨place :: before, first, after, rfl, hfirst,
          List.forall_mem_cons.mpr ⟨hnone, hbefore⟩⟩
      · rintro ⟨before, first, after, hsplit, hfirst, hbefore⟩
        cases before with
        | nil =>
          obtain ⟨rfl, rfl⟩ := List.cons.inj hsplit
          exact absurd hfirst (hnone data)
        | cons other before =>
          obtain ⟨rfl, rfl⟩ := List.cons.inj hsplit
          exact ⟨before, first, after, rfl, hfirst, (List.forall_mem_cons.mp hbefore).2⟩

/-- Some entry contains a path exactly where one of them has its bytes. -/
theorem any_contains_eq (h : List.Forall₂ Place.Entry places entries) :
    entries.any (·.contains path) = (entries.findSome? (·.find? path)).isSome := by
  induction h with
  | nil => rfl
  | cons hplace hplaces ih =>
    rw [List.any_cons, List.findSome?_cons, hplace.contains_eq, ih]
    split
    · next h => rw [h, Option.isSome_some, Bool.true_or]
    · next h => rw [h, Option.isSome_none, Bool.false_or]

end Places

/-- Whether there is a resource is asked of the class path alone. -/
theorem run_loaderResourceExists {W : Type} {p : Platform W} {t : ThreadId} {w : W} {m : Machine}
    {args : Arguments} {r : ObjectRef} {path : String} (hr : args.object 0 = .ok r)
    (hpath : m.stringValue r = .ok path) :
    Builtin.loaderResourceExists p t args (m, w) =
      (.ok (.boolean (p.classPath.contains path)), (m, w)) := by
  unfold Builtin.loaderResourceExists
  rw [hr]
  show (liftM (m.stringValue r) >>= _ : Exec W Value) (m, w) = _
  rw [hpath]
  rfl

/-- **Looking resources up.**  A directory finds files strictly below its folder alone, none for a path
with a part `..`, and it has a resource exactly when it finds one.  On a class path of directories and
finders, in any order, a resource exists exactly when opening it gives a number other than zero, and the
number stands for the bytes of the first place that has the path. -/
theorem resource_lookups {W : Type} {p : Platform W} {places : List Place}
    (hplaces : List.Forall₂ Place.Entry places p.classPath.entries) (path : String) :
    (∀ sys root d, Directory.Lists d sys root →
      (∀ data, d.find? path = some data → namesOf path ≠ [] ∧ (∀ s ∈ namesOf path, IsFileName s) ∧
        sys.tree.node? (root ++ namesOf path) = some (.file data)) ∧
      (['.', '.'] ∈ segments path.toList → d.find? path = none) ∧
      (d.contains path = true ↔ ∃ data, d.find? path = some data)) ∧
    ∀ (m₀ m : Machine) (events : List ResourceEvent) (t : ThreadId) (w : W) (args : Arguments)
      (r : ObjectRef), m₀.resources = {} → ResourceRun m₀ events m → openings events + 1 < 2 ^ 63 →
      args.object 0 = .ok r → m.stringValue r = .ok path →
      ∃ n m', Builtin.resourceOpen p t args (m, w) = (.ok (.long n), (m', w)) ∧
        Builtin.loaderResourceExists p t args (m, w) = (.ok (.boolean (decide (n ≠ 0))), (m, w)) ∧
        (n ≠ 0 ↔ ∃ data, FirstHas places path data) ∧
        ∀ data, FirstHas places path data → m'.Serves n data := by
  refine ⟨fun sys root d h => ⟨fun data => h.file_of_find?, h.find?_of_up, ?_⟩, ?_⟩
  · rw [Directory.contains_eq_isSome_find?, Option.isSome_iff_exists]
  · intro m₀ m events t w args r hfresh run hfew hr hpath
    have hopen := run_resourceOpen (p := p) (t := t) (w := w) hr hpath
    have hexists := run_loaderResourceExists (p := p) (t := t) (w := w) hr hpath
    have hfirst : ∀ data, p.classPath.find? path = some data ↔ FirstHas places path data :=
      fun data => findSome?_eq_some_iff_first hplaces
    have hcontains : p.classPath.contains path = (p.classPath.find? path).isSome :=
      any_contains_eq hplaces
    rw [hcontains] at hexists
    cases hfind : p.classPath.find? path with
    | none =>
      rw [hfind] at hopen hexists hfirst
      have hnone : ∀ data, ¬ FirstHas places path data := fun data h => nomatch (hfirst data).mpr h
      exact ⟨0, m, hopen, hexists, iff_of_false (absurd rfl ·) fun ⟨data, h⟩ => hnone data h,
        fun data h => absurd h (hnone data)⟩
    | some data =>
      rw [hfind] at hopen hexists hfirst
      have hpositive := run.next_ne_zero hfresh hfew
      refine ⟨_, _, hopen, ?_, iff_of_true hpositive ⟨data, (hfirst data).mp rfl⟩, fun other h => ?_⟩
      · rw [hexists, decide_eq_true hpositive]
        rfl
      · obtain rfl := Option.some.inj ((hfirst other).mpr h)
        refine serves_of_opened ?_
        rw [OpenResources.add, Table.get?_insert, if_pos rfl]

/-- A tree of finitely many places, each of which but the top stands in a folder. -/
def FileTree.ofTable (t : Table (List (List Char)) FileNode)
    (h : ∀ e ∈ t.entries, e.1 ≠ [] → t.get? e.1.dropLast = some .folder) : FileTree where
  node? := t.get?
  folder_of_child := by
    intro path name hsome
    obtain ⟨node, hnode⟩ := Option.isSome_iff_exists.mp hsome
    have hparent := h (path ++ [name], node) (Table.mem_of_get? hnode)
      (List.append_ne_nil_of_right_ne_nil _ (List.cons_ne_nil _ _))
    rwa [List.dropLast_concat] at hparent

/-- A tree with a folder `r` that holds a file `a`, and a file `b` in a folder `s`. -/
def branchTable : Table (List (List Char)) FileNode :=
  ⟨[([], .folder), ([['r']], .folder), ([['r'], ['a']], .file [0x68]), ([['r'], ['s']], .folder),
    ([['r'], ['s'], ['b']], .file [0x69])]⟩

def branchTree : FileTree := .ofTable branchTable (by decide +kernel)

/-- The tree where a path may have ten bytes, for a program that works in the folder `s`. -/
def branchSystem : FileSystem := ⟨branchTree, [['r'], ['s']], some 10⟩

/-- What is listed of the folder `r`, which stands above the folder `s`. -/
def branchDirectory : Directory := .ofFiles [("a", [0x68]), ("s/b", [0x69])] ".." (some 10)

theorem lists_branchDirectory : branchDirectory.Lists branchSystem [['r']] where
  leads := by decide +kernel
  folder := rfl
  pathLimit := rfl
  get?_iff := by
    intro names data
    constructor
    · intro h
      have hmem : (names, data) ∈ [([['a']], [0x68]), ([['s'], ['b']], [0x69])] :=
        Table.mem_of_get? h
      simp only [List.mem_cons, Prod.mk.injEq, List.not_mem_nil, or_false] at hmem
      rcases hmem with ⟨rfl, rfl⟩ | ⟨rfl, rfl⟩ <;> rfl
    · intro h
      have hnode : branchTable.get? (['r'] :: names) = some (.file data) := h
      have hmem := Table.mem_of_get? hnode
      simp only [branchTable, List.mem_cons, Prod.mk.injEq, List.cons.injEq, FileNode.file.injEq,
        reduceCtorEq, and_false, false_or, List.not_mem_nil, or_false] at hmem
      rcases hmem with ⟨⟨-, rfl⟩, rfl⟩ | ⟨⟨-, rfl⟩, rfl⟩ <;> rfl

/-- A finder, and behind it the directory. -/
def branchPlatform : Platform Unit :=
  { libraryPlatform with
    classPath := ⟨[.memory ⟨[("a", [0x6A])]⟩, .directory branchDirectory]⟩ }

/-- A machine with a string for the path of the file `b`, with slashes and a part too many. -/
def branchMachine : Machine := (Action.newString "/s/.//b" {}).2

/-- The file is opened from the directory, since the finder does not have it. -/
theorem resource_lookups_branchMachine :
    ∃ m', Builtin.resourceOpen branchPlatform (.ofNumber 1) [.ref ⟨0⟩] (branchMachine, ()) =
        (.ok (.long 1), (m', ())) ∧
      Builtin.loaderResourceExists branchPlatform (.ofNumber 1) [.ref ⟨0⟩] (branchMachine, ()) =
        (.ok (.boolean true), (branchMachine, ())) ∧ m'.Serves 1 [0x69] := by
  have hplaces : List.Forall₂ Place.Entry [.memory ⟨[("a", [0x6A])]⟩, .directory branchSystem ".."]
      branchPlatform.classPath.entries :=
    .cons (.memory _) (.cons (.directory lists_branchDirectory) .nil)
  obtain ⟨-, hopening⟩ := resource_lookups hplaces "/s/.//b"
  obtain ⟨n, m', hopen, hexists, -, hserves⟩ := hopening branchMachine branchMachine [] (.ofNumber 1) ()
    [.ref ⟨0⟩] ⟨0⟩ rfl .refl (by decide) rfl rfl
  have hn : n = 1 := by
    have h := congrArg Prod.fst hopen
    exact (Value.long.inj (Except.ok.inj h)).symm
  subst hn
  refine ⟨m', hopen, hexists, hserves _ ⟨[_], _, [], rfl, .directory ⟨?_, ?_⟩
    (branchDirectory.spelledBelow_wholePath _) ?_, ?_⟩⟩
  · decide
  · decide
  · decide +kernel
  · rintro other hother d hhas
    obtain rfl := List.mem_singleton.mp hother
    cases hhas with
    | memory h => cases h

end JavaMachine

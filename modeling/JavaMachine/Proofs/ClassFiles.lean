/-
# Class files of a class path

A text of a class file has at most as many characters as the two bytes of its length can count, so
the names in a class file are short (`ClassFile.length_le_of_superClassName?`).  A class path holds
finitely many contents of resources, and what is found on it is among them.  Together they measure
how much is left to do for a resolution (`ClassPath.need`), which gets less with every class that is
being defined.
-/
import JavaMachine.Proofs.Steps

namespace JavaMachine

/-! ## The length of decoded text -/

/-- A character takes at least one byte. -/
theorem length_le_utf8ByteSize (s : String) : s.length ≤ s.utf8ByteSize := by
  rw [← String.ofList_toList (s := s)]
  induction s.toList with
  | nil => exact Nat.zero_le _
  | cons c l ih =>
    rw [String.length_ofList] at ih ⊢
    rw [String.ofList_cons, String.utf8ByteSize_append, String.utf8ByteSize_singleton,
      List.length_cons]
    have hpos := c.utf8Size_pos
    omega

/-- Units are spelled by at least one byte each. -/
theorem length_le_of_decodeUnits? {bytes : Bytes} {units : List UInt16}
    (h : decodeUnits? bytes = some units) : units.length ≤ bytes.length := by
  fun_induction decodeUnits? bytes generalizing units with
  | case1 =>
    cases h
    exact Nat.le_refl _
  | case3 lead rest _ _ ih =>
    obtain ⟨tail, htail, rfl⟩ := Option.map_eq_some_iff.mp h
    have hrest := ih htail
    rw [List.length_cons, List.length_cons]
    omega
  | case5 lead _ _ _ _ b rest ih =>
    obtain ⟨low, _, h⟩ := Option.bind_eq_some_iff.mp h
    obtain ⟨tail, htail, h⟩ := Option.bind_eq_some_iff.mp h
    cases h
    have hrest := ih htail
    simp only [List.length_cons]
    omega
  | case7 lead _ _ _ _ _ b c rest ih =>
    obtain ⟨middle, _, h⟩ := Option.bind_eq_some_iff.mp h
    obtain ⟨low, _, h⟩ := Option.bind_eq_some_iff.mp h
    obtain ⟨tail, htail, h⟩ := Option.bind_eq_some_iff.mp h
    cases h
    have hrest := ih htail
    simp only [List.length_cons]
    omega
  | _ => cases h

/-- Characters are spelled by at least one unit each. -/
theorem length_charsOfUnits_le (units : List UInt16) :
    (charsOfUnits units).length ≤ units.length := by
  fun_induction charsOfUnits units with
  | case1 => exact Nat.le_refl _
  | case2 u => exact Nat.le_refl _
  | case3 u v rest _ _ ih =>
    simp only [List.length_cons]
    omega
  | _ u v rest _ _ ih =>
    rw [List.length_cons, List.length_cons]
    omega
/-- Text is spelled by at least one byte a character. -/
theorem length_le_of_decodeModified? {bytes : Bytes} {s : String}
    (h : decodeModified? bytes = some s) : s.length ≤ bytes.length := by
  unfold decodeModified? at h
  split at h
  · next s' hutf =>
    cases h
    unfold String.fromUTF8? at hutf
    split at hutf
    · cases hutf
      exact length_le_utf8ByteSize _
    · cases hutf
  · obtain ⟨units, hunits, rfl⟩ := Option.map_eq_some_iff.mp h
    rw [String.length_ofList]
    exact Nat.le_trans (length_charsOfUnits_le units) (length_le_of_decodeUnits? hunits)

/-! ## What readers yield -/

namespace Reader

variable {α β : Type} {r : Reader α} {f : α → Reader β} {P : α → Prop} {Q : β → Prop}

/-- Whatever a reader reads is as said. -/
def Yields (r : Reader α) (P : α → Prop) : Prop := ∀ input x rest, r input = .ok (x, rest) → P x

/-- Of any reader, nothing is known. -/
theorem yields_any (r : Reader α) : Yields r fun _ => True := fun _ _ _ _ => trivial

theorem yields_pure {x : α} (h : P x) : Yields (pure x) P := by
  rintro input y rest ⟨⟩
  exact h

theorem yields_throw (e : ClassFileError) : Yields (throw e) P := by
  rintro input y rest ⟨⟩

/-- What is known of one result may be used for the next. -/
theorem Yields.bind (hr : Yields r P) (hf : ∀ x, P x → Yields (f x) Q) : Yields (r >>= f) Q := by
  intro input y rest h
  obtain ⟨⟨x, rest'⟩, hx, hy⟩ := bind_eq_ok.mp h
  exact hf x (hr input x rest' hx) rest' y rest hy

/-- A reader that only goes on with what another one reads. -/
theorem yields_bind (hf : ∀ x, Yields (f x) Q) : Yields (r >>= f) Q :=
  (yields_any r).bind fun x _ => hf x

/-- As many bytes are read as are asked for. -/
theorem yields_bytes (n : Nat) : Yields (bytes n) fun bs => bs.length = n := by
  intro input bs rest h
  unfold bytes at h
  split at h
  · next split hsplit =>
    cases h
    exact (takeExactly?_eq_some_iff.mp hsplit).1
  · cases h

end Reader

/-! ## The texts of a class file -/

/-- A constant that is no text, or a text as short as class files can spell. -/
def Constant.Short (c : Constant) : Prop := ∀ s, c = .utf8 s → s.length ≤ Action.maxNameLength

/-- All texts of a pool are short. -/
def ConstantPool.Short (pool : ConstantPool) : Prop :=
  ∀ c, some c ∈ pool.entries.toList → c.Short

namespace Reader

/-- The length of a text has two bytes, so the text is short. -/
theorem yields_textConstant : Yields textConstant Constant.Short := by
  unfold textConstant
  refine yields_bind fun length => (yields_bytes _).bind ?_
  intro bs hbs
  split
  · next s hs =>
    refine yields_pure ?_
    rintro _ ⟨⟩
    have hlength := length_le_of_decodeModified? hs
    have hbound := length.toNat_lt
    rw [Action.maxNameLength]
    omega
  · exact yields_throw _

/-- A constant that is no text is short. -/
theorem yields_indexPair {build : UInt16 → UInt16 → Constant} (h : ∀ i j, (build i j).Short) :
    Yields (indexPair build) Constant.Short :=
  yields_bind fun i => yields_bind fun j => yields_pure (h i j)

/-- Texts are the only constants that could be long. -/
theorem yields_constantOfTag (tag : UInt8) : Yields (constantOfTag tag) Constant.Short := by
  unfold constantOfTag
  split
  · exact yields_textConstant
  all_goals first
    | exact yields_throw _
    | exact yields_indexPair fun i j s h => nomatch h
    | exact yields_bind fun i => yields_pure fun s h => nomatch h
    | exact yields_bind fun i => yields_bind fun j => yields_pure fun s h => nomatch h

/-- All constants in the places of a pool are short. -/
theorem yields_poolPlaces (n : Nat) (afterWide : Bool) :
    Yields (poolPlaces n afterWide) fun places => ∀ c, some c ∈ places → c.Short := by
  fun_induction poolPlaces n afterWide with
  | case1 => exact yields_pure fun c hc => absurd hc List.not_mem_nil
  | case2 =>
    refine yields_pure fun c hc => ?_
    rw [List.mem_singleton] at hc
    cases hc
  | case3 n ih =>
    refine ih.bind fun places hplaces => yields_pure fun c hc => ?_
    rcases List.mem_cons.mp hc with hc | hc
    · cases hc
    · exact hplaces c hc
  | case4 n ih =>
    refine (yields_bind fun tag => yields_constantOfTag tag).bind fun d hd => ?_
    refine (ih d).bind fun places hplaces => yields_pure fun c hc => ?_
    rcases List.mem_cons.mp hc with hc | hc
    · rw [Option.some.inj hc]
      exact hd
    · exact hplaces c hc

/-- A pool that is read is short. -/
theorem yields_constantPool : Yields constantPool ConstantPool.Short := by
  unfold constantPool
  refine yields_bind fun count => (yields_poolPlaces _ _).bind ?_
  intro places hplaces
  refine yields_pure fun c hc => ?_
  rcases List.mem_cons.mp hc with hc | hc
  · cases hc
  · exact hplaces c hc

/-- The pool of a class file that is read is short. -/
theorem yields_classFile : Yields classFile fun cf => cf.pool.Short := by
  unfold classFile
  refine yields_bind fun start => ?_
  dsimp only
  split
  · exact (yields_throw (P := fun _ => False) _).bind fun _ h => h.elim
  · refine yields_bind fun minorVersion => yields_bind fun majorVersion => ?_
    refine yields_constantPool.bind fun pool hpool => ?_
    refine yields_bind fun flags => yields_bind fun thisClass => yields_bind fun superClass => ?_
    refine yields_bind fun interfaces => yields_bind fun fields => yields_bind fun methods => ?_
    exact yields_bind fun attributes => yields_pure hpool

end Reader

/-- The texts of a class file are short. -/
theorem short_of_parse {bytes : Bytes} {cf : ClassFile} (h : ClassFile.parse bytes = .ok cf) :
    cf.pool.Short := by
  obtain ⟨⟨cf', rest⟩, hread, h⟩ := bind_eq_ok.mp h
  dsimp only at h
  split at h
  · cases h
    exact Reader.yields_classFile _ _ _ hread
  · cases h

namespace ConstantPool

variable {pool : ConstantPool} {index : UInt16} {s : String}

/-- A constant of a short pool is short. -/
theorem Short.get (hp : pool.Short) {c : Constant} (h : pool.get index = .ok c) : c.Short := by
  unfold ConstantPool.get at h
  split at h
  · cases h
  · split at h
    · next d hd =>
      cases h
      exact hp _ (Array.mem_toList_iff.mpr (Array.mem_of_getElem? hd))
    · cases h

/-- A text of a short pool is no longer than a name may be. -/
theorem Short.text (hp : pool.Short) (h : pool.text index = .ok s) :
    s.length ≤ Action.maxNameLength := by
  obtain ⟨c, hc, h⟩ := bind_eq_ok.mp h
  split at h
  · cases h
    exact hp.get hc s rfl
  · cases h

/-- A class name of a short pool is no longer than a name may be. -/
theorem Short.className (hp : pool.Short) (h : pool.className index = .ok s) :
    s.length ≤ Action.maxNameLength := by
  obtain ⟨c, hc, h⟩ := bind_eq_ok.mp h
  split at h
  · exact hp.text h
  · cases h

end ConstantPool

/-- What a computation gives for the items of a list is given for one of them each. -/
theorem exists_of_mem_mapM {ε α β : Type} {f : α → Except ε β} {l : List α} {l' : List β}
    (h : l.mapM f = .ok l') {b : β} (hb : b ∈ l') : ∃ a ∈ l, f a = .ok b := by
  induction l generalizing l' with
  | nil =>
    cases h
    cases hb
  | cons a l ih =>
    rw [List.mapM_cons] at h
    obtain ⟨x, hx, h⟩ := bind_eq_ok.mp h
    obtain ⟨xs, hxs, h⟩ := bind_eq_ok.mp h
    cases h
    rcases List.mem_cons.mp hb with rfl | hb
    · exact ⟨a, List.mem_cons_self, hx⟩
    · obtain ⟨a', ha', hf⟩ := ih hxs hb
      exact ⟨a', List.mem_cons_of_mem a ha', hf⟩

namespace ClassFile

variable {bytes : Bytes} {cf : ClassFile} {s : String}

/-- The name of the superclass that a class file gives is short. -/
theorem length_le_of_superClassName? (h : parse bytes = .ok cf)
    (hs : cf.superClassName? = .ok (some s)) : s.length ≤ Action.maxNameLength := by
  unfold superClassName? at hs
  split at hs
  · cases hs
  · cases hname : cf.pool.className cf.superClass with
    | error e =>
      rw [hname] at hs
      cases hs
    | ok s' =>
      rw [hname] at hs
      cases hs
      exact (short_of_parse h).className hname

/-- The names of interfaces that a class file gives are short. -/
theorem length_le_of_mem_interfaceNames {names : List String} (h : parse bytes = .ok cf)
    (hnames : cf.interfaceNames = .ok names) (hs : s ∈ names) :
    s.length ≤ Action.maxNameLength := by
  obtain ⟨index, _, hindex⟩ := exists_of_mem_mapM hnames hs
  exact (short_of_parse h).className hindex

/-- The name of the class that some bytes hold, if they hold one. -/
def nameOf? (bytes : Bytes) : Option String :=
  (parse bytes).toOption.bind fun cf => cf.className.toOption

/-- The name in some bytes is that of the file they parse to. -/
theorem nameOf?_eq_some (h : parse bytes = .ok cf) (hs : cf.className = .ok s) :
    nameOf? bytes = some s := by
  rw [nameOf?, h, Except.toOption, Option.bind_some, hs, Except.toOption]

end ClassFile

/-! ## The contents of a class path -/

/-- The bytes of all resources of a place. -/
def ClassPathEntry.contents : ClassPathEntry → List Bytes
  | directory d => d.files.entries.map Prod.snd
  | archive a => a.entries.filterMap a.contents?
  | memory files => files.entries.map Prod.snd

/-- What an entry finds is among its contents. -/
theorem ClassPathEntry.mem_contents_of_find? {e : ClassPathEntry} {p : String} {bytes : Bytes}
    (h : e.find? p = some bytes) : bytes ∈ e.contents := by
  cases e with
  | directory d =>
    obtain ⟨q, _, h⟩ := Option.bind_eq_some_iff.mp h
    split at h
    · cases h
    · exact List.mem_map_of_mem (Table.mem_of_get? h)
  | archive a =>
    obtain ⟨entry, hentry, h⟩ := Option.bind_eq_some_iff.mp h
    refine List.mem_filterMap.mpr ⟨entry, ?_, h⟩
    exact List.mem_reverse.mp (List.mem_of_find?_eq_some hentry)
  | memory files => exact List.mem_map_of_mem (Table.mem_of_get? h)

/-- The size of an entry bounds the number of its contents. -/
theorem ClassPathEntry.length_contents_le (e : ClassPathEntry) : e.contents.length ≤ e.size := by
  cases e with
  | directory d => exact Nat.le_of_eq (List.length_map _)
  | archive a => exact List.length_filterMap_le ..
  | memory files => exact Nat.le_of_eq (List.length_map _)

namespace ClassPath

/-- The bytes of all resources in all places. -/
def contents (path : ClassPath) : List Bytes := path.entries.flatMap ClassPathEntry.contents

/-- What is found on a class path is among its contents. -/
theorem mem_contents_of_find? {path : ClassPath} {p : String} {bytes : Bytes}
    (h : path.find? p = some bytes) : bytes ∈ path.contents := by
  obtain ⟨e, he, h⟩ := List.exists_of_findSome?_eq_some h
  exact List.mem_flatMap.mpr ⟨e, he, e.mem_contents_of_find? h⟩

/-- The size of a class path bounds the number of its contents. -/
theorem length_contents_le (path : ClassPath) : path.contents.length ≤ path.size := by
  unfold contents size
  induction path.entries with
  | nil => exact Nat.le_refl _
  | cons e l ih =>
    rw [List.flatMap_cons, List.length_append, List.foldr_cons]
    exact Nat.add_le_add e.length_contents_le ih

/-! ## What is left to define -/

/-- Whether some bytes hold a class whose name is not among those given. -/
def isLeft (names : List String) (bytes : Bytes) : Bool :=
  (ClassFile.nameOf? bytes).any (· ∉ names)

/-- Contents are left as long as their name is not being defined. -/
theorem isLeft_iff {names : List String} {bytes : Bytes} :
    isLeft names bytes = true ↔ ∃ name, ClassFile.nameOf? bytes = some name ∧ name ∉ names := by
  rw [isLeft, Option.any_eq_true]
  simp only [decide_eq_true_eq]

/-- The number of resources with a class whose name is not among those given. -/
def left (path : ClassPath) (names : List String) : Nat :=
  (path.contents.filter (isLeft names)).length

/-- With the definition of a class of the class path under way, fewer are left. -/
theorem left_cons_lt {path : ClassPath} {names : List String} {name : String} {bytes : Bytes}
    (hmem : bytes ∈ path.contents) (hname : ClassFile.nameOf? bytes = some name)
    (hnew : name ∉ names) : path.left (name :: names) < path.left names := by
  -- What is left with the name is part of what is left without it, and the file of the name is not.
  have hfilter : path.contents.filter (isLeft (name :: names)) =
      (path.contents.filter (isLeft names)).filter (isLeft (name :: names)) := by
    rw [List.filter_filter]
    refine List.filter_congr fun bs _ => ?_
    rw [Bool.eq_iff_iff, Bool.and_eq_true]
    refine ⟨fun h => ⟨h, ?_⟩, fun h => h.1⟩
    obtain ⟨n, hn, hnot⟩ := isLeft_iff.mp h
    exact isLeft_iff.mpr ⟨n, hn, fun hin => hnot (List.mem_cons_of_mem name hin)⟩
  rw [left, left, hfilter]
  refine List.length_filter_lt_length_iff_exists.mpr ⟨bytes, ?_, ?_⟩
  · exact List.mem_filter.mpr ⟨hmem, isLeft_iff.mpr ⟨name, hname, hnew⟩⟩
  · intro h
    obtain ⟨n, hn, hnot⟩ := isLeft_iff.mp h
    rw [hname, Option.some.injEq] at hn
    exact hnot (hn ▸ List.mem_cons_self)

/-- How much is left to do at most for a name while some definitions are under way. -/
def need (path : ClassPath) (defining : List String) (name : String) : Nat :=
  name.length + 1 + path.left defining * (Action.maxNameLength + 1)

/-- The bound on resolutions is as large as what may be left to do. -/
theorem need_le_resolutionBound (path : ClassPath) (defining : List String) (name : String) :
    path.need defining name ≤ Action.resolutionBound path name := by
  have hleft : path.left defining ≤ path.size :=
    Nat.le_trans (List.length_filter_le ..) path.length_contents_le
  exact Nat.add_le_add_left (Nat.mul_le_mul_right _ hleft) _

/-- A short name that a class of the class path gives takes less than the class. -/
theorem need_cons_lt {path : ClassPath} {names : List String} {name other : String} {bytes : Bytes}
    (hmem : bytes ∈ path.contents) (hname : ClassFile.nameOf? bytes = some name)
    (hnew : name ∉ names) (hshort : other.length ≤ Action.maxNameLength) :
    path.need (name :: names) other < path.need names name := by
  have hleft := left_cons_lt hmem hname hnew
  have hmul := Nat.mul_le_mul_right (Action.maxNameLength + 1) hleft
  rw [Nat.succ_mul] at hmul
  unfold need
  omega

end ClassPath

end JavaMachine

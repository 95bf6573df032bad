/-
# Line numbers of defined methods

The line of a place in a method is that of the greatest entry that starts at or before it, whatever
line table of the method's first code holds the entry, and wherever in the table it stands (`LineAt`).

The look-up only takes the front part of the table, up to the first entry that starts too late.  The
table was put in order when the class was defined, so nothing behind that part starts in time
(`takeWhile_eq_filter`), and the last entry in it is the greatest one.  `LineAt` says nothing about the
order of entries, so two methods with the same entries have the same lines (`LineAt.unique`).
-/
import JavaMachine.Proofs.DefinedClasses

namespace JavaMachine

/-! ## The front part of a list in order -/

section Order

variable {α : Type} {R : α → α → Prop} {p : α → Bool} {l : List α} {a : α}

/-- In a list where whatever stands before a chosen item is chosen too, the front part of chosen items
has all of them. -/
theorem takeWhile_eq_filter (hl : l.Pairwise fun a b => p b → p a) :
    l.takeWhile p = l.filter p := by
  induction l with
  | nil => rfl
  | cons a l ih =>
    rw [List.pairwise_cons] at hl
    cases ha : p a with
    | true => rw [List.takeWhile_cons_of_pos ha, List.filter_cons_of_pos ha, ih hl.2]
    | false =>
      have hnone : l.filter p = [] := by
        refine List.filter_eq_nil_iff.mpr fun b hb hpb => ?_
        rw [hl.1 b hb hpb] at ha
        cases ha
      rw [List.takeWhile_cons_of_neg (by simp [ha]), List.filter_cons_of_neg (by simp [ha]), hnone]

/-- The last of the chosen items in front is the greatest one that is chosen. -/
theorem greatest_of_getLast?_takeWhile (hl : l.Pairwise R) (hdown : ∀ a b, R a b → p b → p a)
    (h : (l.takeWhile p).getLast? = some a) : a ∈ l ∧ p a ∧ ∀ b ∈ l, p b → b = a ∨ R b a := by
  rw [takeWhile_eq_filter (hl.imp fun {a b} => hdown a b)] at h
  obtain ⟨before, hsplit⟩ := List.getLast?_eq_some_iff.mp h
  have ha : a ∈ l.filter p := hsplit ▸ List.mem_append_right _ List.mem_cons_self
  refine ⟨List.mem_of_mem_filter ha, (List.mem_filter.mp ha).2, fun b hb hpb => ?_⟩
  have hordered := hl.filter p
  have hmem : b ∈ l.filter p := List.mem_filter.mpr ⟨hb, hpb⟩
  rw [hsplit] at hordered hmem
  rcases List.mem_append.mp hmem with hbefore | hlast
  · exact .inr ((List.pairwise_append.mp hordered).2.2 b hbefore a List.mem_cons_self)
  · exact .inl (List.mem_singleton.mp hlast)

/-- Nothing is chosen where the front part is empty. -/
theorem none_of_getLast?_takeWhile (hl : l.Pairwise R) (hdown : ∀ a b, R a b → p b → p a)
    (h : (l.takeWhile p).getLast? = none) : ∀ b ∈ l, ¬ p b := by
  rw [takeWhile_eq_filter (hl.imp fun {a b} => hdown a b), List.getLast?_eq_none_iff] at h
  exact List.filter_eq_nil_iff.mp h

end Order

/-! ## Line tables -/

/-- An entry is at most another one: it starts earlier, or at the same place with no greater line. -/
def LineEntry.AtMost (d e : LineEntry) : Prop :=
  d.startPc.toNat < e.startPc.toNat ∨
    (d.startPc.toNat = e.startPc.toNat ∧ d.line.toNat ≤ e.line.toNat)

instance (d e : LineEntry) : Decidable (d.AtMost e) :=
  inferInstanceAs (Decidable (_ ∨ _))

/-- No two entries are at most each other. -/
theorem LineEntry.AtMost.antisymm {d e : LineEntry} (h : d.AtMost e) (h' : e.AtMost d) : d = e := by
  unfold AtMost at h h'
  have hstart : d.startPc = e.startPc := UInt16.toNat_inj.mp (by omega)
  have hline : d.line = e.line := UInt16.toNat_inj.mp (by omega)
  cases d
  cases e
  exact congr (congrArg LineEntry.mk hstart) hline

/-- The order of the table is the order of the entries. -/
theorem lineLe_iff (d e : LineEntry) :
    lineLe (d.startPc, d.line) (e.startPc, e.line) = true ↔ d.AtMost e := by
  simp [lineLe, LineEntry.AtMost, UInt16.lt_iff_toNat_lt, UInt16.le_iff_toNat_le,
    UInt16.toNat_inj]

/-- The order of the table is transitive. -/
theorem lineLe_trans (a b c : UInt16 × UInt16) (hab : lineLe a b = true) (hbc : lineLe b c = true) :
    lineLe a c = true := by
  have hab := (lineLe_iff ⟨a.1, a.2⟩ ⟨b.1, b.2⟩).mp hab
  have hbc := (lineLe_iff ⟨b.1, b.2⟩ ⟨c.1, c.2⟩).mp hbc
  refine (lineLe_iff ⟨a.1, a.2⟩ ⟨c.1, c.2⟩).mpr ?_
  unfold LineEntry.AtMost at *
  omega

/-- Any two entries can be compared. -/
theorem lineLe_total (a b : UInt16 × UInt16) : (lineLe a b || lineLe b a) = true := by
  rw [Bool.or_eq_true]
  refine Or.imp (lineLe_iff ⟨a.1, a.2⟩ ⟨b.1, b.2⟩).mpr (lineLe_iff ⟨b.1, b.2⟩ ⟨a.1, a.2⟩).mpr ?_
  unfold LineEntry.AtMost
  omega

/-- A table is in order. -/
theorem pairwise_lineTable (c : Code) : (lineTable c).Pairwise fun a b => lineLe a b = true :=
  List.pairwise_mergeSort lineLe_trans lineLe_total _

/-- A table has the entries of all line tables of its code. -/
theorem mem_lineTable_iff (c : Code) (e : LineEntry) :
    (e.startPc, e.line) ∈ lineTable c ↔ e ∈ c.lineEntries := by
  unfold lineTable
  rw [List.mem_mergeSort, List.mem_map]
  refine ⟨?_, fun h => ⟨e, h, rfl⟩⟩
  rintro ⟨d, hd, heq⟩
  obtain ⟨hstart, hline⟩ := Prod.mk.inj heq
  have hde : d = e := congr (congrArg LineEntry.mk hstart) hline
  exact hde ▸ hd

/-- An entry of some code is one of some table of it. -/
theorem CodeOf.mem_lineEntries_iff (c : Code) (e : LineEntry) :
    e ∈ c.lineEntries ↔ ∃ entries, .lineNumbers entries ∈ c.attributes ∧ e ∈ entries := by
  unfold CodeOf.lineEntries
  rw [List.mem_flatMap]
  constructor
  · rintro ⟨a, ha, he⟩
    cases a with
    | lineNumbers entries => exact ⟨entries, ha, he⟩
    | _ => cases he
  · rintro ⟨entries, ha, he⟩
    exact ⟨.lineNumbers entries, ha, he⟩

/-! ## Lines of a method -/

/-- An entry of one of the line tables that stand in the first code of a method. -/
def MemberInfo.HasLine (info : MemberInfo) (e : LineEntry) : Prop :=
  ∃ code, FirstOf .code info.attributes (some code) ∧
    ∃ entries, .lineNumbers entries ∈ code.attributes ∧ e ∈ entries

/-- The line that a place in a method has, from all the entries that the class file has for it. -/
inductive LineAt (info : MemberInfo) (ip : Nat) : Int → Prop
  | native (h : hasFlag info.flags nativeFlag = true) : LineAt info ip (-2)
  | unknown (h : hasFlag info.flags nativeFlag = false)
      (hlate : ∀ e, info.HasLine e → ip < e.startPc.toNat) : LineAt info ip (-1)
  | line {e : LineEntry} (h : hasFlag info.flags nativeFlag = false) (he : info.HasLine e)
      (hstart : e.startPc.toNat ≤ ip)
      (hgreatest : ∀ d, info.HasLine d → d.startPc.toNat ≤ ip → d.AtMost e) :
      LineAt info ip e.line.toNat

/-- Two methods of class files have the same lines to offer: both or neither of them are native, and
their tables hold the same entries, in whatever order and however often. -/
structure SameLines (info info' : MemberInfo) : Prop where
  native : hasFlag info.flags nativeFlag = hasFlag info'.flags nativeFlag
  entries : ∀ e, info.HasLine e ↔ info'.HasLine e

@[refl] theorem SameLines.refl (info : MemberInfo) : SameLines info info := ⟨rfl, fun _ => .rfl⟩

variable {info info' : MemberInfo} {ip : Nat} {n n' : Int} {x x' : Method}

/-- A search with a function that knows the attributes of a kind gives what the first one holds. -/
theorem findSome?_of_firstOf {β : Type} {kind : β → Attribute} {f : Attribute → Option β}
    (hf : ∀ a b, f a = some b ↔ a = kind b) {l : List Attribute} {b? : Option β}
    (h : FirstOf kind l b?) : l.findSome? f = b? := by
  have hother : ∀ l : List Attribute, (∀ b, kind b ∉ l) → ∀ a ∈ l, f a = none := by
    intro l hnone a ha
    cases hfa : f a with
    | none => rfl
    | some b => exact absurd ((hf a b).mp hfa ▸ ha) (hnone b)
  cases h with
  | none hnone => exact List.findSome?_eq_none_iff.mpr (hother l hnone)
  | @some before after b hl hfirst =>
    exact List.findSome?_eq_some_iff.mpr
      ⟨before, kind b, after, hl, (hf _ b).mpr rfl, hother before hfirst⟩

/-- The code of a method is its first code attribute. -/
theorem code?_of_firstOf {code? : Option Code} (h : FirstOf .code info.attributes code?) :
    info.code? = code? := by
  refine findSome?_of_firstOf (fun a b => ?_) h
  cases a <;> simp

/-- The lines of a method are those of its code. -/
theorem MemberInfo.hasLine_iff (info : MemberInfo) (e : LineEntry) :
    info.HasLine e ↔ ∃ code, info.code? = some code ∧ e ∈ code.lineEntries := by
  constructor
  · rintro ⟨code, hcode, he⟩
    exact ⟨code, code?_of_firstOf hcode, (code.mem_lineEntries_iff e).mpr he⟩
  · rintro ⟨code, hcode, he⟩
    exact ⟨code, hcode ▸ firstOf_code? info, (code.mem_lineEntries_iff e).mp he⟩

/-- The greatest entry that has begun gives the line. -/
theorem LineAt.of_lineEntries {code : Code} {e : LineEntry}
    (h : hasFlag info.flags nativeFlag = false) (hcode : info.code? = some code)
    (he : e ∈ code.lineEntries) (hstart : e.startPc.toNat ≤ ip)
    (hgreatest : ∀ d ∈ code.lineEntries, d.startPc.toNat ≤ ip → d.AtMost e) :
    LineAt info ip e.line.toNat := by
  refine .line h ((info.hasLine_iff e).mpr ⟨code, hcode, he⟩) hstart fun d hd hle => ?_
  obtain ⟨code', hcode', hd⟩ := (info.hasLine_iff d).mp hd
  obtain rfl := Option.some.inj (hcode.symm.trans hcode')
  exact hgreatest d hd hle

/-- In front of all entries there is no line. -/
theorem LineAt.of_late {code : Code} (h : hasFlag info.flags nativeFlag = false)
    (hcode : info.code? = some code) (hlate : ∀ e ∈ code.lineEntries, ip < e.startPc.toNat) :
    LineAt info ip (-1) := by
  refine .unknown h fun e he => ?_
  obtain ⟨code', hcode', he⟩ := (info.hasLine_iff e).mp he
  obtain rfl := Option.some.inj (hcode.symm.trans hcode')
  exact hlate e he

/-- The line at a place is a matter of what the tables hold, not of how they are arranged. -/
theorem LineAt.unique (h : LineAt info ip n) (h' : LineAt info' ip n') (hsame : SameLines info info') :
    n = n' := by
  have hnative := hsame.native
  cases h with
  | native h =>
    cases h' with
    | native => rfl
    | unknown hn | line hn => exact nomatch h.symm.trans (hnative.trans hn)
  | unknown h hlate =>
    cases h' with
    | native hn => exact nomatch h.symm.trans (hnative.trans hn)
    | unknown => rfl
    | line _ he hstart => exact absurd (hlate _ ((hsame.entries _).mpr he)) (by omega)
  | line h he hstart hgreatest =>
    cases h' with
    | native hn => exact nomatch h.symm.trans (hnative.trans hn)
    | unknown _ hlate => exact absurd (hlate _ ((hsame.entries _).mp he)) (by omega)
    | line _ he' hstart' hgreatest' =>
      have hle := hgreatest _ ((hsame.entries _).mpr he') hstart'
      have hge := hgreatest' _ ((hsame.entries _).mp he) hstart
      rw [hge.antisymm hle]

/-- A method that keeps a line table of its own file has the lines that the file says. -/
theorem lineAt_of_lines (hflags : x.flags = info.flags)
    (hordered : x.lines.Pairwise fun a b => lineLe a b = true)
    (hlines : ∀ e : LineEntry, (e.startPc, e.line) ∈ x.lines ↔ info.HasLine e) (ip : Nat) :
    LineAt info ip (x.lineAt ip) := by
  -- An entry starts in time if a greater one does.
  have hdown : ∀ a b : UInt16 × UInt16, lineLe a b = true → decide (b.1.toNat ≤ ip) = true →
      decide (a.1.toNat ≤ ip) = true := by
    intro a b hab hb
    have hab := (lineLe_iff ⟨a.1, a.2⟩ ⟨b.1, b.2⟩).mp hab
    unfold LineEntry.AtMost at hab
    rw [decide_eq_true_eq] at hb ⊢
    dsimp only at hab
    omega
  unfold Method.lineAt Method.isNative
  rw [hflags]
  split
  · next hnative => exact .native hnative
  · next hnative =>
    have hnative := Bool.eq_false_iff.mpr hnative
    split
    · next start line hlast =>
      obtain ⟨hmem, hstart, hgreatest⟩ := greatest_of_getLast?_takeWhile hordered hdown hlast
      refine .line (e := ⟨start, line⟩) hnative ((hlines ⟨start, line⟩).mp hmem)
        (of_decide_eq_true hstart) fun d hd hle => ?_
      rcases hgreatest _ ((hlines d).mpr hd) (decide_eq_true hle) with heq | hlt
      · obtain ⟨rfl, rfl⟩ := Prod.mk.inj heq
        exact .inr ⟨rfl, Nat.le_refl _⟩
      · exact (lineLe_iff d ⟨start, line⟩).mp hlt
    · next hlast =>
      refine .unknown hnative fun e he => ?_
      have hlate := none_of_getLast?_takeWhile hordered hdown hlast _ ((hlines e).mpr he)
      rw [decide_eq_true_eq] at hlate
      exact Nat.lt_of_not_le hlate

/-- A method that is read from a class file has the lines that the file says. -/
theorem lineAt_of_methodOf {pool : ConstantPool} {owner : ClassId}
    (h : methodOf pool owner info = .ok x) (ip : Nat) : LineAt info ip (x.lineAt ip) := by
  unfold methodOf at h
  obtain ⟨name, -, h⟩ := bind_eq_ok.mp h
  obtain ⟨descriptor, -, h⟩ := bind_eq_ok.mp h
  split at h
  · cases h
  · next y hy =>
    obtain ⟨type, -, rfl⟩ := Option.map_eq_some_iff.mp hy
    split at h
    · next hnone =>
      cases h
      refine lineAt_of_lines rfl .nil (fun e => ?_) ip
      rw [info.hasLine_iff, hnone]
      refine iff_of_false List.not_mem_nil ?_
      rintro ⟨_, hcode, _⟩
      cases hcode
    · next code hcode =>
      cases h
      refine lineAt_of_lines rfl (pairwise_lineTable code) (fun e => ?_) ip
      rw [mem_lineTable_iff, info.hasLine_iff, hcode]
      simp

/-! ## Methods of defined classes -/

namespace Action

open Machine (Interns)

variable {path : ClassPath} {cf : ClassFile} {name : String} {superclass : Option ClassId}
  {interfaces : List ClassId} {cls : Class} {m m' : Machine}

/-- The methods of a class are read from its file, one by one. -/
theorem methods_of_readMembers
    (h : readMembers cf name superclass interfaces m = (.ok cls, m')) :
    List.Forall₂ (fun info x => methodOf cf.pool m.classes.nextId info = .ok x)
      cf.methods cls.methods := by
  unfold readMembers at h
  rw [run_get_bind] at h
  obtain ⟨plan, m₁, -, h⟩ := run_bind_eq_ok.mp h
  obtain ⟨methods, m₂, hmethods, h⟩ := run_bind_eq_ok.mp h
  have hread : Takes Interns m₁ _ fun methods _ =>
      List.Forall₂ (fun info x => methodOf cf.pool m.classes.nextId info = .ok x)
        cf.methods methods :=
    takes_mapM_forall₂ (P := fun info x _ => methodOf cf.pool m.classes.nextId info = .ok x)
      cf.methods (fun _ _ _ _ _ hx => hx) fun info m' => takes_liftThrowable fun x hx => hx
  have hall := (hread.of_eq hmethods).2
  rw [run_liftThrowable_bind] at h
  split at h
  · cases h
    exact hall
  · cases h

/-- The methods of a class that was defined are those of its file. -/
theorem methods_of_define {bytes : Bytes} {expected : Option String} {c : ClassId}
    (h : define (resolve path) bytes expected m = (.ok c, m')) :
    ∃ cf cls owner, ClassFile.parse bytes = .ok cf ∧ m'.classes.get? c = some cls ∧
      List.Forall₂ (fun info x => methodOf cf.pool owner info = .ok x) cf.methods cls.methods := by
  have hres : ∀ n m, Takes (Machine.Adds fun _ _ => True) m (resolve path n) fun c m' =>
      m'.classes.Named n c := fun n m => adds_resolve (fun _ _ _ => trivial) n
  obtain ⟨-, cf, cls, m₂, hparse, -, -, hread, -, rfl, rfl⟩ := (adds_define_read hres).of_eq h
  obtain ⟨_, _, _, _, m₁, -, -, -, -, hmembers⟩ := readClass_eq_ok hread
  exact ⟨cf, cls, m₁.classes.nextId, hparse, ClassTable.get?_push_nextId ..,
    methods_of_readMembers hmembers⟩

end Action

open JavaMachine.Action (define resolve)

/-- A method that the definition of some class, on some machine, made from its part of the file. -/
def DefinedFrom (info : MemberInfo) (x : Method) : Prop :=
  ∃ (path : ClassPath) (bytes : Bytes) (expected : Option String) (m m' : Machine) (c : ClassId)
    (cf : ClassFile) (cls : Class),
    define (resolve path) bytes expected m = (.ok c, m') ∧ ClassFile.parse bytes = .ok cf ∧
      m'.classes.get? c = some cls ∧ (info, x) ∈ cf.methods.zip cls.methods

/-- What the method tells is the line of the file. -/
theorem DefinedFrom.lineAt (h : DefinedFrom info x) (ip : Nat) : LineAt info ip (x.lineAt ip) := by
  obtain ⟨path, bytes, expected, m, m', c, cf, cls, hdefine, hparse, hclass, hmem⟩ := h
  obtain ⟨cf', cls', owner, hparse', hclass', hmethods⟩ := Action.methods_of_define hdefine
  obtain rfl := Except.ok.inj (hparse.symm.trans hparse')
  obtain rfl := Option.some.inj (hclass.symm.trans hclass')
  exact lineAt_of_methodOf (List.forall₂_zip hmethods hmem) ip

/-- **The lines of a defined class.**  Whatever bytes a definition succeeds for, each method that the
file describes has, at each place, the line of the greatest entry that starts there or before.  A method
of any class that is described by the same entries, in another order or in other tables, has the same
lines. -/
theorem lines_of_definition {path : ClassPath} {bytes : Bytes} {expected : Option String}
    {m m' : Machine} {c : ClassId} (h : define (resolve path) bytes expected m = (.ok c, m')) :
    ∃ cf cls, ClassFile.parse bytes = .ok cf ∧ m'.classes.get? c = some cls ∧
      List.Forall₂ (fun info x => ∀ ip, LineAt info ip (x.lineAt ip) ∧
        ∀ info' x', DefinedFrom info' x' → SameLines info info' → x'.lineAt ip = x.lineAt ip)
        cf.methods cls.methods := by
  obtain ⟨cf, cls, owner, hparse, hclass, hmethods⟩ := Action.methods_of_define h
  refine ⟨cf, cls, hparse, hclass, hmethods.imp fun info x hx ip => ?_⟩
  have hline := lineAt_of_methodOf hx ip
  exact ⟨hline, fun info' x' hdefined hsame => ((hline.unique (hdefined.lineAt ip) hsame)).symm⟩

/-- A class `D` with a method whose entries are scattered over two tables, out of order and one of them
twice, and with a native method that has code with a table. -/
def scatteredFile : Bytes := [
    0xCA, 0xFE, 0xBA, 0xBE, 0x00, 0x00, 0x00, 0x34, 0x00, 0x08, 0x01, 0x00, 0x01, 0x44, 0x07,
    0x00, 0x01, 0x01, 0x00, 0x01, 0x66, 0x01, 0x00, 0x01, 0x67, 0x01, 0x00, 0x03, 0x28, 0x29,
    0x56, 0x01, 0x00, 0x04, 0x43, 0x6F, 0x64, 0x65, 0x01, 0x00, 0x0F, 0x4C, 0x69, 0x6E, 0x65,
    0x4E, 0x75, 0x6D, 0x62, 0x65, 0x72, 0x54, 0x61, 0x62, 0x6C, 0x65, 0x00, 0x01, 0x00, 0x02,
    0x00, 0x00, 0x00, 0x00, 0x00, 0x00, 0x00, 0x02, 0x00, 0x01, 0x00, 0x03, 0x00, 0x05, 0x00,
    0x01, 0x00, 0x06, 0x00, 0x00, 0x00, 0x31, 0x00, 0x00, 0x00, 0x01, 0x00, 0x00, 0x00, 0x01,
    0xB1, 0x00, 0x00, 0x00, 0x02, 0x00, 0x07, 0x00, 0x00, 0x00, 0x0A, 0x00, 0x02, 0x00, 0x04,
    0x00, 0x0B, 0x00, 0x02, 0x00, 0x0A, 0x00, 0x07, 0x00, 0x00, 0x00, 0x0E, 0x00, 0x03, 0x00,
    0x04, 0x00, 0x0C, 0x00, 0x09, 0x00, 0x14, 0x00, 0x04, 0x00, 0x0B, 0x01, 0x01, 0x00, 0x04,
    0x00, 0x05, 0x00, 0x01, 0x00, 0x06, 0x00, 0x00, 0x00, 0x1D, 0x00, 0x00, 0x00, 0x01, 0x00,
    0x00, 0x00, 0x01, 0xB1, 0x00, 0x00, 0x00, 0x01, 0x00, 0x07, 0x00, 0x00, 0x00, 0x0A, 0x00,
    0x02, 0x00, 0x04, 0x00, 0x0B, 0x00, 0x02, 0x00, 0x0A, 0x00, 0x00]

/-- The lines of the method are in order all the same, and the native one has none. -/
theorem lines_of_definition_scatteredFile :
    ∃ c m' cls x y, define (resolve {}) scatteredFile none {} = (.ok c, m') ∧
      m'.classes.get? c = some cls ∧ cls.methods = [x, y] ∧ x.lineAt 1 = -1 ∧ x.lineAt 3 = 10 ∧
      x.lineAt 8 = 12 ∧ x.lineAt 100 = 20 ∧ y.lineAt 8 = -2 := by
  have hfile : (ClassFile.parse scatteredFile).toOption.map (fun cf => cf.methods.map fun info =>
      (hasFlag info.flags nativeFlag, info.code?.map CodeOf.lineEntries)) =
      some [(false, some [⟨4, 11⟩, ⟨2, 10⟩, ⟨4, 12⟩, ⟨9, 20⟩, ⟨4, 11⟩]),
        (true, some [⟨4, 11⟩, ⟨2, 10⟩])] := by decide +kernel
  have hdefined : (define (resolve {}) scatteredFile none {}).1.toOption.isSome = true := by
    decide +kernel
  rcases hrun : define (resolve {}) scatteredFile none {} with ⟨e | c, m'⟩
  · rw [hrun] at hdefined
    cases hdefined
  · obtain ⟨cf, cls, hparse, hclass, hlines⟩ := lines_of_definition hrun
    rw [hparse] at hfile
    obtain ⟨info, rest, hcf, hinfo, hrest⟩ := List.map_eq_cons_iff.mp (Option.some.inj hfile)
    obtain ⟨info', hcf', hinfo'⟩ := List.map_eq_singleton_iff.mp hrest
    rw [hcf, hcf'] at hlines
    obtain ⟨x, ys, hx, hys, hmethods⟩ := List.forall₂_cons_left_iff.mp hlines
    obtain ⟨y, zs, hy, hzs, rfl⟩ := List.forall₂_cons_left_iff.mp hys
    obtain rfl := List.forall₂_nil_left_iff.mp hzs
    obtain ⟨hplain, hcode⟩ := Prod.mk.inj hinfo
    obtain ⟨code, hcode, hentries⟩ := Option.map_eq_some_iff.mp hcode
    have hnative := (Prod.mk.inj hinfo').1
    -- What stands in the tables decides the line at each place.
    have hat : ∀ ip, ∀ e ∈ code.lineEntries, e.startPc.toNat ≤ ip →
        (∀ d ∈ code.lineEntries, d.startPc.toNat ≤ ip → d.AtMost e) →
        x.lineAt ip = e.line.toNat := fun ip e he hstart hgreatest =>
      (hx ip).1.unique (.of_lineEntries hplain hcode he hstart hgreatest) (.refl info)
    rw [hentries] at hat
    refine ⟨c, m', cls, x, y, rfl, hclass, hmethods, ?_, ?_, ?_, ?_, ?_⟩
    · refine (hx 1).1.unique (.of_late hplain hcode ?_) (.refl info)
      rw [hentries]
      decide
    · exact hat 3 ⟨2, 10⟩ (by decide) (by decide) (by decide)
    · exact hat 8 ⟨4, 12⟩ (by decide) (by decide) (by decide)
    · exact hat 100 ⟨9, 20⟩ (by decide) (by decide) (by decide)
    · exact (hy 8).1.unique (.native hnative) (.refl info')

end JavaMachine

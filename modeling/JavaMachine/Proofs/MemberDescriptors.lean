/-
# The descriptors of the members of a class

A definition checks the descriptors of its methods and fields in two ways.  That of a method is read
as a whole, so the methods of a class have descriptors that fall into the types of parameters and a
result.  Of that of a field only the first letter is read, for the kind of the field.  What stands
behind that letter is never looked at: any text that begins with the letter of a kind is the
descriptor of a field of some class (`descriptors_of_definition`).
-/
import JavaMachine.Proofs.ClassFileSpelling
import JavaMachine.Proofs.DefinedClasses
import JavaMachine.Proofs.DescriptorScan

namespace JavaMachine

variable {m m' : Machine} {path : ClassPath} {bytes : Bytes} {expected : Option String} {c : ClassId}

/-! ## Descriptors of a defined class -/

/-- The kind of a field is the one that the first byte of its descriptor announces. -/
theorem fieldTag_eq_ok {d : String} {t : Tag} :
    fieldTag d = .ok t ↔ firstTag (utf8Bytes d.toList) = some t := by
  rw [firstTag_utf8Bytes, fieldTag]
  cases d.toList.head?.bind Tag.ofLetter? <;> simp

/-- The members of a class have the descriptors of its file.  Those of fields begin with the letters of
their kinds, and those of methods fall into pieces. -/
structure DescriptorsChecked (cf : ClassFile) (cls : Class) : Prop where
  fields : List.Forall₂ (fun f info => cf.pool.text info.descriptor = .ok f.descriptor)
    cls.fields cf.fields
  methods : List.Forall₂ (fun x info => cf.pool.text info.descriptor = .ok x.descriptor)
    cls.methods cf.methods
  kinds : ∀ f ∈ cls.fields, firstTag (utf8Bytes f.descriptor.toList) = some f.tag
  pieces : ∀ x ∈ cls.methods, ∃ params result,
    MethodPieces (utf8Bytes x.descriptor.toList) params result

namespace Action

/-- A class that was defined has descriptors that were checked. -/
theorem descriptorsChecked_of_define (h : define (resolve path) bytes expected m = (.ok c, m')) :
    ∃ cf cls, ClassFile.parse bytes = .ok cf ∧ m'.classes.get? c = some cls ∧
      DescriptorsChecked cf cls := by
  have hres : ∀ n m, Takes (Machine.Adds fun _ _ => True) m (resolve path n) fun c m' =>
      m'.classes.Named n c := fun n m => adds_resolve (fun _ _ _ => trivial) n
  obtain ⟨-, cf, cls, m₂, hparse, -, -, hread, -, rfl, rfl⟩ := (adds_define_read hres).of_eq h
  obtain ⟨_, _, _, _, _, -, -, -, -, hmembers⟩ := readClass_eq_ok hread
  obtain ⟨-, hmembers⟩ := (interns_readMembers ..).of_eq hmembers
  have hfields : List.Forall₂ (fun f info =>
      firstTag (utf8Bytes f.descriptor.toList) = some f.tag ∧
        cf.pool.text info.descriptor = .ok f.descriptor) cls.fields cf.fields :=
    (hmembers.fields.imp fun _ _ hf => ⟨fieldTag_eq_ok.mp hf.tag, hf.descriptor⟩).flip
  have hmethods : List.Forall₂ (fun x info =>
      (∃ params result, MethodPieces (utf8Bytes x.descriptor.toList) params result) ∧
        cf.pool.text info.descriptor = .ok x.descriptor) cls.methods cf.methods := by
    refine (hmembers.methods.imp fun info x hx => ?_).flip
    obtain ⟨type, htype, -⟩ := hx.signature
    exact ⟨⟨_, _, methodPieces_of_parse? htype⟩, hx.descriptor⟩
  obtain ⟨hkinds, hfields⟩ := (List.forall₂_and_left _ _).mp hfields
  obtain ⟨hpieces, hmethods⟩ := (List.forall₂_and_left _ _).mp hmethods
  exact ⟨cf, cls, hparse, ClassTable.get?_push_nextId .., hfields, hmethods, hkinds, hpieces⟩

end Action

/-- The fields of a class have field descriptors exactly when each descriptor in its file ends where the
type in front of it does. -/
theorem DescriptorsChecked.fieldTypes_iff {cf : ClassFile} {cls : Class}
    (h : DescriptorsChecked cf cls) :
    (∀ f ∈ cls.fields, IsFieldType (utf8Bytes f.descriptor.toList)) ↔
      ∀ info ∈ cf.fields, ∀ d, cf.pool.text info.descriptor = .ok d →
        typeLength (utf8Bytes d.toList) = .ok (utf8Bytes d.toList).length := by
  have hfields := h.fields
  generalize cls.fields = fields, cf.fields = infos at hfields ⊢
  induction hfields with
  | nil => simp
  | cons hdescriptor _ ih =>
    rw [List.forall_mem_cons, List.forall_mem_cons]
    refine and_congr ?_ ih
    rw [isFieldType_utf8Bytes_iff, hdescriptor]
    simp

/-! ## A class with any field -/

/-- A class `A` below no other, with one field of a descriptor. -/
def fieldFile (descriptor : String) : ClassFile where
  minorVersion := 0
  majorVersion := 52
  pool := ⟨#[none, some (.utf8 "A"), some (.classRef 1), some (.utf8 "x"),
    some (.utf8 descriptor)]⟩
  flags := 1
  thisClass := 2
  superClass := 0
  interfaces := []
  fields := [{ flags := 0, name := 3, descriptor := 4, attributes := [] }]
  methods := []
  attributes := []

/-- The file with one field can be written, whatever fits for a descriptor. -/
theorem fieldFile_encodable {d : String} (hfits : (encodeModified d).length < 2 ^ 16) :
    (fieldFile d).Encodable where
  pool :=
    { size_lt := by
        show 5 < 2 ^ 16
        decide
      first := rfl
      empty_iff := by
        intro i hi
        have hi : i < 5 := hi
        rcases i with _ | _ | _ | _ | _ | i
        all_goals first | omega | simp [fieldFile, ConstantPool.wideAt, Constant.isWide]
      fits := by
        intro c hc
        have hc : c = .utf8 "A" ∨ c = .classRef 1 ∨ c = .utf8 "x" ∨ c = .utf8 d := by
          simpa [fieldFile] using hc
        rcases hc with rfl | rfl | rfl | rfl
        · decide +kernel
        · trivial
        · decide +kernel
        · exact hfits }
  interfaces_lt := Nat.two_pow_pos 16
  fields_lt := by
    show 1 < 2 ^ 16
    decide
  methods_lt := Nat.two_pow_pos 16
  attributes_lt := Nat.two_pow_pos 16
  fields := List.forall_mem_singleton.mpr ⟨Nat.two_pow_pos 16, by simp⟩
  methods := by simp [fieldFile]
  attributes := by simp [fieldFile]

theorem text_fieldFile (d : String) : (fieldFile d).pool.text 4 = .ok d := rfl

/-- The file with one field can be defined where its descriptor is taken. -/
theorem fieldFile_definable {d : String} {t : Tag} (h : fieldTag d = .ok t) :
    (fieldFile d).Definable where
  described :=
    { superClassName := rfl
      interfaceNames := rfl
      plain := nofun
      fields := by
        refine List.forall_mem_singleton.mpr ?_
        have ht : MemberInfo.tag? ⟨0, 3, 4, []⟩ (fieldFile d).pool = some t := by
          rw [MemberInfo.tag?, text_fieldFile]
          simp [Except.toOption, h]
        rw [MemberInfo.isField, ht]
        rfl
      methods := nofun }
  spelled :=
    { members := List.forall_mem_singleton.mpr rfl
      sourceFile := rfl }

/-- Where its name is new, the class of the file is defined, whatever stands behind the first letter of
the descriptor. -/
theorem defineClass_fieldFile {d : String} {t : Tag} (hfits : (encodeModified d).length < 2 ^ 16)
    (ht : firstTag (utf8Bytes d.toList) = some t) :
    ∃ bytes, ∀ (path : ClassPath) (m : Machine), m.classes.find? "A" = none → "A" ∉ m.defining →
      ∃ c m' cls f, Action.defineClass path bytes m = (.ok c, m') ∧
        m'.classes.get? c = some cls ∧ cls.fields = [f] ∧ f.descriptor = d ∧ f.tag = t := by
  have hencodable := fieldFile_encodable hfits
  obtain ⟨bytes, hspelled⟩ := hencodable.exists_spelling
  have hparse := hencodable.parse_eq hspelled
  refine ⟨bytes, fun path m hnew hidle => ?_⟩
  have hbuild : Action.build (Action.resolve path) (fieldFile d) "A" =
      Action.assemble (fieldFile d) "A" none [] := rfl
  obtain ⟨_, m₁, hrun, -⟩ := Action.run_assemble (m := m.entering "A")
    (fieldFile_definable (fieldTag_eq_ok.mpr ht)) hnew none []
  have hname : (fieldFile d).className = .ok "A" := rfl
  have hdefine : Action.defineClass path bytes m =
      (.ok (m.entering "A").classes.nextId, m₁.leaving "A") := by
    rw [Action.run_defineClass hparse hname, hnew, if_neg nofun, Action.run_whileDefining,
      if_neg hidle, hbuild, hrun]
  obtain ⟨cf, cls, hcf, hclass, hchecked⟩ := Action.descriptorsChecked_of_define hdefine
  obtain rfl : cf = fieldFile d := Except.ok.inj (hcf.symm.trans hparse)
  obtain ⟨f, l, hf, hl, hfields⟩ := List.forall₂_cons_right_iff.mp hchecked.fields
  rw [List.forall₂_nil_right_iff] at hl
  subst hl
  have hdescriptor : f.descriptor = d := Except.ok.inj hf.symm
  have hkind := hchecked.kinds f (by rw [hfields]; exact List.mem_cons_self)
  rw [hdescriptor, ht] at hkind
  exact ⟨_, _, cls, f, hdefine, hclass, hfields, hdescriptor, (Option.some.inj hkind).symm⟩

/-! ## What a definition asks of descriptors -/

open JavaMachine.Action in
/-- **Descriptors at a definition.**  A class that is defined has the descriptors of its file.  Those of
its methods are method descriptors, and those of its fields begin with the letters of their kinds.  They
are field descriptors exactly when the file has no field whose descriptor goes on behind a type, or ends
within one.  A definition does not see to that: for every text that begins with the letter of a kind,
unless it is too long for a constant, there is a file that defines a class with a field of that
descriptor, on every machine where the name of the class is new. -/
theorem descriptors_of_definition (path : ClassPath) :
    (∀ (bytes : Bytes) (expected : Option String) (m m' : Machine) (c : ClassId),
      define (resolve path) bytes expected m = (.ok c, m') →
      ∃ cf cls, ClassFile.parse bytes = .ok cf ∧ m'.classes.get? c = some cls ∧
        DescriptorsChecked cf cls ∧
        ((∀ f ∈ cls.fields, IsFieldType (utf8Bytes f.descriptor.toList)) ↔
          ∀ info ∈ cf.fields, ∀ d, cf.pool.text info.descriptor = .ok d →
            typeLength (utf8Bytes d.toList) = .ok (utf8Bytes d.toList).length)) ∧
    ∀ (d : String) (t : Tag), firstTag (utf8Bytes d.toList) = some t →
      (encodeModified d).length < 2 ^ 16 →
      ∃ bytes, ∀ m : Machine, m.classes.find? "A" = none → "A" ∉ m.defining →
        ∃ c m' cls f, defineClass path bytes m = (.ok c, m') ∧ m'.classes.get? c = some cls ∧
          cls.fields = [f] ∧ f.descriptor = d ∧ f.tag = t := by
  refine ⟨fun bytes expected m m' c h => ?_, fun d t ht hfits => ?_⟩
  · obtain ⟨cf, cls, hparse, hclass, hchecked⟩ := descriptorsChecked_of_define h
    exact ⟨cf, cls, hparse, hclass, hchecked, hchecked.fieldTypes_iff⟩
  · obtain ⟨bytes, hbytes⟩ := defineClass_fieldFile hfits ht
    exact ⟨bytes, hbytes path⟩

/-- A class `A` with a field whose descriptor goes on behind the type `I`, and a method. -/
def looseFile : Bytes := [
  0xCA, 0xFE, 0xBA, 0xBE, 0x00, 0x00, 0x00, 0x34, 0x00, 0x07, 0x01, 0x00, 0x01, 0x41, 0x07, 0x00,
  0x01, 0x01, 0x00, 0x01, 0x78, 0x01, 0x00, 0x02, 0x49, 0x56, 0x01, 0x00, 0x01, 0x66, 0x01, 0x00,
  0x04, 0x28, 0x4A, 0x29, 0x49, 0x00, 0x01, 0x00, 0x02, 0x00, 0x00, 0x00, 0x00, 0x00, 0x01, 0x00,
  0x02, 0x00, 0x03, 0x00, 0x04, 0x00, 0x00, 0x00, 0x01, 0x01, 0x00, 0x00, 0x05, 0x00, 0x06, 0x00,
  0x00, 0x00, 0x00]

/-- The fields and methods of the class that a definition leaves, by their descriptors. -/
def descriptorsOf (r : Except Stop ClassId × Machine) : Option (List String × List String) :=
  r.1.toOption.bind fun c => (r.2.classes.get? c).map fun cls =>
    (cls.fields.map (·.descriptor), cls.methods.map (·.descriptor))

theorem not_isFieldType_loose : ¬ IsFieldType (utf8Bytes "IV".toList) := by
  rw [isFieldType_utf8Bytes_iff, typeLength_eq_length_iff]
  have hleft : FieldType.parse? "IV".toList = some (.primitive .int, ['V']) := by decide
  rw [hleft]
  rintro ⟨t, ⟨⟩⟩

/-- The class is defined, with the descriptor of its field as it is. -/
theorem loose_field_defined :
    descriptorsOf (Action.defineClass ⟨[]⟩ looseFile {}) = some (["IV"], ["(J)I"]) ∧
      ¬ IsFieldType (utf8Bytes "IV".toList) :=
  ⟨by decide +kernel, not_isFieldType_loose⟩

/-- What was checked of the class with the loose field, whose file has a descriptor that goes on behind a
type.  Another class gets a field whose class name never ends. -/
theorem descriptors_of_definition_looseFile :
    (∃ c m' cf cls, Action.define (Action.resolve ⟨[]⟩) looseFile none {} = (.ok c, m') ∧
      ClassFile.parse looseFile = .ok cf ∧ DescriptorsChecked cf cls ∧
      cls.fields.map (·.descriptor) = ["IV"] ∧ cls.methods.map (·.descriptor) = ["(J)I"] ∧
      ¬ ∀ info ∈ cf.fields, ∀ d, cf.pool.text info.descriptor = .ok d →
        typeLength (utf8Bytes d.toList) = .ok (utf8Bytes d.toList).length) ∧
    ∃ bytes c m' cls f, Action.defineClass ⟨[]⟩ bytes {} = (.ok c, m') ∧
      m'.classes.get? c = some cls ∧ cls.fields = [f] ∧ f.descriptor = "La" ∧
      f.tag = .reference := by
  obtain ⟨hchecks, hadmits⟩ := descriptors_of_definition ⟨[]⟩
  refine ⟨?_, ?_⟩
  · have hread : descriptorsOf (Action.define (Action.resolve ⟨[]⟩) looseFile none {}) =
        some (["IV"], ["(J)I"]) := by decide +kernel
    rcases hrun : Action.define (Action.resolve ⟨[]⟩) looseFile none {} with ⟨e | c, m'⟩
    · rw [hrun] at hread
      cases hread
    · obtain ⟨cf, cls, hparse, hclass, hchecked, hmet⟩ := hchecks _ _ _ _ _ hrun
      rw [hrun] at hread
      simp only [descriptorsOf, Except.toOption, Option.bind_some, hclass, Option.map_some,
        Option.some.injEq, Prod.mk.injEq] at hread
      refine ⟨c, m', cf, cls, rfl, hparse, hchecked, hread.1, hread.2, ?_⟩
      rw [← hmet]
      intro hall
      obtain ⟨f, hf, hdescriptor⟩ : ∃ f ∈ cls.fields, f.descriptor = "IV" := by
        rw [← List.mem_map, hread.1]
        exact List.mem_cons_self
      have hloose := hall f hf
      rw [hdescriptor] at hloose
      exact not_isFieldType_loose hloose
  · obtain ⟨bytes, hbytes⟩ := hadmits "La" .reference (by decide) (by decide +kernel)
    exact ⟨bytes, hbytes {} (by decide +kernel) List.not_mem_nil⟩

end JavaMachine

/-
# Array classes

The array class over a class is looked for by its name, which is made from the component
(`arrayShape?`).  Reading the name gives the component back (`componentName?_of_arrayShape?`), so no
two classes have array classes of the same name, and what is found under the name is the array class
over the component, unless a file defined an ordinary class of that name (`ClassTable.Taken`).
Whichever it is, the same class is found ever after.
-/
import JavaMachine.Proofs.Operations

namespace JavaMachine

/-! ## The names of array classes -/

theorem toList_bracket (name : String) : ("[" ++ name).toList = '[' :: name.toList := by
  rw [String.toList_append]
  rfl

theorem toList_object (name : String) :
    ("[L" ++ name ++ ";").toList = '[' :: 'L' :: (name.toList ++ [';']) := by
  rw [String.toList_append, String.toList_append]
  rfl

namespace Class

/-- The kind that a value of a class is stored as. -/
def storedAs (c : Class) : Tag :=
  match c.kind with
  | .primitive (some p) => .primitive p
  | _ => .reference

/-- The component that the name of the array class over a class spells. -/
def componentName? (c : Class) : Option Action.ComponentName :=
  match c.kind with
  | .primitive p => p.map .primitive
  | _ => some (.named c.name)

end Class

/-- There is an array class over every class but `void`, and its elements are stored as values of
the class are. -/
theorem exists_arrayShape? {c : Class} (h : c.kind ≠ .primitive none) :
    ∃ name, arrayShape? c = some (name, c.storedAs) := by
  unfold arrayShape? Class.storedAs
  rcases hk : c.kind with _ | ⟨element, component⟩ | (_ | p)
  · exact ⟨_, rfl⟩
  · exact ⟨_, rfl⟩
  · exact absurd hk h
  · exact ⟨_, rfl⟩

theorem componentName?_letter (p : Primitive) :
    Action.componentName? [p.letter] = some (.primitive p) := by
  cases p <;> rfl

theorem componentName?_object (name : List Char) :
    Action.componentName? ('L' :: (name ++ [';'])) = some (.named (String.ofList name)) := by
  show (if (name ++ [';']).getLast? = some ';' then
    some (Action.ComponentName.named (String.ofList (name ++ [';']).dropLast)) else none) = _
  rw [List.getLast?_concat, if_pos rfl, List.dropLast_concat]

theorem componentName?_array (rest : List Char) :
    Action.componentName? ('[' :: rest) = some (.named (String.ofList ('[' :: rest))) := rfl

/-- Reading the name of an array class gives the component back, provided that array classes have
the names of array classes. -/
theorem componentName?_of_arrayShape? {c : Class} {name : String} {element : Tag}
    (hc : c.isArray = true → IsArrayName c.name) (h : arrayShape? c = some (name, element)) :
    ∃ descriptor, name.toList = '[' :: descriptor ∧
      Action.componentName? descriptor = c.componentName? := by
  unfold arrayShape? at h
  unfold Class.componentName?
  rcases hk : c.kind with _ | ⟨_, component⟩ | (_ | p)
  all_goals
    rw [hk] at h
    cases h
  · refine ⟨'L' :: (c.name.toList ++ [';']), toList_object c.name, ?_⟩
    rw [componentName?_object, String.ofList_toList]
  · obtain ⟨rest, hn⟩ := isArrayName_iff.mp (hc (Class.isArray_iff.mpr ⟨_, _, hk⟩))
    refine ⟨c.name.toList, toList_bracket c.name, ?_⟩
    rw [hn, componentName?_array, ← hn, String.ofList_toList]
  · refine ⟨[p.letter], ?_, componentName?_letter p⟩
    rw [toList_bracket, String.toList_singleton]

/-! ## What is found under the name of an array class -/

theorem index_of_primitive_bootstrapClasses :
    ∀ p ∈ Primitive.all, ∀ i < 26,
      (bootstrapClasses[i]?.map Class.kind) = some (.primitive (some p)) → i = 17 + p.ordinal := by
  decide +kernel

/-- The class that a component's name stands for in a table. -/
def Action.ComponentName.class? (t : ClassTable) : Action.ComponentName → Option ClassId
  | .primitive p => some (.ofPrimitive p)
  | .named name => t.find? name

namespace ClassTable

variable {named : String → Prop} {t : ClassTable}

/-- Array classes have the names of array classes. -/
theorem WellFormed.isArrayName (h : t.WellFormed named) {c : ClassId} {cls : Class}
    (hc : t.get? c = some cls) (harray : cls.isArray = true) : IsArrayName cls.name := by
  cases h.origin c cls hc with
  | bootstrap hb hfixed =>
    rw [Class.eq_of_fixed hfixed Class.isArray fun _ => rfl,
      isArray_of_mem_bootstrapClasses _ (mem_of_get?_bootstrap hb)] at harray
    cases harray
  | array hcomp hshape hfixed => exact isArrayName_of_arrayShape? hshape
  | file hlinked hnamed =>
    rw [hlinked.isArray_eq_false] at harray
    cases harray

/-- A class of a primitive kind, or `void`, is always there. -/
theorem WellFormed.exists_bootstrap_of_primitive (h : t.WellFormed named) {c : ClassId}
    {cls : Class} {k : Option Primitive} (hc : t.get? c = some cls)
    (hk : cls.kind = .primitive k) :
    ∃ b, ClassTable.bootstrap.get? c = some b ∧ cls.fixed = b.fixed ∧ b.kind = .primitive k := by
  cases h.origin c cls hc with
  | @bootstrap b hb hfixed =>
    rw [Class.eq_of_fixed hfixed Class.kind fun _ => rfl] at hk
    exact ⟨b, hb, hfixed, hk⟩
  | array hcomp hshape hfixed =>
    rw [Class.eq_of_fixed (d := arrayClassOf ..) hfixed Class.kind fun _ => rfl] at hk
    cases hk
  | file hlinked hnamed =>
    rw [hlinked.ordinary] at hk
    cases hk

/-- A class of a primitive kind is at the place that the kind has among the bootstrap classes. -/
theorem WellFormed.eq_ofPrimitive (h : t.WellFormed named) {c : ClassId} {cls : Class}
    {p : Primitive} (hc : t.get? c = some cls) (hk : cls.kind = .primitive (some p)) :
    c = .ofPrimitive p := by
  have hp : p ∈ Primitive.all := List.mem_of_getElem? p.getElem?_all_ordinal
  obtain ⟨b, hb, _, hkb⟩ := h.exists_bootstrap_of_primitive hc hk
  have hlt : c.index < 26 := size_bootstrap ▸ lt_size_of_get? hb
  have hi : (bootstrapClasses[c.index]?.map Class.kind) = some (.primitive (some p)) := by
    rw [← get?_bootstrap, hb, Option.map_some, hkb]
  exact congrArg ClassId.mk (index_of_primitive_bootstrapClasses p hp c.index hlt hi)

/-- The name of a component stands for the component. -/
theorem WellFormed.class?_componentName? (h : t.WellFormed named) {c : ClassId} {cls : Class}
    {k : Action.ComponentName} (hc : t.get? c = some cls) (hk : cls.componentName? = some k) :
    k.class? t = some c := by
  have hname : k = .named cls.name → k.class? t = some c := by
    rintro rfl
    exact h.unique.find?_name hc
  unfold Class.componentName? at hk
  split at hk
  · next kind hkind =>
    cases kind with
    | none => cases hk
    | some p =>
      cases hk
      rw [h.eq_ofPrimitive hc hkind]
      rfl
  · exact hname (Option.some.inj hk).symm

/-- Whatever class the name of an array class is read for, its component is the class that the name
spells. -/
theorem WellFormed.exists_componentName? (h : t.WellFormed named) {c : ClassId} {cls : Class}
    {name : String} {element : Tag} (hc : t.get? c = some cls)
    (hshape : arrayShape? cls = some (name, element)) :
    ∃ descriptor k, name.toList = '[' :: descriptor ∧ Action.componentName? descriptor = some k ∧
      k.class? t = some c := by
  obtain ⟨descriptor, hl, hread⟩ := componentName?_of_arrayShape? (h.isArrayName hc) hshape
  cases hk : cls.componentName? with
  | some k => exact ⟨descriptor, k, hl, hread.trans hk, h.class?_componentName? hc hk⟩
  | none =>
    have hvoid : cls.kind = .primitive none := by
      unfold Class.componentName? at hk
      split at hk
      · next hkind =>
        rw [hkind, Option.map_eq_none_iff.mp hk]
      · cases hk
    rw [arrayShape?, hvoid] at hshape
    cases hshape

/-- No two classes have array classes of the same name. -/
theorem WellFormed.eq_of_arrayShape? (h : t.WellFormed named) {c d : ClassId} {x y : Class}
    {name : String} {e e' : Tag} (hc : t.get? c = some x) (hd : t.get? d = some y)
    (hx : arrayShape? x = some (name, e)) (hy : arrayShape? y = some (name, e')) : c = d := by
  obtain ⟨l, k, hl, hlk, hkc⟩ := h.exists_componentName? hc hx
  obtain ⟨l', k', hl', hlk', hkd⟩ := h.exists_componentName? hd hy
  have hll : l = l' := (List.cons.inj (hl.symm.trans hl')).2
  rw [hll, hlk', Option.some.injEq] at hlk
  rw [hlk, hkc, Option.some.injEq] at hkd
  exact hkd

/-- An ordinary class has the name. -/
def HasOrdinary (t : ClassTable) (name : String) : Prop :=
  ∃ c cls, t.get? c = some cls ∧ cls.name = name ∧ cls.kind = .ordinary

/-- An ordinary class has the name of the array class over a class. -/
def Taken (t : ClassTable) (component : ClassId) : Prop :=
  ∃ ccls name element, t.get? component = some ccls ∧
    arrayShape? ccls = some (name, element) ∧ t.HasOrdinary name

/-- What is found under the name of the array class over a class is that array class, or an ordinary
class. -/
theorem WellFormed.kind_of_find? (h : t.WellFormed named) {component a : ClassId}
    {ccls acls : Class} {name : String} {element : Tag} (hc : t.get? component = some ccls)
    (hshape : arrayShape? ccls = some (name, element)) (ha : t.get? a = some acls)
    (hname : acls.name = name) : acls.kind = .array element component ∨ acls.kind = .ordinary := by
  have harray : IsArrayName acls.name := hname ▸ isArrayName_of_arrayShape? hshape
  cases h.origin a acls ha with
  | bootstrap hb hfixed =>
    rw [Class.eq_of_fixed hfixed Class.name fun _ => rfl] at harray
    exact absurd harray (plainName_of_mem_bootstrapClasses _ (mem_of_get?_bootstrap hb))
  | @array component' ccls' element' hcomp hshape' hfixed =>
    left
    rw [hname] at hshape'
    have hsame : component = component' := h.eq_of_arrayShape? hc hcomp hshape hshape'
    subst hsame
    rw [hc, Option.some.injEq] at hcomp
    subst hcomp
    rw [hshape, Option.some.injEq, Prod.mk.injEq] at hshape'
    rw [hshape'.2]
    exact Class.eq_of_fixed (d := arrayClassOf ..) hfixed Class.kind fun _ => rfl
  | file hlinked hnamed => exact Or.inr hlinked.ordinary

/-- The array class over a class other than `void` is in the table afterwards, at the handle under
which its name is found.  It is an array class over the class unless its name is taken. -/
theorem WellFormed.arrayClass_spec (h : t.WellFormed named) {component : ClassId} {ccls : Class}
    (hc : t.get? component = some ccls) (hvoid : ccls.kind ≠ .primitive none) :
    ∃ t' a acls name, t.arrayClass component = .ok (t', a) ∧
      arrayShape? ccls = some (name, ccls.storedAs) ∧ t'.find? name = some a ∧
      t'.get? a = some acls ∧
      (acls.kind = .array ccls.storedAs component ∧ 0 < acls.elementSize ↔
        ¬ t.Taken component) := by
  obtain ⟨name, hshape⟩ := exists_arrayShape? hvoid
  have hrun := arrayClass_eq hc hshape
  have hpositive : ∀ acls : Class, acls.kind = .array ccls.storedAs component →
      0 < acls.elementSize := by
    intro acls hk
    rw [Class.elementSize_pos_iff]
    exact Class.isArray_iff.mpr ⟨_, _, hk⟩
  cases hfind : t.find? name with
  | some a =>
    obtain ⟨acls, ha, hname⟩ := get?_of_find? hfind
    -- The class of the name is given as it is, and names are unique.
    refine ⟨t, a, acls, name, by rw [hrun, hfind], hshape, hfind, ha, ?_, ?_⟩
    · rintro ⟨hk, _⟩ ⟨ccls', name', e, hc', hshape', b, bcls, hb, hbname, hbk⟩
      rw [hc, Option.some.injEq] at hc'
      subst hc'
      rw [hshape, Option.some.injEq, Prod.mk.injEq] at hshape'
      have hab : b = a := h.unique b a bcls acls hb ha (by rw [hbname, hname, hshape'.1])
      rw [hab, ha, Option.some.injEq] at hb
      rw [← hb, hk] at hbk
      cases hbk
    · intro hfree
      rcases h.kind_of_find? hc hshape ha hname with hk | hk
      · exact ⟨hk, hpositive acls hk⟩
      · exact absurd ⟨ccls, name, _, hc, hshape, a, acls, ha, hname, hk⟩ hfree
  | none =>
    -- A new class is made, so no class had the name.
    have hnew := get?_push_nextId t (arrayClassOf name ccls.storedAs component)
    refine ⟨_, t.nextId, _, name, by rw [hrun, hfind], hshape, ?_, hnew, ?_, ?_⟩
    · exact (h.unique.push hfind).find?_name hnew
    · rintro _ ⟨ccls', name', e, hc', hshape', b, bcls, hb, hbname, _⟩
      rw [hc, Option.some.injEq] at hc'
      subst hc'
      rw [hshape, Option.some.injEq, Prod.mk.injEq] at hshape'
      exact find?_eq_none_iff.mp hfind b bcls hb (hbname.trans hshape'.1.symm)
    · exact fun _ => ⟨rfl, hpositive _ rfl⟩

end ClassTable

/-! ## Asking for array classes -/

/-- Asking for an array class changes the class table alone, and nothing where it fails. -/
theorem Action.run_arrayClass (component : ClassId) (m : Machine) :
    Action.arrayClass component m =
      match m.classes.arrayClass component with
      | .error e => (.error e, m)
      | .ok (t, a) => (.ok a, { m with classes := t }) := by
  unfold Action.arrayClass
  rw [run_bind, run_get]
  dsimp only
  rw [run_bind, run_liftStop]
  rcases m.classes.arrayClass component with e | ⟨t, a⟩
  · rfl
  · rfl

namespace Machine

variable {m : Machine} {path : ClassPath} {component : ClassId} {ccls : Class}

/-- In a reachable machine there is an array class over every class other than `void`, and asking
for it again gives the same class, whatever happens in between. It is an array class over just that
class, with elements of the kind of its values, unless an ordinary class has the name. -/
theorem arrayClass_kind_iff (h : m.Reachable path fun _ => True)
    (hc : m.classes.get? component = some ccls) (hvoid : ccls.kind ≠ .primitive none) :
    ∃ a acls m', Action.arrayClass component m = (.ok a, m') ∧ m'.classes.get? a = some acls ∧
      (acls.kind = .array ccls.storedAs component ∧ 0 < acls.elementSize ↔
        ¬ m.classes.Taken component) ∧
      ∀ m'', m'.Later path (fun _ => True) m'' →
        Action.arrayClass component m'' = (.ok a, m'') := by
  have hplain : ∀ n, PlainName n → (fun _ : String => True) n := fun _ _ => trivial
  have hw := h.wellFormed hplain
  obtain ⟨t', a, acls, name, hrun, hshape, hfind, ha, hkind⟩ := hw.classes.arrayClass_spec hc hvoid
  have hfirst : Action.arrayClass component m = (.ok a, { m with classes := t' }) := by
    rw [Action.run_arrayClass, hrun]
  refine ⟨a, acls, _, hfirst, ha, hkind, ?_⟩
  intro m'' hlater
  -- The step to the table with the array class, and then the steps of what happens in between.
  have hstep : m.Evolves (fun _ => True) { m with classes := t' } :=
    ((Action.takes_arrayClass component).of_eq hfirst).1
  have hext := hstep.extends
  have hlater := extends_of_steps (hlater.steps hplain (hstep.wellFormed hw))
  obtain ⟨ccls', hc', hfixed⟩ := (hext.trans hlater) component ccls hc
  have hshape' : arrayShape? ccls' = some (name, ccls.storedAs) := by
    rw [ClassTable.arrayShape?_eq_of_fixed hfixed]
    exact hshape
  rw [Action.run_arrayClass, ClassTable.arrayClass_eq hc' hshape', hlater.find? hfind]

/-- A class named as the array class over `int`. -/
def bracketFile : Bytes := [
    0xCA, 0xFE, 0xBA, 0xBE, 0x00, 0x00, 0x00, 0x34, 0x00, 0x05, 0x01, 0x00, 0x02, 0x5B, 0x49,
    0x07, 0x00, 0x01, 0x01, 0x00, 0x10, 0x6A, 0x61, 0x76, 0x61, 0x2F, 0x6C, 0x61, 0x6E, 0x67,
    0x2F, 0x4F, 0x62, 0x6A, 0x65, 0x63, 0x74, 0x07, 0x00, 0x03, 0x00, 0x01, 0x00, 0x02, 0x00,
    0x04, 0x00, 0x00, 0x00, 0x00, 0x00, 0x00, 0x00, 0x00]

/-- A machine with that class. -/
def bracketMachine : Machine := ((Operation.define bracketFile).run {} {}).2

theorem reachable_bracketMachine : bracketMachine.Reachable {} fun _ => True :=
  reachable_new.operation (.define bracketFile) fun _ _ _ _ => trivial

/-- The kind of the class that is given for the array class over a class. -/
def arrayKind? (m : Machine) (component : ClassId) : Option ClassKind :=
  (Action.arrayClass component m).1.toOption.bind fun a =>
    ((Action.arrayClass component m).2.classes.get? a).map Class.kind

/-- The class has taken the name of the array class over `int`, and not that over `long`. -/
theorem arrayClass_kind_bracketMachine :
    bracketMachine.classes.Taken (.ofPrimitive .int) ∧
      ¬ bracketMachine.classes.Taken (.ofPrimitive .long) := by
  have hint : bracketMachine.classes.get? (.ofPrimitive .int) =
      some (primitiveClass "int" (some .int)) := by decide +kernel
  have hlong : bracketMachine.classes.get? (.ofPrimitive .long) =
      some (primitiveClass "long" (some .long)) := by decide +kernel
  have hintKind : bracketMachine.arrayKind? (.ofPrimitive .int) = some .ordinary := by
    decide +kernel
  have hlongKind : bracketMachine.arrayKind? (.ofPrimitive .long) =
      some (.array (.primitive .long) (.ofPrimitive .long)) := by decide +kernel
  have hreach := reachable_bracketMachine
  constructor
  · obtain ⟨a, acls, m', hrun, ha, hiff, _⟩ := arrayClass_kind_iff hreach hint (by decide)
    rw [arrayKind?, hrun, Except.toOption, Option.bind_some, ha, Option.map_some,
      Option.some.injEq] at hintKind
    refine Classical.byContradiction fun hfree => ?_
    rw [(hiff.mpr hfree).1] at hintKind
    cases hintKind
  · obtain ⟨a, acls, m', hrun, ha, hiff, _⟩ := arrayClass_kind_iff hreach hlong (by decide)
    rw [arrayKind?, hrun, Except.toOption, Option.bind_some, ha, Option.map_some,
      Option.some.injEq] at hlongKind
    refine hiff.mp ⟨hlongKind, ?_⟩
    rw [Class.elementSize, Class.element?, hlongKind]
    decide

/-- An ordinary class, whose elements take no bytes, is what is given for the array class over
`int`. -/
theorem array_of_int_not_array :
    bracketMachine.Reachable {} (fun _ => True) ∧
      bracketMachine.classes.get? (.ofPrimitive .int) = some (primitiveClass "int" (some .int)) ∧
      bracketMachine.arrayKind? (.ofPrimitive .int) = some .ordinary := by
  refine ⟨reachable_bracketMachine, ?_⟩
  decide +kernel

end Machine

end JavaMachine

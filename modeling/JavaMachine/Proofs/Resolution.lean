/-
# What a resolution gives

Resolving a name gives a class of that name where the name is the one spelling of its class
(`ClassTable.Canonical`): a primitive class may also be spelled as the component of an array class
like any other class, and then the array class that is given has another name.  Resolving a name
gives no class and no exception exactly when a name for the array class over `void` is asked for on
the way (`Action.MeetsVoidArray`).
-/
import JavaMachine.Proofs.ArrayClasses
import JavaMachine.Proofs.ResolutionSteps

namespace JavaMachine

/-! ## The spelling of array classes -/

theorem bracket_injective {a b : String} (h : "[" ++ a = "[" ++ b) : a = b := by
  have hl := congrArg String.toList h
  rw [toList_bracket, toList_bracket, List.cons.injEq] at hl
  exact String.toList_injective hl.2

theorem object_injective {a b : String} (h : "[L" ++ a ++ ";" = "[L" ++ b ++ ";") : a = b := by
  have hl := congrArg String.toList h
  rw [toList_object, toList_object, List.cons.injEq, List.cons.injEq,
    List.append_cancel_right_eq] at hl
  exact String.toList_injective hl.2.2

theorem letter_ne_bracket (p : Primitive) : p.letter ≠ '[' := by
  cases p <;> decide

/-- Behind the bracket of a class with a component in `L` and `;` there is no other bracket. -/
theorem object_ne_bracket {a b : String} (hb : IsArrayName b) : "[L" ++ a ++ ";" ≠ "[" ++ b := by
  intro h
  have hl := congrArg String.toList h
  obtain ⟨rest, hrest⟩ := isArrayName_iff.mp hb
  rw [toList_object, toList_bracket, hrest, List.cons.injEq, List.cons.injEq] at hl
  exact absurd hl.2.1 (by decide)

theorem object_ne_letter {a : String} {p : Primitive} :
    "[L" ++ a ++ ";" ≠ "[" ++ String.singleton p.letter := by
  intro h
  have hl := congrArg (fun s => s.toList.length) h
  simp only [toList_object, toList_bracket, String.toList_singleton, List.length_cons,
    List.length_append, List.length_nil] at hl
  omega

theorem bracket_ne_letter {a : String} {p : Primitive} (ha : IsArrayName a) :
    "[" ++ a ≠ "[" ++ String.singleton p.letter := by
  intro h
  obtain ⟨rest, hrest⟩ := isArrayName_iff.mp ha
  rw [bracket_injective h, String.toList_singleton, List.cons.injEq] at hrest
  exact letter_ne_bracket p hrest.1

/-- The array class over a class has a name in `L` and `;` exactly when the class is an ordinary one
of that name. -/
theorem arrayShape?_eq_object_iff {c : Class} {name n : String} {element : Tag}
    (hc : c.isArray = true → IsArrayName c.name) (h : arrayShape? c = some (name, element)) :
    name = "[L" ++ n ++ ";" ↔ c.kind = .ordinary ∧ c.name = n := by
  unfold arrayShape? at h
  rcases hk : c.kind with _ | ⟨_, component⟩ | (_ | p)
  all_goals
    rw [hk] at h
    cases h
  · exact ⟨fun h => ⟨rfl, object_injective h⟩, fun h => by rw [h.2]⟩
  · have harray : IsArrayName c.name := hc (Class.isArray_iff.mpr ⟨_, _, hk⟩)
    refine ⟨fun h => absurd h.symm (object_ne_bracket harray), fun h => ?_⟩
    cases h.1
  · refine ⟨fun h => absurd h.symm object_ne_letter, fun h => ?_⟩
    cases h.1

/-- The array class over a class has a name of two brackets exactly when the class is an array class
with the rest as its name. -/
theorem arrayShape?_eq_bracket_iff {c : Class} {name n : String} {element : Tag}
    (hn : IsArrayName n) (h : arrayShape? c = some (name, element)) :
    name = "[" ++ n ↔ c.isArray = true ∧ c.name = n := by
  have hother : (∀ e a, c.kind ≠ .array e a) → ¬ c.isArray = true := by
    intro hne harray
    obtain ⟨e, a, hk⟩ := Class.isArray_iff.mp harray
    exact hne e a hk
  unfold arrayShape? at h
  rcases hk : c.kind with _ | ⟨_, component⟩ | (_ | p)
  all_goals
    rw [hk] at h
    cases h
  · refine ⟨fun h => absurd h (object_ne_bracket hn), fun h => absurd h.1 (hother ?_)⟩
    rw [hk]
    rintro _ _ ⟨⟩
  · have harray : c.isArray = true := Class.isArray_iff.mpr ⟨_, _, hk⟩
    exact ⟨fun h => ⟨harray, bracket_injective h⟩, fun h => by rw [h.2]⟩
  · refine ⟨fun h => absurd h.symm (bracket_ne_letter hn), fun h => absurd h.1 (hother ?_)⟩
    rw [hk]
    rintro _ _ ⟨⟩

namespace ClassTable

variable {named : String → Prop} {t t' : ClassTable} {n : String}

/-- The name is the one spelling of its class: it is in the table, or it is no name of an array
class, or it names an array class by its component as the table has it. -/
inductive Canonical (t : ClassTable) : String → Prop
  | known {name : String} {c : ClassId} (h : t.find? name = some c) : Canonical t name
  | plain {name : String} (h : PlainName name) : Canonical t name
  | primitive (p : Primitive) : Canonical t ("[" ++ String.singleton p.letter)
  | object {n : String} (h : t.HasOrdinary n ∨ (PlainName n ∧ t.find? n = none)) :
      Canonical t ("[L" ++ n ++ ";")
  | array {n : String} (harray : IsArrayName n) (h : Canonical t n) (hfree : ¬ t.HasOrdinary n) :
      Canonical t ("[" ++ n)

theorem canonical_object_iff (hfresh : t.find? ("[L" ++ n ++ ";") = none) :
    t.Canonical ("[L" ++ n ++ ";") ↔ t.HasOrdinary n ∨ (PlainName n ∧ t.find? n = none) := by
  refine ⟨fun h => ?_, .object⟩
  generalize hname : "[L" ++ n ++ ";" = name at h
  cases h with
  | known h =>
    rw [hname, h] at hfresh
    cases hfresh
  | plain h =>
    exact absurd (isArrayName_of_toList (hname ▸ toList_object n)) h
  | primitive p => exact absurd hname object_ne_letter
  | object h =>
    rw [object_injective hname]
    exact h
  | array harray h hfree => exact absurd hname (object_ne_bracket harray)

theorem canonical_array_iff (harray : IsArrayName n) (hfresh : t.find? ("[" ++ n) = none) :
    t.Canonical ("[" ++ n) ↔ t.Canonical n ∧ ¬ t.HasOrdinary n := by
  refine ⟨fun h => ?_, fun h => .array harray h.1 h.2⟩
  generalize hname : "[" ++ n = name at h
  cases h with
  | known h =>
    rw [hname, h] at hfresh
    cases hfresh
  | plain h =>
    exact absurd (isArrayName_of_toList (hname ▸ toList_bracket n)) h
  | primitive p => exact absurd hname (bracket_ne_letter harray)
  | object h => exact absurd hname.symm (object_ne_bracket harray)
  | array harray' h hfree =>
    rw [bracket_injective hname]
    exact ⟨h, hfree⟩

/-! ## Ordinary classes and primitive classes -/

/-- A class of a primitive kind, or `void`, has no name of an array class. -/
theorem WellFormed.plainName_of_primitive (h : t.WellFormed named) {c : ClassId} {cls : Class}
    {k : Option Primitive} (hc : t.get? c = some cls) (hk : cls.kind = .primitive k) :
    PlainName cls.name := by
  obtain ⟨b, hb, hfixed, _⟩ := h.exists_bootstrap_of_primitive hc hk
  rw [Class.eq_of_fixed hfixed Class.name fun _ => rfl]
  exact plainName_of_mem_bootstrapClasses b (mem_of_get?_bootstrap hb)

/-- The class of a primitive kind is of that kind. -/
theorem WellFormed.kind_ofPrimitive (h : t.WellFormed named) {p : Primitive} {cls : Class}
    (hc : t.get? (.ofPrimitive p) = some cls) : cls.kind = .primitive (some p) := by
  have hb : ClassTable.bootstrap.get? (.ofPrimitive p) = some (primitiveClass p.name (some p)) := by
    cases p <;> decide +kernel
  rw [Class.eq_of_fixed (h.bootstrap.fixed_eq hb hc) Class.kind fun _ => rfl]
  rfl

theorem WellFormed.exists_ofPrimitive (h : t.WellFormed named) (p : Primitive) :
    ∃ cls, t.get? (.ofPrimitive p) = some cls := by
  refine exists_get?_of_lt (Nat.lt_of_lt_of_le ?_ h.bootstrap.size_le)
  rw [size_bootstrap]
  cases p <;> decide

/-- The class `void` has this name. -/
theorem WellFormed.name_of_void (h : t.WellFormed named) {c : ClassId} {cls : Class}
    (hc : t.get? c = some cls) (hk : cls.kind = .primitive none) : cls.name = "void" := by
  have hnames : ∀ b ∈ bootstrapClasses, b.kind = .primitive none → b.name = "void" := by
    decide +kernel
  obtain ⟨b, hb, hfixed, hkb⟩ := h.exists_bootstrap_of_primitive hc hk
  rw [Class.eq_of_fixed hfixed Class.name fun _ => rfl]
  exact hnames b (mem_of_get?_bootstrap hb) hkb

/-- The class `void` is found by its name. -/
theorem WellFormed.exists_void (h : t.WellFormed named) :
    ∃ cls, t.get? .void = some cls ∧ cls.kind = .primitive none ∧ t.find? "void" = some .void := by
  have hget : ClassTable.bootstrap.get? .void = some (primitiveClass "void" none) := by
    decide +kernel
  have hfind : ClassTable.bootstrap.find? "void" = some .void := by decide +kernel
  obtain ⟨cls, hc, he⟩ := h.bootstrap _ _ hget
  refine ⟨cls, hc, ?_, h.bootstrap.find? hfind⟩
  rw [Class.eq_of_fixed he Class.kind fun _ => rfl]
  rfl

/-- A class of a plain name that the table did not have before is an ordinary one. -/
theorem WellFormed.ordinary_of_fresh (h : t.WellFormed named) (h' : t'.WellFormed named)
    (hplain : PlainName n) (hfresh : t.find? n = none) {c : ClassId} {cls : Class}
    (hc : t'.get? c = some cls) (hname : cls.name = n) : cls.kind = .ordinary := by
  cases h'.origin c cls hc with
  | @bootstrap b hb hfixed =>
    obtain ⟨bcls, hbc, hbfixed⟩ := h.bootstrap c b hb
    refine absurd ?_ (find?_eq_none_iff.mp hfresh c bcls hbc)
    rw [← hname]
    exact Class.eq_of_fixed (hbfixed.trans hfixed.symm) Class.name fun _ => rfl
  | array hcomp hshape hfixed => exact absurd (hname ▸ isArrayName_of_arrayShape? hshape) hplain
  | file hlinked hnamed => exact hlinked.ordinary

/-- An ordinary class of a name is the class of that name. -/
theorem HasOrdinary.kind_eq (h : t.HasOrdinary n) (hunique : t.NamesUnique) {c : ClassId}
    {cls : Class} (hc : t.get? c = some cls) (hname : cls.name = n) : cls.kind = .ordinary := by
  obtain ⟨d, dcls, hd, hdname, hkind⟩ := h
  have hsame : c = d := hunique c d cls dcls hc hd (hname.trans hdname.symm)
  rw [hsame, hd, Option.some.injEq] at hc
  rw [← hc]
  exact hkind

theorem HasOrdinary.of_extends (h : t.HasOrdinary n) (hext : t.Extends t') : t'.HasOrdinary n := by
  obtain ⟨c, cls, hc, hname, hkind⟩ := h
  obtain ⟨cls', hc', he⟩ := hext c cls hc
  refine ⟨c, cls', hc', ?_, ?_⟩
  · rw [Class.eq_of_fixed he Class.name fun _ => rfl]
    exact hname
  · rw [Class.eq_of_fixed he Class.kind fun _ => rfl]
    exact hkind

/-- Where files have plain names, a step adds no ordinary class with the name of an array class. -/
theorem Step.hasOrdinary (h : Step PlainName t t') (hn : IsArrayName n) (ht : t'.HasOrdinary n) :
    t.HasOrdinary n := by
  obtain ⟨c, cls, hc, hname, hkind⟩ := ht
  have hchanged : ∀ {d : ClassId} {f : Class → Class}, (∀ x, (f x).fixed = x.fixed) →
      (t.update d f).get? c = some cls → t.HasOrdinary n := by
    intro d f hfixed hget
    rw [get?_update] at hget
    split at hget
    · obtain ⟨x, hx, rfl⟩ := Option.map_eq_some_iff.mp hget
      refine ⟨c, x, hx, ?_, ?_⟩
      · rw [← hname]
        exact (Class.eq_of_fixed (hfixed x) Class.name fun _ => rfl).symm
      · rw [← hkind]
        exact (Class.eq_of_fixed (hfixed x) Class.kind fun _ => rfl).symm
    · exact ⟨c, cls, hget, hname, hkind⟩
  cases h with
  | array hcomp hshape hfresh =>
    rcases get?_push_eq_some hc with ⟨_, rfl⟩ | hc
    · cases hkind
    · exact ⟨c, cls, hc, hname, hkind⟩
  | file hlinked hnamed hslots hfresh =>
    rcases get?_push_eq_some hc with ⟨_, rfl⟩ | hc
    · exact absurd (hname ▸ hn) hnamed
    · exact ⟨c, cls, hc, hname, hkind⟩
  | mark hfixed hstatics => exact hchanged hfixed hc
  | write hf hs hv =>
    refine hchanged ?_ hc
    exact fun _ => rfl

end ClassTable

theorem Machine.hasOrdinary_of_steps {m m' : Machine} {n : String}
    (h : Relation.ReflTransGen (Machine.Step PlainName) m m') (hn : IsArrayName n)
    (hm' : m'.classes.HasOrdinary n) : m.classes.HasOrdinary n := by
  induction h with
  | refl => exact hm'
  | tail _ hstep ih =>
    cases hstep with
    | classes hheap hstep => exact ih (hstep.hasOrdinary hn hm')
    | objects hclasses hobjects => exact ih (hclasses ▸ hm')

/-! ## The name of the class that is given -/

namespace Action

variable {path : ClassPath} {m m' : Machine} {name : String} {c : ClassId}

/-- What the name of a component stands for as text. -/
theorem componentName?_eq_primitive {descriptor : List Char} {p : Primitive}
    (h : componentName? descriptor = some (.primitive p)) : descriptor = [p.letter] := by
  unfold componentName? at h
  split at h
  · cases h
  · split at h <;> cases h
  · cases h
  · obtain ⟨q, hq, hp⟩ := Option.map_eq_some_iff.mp h
    cases hp
    have hletter := List.find?_some hq
    rw [decide_eq_true_eq] at hletter
    rw [hletter]
  · cases h

theorem componentName?_eq_named {descriptor : List Char} {n : String}
    (h : componentName? descriptor = some (.named n)) :
    descriptor = 'L' :: (n.toList ++ [';']) ∨ (IsArrayName n ∧ descriptor = n.toList) := by
  unfold componentName? at h
  split at h
  · cases h
  · next rest =>
    split at h
    · next hlast =>
      cases h
      left
      obtain ⟨front, rfl⟩ := List.getLast?_eq_some_iff.mp hlast
      rw [List.dropLast_concat, String.toList_ofList]
    · cases h
  · cases h
    right
    exact ⟨isArrayName_of_toList String.toList_ofList, String.toList_ofList.symm⟩
  · obtain ⟨q, _, hp⟩ := Option.map_eq_some_iff.mp h
    cases hp
  · cases h

/-- What the array class over a class is called. -/
theorem name_of_arrayClass {component : ClassId} (h : arrayClass component m = (.ok c, m')) :
    ∃ ccls name element cls, m.classes.get? component = some ccls ∧
      arrayShape? ccls = some (name, element) ∧ m'.classes.get? c = some cls ∧ cls.name = name := by
  rw [run_arrayClass] at h
  cases ht : m.classes.arrayClass component with
  | error e =>
    rw [ht] at h
    cases h
  | ok x =>
    obtain ⟨t', a⟩ := x
    rw [ht] at h
    cases h
    obtain ⟨ccls, name, element, hc, hshape, hcase⟩ := ClassTable.arrayClass_eq_ok ht
    rcases hcase with ⟨hfind, rfl⟩ | ⟨_, rfl, rfl⟩
    · obtain ⟨cls, hget, hname⟩ := ClassTable.get?_of_find? hfind
      exact ⟨ccls, name, element, cls, hc, hshape, hget, hname⟩
    · exact ⟨ccls, name, element, _, hc, hshape, ClassTable.get?_push_nextId .., rfl⟩

variable {named : String → Prop} {component : ClassId} {ccls : Class} {n : String}

/-- A component in `L` and `;` is resolved to an ordinary class of its name. -/
theorem ordinary_component_iff (hw : m.WellFormed named) (hw' : m'.WellFormed named)
    (hsteps : Relation.ReflTransGen (Machine.Step PlainName) m m')
    (hc : m'.classes.get? component = some ccls)
    (hname : ccls.name = n ↔ m.classes.Canonical n) :
    ccls.kind = .ordinary ∧ ccls.name = n ↔
      m.classes.HasOrdinary n ∨ (PlainName n ∧ m.classes.find? n = none) := by
  have hext := Machine.extends_of_steps hsteps
  constructor
  · rintro ⟨hkind, hcn⟩
    by_cases hplain : PlainName n
    · cases hfind : m.classes.find? n with
      | none => exact Or.inr ⟨hplain, rfl⟩
      | some x =>
        -- The class of the name stays the class of the name, which is the one that is given.
        left
        obtain ⟨xcls, hx, hxname⟩ := ClassTable.get?_of_find? hfind
        obtain ⟨xcls', hx', he⟩ := hext x xcls hx
        have hxname' : xcls'.name = n := (Class.eq_of_fixed he Class.name fun _ => rfl).trans hxname
        have hsame := hw'.classes.unique x component xcls' ccls hx' hc (hxname'.trans hcn.symm)
        rw [hsame, hc, Option.some.injEq] at hx'
        refine ⟨x, xcls, hx, hxname, ?_⟩
        rw [← Class.eq_of_fixed he Class.kind fun _ => rfl, ← hx']
        exact hkind
    · exact Or.inl (Machine.hasOrdinary_of_steps hsteps (Decidable.not_not.mp hplain)
        ⟨component, ccls, hc, hcn, hkind⟩)
  · rintro (hordinary | ⟨hplain, hfresh⟩)
    · obtain ⟨x, xcls, hx, hxname, _⟩ := id hordinary
      have hcn : ccls.name = n := hname.mpr (.known (hxname ▸ hw.classes.unique.find?_name hx))
      exact ⟨(hordinary.of_extends hext).kind_eq hw'.classes.unique hc hcn, hcn⟩
    · have hcn : ccls.name = n := hname.mpr (.plain hplain)
      exact ⟨hw.classes.ordinary_of_fresh hw'.classes hplain hfresh hc hcn, hcn⟩

/-- A component with a name of an array class is resolved to an array class of its name. -/
theorem array_component_iff (hw' : m'.WellFormed named)
    (hsteps : Relation.ReflTransGen (Machine.Step PlainName) m m')
    (hc : m'.classes.get? component = some ccls) (hn : IsArrayName n)
    (hname : ccls.name = n ↔ m.classes.Canonical n) :
    ccls.isArray = true ∧ ccls.name = n ↔ m.classes.Canonical n ∧ ¬ m.classes.HasOrdinary n := by
  have hext := Machine.extends_of_steps hsteps
  constructor
  · rintro ⟨harray, hcn⟩
    refine ⟨hname.mp hcn, fun hordinary => ?_⟩
    have hkind := (hordinary.of_extends hext).kind_eq hw'.classes.unique hc hcn
    obtain ⟨_, _, hk⟩ := Class.isArray_iff.mp harray
    rw [hkind] at hk
    cases hk
  · rintro ⟨hcanonical, hfree⟩
    have hcn : ccls.name = n := hname.mpr hcanonical
    refine ⟨?_, hcn⟩
    rcases hk : ccls.kind with _ | ⟨e, a⟩ | p
    · refine absurd ?_ hfree
      exact Machine.hasOrdinary_of_steps hsteps hn ⟨component, ccls, hc, hcn, hk⟩
    · exact Class.isArray_iff.mpr ⟨e, a, hk⟩
    · exact absurd (hcn ▸ hn) (hw'.classes.plainName_of_primitive hc hk)

theorem steps_of_resolveComponent (hplain : ∀ n, PlainName n → named n) {k : ComponentName}
    (h : resolveComponent (resolve path) k m = (.ok component, m')) :
    Relation.ReflTransGen (Machine.Step named) m m' := by
  cases k with
  | primitive p =>
    cases h
    exact .refl
  | named n =>
    exact ((takes_resolve hplain path n).of_eq h).1.steps

/-- The array class over a component that was resolved has the name that is asked for exactly when
that name is its one spelling. -/
theorem arrayName_eq_iff (hplain : ∀ n, PlainName n → named n) (hw : m.WellFormed named)
    {descriptor : List Char} {k : ComponentName} {name' : String} {element : Tag}
    (hfresh : m.classes.find? name = none) (hname : name.toList = '[' :: descriptor)
    (hk : componentName? descriptor = some k)
    (hcomp : resolveComponent (resolve path) k m = (.ok component, m'))
    (hget : m'.classes.get? component = some ccls)
    (hshape : arrayShape? ccls = some (name', element))
    (hcanonical : ∀ n, k = .named n → (ccls.name = n ↔ m.classes.Canonical n)) :
    name' = name ↔ m.classes.Canonical name := by
  have hw' := Machine.wellFormed_of_steps (steps_of_resolveComponent hplain hcomp) hw
  have hsteps : Relation.ReflTransGen (Machine.Step PlainName) m m' :=
    steps_of_resolveComponent (fun _ h => h) hcomp
  cases k with
  | primitive p =>
    cases hcomp
    have hspelled : name = "[" ++ String.singleton p.letter := by
      apply String.toList_injective
      rw [hname, toList_bracket, componentName?_eq_primitive hk, String.toList_singleton]
    rw [arrayShape?, hw.classes.kind_ofPrimitive hget] at hshape
    cases hshape
    rw [hspelled]
    exact ⟨fun _ => .primitive p, fun _ => rfl⟩
  | named n =>
    rcases componentName?_eq_named hk with hd | ⟨hn, hd⟩
    · -- In `L` and `;`, where only an ordinary class is spelled so.
      have hspelled : name = "[L" ++ n ++ ";" := by
        apply String.toList_injective
        rw [hname, toList_object, hd]
      rw [hspelled, ClassTable.canonical_object_iff (hspelled ▸ hfresh),
        ← ordinary_component_iff hw hw' hsteps hget (hcanonical n rfl)]
      exact arrayShape?_eq_object_iff (hw'.classes.isArrayName hget) hshape
    · -- Behind another bracket, where only an array class is spelled so.
      have hspelled : name = "[" ++ n := by
        apply String.toList_injective
        rw [hname, toList_bracket, hd]
      rw [hspelled, ClassTable.canonical_array_iff hn (hspelled ▸ hfresh),
        ← array_component_iff hw' hsteps hget hn (hcanonical n rfl)]
      exact arrayShape?_eq_bracket_iff hn hshape

/-- A resolution gives a class of the name that is asked for exactly when the name is the one
spelling of its class. -/
theorem name_of_resolve (hplain : ∀ n, PlainName n → named n) (hw : m.WellFormed named)
    (h : resolve path name m = (.ok c, m')) :
    ∃ cls, m'.classes.get? c = some cls ∧ (∀ k, cls.kind = .primitive k → cls.name = name) ∧
      (cls.name = name ↔ m.classes.Canonical name) := by
  -- The induction is on the length of the name, which a component makes shorter.
  induction hl : name.length using Nat.strongRecOn generalizing name c m' with
  | ind length ih =>
  rw [resolve_eq] at h
  cases hfind : m.classes.find? name with
  | some d =>
    rw [resolveStep_of_find? hfind] at h
    cases h
    obtain ⟨cls, hc, hname⟩ := ClassTable.get?_of_find? hfind
    exact ⟨cls, hc, fun _ _ => hname, fun _ => .known hfind, fun _ => hname⟩
  | none =>
    by_cases hp : PlainName name
    · rw [resolveStep_plain hfind hp] at h
      have htakes : Takes (Machine.Evolves PlainName) m (load (resolve path) path name) _ :=
        takes_load hp fun n m => takes_resolve (fun _ h => h) path n
      obtain ⟨cls, hc, hname⟩ := (htakes.of_eq h).2
      exact ⟨cls, hc, fun _ _ => hname, fun _ => .plain hp, fun _ => hname⟩
    · obtain ⟨descriptor, hname⟩ := isArrayName_iff.mp (Decidable.not_not.mp hp)
      rw [resolveStep_array hfind hname] at h
      rcases hk : componentName? descriptor with _ | k
      · rw [hk] at h
        cases h
      · rw [hk] at h
        obtain ⟨component, m₁, hcomp, h⟩ := run_bind_eq_ok.mp h
        obtain ⟨ccls, name', element, cls, hget, hshape, hc, hcname⟩ := name_of_arrayClass h
        have hw₁ := Machine.wellFormed_of_steps (steps_of_resolveComponent hplain hcomp) hw
        have hw' : m'.WellFormed named := ((takes_arrayClass component).of_eq h).1.wellFormed hw₁
        refine ⟨cls, hc, fun k hprimitive => ?_, ?_⟩
        · refine absurd ?_ (hw'.classes.plainName_of_primitive hc hprimitive)
          rw [hcname]
          exact isArrayName_of_arrayShape? hshape
        · rw [hcname]
          refine arrayName_eq_iff hplain hw hfind hname hk hcomp hget hshape ?_
          rintro n rfl
          have hlt := length_lt_of_componentName? hname hk
          obtain ⟨ccls', hget', _, hcanonical⟩ := ih n.length (hl ▸ hlt) hcomp rfl
          rw [hget, Option.some.injEq] at hget'
          rw [hget']
          exact hcanonical

/-! ## Names of no class at all -/

/-- The name for the array class over `void`. -/
def voidArrayName : String := "[Lvoid;"

/-- Resolving the name asks, after some resolutions inside each other, for the array class over
`void` where no class has its name. -/
def MeetsVoidArray (path : ClassPath) (m : Machine) (name : String) : Prop :=
  ∃ m', Relation.ReflTransGen
      (fun x y : Machine × String => Asks (resolve path) path x.1 x.2 y.1 y.2) (m, name)
      (m', voidArrayName) ∧
    m'.classes.find? voidArrayName = none

/-- Between the state in which a name is resolved and the one in which another one is asked for, the
machine takes steps. -/
theorem Asks.steps (hplain : ∀ n, PlainName n → named n)
    (h : Asks (resolve path) path m name m' n) :
    Relation.ReflTransGen (Machine.Step named) m m' := by
  have henter : m.Step named (m.entering name) := Machine.step_of_eq rfl rfl
  have hres : ∀ n m, Takes (Machine.Evolves named) m (resolve path n) fun c m' =>
    c.index < m'.classes.size :=
    fun n m => takes_resolve hplain path n
  cases h with
  | component hfresh hname hcomponent => exact .refl
  | superclass hload hs => exact .single henter
  | @interface cf superclass before after _ cs m₁ _ hload hsuper hnames hbefore =>
    have hsteps := ((takes_superclassOf hres).of_eq hsuper).1.steps
    have hlist : Takes (Machine.Evolves named) m₁ (before.mapM (resolve path)) fun _ _ => True :=
      takes_mapM before (fun n m _ => (hres n m).mono fun _ _ _ _ => trivial) trivial
    exact (hsteps.trans (hlist.of_eq hbefore).1.steps).head henter

/-- There is no array class over `void`. -/
theorem run_arrayClass_void (hc : m.classes.get? component = some ccls)
    (hvoid : ccls.kind = .primitive none) :
    arrayClass component m = (.error (.broken .arrayOfVoid), m) := by
  have hrun : m.classes.arrayClass component = .error (.broken .arrayOfVoid) := by
    refine ClassTable.arrayClass_of_void hc ?_
    rw [arrayShape?, hvoid]
  rw [run_arrayClass, hrun]

/-- Making an array class can only fail over `void`. -/
theorem arrayClass_error (hw : m.WellFormed named) {e : Stop}
    (hc : m.classes.get? component = some ccls)
    (h : (arrayClass component m).1 = .error e) :
    e = .broken .arrayOfVoid ∧ ccls.kind = .primitive none := by
  by_cases hvoid : ccls.kind = .primitive none
  · refine ⟨?_, hvoid⟩
    rw [run_arrayClass_void hc hvoid] at h
    exact (Except.error.inj h).symm
  · obtain ⟨t', a, acls, name, hrun, _⟩ := hw.classes.arrayClass_spec hc hvoid
    rw [run_arrayClass, hrun] at h
    cases h

/-- A component for which no array class can be made is `void`, as it is asked for by its own name.
-/
theorem eq_voidArrayName (hplain : ∀ n, PlainName n → named n) (hw : m.WellFormed named)
    {descriptor : List Char} {k : ComponentName} {e : Stop}
    (hname : name.toList = '[' :: descriptor) (hk : componentName? descriptor = some k)
    (hcomp : resolveComponent (resolve path) k m = (.ok component, m'))
    (harray : (arrayClass component m').1 = .error e) :
    e = .broken .arrayOfVoid ∧ name = voidArrayName := by
  have hw' := Machine.wellFormed_of_steps (steps_of_resolveComponent hplain hcomp) hw
  cases k with
  | primitive p =>
    cases hcomp
    obtain ⟨ccls, hc⟩ := hw.classes.exists_ofPrimitive p
    have hkind := (arrayClass_error hw hc harray).2
    rw [hw.classes.kind_ofPrimitive hc] at hkind
    cases hkind
  | named n =>
    obtain ⟨ccls, hc, hprimitive, _⟩ := name_of_resolve hplain hw hcomp
    obtain ⟨heq, hkind⟩ := arrayClass_error hw' hc harray
    refine ⟨heq, ?_⟩
    have hvoid : n = "void" :=
      (hprimitive none hkind).symm.trans (hw'.classes.name_of_void hc hkind)
    subst hvoid
    apply String.toList_injective
    rcases componentName?_eq_named hk with hd | ⟨hn, _⟩
    · rw [hname, hd]
      rfl
    · exact absurd hn (by decide +kernel)

/-- Where no class has the name for the array class over `void`, resolving it fails so. -/
theorem resolve_voidArrayName (hw : m.WellFormed named)
    (hfresh : m.classes.find? voidArrayName = none) :
    (resolve path voidArrayName m).1 = .error (.broken .arrayOfVoid) := by
  obtain ⟨ccls, hc, hkind, hfind⟩ := hw.classes.exists_void
  have hname : voidArrayName.toList = '[' :: ['L', 'v', 'o', 'i', 'd', ';'] := by decide +kernel
  have hcomp : resolveComponent (resolve path) (.named "void") m = (.ok .void, m) := by
    show resolve path "void" m = _
    rw [resolve_eq, resolveStep_of_find? hfind]
  rw [resolve_eq, resolveStep_array hfresh hname]
  refine run_bind_eq_error.mpr (Or.inr ⟨.void, m, hcomp, ?_⟩)
  rw [run_arrayClass_void hc hkind]

/-- A resolution fails otherwise than with an exception exactly when it meets the name for the array
class over `void`. -/
theorem fault_of_resolve_iff (hplain : ∀ n, PlainName n → named n) (hw : m.WellFormed named)
    {e : Stop} (he : ∀ t, e ≠ .thrown t) :
    (resolve path name m).1 = .error e ↔
      e = .broken .arrayOfVoid ∧ MeetsVoidArray path m name := by
  -- The induction is on what is left to do at most, which is less for all that is asked for.
  induction hl : path.need m.defining name using Nat.strongRecOn generalizing m name with
  | ind need ih =>
  have hasked : ∀ m' n, Asks (resolve path) path m name m' n →
      ((resolve path n m').1 = .error e ↔ e = .broken .arrayOfVoid ∧ MeetsVoidArray path m' n) := by
    intro m' n hasks
    have hlt := hasks.need_lt fun n m => defining_resolveWithin path _ n m
    exact ih _ (hl ▸ hlt) (Machine.wellFormed_of_steps (hasks.steps hplain) hw) rfl
  constructor
  · intro h
    rw [resolve_eq, resolveStep_fault_iff he] at h
    rcases h with ⟨m', n, hasks, hn⟩ | ⟨descriptor, k, c, m', hfresh, hname, hk, hcomp, harray⟩
    · obtain ⟨heq, m'', hrest, hnone⟩ := (hasked m' n hasks).mp hn
      exact ⟨heq, m'', hrest.head hasks, hnone⟩
    · obtain ⟨heq, hspelled⟩ := eq_voidArrayName hplain hw hname hk hcomp harray
      exact ⟨heq, m, hspelled ▸ .refl, hspelled ▸ hfresh⟩
  · rintro ⟨rfl, m', hasks, hnone⟩
    rcases hasks.cases_head with heq | ⟨⟨m₁, n⟩, hstep, hrest⟩
    · cases heq
      exact resolve_voidArrayName hw hnone
    · rw [resolve_eq, resolveStep_fault_iff he]
      exact Or.inl ⟨m₁, n, hstep, (hasked m₁ n hstep).mpr ⟨rfl, m', hrest, hnone⟩⟩

end Action

/-! ## Resolving in a reachable machine -/

namespace Machine

variable {start path : ClassPath} {m : Machine} {name : String}

/-- In a reachable machine, resolving a name with a class path gives a class or an exception unless
the name for the array class over `void` is met on the way, which is where making that class fails.
The class that is given has the name, and is found by it afterwards, exactly when the name is the
one spelling of its class. -/
theorem resolve_canonical_iff (h : m.Reachable start fun _ => True) :
    ((Action.resolve path name m).1 = .error (.broken .arrayOfVoid) ↔
        Action.MeetsVoidArray path m name) ∧
      (Answers (Action.resolve path name m).1 ↔ ¬ Action.MeetsVoidArray path m name) ∧
      ∀ c m', Action.resolve path name m = (.ok c, m') →
        ∃ cls, m'.classes.get? c = some cls ∧
          (cls.name = name ∧ m'.classes.find? name = some c ↔ m.classes.Canonical name) := by
  have hplain : ∀ n, PlainName n → (fun _ : String => True) n := fun _ _ => trivial
  have hw := h.wellFormed hplain
  have hvoid : (Action.resolve path name m).1 = .error (.broken .arrayOfVoid) ↔
      Action.MeetsVoidArray path m name := by
    rw [Action.fault_of_resolve_iff hplain hw fun t h => Stop.noConfusion h]
    exact and_iff_right rfl
  refine ⟨hvoid, ⟨fun hanswers hmeets => ?_, fun hnot => ?_⟩, fun c m' hrun => ?_⟩
  · rw [hvoid.mpr hmeets] at hanswers
    exact not_answers_broken _ hanswers
  · cases hr : (Action.resolve path name m).1 with
    | ok c => exact answers_ok c
    | error e =>
      by_cases he : ∃ t, e = .thrown t
      · obtain ⟨t, rfl⟩ := he
        exact answers_thrown t
      · exact absurd ((Action.fault_of_resolve_iff hplain hw (not_exists.mp he)).mp hr).2 hnot
  · obtain ⟨cls, hc, _, hname⟩ := Action.name_of_resolve hplain hw hrun
    have hw' := ((Action.takes_resolve hplain path name).of_eq hrun).1.wellFormed hw
    refine ⟨cls, hc, fun h => hname.mp h.1, fun h => ⟨hname.mpr h, ?_⟩⟩
    rw [← hname.mpr h]
    exact hw'.classes.unique.find?_name hc

/-- A primitive class spelled as other components are is not the one spelling of its array class,
and `void` is met behind two brackets. -/
theorem resolve_canonical_new :
    ¬ ({} : Machine).classes.Canonical "[Lint;" ∧
      Action.MeetsVoidArray {} {} "[[Lvoid;" := by
  have hreach : Reachable {} (fun _ => True) {} := reachable_new
  have hint : (Action.resolve {} "[Lint;" {}).1.toOption = some ⟨26⟩ := by decide +kernel
  have hname : ((Action.resolve {} "[Lint;" {}).2.classes.get? ⟨26⟩).map Class.name =
      some "[I" := by decide +kernel
  have hvoid : ¬ Answers (Action.resolve {} "[[Lvoid;" {}).1 := by decide +kernel
  constructor
  · intro hcanonical
    rcases hrun : Action.resolve {} "[Lint;" {} with ⟨e | c, m'⟩
    · rw [hrun] at hint
      cases hint
    · rw [hrun] at hint hname
      cases hint
      obtain ⟨cls, hc, hiff⟩ := (resolve_canonical_iff hreach).2.2 ⟨26⟩ m' hrun
      rw [hc, Option.map_some, (hiff.mpr hcanonical).1] at hname
      exact absurd hname (by decide)
  · exact Classical.byContradiction fun hnot =>
      hvoid ((resolve_canonical_iff hreach).2.1.mpr hnot)

/-- In a new machine, one name is resolved to a class of another name, and one to neither a class
nor an exception. -/
theorem resolve_of_other_name :
    Reachable {} (fun _ => True) {} ∧
      (Action.resolve {} "[Lint;" {}).1.toOption = some ⟨26⟩ ∧
      ((Action.resolve {} "[Lint;" {}).2.classes.get? ⟨26⟩).map Class.name = some "[I" ∧
      (Action.resolve {} "[Lint;" {}).2.classes.find? "[Lint;" = none ∧
      ¬ Answers (Action.resolve {} "[Lvoid;" {}).1 := by
  refine ⟨reachable_new, ?_⟩
  decide +kernel

end Machine

end JavaMachine

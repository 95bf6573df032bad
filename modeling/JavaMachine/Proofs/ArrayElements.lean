/-
# Elements of arrays of references

Only a write to one element looks at the class of what is written.  A copy goes by the classes of the
two arrays, and the array of a stack trace is filled as it is.  Still every element of an array of
references that is not null is a live object of a class whose values the component class takes
(`Machine.elements_assignable`), as long as no class file has the name of an array class and no
collection frees what something that it keeps refers to.

An element that fits goes on fitting (`Machine.Accepts.mono`): classes that come in later take back no
answer (`ClassTable.Extends.isAssignable_of_true`), and an object keeps its class as long as it is live.
-/
import JavaMachine.Proofs.ArrayClasses
import JavaMachine.Proofs.ArraySafety
import JavaMachine.Proofs.HeapRuns

namespace JavaMachine

/-! ## What is written into an array -/

namespace ArrayBody

variable {a b src dst : ArrayBody} {slots : List (Option ObjectRef)} {x : ObjectRef}

/-- After a write to an element, an array refers to what it referred to before and to the element. -/
theorem mem_of_store? {i : Nat} {w : Value} (h : a.store? i w = some (.references slots))
    (hx : some x ∈ slots) :
    (∃ before, a = .references before ∧ some x ∈ before) ∨ w = .reference (some x) := by
  cases a with
  | primitive p data =>
    simp only [store?, Option.map_eq_some_iff] at h
    obtain ⟨_, _, h⟩ := h
    cases h
  | references before =>
    cases w with
    | reference target =>
      simp only [store?] at h
      split at h
      · cases h
        rcases List.mem_or_eq_of_mem_set hx with hmem | heq
        · exact Or.inl ⟨before, rfl, hmem⟩
        · exact Or.inr (by rw [heq])
      · cases h
    | _ => cases h

/-- What is in an array after others were written over a part of it was in it or is one of those. -/
theorem mem_of_splice? {α : Type} {l items out : List α} {start : Nat} {y : α}
    (h : splice? l start items = some out) (hy : y ∈ out) : y ∈ l ∨ y ∈ items := by
  unfold splice? at h
  split at h
  · cases h
    simp only [overwrite, List.mem_append] at hy
    rcases hy with (hy | hy) | hy
    · exact Or.inl (List.mem_of_mem_take hy)
    · exact Or.inr hy
    · exact Or.inl (List.mem_of_mem_drop hy)
  · cases h

theorem mem_of_slice? {α : Type} {l items : List α} {start count : Nat} {y : α}
    (h : slice? l start count = some items) (hy : y ∈ items) : y ∈ l := by
  unfold slice? at h
  split at h
  · cases h
    exact List.mem_of_mem_drop (List.mem_of_mem_take hy)
  · cases h

/-- After a copy, an array refers to what it or the source referred to before. -/
theorem mem_of_copy? {i j n : Nat} (h : src.copy? i dst j n = some (.references slots))
    (hx : some x ∈ slots) :
    ∃ before, (src = .references before ∨ dst = .references before) ∧ some x ∈ before := by
  cases src with
  | references s =>
    cases dst with
    | references d =>
      obtain ⟨items, hitems, h⟩ := Option.bind_eq_some_iff.mp h
      obtain ⟨out, hout, h⟩ := Option.bind_eq_some_iff.mp h
      cases h
      rcases mem_of_splice? hout hx with hmem | hmem
      · exact ⟨d, Or.inr rfl, hmem⟩
      · exact ⟨s, Or.inl rfl, mem_of_slice? hitems hmem⟩
    | primitive q d => cases h
  | primitive p s =>
    cases dst with
    | references d => cases h
    | primitive q d =>
      obtain ⟨items, _, h⟩ := Option.bind_eq_some_iff.mp h
      obtain ⟨out, _, h⟩ := Option.bind_eq_some_iff.mp h
      cases h

end ArrayBody

/-! ## Answers that last -/

/-- A class whose elements take bytes has a component class. -/
theorem Class.exists_component? {cls : Class} (h : cls.elementSize ≠ 0) :
    ∃ component, cls.component? = some component := by
  have harray := cls.elementSize_pos_iff.mp (Nat.pos_of_ne_zero h)
  obtain ⟨element, component, hkind⟩ := Class.isArray_iff.mp harray
  exact ⟨component, by rw [Class.component?, hkind]⟩

namespace ClassTable

variable {t t' : ClassTable}

/-- What can be stored where a class is expected can be stored there in every extension. -/
theorem Extends.isAssignable_of_true (h : t.Extends t') {target source : ClassId}
    (ha : t.isAssignable target source = true) : t'.isAssignable target source = true := by
  generalize hn : target.index = n
  induction n using Nat.strongRecOn generalizing target source with
  | ind n ih =>
    by_cases hsame : target = source
    · rw [isAssignable, if_pos hsame]
    · rw [isAssignable, if_neg hsame] at ha ⊢
      cases htc : t.get? target with
      | none =>
        rw [htc] at ha
        cases ha
      | some tc =>
        cases hsc : t.get? source with
        | none =>
          rw [htc, hsc] at ha
          cases ha
        | some sc =>
          obtain ⟨tc', htc', hte⟩ := h target tc htc
          obtain ⟨sc', hsc', hse⟩ := h source sc hsc
          have hlt := lt_size_of_get? hsc
          have himplements := h.agreesOn.implements (fun _ _ hc hd => Nat.lt_trans hd hc) hlt target
          have hancestors := h.ancestors hlt
          rw [htc, hsc] at ha
          rw [htc', hsc']
          simp only [Class.eq_of_fixed hte Class.kind fun _ => rfl,
            Class.eq_of_fixed hse Class.kind fun _ => rfl,
            Class.eq_of_fixed hte Class.isInterface fun _ => rfl, ← himplements, isSubclass,
            hancestors]
          simp only [isSubclass] at ha
          -- Only the components of two arrays are looked at in the other table.
          split at ha
          · exact ha
          · exact ha
          · exact ha
          · split at ha
            · next hindex => simpa [hindex] using ih _ (hn ▸ hindex) ha rfl
            · cases ha
          · cases ha

/-- The class that is given as the array class over another one is one, where no class file has the
name of an array class. -/
theorem WellFormed.component?_of_arrayClass (h : t.WellFormed PlainName) {component c : ClassId}
    (harray : t.arrayClass component = .ok (t', c)) :
    ∃ cls, t'.get? c = some cls ∧ cls.component? = some component := by
  obtain ⟨ccls, name, element, hc, hshape, ⟨hfind, rfl⟩ | ⟨_, rfl, rfl⟩⟩ := arrayClass_eq_ok harray
  · obtain ⟨cls, hcls, hname⟩ := get?_of_find? hfind
    refine ⟨cls, hcls, ?_⟩
    rcases h.kind_of_find? hc hshape hcls hname with hkind | hkind
    · rw [Class.component?, hkind]
    · have hisname : IsArrayName cls.name := hname ▸ isArrayName_of_arrayShape? hshape
      obtain ⟨_, _, hkind'⟩ := Class.isArray_iff.mp (h.isArray_of_isArrayName hcls hisname)
      rw [hkind] at hkind'
      cases hkind'
  · exact ⟨_, get?_push_nextId .., rfl⟩

end ClassTable

/-! ## Elements that fit -/

namespace Machine

variable {m m' : Machine} {r x : ObjectRef} {o : Object}

/-- An array of a class may refer to an object: it is live, and the component class takes it. -/
def Accepts (m : Machine) (owner : ClassId) (x : ObjectRef) : Prop :=
  ∃ cls component e, m.classes.get? owner = some cls ∧ cls.component? = some component ∧
    m.heap.get? x = some e ∧ m.classes.isAssignable component e.owner = true

/-- An array goes on taking an object, as long as that is live. -/
theorem Accepts.mono {owner : ClassId} (h : m.Accepts owner x)
    (hext : m.classes.Extends m'.classes)
    (hlive : ∀ e, m.heap.get? x = some e → ∃ e', m'.heap.get? x = some e' ∧ e'.owner = e.owner) :
    m'.Accepts owner x := by
  obtain ⟨cls, component, e, hcls, hcomponent, he, ha⟩ := h
  obtain ⟨cls', hcls', hfixed⟩ := hext owner cls hcls
  obtain ⟨e', he', howner⟩ := hlive e he
  refine ⟨cls', component, e', hcls', ?_, he', ?_⟩
  · rw [Class.eq_of_fixed hfixed Class.component? fun _ => rfl]
    exact hcomponent
  · rw [howner]
    exact hext.isAssignable_of_true ha

/-- All arrays of references refer to objects that they may refer to. -/
def ElementsFit (m : Machine) : Prop :=
  ∀ r o slots x, m.heap.get? r = some o → o.body = .array (.references slots) → some x ∈ slots →
    m.Accepts o.owner x

/-- A machine whose accounts agree, with elements that fit. -/
structure Ordered (m : Machine) : Prop where
  sound : m.heap.Sound
  written : m.heap.WrittenLive
  fit : m.ElementsFit

/-- From a machine in order one comes to a machine in order, in which the classes and the live objects
of the first one are still there. -/
def KeepsOrder (m m' : Machine) : Prop :=
  m.Ordered → m'.Ordered ∧ m.classes.Extends m'.classes ∧ m.heap.Keeps m'.heap

instance : IsPreorder Machine KeepsOrder where
  refl m h := ⟨h, .refl _, .refl _⟩
  trans _ _ _ h₁ h₂ h := by
    obtain ⟨h', hext, hkeeps⟩ := h₁ h
    obtain ⟨h'', hext', hkeeps'⟩ := h₂ h'
    exact ⟨h'', hext.trans hext', hkeeps.trans hkeeps'⟩

theorem Accepts.of_keeps {owner : ClassId} (h : m.Accepts owner x)
    (hext : m.classes.Extends m'.classes) (hkeeps : m.heap.Keeps m'.heap) :
    m'.Accepts owner x := by
  refine h.mono hext fun e he => ?_
  obtain ⟨e', he', howner, _⟩ := hkeeps x e he
  exact ⟨e', he', howner⟩

/-- Changes of a heap keep it in order, where each array refers in the end to what it could refer to
before. -/
theorem keepsOrder_of_changes (hchanges : m.HeapChanges m') (hext : m.classes.Extends m'.classes)
    (hfit : m.Ordered → ∀ r o slots x, m'.heap.get? r = some o →
      o.body = .array (.references slots) → some x ∈ slots → m.Accepts o.owner x) :
    m.KeepsOrder m' := by
  intro h
  obtain ⟨hs, hw, hkeeps⟩ := Heap.changes_spec hchanges h.sound h.written
  refine ⟨⟨hs, hw, fun r o slots x ho hbody hx => ?_⟩, hext, hkeeps⟩
  exact (hfit h r o slots x ho hbody hx).of_keeps hext hkeeps

/-- The class table may grow, and what is no object may change at will. -/
theorem keepsOrder_of_heap_eq (hheap : m'.heap = m.heap) (hext : m.classes.Extends m'.classes) :
    m.KeepsOrder m' := by
  refine keepsOrder_of_changes (heapChanges_of_eq hheap) hext fun h r o slots x ho hbody hx => ?_
  rw [hheap] at ho
  exact h.fit r o slots x ho hbody hx

/-- The same where the contents of one object are replaced. -/
theorem keepsOrder_of_updateBody {body : Body} (hchanges : m.HeapChanges m')
    (hclasses : m'.classes = m.classes) (ho : m.heap.get? r = some o)
    (hget : ∀ p, m'.heap.get? p = (m.heap.updateBody r fun _ => body).get? p)
    (hfit : m.Ordered → ∀ slots x, body = .array (.references slots) → some x ∈ slots →
      m.Accepts o.owner x) : m.KeepsOrder m' := by
  refine keepsOrder_of_changes hchanges (hclasses ▸ .refl _) fun h p q slots x hq hbody hx => ?_
  rw [hget, Heap.get?_updateBody] at hq
  split at hq
  · next hp =>
    rw [hp, ho] at hq
    cases hq
    exact hfit h slots x hbody hx
  · exact h.fit p q slots x hq hbody hx

/-! ## Writes -/

theorem keepsOrder_allocate (m : Machine) (owner : ClassId) {body : Body} (hblank : body.Blank) :
    m.KeepsOrder { m with heap := (m.heap.allocate owner body).1 } := by
  refine keepsOrder_of_changes (.single (.allocate owner hblank)) (.refl _) ?_
  intro h p q slots x hq hbody hx
  rw [(h.sound.allocate_spec owner body).2] at hq
  split at hq
  · cases hq
    have hnew : body = .array (.references slots) := hbody
    cases hblank (some x) (by rw [hnew]; exact hx)
  · exact h.fit p q slots x hq hbody hx

/-- A field lies in an object that is no array. -/
theorem keepsOrder_setField {f : Field} {target : Option ObjectRef} {v : Value}
    (h : m.setField f target v = .ok m') : m.KeepsOrder m' := by
  have hchanges := heapChanges_setField h
  rcases setField_eq_ok h with ⟨w, hw, ⟨_, _, rfl⟩ | ⟨_, r, o, body, _, ho, _, hstore, rfl⟩⟩
  · refine keepsOrder_of_changes hchanges (ClassTable.extends_update fun _ => rfl) ?_
    exact fun h r o slots x ho hbody hx => h.fit r o slots x ho hbody hx
  · refine keepsOrder_of_updateBody hchanges rfl ho (get?_writeBody m r body w) ?_
    rintro _ slots x rfl _
    have hsame := (Body.store?_eq_some (tag_coerceFor hw) hstore).1
    cases hbody : o.body with
    | fields bytes refs =>
      rw [hbody] at hsame
      cases hsame
    | _ =>
      rw [hbody] at hstore
      cases hstore

/-- A reference that is taken as an element is live, and the component class takes it. -/
theorem accepts_of_elementFor {cls : Class} {component owner : ClassId} {v : Value}
    (h : m.elementFor cls v = .ok (.reference (some x))) (hcls : m.classes.get? owner = some cls)
    (hcomponent : cls.component? = some component) : m.Accepts owner x := by
  obtain ⟨w, _, h⟩ := bind_eq_ok.mp h
  split at h
  · next y d hd _ =>
    obtain ⟨source, hsource, h⟩ := bind_eq_ok.mp h
    obtain ⟨e, he, rfl⟩ := classOf_eq_ok hsource
    split at h
    · next ha =>
      cases h
      exact ⟨cls, d, e, hcls, hd, he, ha⟩
    · obtain ⟨_, _, h⟩ := bind_eq_ok.mp h
      cases h
  · next hother =>
    cases h
    exact absurd hcomponent (hother x component rfl)

theorem keepsOrder_arrayStore {array : Option ObjectRef} {index : Int32} {v : Value}
    (h : m.arrayStore array index v = .ok m') : m.KeepsOrder m' := by
  have hchanges := heapChanges_arrayStore h
  obtain ⟨r, o, cls, a, i, w, b, _, ho, hcls, hsize, ha, hw, hstore, rfl⟩ := arrayStore_found h
  obtain ⟨o', ho', hbody⟩ := arrayBody_eq_ok ha
  rw [ho, Option.some.injEq] at ho'
  subst ho'
  refine keepsOrder_of_updateBody hchanges rfl ho (get?_writeArray m r b) ?_
  rintro hm slots x ⟨⟩ hx
  rcases ArrayBody.mem_of_store? hstore hx with ⟨before, rfl, hmem⟩ | rfl
  · exact hm.fit r o before x ho hbody hmem
  · obtain ⟨component, hcomponent⟩ := Class.exists_component? hsize
    exact accepts_of_elementFor hw hcls hcomponent

/-- Two arrays of one class may refer to the same objects. -/
theorem keepsOrder_arrayCopy {src dst : Option ObjectRef} {srcPos dstPos count : Int32}
    (h : m.arrayCopy src srcPos dst dstPos count = .ok m') : m.KeepsOrder m' := by
  have hchanges := heapChanges_arrayCopy h
  rcases arrayCopy_found h with rfl |
    ⟨s, d, so, o, a, b, i, j, n, out, _, _, hso, ho, howner, ha, hb, hcopy, rfl⟩
  · exact refl m'
  · obtain ⟨so', hso', hsbody⟩ := arrayBody_eq_ok ha
    obtain ⟨o', ho', hbody⟩ := arrayBody_eq_ok hb
    rw [hso, Option.some.injEq] at hso'
    rw [ho, Option.some.injEq] at ho'
    subst hso' ho'
    refine keepsOrder_of_updateBody hchanges rfl ho (fun p => Heap.get?_noteWrite ..) ?_
    rintro hm slots x ⟨⟩ hx
    obtain ⟨before, rfl | rfl, hmem⟩ := ArrayBody.mem_of_copy? hcopy hx
    · exact howner ▸ hm.fit s so before x hso hsbody hmem
    · exact hm.fit d o before x ho hbody hmem

theorem keepsOrder_writeBytes {buffer : ObjectRef} {offset : Int32} {bytes : Bytes}
    (h : Builtin.writeBytes m buffer offset bytes = .ok m') : m.KeepsOrder m' := by
  have hchanges := heapChanges_writeBytes h
  obtain ⟨a, data, ha, _, rfl⟩ := Action.writeBytes_eq_ok h
  obtain ⟨o, ho, _⟩ := arrayBody_eq_ok ha
  refine keepsOrder_of_updateBody hchanges rfl ho (get?_writeArray m buffer _) ?_
  rintro _ slots x ⟨⟩

/-- What operations do at the bottom keeps a machine in order. -/
theorem allows_keepsOrder : Allows KeepsOrder where
  classes hheap _ _ hext := keepsOrder_of_heap_eq hheap hext
  allocate := keepsOrder_allocate
  intern m s _ := by
    have hblank : (Body.string s).Blank := Body.blank_of_references_eq_nil rfl
    exact IsTrans.trans _ _ _ (keepsOrder_allocate m .string hblank)
      (keepsOrder_of_heap_eq rfl (.refl _))
  setField := keepsOrder_setField
  arrayStore := keepsOrder_arrayStore
  arrayCopy := keepsOrder_arrayCopy
  writeBytes := keepsOrder_writeBytes

end Machine

/-! ## The array of a stack trace -/

namespace Action

open Machine (KeepsOrder Ordered allows_keepsOrder)

variable {m : Machine}

/-- A new object is live, and of the class that it was made with. -/
theorem takes_allocate_live (h : m.Ordered) (owner : ClassId) {body : Body} (hblank : body.Blank) :
    Takes KeepsOrder m (allocate owner body) fun r m' =>
      m'.classes = m.classes ∧ ∃ o, m'.heap.get? r = some o ∧ o.owner = owner := by
  refine ⟨Machine.keepsOrder_allocate m owner hblank, ?_⟩
  rintro r ⟨⟩
  refine ⟨rfl, m.heap.nextObject owner body, ?_, rfl⟩
  exact ((h.sound.allocate_spec owner body).2 _).trans (if_pos rfl)

/-- A new array is live, and of an array class over the class that was asked for. -/
theorem takes_newArray_live (hw : m.WellFormed PlainName) (h : m.Ordered) (component : ClassId)
    (length : Int32) :
    Takes KeepsOrder m (newArray component length) fun r m' =>
      ∃ o cls, m'.heap.get? r = some o ∧ m'.classes.get? o.owner = some cls ∧
        cls.component? = some component := by
  unfold newArray
  dsimp only
  refine takes_check fun _ => takes_get_bind (takes_lift_bind fun _ _ => takes_check fun _ => ?_)
  have hclass : Takes KeepsOrder m (arrayClass component) fun c m' =>
      ∃ cls, m'.classes.get? c = some cls ∧ cls.component? = some component := by
    refine takes_get_bind (takes_lift_bind ?_)
    rintro ⟨classes, c⟩ hfound
    have hext : m.classes.Extends classes := ClassTable.extends_of_arrayClass hfound
    have hcls := hw.classes.component?_of_arrayClass hfound
    exact takes_modify_bind (Machine.keepsOrder_of_heap_eq rfl hext) (takes_pure hcls)
  refine hclass.bind ?_
  rintro c m₁ hkeeps ⟨cls, hcls, hcomponent⟩
  refine takes_get_bind (takes_lift_bind fun _ _ => ?_)
  refine (takes_allocate_live (hkeeps h).1 c (Body.blank_zeroed _ _)).mono ?_
  rintro r m₂ _ ⟨hclasses, o, ho, rfl⟩
  exact ⟨o, cls, ho, hclasses ▸ hcls, hcomponent⟩

/-- Filling an array keeps a machine in order, with references that the array may hold. -/
theorem follows_fillArray {array : ObjectRef} {o : Object} {refs : List (Option ObjectRef)}
    (ho : m.heap.get? array = some o) (hrefs : ∀ x, some x ∈ refs → m.Accepts o.owner x) :
    Follows KeepsOrder m (Builtin.fillArray array refs) := by
  refine takes_get_bind (takes_lift_bind fun a ha => ?_)
  split
  · next slots =>
    dsimp only
    split
    · exact (takes_abort (Q := fun _ _ => False) _).bind fun _ _ _ h => h.elim
    · next hlength =>
      have hsame : (ArrayBody.references slots).SameShape (.references refs) :=
        (Decidable.not_not.mp hlength).symm
      have hchanges : m.HeapChanges { m with
          heap := (m.heap.updateBody array fun _ => .array (.references refs)).noteWrite array } :=
        Machine.heapChanges_of_store ha hsame rfl
      refine takes_modify (Machine.keepsOrder_of_updateBody hchanges rfl ho
        (fun p => Heap.get?_noteWrite ..) ?_) trivial
      rintro _ slots' x ⟨⟩ hx
      exact hrefs x hx
  · exact takes_abort _

/-- The lines of a stack trace are of the class over which their array is made. -/
theorem follows_resolveTrace (hw : m.WellFormed PlainName) (h : m.Ordered) (args : Arguments) :
    Follows KeepsOrder m (Builtin.throwableResolveTrace args) := by
  refine follows_liftThrowable_bind fun r => takes_get_bind (follows_lift_bind fun trace => ?_)
  split
  · refine follows_lift_bind fun lines => (takes_newArray_live hw h _ _).bind ?_
    rintro array m₁ h₁ ⟨o, cls, ho, hcls, hcomponent⟩
    have hm₁ := (h₁ h).1
    have hlines : Takes KeepsOrder m₁
        (lines.mapM fun l => allocate .stackTraceElement (.traceLine l)) _ :=
      takes_mapM_lasting (I := Ordered)
        (P := fun (x : ObjectRef) m => ∃ e, m.heap.get? x = some e ∧ e.owner = .stackTraceElement)
        lines ?_ ?_ hm₁
    · refine hlines.bind ?_
      rintro refs m₂ h₂ ⟨hrefs, hm₂⟩
      obtain ⟨_, hext, hkeeps⟩ := h₂ hm₁
      obtain ⟨o₂, ho₂, howner, _⟩ := hkeeps array o ho
      have hfit : ∀ x, some x ∈ refs.map some → m₂.Accepts o₂.owner x := by
        intro x hx
        obtain ⟨_, hmem, ⟨⟩⟩ := List.mem_map.mp hx
        obtain ⟨e, he, hline⟩ := hrefs x hmem
        obtain ⟨cls₂, hcls₂, hfixed⟩ := hext _ _ hcls
        refine ⟨cls₂, .stackTraceElement, e, howner ▸ hcls₂, ?_, he, ?_⟩
        · rw [Class.eq_of_fixed hfixed Class.component? fun _ => rfl]
          exact hcomponent
        · rw [hline, ClassTable.isAssignable, if_pos rfl]
      exact (follows_fillArray ho₂ hfit).bind_pure
    · rintro x m₂ m₃ hm₂ h₂ ⟨e, he, howner⟩
      obtain ⟨e', he', howner', _⟩ := (h₂ hm₂).2.2 x e he
      exact ⟨e', he', howner'.trans howner⟩
    · intro l m₂ hm₂
      have hblank : (Body.traceLine l).Blank := Body.blank_of_references_eq_nil rfl
      refine (takes_allocate_live hm₂ .stackTraceElement hblank).mono ?_
      rintro x m₃ h₃ ⟨_, hx⟩
      exact ⟨hx, (h₃ hm₂).1⟩
  · exact takes_raise _

end Action

/-! ## Runs -/

/-- What keeps an object keeps all that it refers to. -/
def Heap.KeepsReferred (h : Heap) (keep : ObjectRef → Object → Bool) : Prop :=
  ∀ r o x e, h.get? r = some o → keep r o = true → some x ∈ o.body.references →
    h.get? x = some e → keep x e = true

/-- It is enough to look at the live objects. -/
theorem Heap.keepsReferred_iff {h : Heap} {keep : ObjectRef → Object → Bool} :
    h.KeepsReferred keep ↔ ∀ p ∈ h.objects, keep p.1 p.2 = true → ∀ q ∈ h.objects,
      some q.1 ∈ p.2.body.references → keep q.1 q.2 = true := by
  constructor
  · rintro hkeep ⟨r, o⟩ hp hkept ⟨x, e⟩ hq hmem
    exact hkeep r o x e (mem_objects_iff.mp hp) hkept hmem (mem_objects_iff.mp hq)
  · intro hall r o x e ho hkept hmem he
    exact hall (r, o) (mem_objects_iff.mpr ho) hkept (x, e) (mem_objects_iff.mpr he) hmem

instance (h : Heap) (keep : ObjectRef → Object → Bool) : Decidable (h.KeepsReferred keep) :=
  decidable_of_iff _ Heap.keepsReferred_iff.symm

namespace Machine

variable {path : ClassPath} {m m' : Machine} {r : ObjectRef} {o : Object}

/-- A step of a run in which collections are careful: an operation, objects that are freed, a write to
a live object that is recorded, the taking of the list of those written to, or a change of what is no
class and no object.  A class file that is defined has no name of an array class, and a collection
frees nothing that an object it keeps refers to. -/
inductive CarefulStep (path : ClassPath) : Machine → Machine → Prop
  | operation {m : Machine} (op : Operation) (hop : op.Admissible PlainName m)
      (hkeep : ∀ t keep, op = .collect t keep → m.heap.KeepsReferred keep) :
      CarefulStep path m (op.run path m).2
  | sweep {m : Machine} {keep : ObjectRef → Object → Bool} (hkeep : m.heap.KeepsReferred keep) :
      CarefulStep path m { m with heap := (m.heap.sweep keep).1 }
  | noteWrite {m : Machine} {r : ObjectRef} (hlive : (m.heap.get? r).isSome) :
      CarefulStep path m { m with heap := m.heap.noteWrite r }
  | takeWritten {m : Machine} : CarefulStep path m { m with heap := m.heap.takeWritten.1 }
  | elsewhere {m m' : Machine} (hclasses : m'.classes = m.classes) (hheap : m'.heap = m.heap) :
      CarefulStep path m m'

/-- A run with careful collections leads from one machine to another. -/
def CarefulRun (path : ClassPath) : Machine → Machine → Prop :=
  Relation.ReflTransGen (CarefulStep path)

/-- A careful collection leaves a machine in order. -/
theorem Ordered.sweep (h : m.Ordered) {keep : ObjectRef → Object → Bool}
    (hkeep : m.heap.KeepsReferred keep) (hheap : m'.heap = (m.heap.sweep keep).1)
    (hext : m.classes.Extends m'.classes) : m'.Ordered := by
  refine ⟨hheap ▸ h.sound.sweep keep, hheap ▸ m.heap.writtenLive_sweep keep, ?_⟩
  intro r o slots x ho hbody hx
  rw [hheap, Heap.get?_sweep_iff h.sound] at ho
  refine (h.fit r o slots x ho.1 hbody hx).mono hext fun e he => ⟨e, ?_, rfl⟩
  rw [hheap, Heap.get?_sweep_iff h.sound]
  refine ⟨he, hkeep r o x e ho.1 ho.2 ?_ he⟩
  rw [hbody]
  exact hx

/-- A machine in which no object is new is well formed where the first one is. -/
theorem wellFormed_of_get? {named : String → Prop} (hw : m.WellFormed named)
    (hclasses : m'.classes = m.classes)
    (hget : ∀ r o, m'.heap.get? r = some o → m.heap.get? r = some o) : m'.WellFormed named := by
  refine Step.wellFormed (.objects hclasses fun r o ho => Or.inr ?_) hw
  exact ⟨o, hget r o ho, rfl, o.body.sameShape_refl⟩

theorem CarefulStep.wellFormed (h : CarefulStep path m m') (hw : m.WellFormed PlainName) :
    m'.WellFormed PlainName := by
  cases h with
  | operation op hop hkeep =>
    have hstep : Operates path PlainName m (op.run path m).2 := .operation op hop
    exact wellFormed_of_steps (hstep.steps (fun _ hn => hn) hw) hw
  | sweep hkeep => exact wellFormed_of_get? hw rfl fun _ _ ho => Heap.get?_sweep ho
  | noteWrite hlive =>
    exact wellFormed_of_get? hw rfl fun r o ho => (Heap.get?_noteWrite ..).symm.trans ho
  | takeWritten => exact wellFormed_of_get? hw rfl fun _ _ ho => ho
  | elsewhere hclasses hheap => exact wellFormed_of_get? hw hclasses fun _ _ ho => hheap ▸ ho

/-- A step with careful collections leaves a machine in order. -/
theorem CarefulStep.ordered (h : CarefulStep path m m') (hw : m.WellFormed PlainName)
    (ho : m.Ordered) : m'.Ordered := by
  cases h with
  | operation op hop hkeep =>
    by_cases hcollect : ∃ t keep, op = .collect t keep
    · obtain ⟨t, keep, rfl⟩ := hcollect
      have hevolves : m.Evolves PlainName (Action.collect t keep m).2 :=
        (Action.takes_collect t keep).1
      have hext := hevolves.extends
      rw [Operation.state_run (a := Action.collect t keep) rfl]
      rcases Action.heap_collect t keep m with hsame | hswept
      · exact (keepsOrder_of_heap_eq hsame hext ho).1
      · exact ho.sweep (hkeep t keep rfl) hswept hext
    · have hother : ∀ t keep, op ≠ .collect t keep :=
        fun t keep hop => hcollect ⟨t, keep, hop⟩
      have hfollows := Action.follows_operation allows_keepsOrder path op
        (fun args _ => Action.follows_resolveTrace hw ho args) hother
      exact (hfollows.1 ho).1
  | sweep hkeep => exact ho.sweep hkeep rfl (.refl _)
  | noteWrite hlive =>
    refine ⟨ho.sound.noteWrite _, ho.written.noteWrite hlive, fun p q slots x hq hbody hx => ?_⟩
    rw [Heap.get?_noteWrite] at hq
    refine (ho.fit p q slots x hq hbody hx).mono (.refl _) fun e he => ⟨e, ?_, rfl⟩
    exact (Heap.get?_noteWrite ..).trans he
  | takeWritten =>
    exact ⟨ho.sound.of_written [], fun _ hr => absurd hr List.not_mem_nil, ho.fit⟩
  | elsewhere hclasses hheap => exact (keepsOrder_of_heap_eq hheap (hclasses ▸ .refl _) ho).1

theorem ordered_new : Ordered {} where
  sound := Heap.sound_new
  written _ hr := absurd hr List.not_mem_nil
  fit := by
    intro r o slots x ho
    cases ho

/-- A run with careful collections leads to a machine that is well formed and in order. -/
theorem CarefulRun.ordered (h : CarefulRun path {} m) : m.WellFormed PlainName ∧ m.Ordered := by
  induction h with
  | refl => exact ⟨wellFormed_new PlainName, ordered_new⟩
  | tail _ hstep ih => exact ⟨hstep.wellFormed ih.1, hstep.ordered ih.1 ih.2⟩

/-- However a machine came about, with class files that have no name of an array class and collections
that free nothing that is still referred to from what they keep: the class of a live array of
references is an array class over some component class, and every element that is not null is a live
object whose class can be stored where the component class is expected. -/
theorem elements_assignable (h : CarefulRun path {} m) {slots : List (Option ObjectRef)}
    (ho : m.heap.get? r = some o) (hbody : o.body = .array (.references slots)) :
    ∃ cls component, m.classes.get? o.owner = some cls ∧ cls.kind = .array .reference component ∧
      ∀ x, some x ∈ slots → ∃ e, m.heap.get? x = some e ∧
        m.classes.isAssignable component e.owner = true := by
  obtain ⟨hw, hordered⟩ := h.ordered
  obtain ⟨cls, hcls⟩ := hw.exists_class ho
  have helement : cls.element? = some .reference := by
    rcases hw.body_cases ho hcls with ⟨a, ha, _, helement⟩ | ⟨hnone, _⟩
    · rw [hbody] at ha
      cases ha
      exact helement
    · exact absurd hbody (hnone _)
  obtain ⟨component, hkind⟩ : ∃ component, cls.kind = .array .reference component := by
    unfold Class.element? at helement
    split at helement
    · next component hkind =>
      cases helement
      exact ⟨component, hkind⟩
    · cases helement
  refine ⟨cls, component, hcls, hkind, fun x hx => ?_⟩
  obtain ⟨cls', component', e, hcls', hcomponent, he, ha⟩ := hordered.fit r o slots x ho hbody hx
  rw [hcls, Option.some.injEq] at hcls'
  subst hcls'
  rw [Class.component?, hkind] at hcomponent
  cases hcomponent
  exact ⟨e, he, ha⟩

/-- A machine with an array that was written to and copied within, and with the array of a stack trace
whose slots an earlier object had. -/
def tracingMachine : Machine :=
  [Operation.attach none, .newArray .object 2, .newString "left",
    .arrayStore (some ⟨1⟩) 0 (.ref ⟨2⟩),
    .systemArrayCopy [.ref ⟨1⟩, .int 0, .ref ⟨1⟩, .int 1, .int 1], .newString "gone",
    .collect (.ofNumber 1) fun r _ => r.index ≠ 3,
    .captureTrace
      [{ method := { owner := .object, name := "run", descriptor := "()V", flags := 0, params := [],
                     result := none } }],
    .resolveTrace [.ref ⟨3⟩]].foldl (fun m op => (op.run {} m).2) {}

theorem carefulRun_tracingMachine : CarefulRun {} {} tracingMachine := by
  have hthen : ∀ {m : Machine} (op : Operation), CarefulRun {} {} m → op.Admissible PlainName m →
      (∀ t keep, op ≠ .collect t keep) → CarefulRun {} {} (op.run {} m).2 :=
    fun op hrun hop hno => hrun.tail (.operation op hop fun t keep h => absurd h (hno t keep))
  have hthread := hthen (.attach none) .refl trivial nofun
  have harray := hthen (.newArray .object 2) hthread trivial nofun
  have hstring := hthen (.newString "left") harray trivial nofun
  have hstored := hthen (.arrayStore (some ⟨1⟩) 0 (.ref ⟨2⟩)) hstring trivial nofun
  have hcopied := hthen (.systemArrayCopy [.ref ⟨1⟩, .int 0, .ref ⟨1⟩, .int 1, .int 1]) hstored
    trivial nofun
  have hgone := hthen (.newString "gone") hcopied trivial nofun
  have hcollected := hgone.tail
    (.operation (.collect (.ofNumber 1) fun r _ => r.index ≠ 3) trivial (by
      rintro t keep ⟨⟩
      decide +kernel))
  have htrace := hthen (.captureTrace
      [{ method := { owner := .object, name := "run", descriptor := "()V", flags := 0, params := [],
                     result := none } }]) hcollected trivial nofun
  exact hthen (.resolveTrace [.ref ⟨3⟩]) htrace trivial nofun

theorem elements_assignable_tracingMachine :
    (∃ e, tracingMachine.heap.get? ⟨2⟩ = some e ∧
      tracingMachine.classes.isAssignable .object e.owner = true) ∧
    ∃ e, tracingMachine.heap.get? ⟨5⟩ = some e ∧
      tracingMachine.classes.isAssignable .stackTraceElement e.owner = true := by
  have hfits : ∀ (r x : ObjectRef) (slots : List (Option ObjectRef)) (component : ClassId),
      (tracingMachine.heap.get? r).map Object.body = some (.array (.references slots)) →
      ((tracingMachine.heap.get? r).bind fun o =>
        (tracingMachine.classes.get? o.owner).bind Class.component?) = some component →
      some x ∈ slots → ∃ e, tracingMachine.heap.get? x = some e ∧
        tracingMachine.classes.isAssignable component e.owner = true := by
    intro r x slots component harray hcomponent hx
    obtain ⟨o, ho, hbody⟩ := Option.map_eq_some_iff.mp harray
    obtain ⟨cls, component', hcls, hkind, hall⟩ :=
      elements_assignable carefulRun_tracingMachine ho hbody
    rw [ho, Option.bind_some, hcls, Option.bind_some, Class.component?, hkind] at hcomponent
    cases hcomponent
    exact hall x hx
  constructor
  · exact hfits ⟨1⟩ ⟨2⟩ [some ⟨2⟩, some ⟨2⟩] .object (by decide +kernel) (by decide +kernel) (by simp)
  · exact hfits ⟨4⟩ ⟨5⟩ [some ⟨5⟩] .stackTraceElement (by decide +kernel) (by decide +kernel) (by simp)

end Machine

end JavaMachine

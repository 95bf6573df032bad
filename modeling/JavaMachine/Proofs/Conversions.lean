/-
# Bringing values to a kind

Where a value of some kind is asked for, as an element of an array or as an argument of a call, a box
stands for what is in it, and a primitive value is widened where it has to be.  `Machine.BroughtTo` says
what a value becomes, and `Machine.ConversionRefused` for what reason it is refused.  Every value is one
or the other (`Machine.broughtTo_or_refused`), so that the two tell all that a conversion can come to
(`Machine.coerceFor_eq_ok_iff`, `Machine.coerceFor_eq_error_iff`).
-/
import JavaMachine.Machine.FieldAccess

namespace JavaMachine

/-! ## Widening -/

namespace Value

/-- A value is not widened to its own kind. -/
theorem tag_ne_of_widen? {v w : Value} {t : Tag} (h : v.widen? t = some w) : v.tag ≠ t := by
  unfold widen? at h
  split at h <;> cases h <;> exact fun ht => nomatch ht

/-- Null is not widened. -/
theorem isNull_of_widen? {v w : Value} {t : Tag} (h : v.widen? t = some w) : v.isNull = false := by
  unfold widen? at h
  split at h <;> cases h <;> rfl

/-- A value is brought to a kind when it is of that kind, or widened to it. -/
theorem coerce_eq_ok_iff {v w : Value} {t : Tag} :
    v.coerce t = .ok w ↔ (v.tag = t ∧ w = v) ∨ v.widen? t = some w := by
  unfold coerce
  split
  · next htag =>
    constructor
    · intro h
      exact Or.inl ⟨htag, (Except.ok.inj h).symm⟩
    · rintro (⟨_, rfl⟩ | hw)
      · rfl
      · exact absurd htag (tag_ne_of_widen? hw)
  · next htag =>
    split
    · next hnull =>
      refine ⟨fun h => (nomatch h), ?_⟩
      rintro (⟨h, _⟩ | hw)
      · exact absurd h htag
      · rw [isNull_of_widen? hw] at hnull
        cases hnull
    · cases hw : v.widen? t with
      | none =>
        refine ⟨fun h => (nomatch h), ?_⟩
        rintro (⟨h, _⟩ | h)
        · exact absurd h htag
        · cases h
      | some u =>
        constructor
        · intro h
          exact Or.inr (congrArg some (Except.ok.inj h))
        · rintro (⟨h, _⟩ | h)
          · exact absurd h htag
          · exact congrArg _ (Option.some.inj h)

end Value

namespace Machine

variable {m : Machine} {v w : Value} {t : Tag} {e : Throwable}

/-! ## Conversions -/

/-- What a value stands for where a primitive one is asked for: what is in its box, or itself. -/
inductive Unboxed (m : Machine) : Value → Value → Prop
  | box {r : ObjectRef} {o : Object} {u : Value} (ho : m.heap.get? r = some o)
      (hbody : o.body = .boxed u) : Unboxed m (.ref r) u
  | other {v : Value} (hnone : ∀ r o u, v = .ref r → m.heap.get? r = some o → o.body ≠ .boxed u) :
      Unboxed m v v

/-- A value is brought to a kind: a reference to that of references as it is, and any other value to
its own kind, out of its box, or to one that it is widened to. -/
inductive BroughtTo (m : Machine) : Tag → Value → Value → Prop
  | reference (target : Option ObjectRef) :
      BroughtTo m .reference (.reference target) (.reference target)
  | kept {p : Primitive} {v u : Value} (hu : m.Unboxed v u) (htag : u.tag = .primitive p) :
      BroughtTo m (.primitive p) v u
  | widened {p : Primitive} {v u w : Value} (hu : m.Unboxed v u)
      (hw : u.widen? (.primitive p) = some w) : BroughtTo m (.primitive p) v w

/-- A value is not brought to a kind: null to none that is primitive, and no value to a kind that it
is not widened to. -/
inductive ConversionRefused (m : Machine) : Tag → Value → Throwable → Prop
  | null {p : Primitive} {v : Value} (hu : m.Unboxed v .null) :
      ConversionRefused m (.primitive p) v .nullPointer
  | toPrimitive {p : Primitive} {v u : Value} (hu : m.Unboxed v u) (hnull : u ≠ .null)
      (htag : u.tag ≠ .primitive p) (hw : u.widen? (.primitive p) = none) :
      ConversionRefused m (.primitive p) v
        (.illegalArgument ("cannot convert " ++ u.tag.name ++ " to " ++ p.name))
  | toReference {v : Value} (htag : v.tag ≠ .reference) :
      ConversionRefused m .reference v
        (.illegalArgument ("cannot convert " ++ v.tag.name ++ " to " ++ Tag.reference.name))

/-- Unboxing gives what is in a box. -/
theorem unbox_of_boxed {r : ObjectRef} {o : Object} {v : Value} (ho : m.heap.get? r = some o)
    (hbody : o.body = .boxed v) : m.heap.unbox (.reference (some r)) = v := by
  unfold Heap.unbox
  dsimp only
  rw [ho, Option.map_some, hbody]

/-- What is in a box, and anything else as it is, is what unboxing gives. -/
theorem unboxed_iff {u : Value} : m.Unboxed v u ↔ m.heap.unbox v = u := by
  constructor
  · intro h
    cases h with
    | box ho hbody => exact unbox_of_boxed ho hbody
    | other hnone =>
      unfold Heap.unbox
      split
      · next r =>
        split
        · next u hu =>
          obtain ⟨o, ho, hbody⟩ := Option.map_eq_some_iff.mp hu
          exact absurd hbody (hnone r o u rfl ho)
        · rfl
      · rfl
  · rintro rfl
    unfold Heap.unbox
    split
    · next r =>
      split
      · next u hu =>
        obtain ⟨o, ho, hbody⟩ := Option.map_eq_some_iff.mp hu
        exact .box ho hbody
      · next hnone =>
        refine .other fun r' o u hr ho hbody => ?_
        cases hr
        exact hnone u (by rw [ho, Option.map_some, hbody])
    · next hnone => exact .other fun r o u hr => absurd hr (hnone r)

/-- A value that can be brought to a kind is. -/
theorem coerceFor_of_broughtTo (h : m.BroughtTo t v w) : m.heap.coerceFor t v = .ok w := by
  cases h with
  | reference target => rfl
  | kept hu htag =>
    show (m.heap.unbox v).coerce _ = _
    rw [unboxed_iff.mp hu]
    exact Value.coerce_eq_ok_iff.mpr (Or.inl ⟨htag, rfl⟩)
  | widened hu hw =>
    show (m.heap.unbox v).coerce _ = _
    rw [unboxed_iff.mp hu]
    exact Value.coerce_eq_ok_iff.mpr (Or.inr hw)

/-- A value that cannot be brought to a kind is refused. -/
theorem coerceFor_of_refused (h : m.ConversionRefused t v e) : m.heap.coerceFor t v = .error e := by
  cases h with
  | null hu =>
    show (m.heap.unbox v).coerce _ = _
    rw [unboxed_iff.mp hu]
    rfl
  | @toPrimitive p v u hu hnull htag hw =>
    show (m.heap.unbox v).coerce _ = _
    have hnot : u.isNull = false := by
      cases u with
      | reference target =>
        cases target with
        | none => exact absurd rfl hnull
        | some r => rfl
      | _ => rfl
    rw [unboxed_iff.mp hu, Value.coerce, if_neg htag, hnot, hw]
    rfl
  | toReference htag =>
    show v.coerce .reference = _
    cases v with
    | reference target => exact absurd rfl htag
    | _ => rfl

/-- Every value is brought to every kind, or is refused for a reason. -/
theorem broughtTo_or_refused (m : Machine) (t : Tag) (v : Value) :
    (∃ w, m.BroughtTo t v w) ∨ ∃ e, m.ConversionRefused t v e := by
  cases t with
  | reference =>
    cases v with
    | reference target => exact Or.inl ⟨_, .reference target⟩
    | _ => exact Or.inr ⟨_, .toReference nofun⟩
  | primitive p =>
    have hu : m.Unboxed v (m.heap.unbox v) := unboxed_iff.mpr rfl
    by_cases htag : (m.heap.unbox v).tag = .primitive p
    · exact Or.inl ⟨_, .kept hu htag⟩
    · cases hw : (m.heap.unbox v).widen? (.primitive p) with
      | some w => exact Or.inl ⟨w, .widened hu hw⟩
      | none =>
        by_cases hnull : m.heap.unbox v = .null
        · exact Or.inr ⟨_, .null (hnull ▸ hu)⟩
        · exact Or.inr ⟨_, .toPrimitive hu hnull htag hw⟩

/-- A conversion gives what the value is brought to. -/
theorem coerceFor_eq_ok_iff : m.heap.coerceFor t v = .ok w ↔ m.BroughtTo t v w := by
  refine ⟨fun h => ?_, coerceFor_of_broughtTo⟩
  rcases m.broughtTo_or_refused t v with ⟨w', hw⟩ | ⟨e, he⟩
  · rw [coerceFor_of_broughtTo hw] at h
    cases h
    exact hw
  · rw [coerceFor_of_refused he] at h
    cases h

/-- A conversion fails for the reason that the value is refused for. -/
theorem coerceFor_eq_error_iff : m.heap.coerceFor t v = .error e ↔ m.ConversionRefused t v e := by
  refine ⟨fun h => ?_, coerceFor_of_refused⟩
  rcases m.broughtTo_or_refused t v with ⟨w, hw⟩ | ⟨e', he⟩
  · rw [coerceFor_of_broughtTo hw] at h
    cases h
  · rw [coerceFor_of_refused he] at h
    cases h
    exact he

end Machine

end JavaMachine

/-
# What a copy between arrays does

A copy is made exactly when both references are those of arrays of one class and the range lies
within each of them; null is refused with an exception of its own, and everything else with another
one (`Machine.arrayCopy_outcome`).  After the copy each element of the target is the one that the
source had before, or its own old one outside the range, also when both are the same array: the range
is taken out of the source as a whole before it is written over a part of the target.

Primitive elements are copied as bytes.  That the elements are copied with them is one fact about
lists, used at the places of the bytes of an element.
-/
import JavaMachine.Proofs.ArraySafety

namespace JavaMachine

namespace ArrayBody

/-! ## Copies between lists -/

section Lists

variable {α : Type} {l src dst items out : List α} {start srcStart dstStart n : Nat}

theorem getElem?_overwrite (h : start ≤ l.length) (i : Nat) :
    (overwrite l start items)[i]? =
      if start ≤ i ∧ i < start + items.length then items[i - start]? else l[i]? := by
  have htake : (l.take start).length = start := by
    rw [List.length_take]
    omega
  unfold overwrite
  rw [List.append_assoc]
  by_cases hbefore : i < start
  · rw [if_neg (by omega), List.getElem?_append_left (by omega), List.getElem?_take_of_lt hbefore]
  · rw [List.getElem?_append_right (by omega), htake]
    by_cases hwithin : i < start + items.length
    · rw [if_pos ⟨by omega, hwithin⟩, List.getElem?_append_left (by omega)]
    · rw [if_neg (by omega), List.getElem?_append_right (by omega), List.getElem?_drop,
        show start + items.length + (i - start - items.length) = i by omega]

/-- A list that a slice of another one was written into has the items of the slice there, and its old
ones elsewhere. -/
theorem getElem?_of_splice? (hs : slice? src srcStart n = some items)
    (hd : splice? dst dstStart items = some out) (i : Nat) :
    out[i]? =
      if dstStart ≤ i ∧ i < dstStart + n then src[srcStart + (i - dstStart)]? else dst[i]? := by
  unfold slice? at hs
  unfold splice? at hd
  split at hs
  · next hsfit =>
    split at hd
    · next hdfit =>
      cases hs
      cases hd
      have hlength : ((src.drop srcStart).take n).length = n := by
        rw [List.length_take, List.length_drop]
        omega
      rw [hlength] at hdfit
      rw [getElem?_overwrite (by omega), hlength]
      split
      · rw [List.getElem?_take_of_lt (by omega), List.getElem?_drop]
      · rfl
    · cases hd
  · cases hs

end Lists

/-! ## Copies between arrays -/

variable {src dst out : ArrayBody} {srcStart dstStart n : Nat}

/-- A byte of an element within a range of elements is within the range of their bytes. -/
theorem byte_within {size i k : Nat} (hk : k < size) :
    dstStart * size ≤ i * size + k ∧ i * size + k < dstStart * size + n * size ↔
      dstStart ≤ i ∧ i < dstStart + n := by
  rw [← Nat.add_mul]
  constructor
  · intro ⟨hlower, hupper⟩
    constructor
    · by_contra hlt
      have hnext : (i + 1) * size ≤ dstStart * size := Nat.mul_le_mul_right _ (by omega)
      rw [Nat.succ_mul] at hnext
      omega
    · by_contra hge
      have hlast : (dstStart + n) * size ≤ i * size := Nat.mul_le_mul_right _ (by omega)
      omega
  · intro ⟨hlower, hupper⟩
    have hfirst : dstStart * size ≤ i * size := Nat.mul_le_mul_right _ hlower
    have hlast : (i + 1) * size ≤ (dstStart + n) * size := Nat.mul_le_mul_right _ hupper
    rw [Nat.succ_mul] at hlast
    omega

/-- The elements of an array into which elements of another one were copied: those of the other one
within the range, and the old ones outside. -/
theorem load?_of_copy? (htag : src.tag = dst.tag) (h : src.copy? srcStart dst dstStart n = some out)
    (i : Nat) :
    out.load? i =
      if dstStart ≤ i ∧ i < dstStart + n then src.load? (srcStart + (i - dstStart))
      else dst.load? i := by
  cases src with
  | references s =>
    cases dst with
    | references d =>
      obtain ⟨items, hitems, h⟩ := Option.bind_eq_some_iff.mp h
      obtain ⟨slots, hslots, h⟩ := Option.bind_eq_some_iff.mp h
      cases h
      show slots[i]?.map _ = _
      rw [getElem?_of_splice? hitems hslots]
      split <;> rfl
    | primitive q d => cases htag
  | primitive p s =>
    cases dst with
    | references d => cases htag
    | primitive q d =>
      cases htag
      obtain ⟨items, hitems, h⟩ := Option.bind_eq_some_iff.mp h
      obtain ⟨data, hdata, h⟩ := Option.bind_eq_some_iff.mp h
      cases h
      -- An element is copied when each of its bytes is.
      have hbyte := getElem?_of_splice? hitems hdata
      split
      · next hwithin =>
        refine loadValue?_drop_eq fun k hk => ?_
        rw [hbyte, if_pos ((byte_within hk).mpr hwithin)]
        congr 1
        obtain ⟨j, rfl⟩ := Nat.exists_eq_add_of_le hwithin.1
        rw [Nat.add_sub_cancel_left, Nat.add_mul, Nat.add_mul]
        omega
      · next hwithin =>
        refine loadValue?_drop_eq fun k hk => ?_
        rw [hbyte, if_neg fun hin => hwithin ((byte_within hk).mp hin)]

theorem SameShape.length_eq {a b : ArrayBody} (h : a.SameShape b) : b.length = a.length := by
  cases a with
  | primitive p data =>
    cases b with
    | primitive q data' =>
      obtain ⟨rfl, hlength⟩ := h
      exact congrArg (· / q.size) hlength
    | references _ => cases h
  | references slots =>
    cases b with
    | primitive q data' => cases h
    | references slots' => exact h

end ArrayBody

namespace Machine

variable {m m' : Machine} {s d : ObjectRef}

/-! ## Elements of objects -/

/-- The element of an object at an index; `none` beyond the length, and for what is no array. -/
def element? (m : Machine) (r : ObjectRef) (i : Nat) : Option Value :=
  match (m.heap.get? r).map Object.body with
  | some (.array a) => a.load? i
  | _ => none

theorem element?_of_arrayBody {r : ObjectRef} {a : ArrayBody} (h : m.arrayBody r = .ok a) (i : Nat) :
    m.element? r i = a.load? i := by
  obtain ⟨o, ho, hbody⟩ := arrayBody_eq_ok h
  rw [element?, ho, Option.map_some, hbody]

/-- What a copy of `n` elements has done: the elements of the target are those of the source, as they
were before, within the range, and their own old ones outside it. All else is as it was. -/
structure Copied (m m' : Machine) (s : ObjectRef) (srcStart : Nat) (d : ObjectRef)
    (dstStart n : Nat) : Prop where
  length : m'.lengthOf d = m.lengthOf d
  present : ∀ i < m.lengthOf d, (m'.element? d i).isSome
  elements : ∀ i, m'.element? d i =
    if dstStart ≤ i ∧ i < dstStart + n then m.element? s (srcStart + (i - dstStart))
    else m.element? d i
  header : (m'.heap.get? d).map (fun o => (o.owner, o.hash)) =
    (m.heap.get? d).map fun o => (o.owner, o.hash)
  others : ∀ r, r ≠ d → m'.heap.get? r = m.heap.get? r
  elsewhere : m' = { m with heap := m'.heap }

/-- A copy of no elements changes nothing. -/
theorem copied_refl {b : ArrayBody} (hb : m.arrayBody d = .ok b) (s : ObjectRef)
    (srcStart dstStart : Nat) : m.Copied m s srcStart d dstStart 0 where
  length := rfl
  present := by
    intro i hi
    rw [lengthOf_of_arrayBody hb] at hi
    rw [element?_of_arrayBody hb]
    exact ArrayBody.load?_isSome hi
  elements := by
    intro i
    rw [if_neg (by omega)]
  header := rfl
  others _ _ := rfl
  elsewhere := rfl

/-- Elements that go from one array into another one. -/
theorem copied_of_copy? {o : Object} {a b out : ArrayBody} {srcStart dstStart n : Nat}
    (ho : m.heap.get? d = some o) (ha : m.arrayBody s = .ok a) (hb : m.arrayBody d = .ok b)
    (htag : a.tag = b.tag) (hcopy : a.copy? srcStart b dstStart n = some out) :
    m.Copied { m with heap := (m.heap.updateBody d fun _ => .array out).noteWrite d } s srcStart d
      dstStart n := by
  have hget : ∀ r, ((m.heap.updateBody d fun _ => .array out).noteWrite d).get? r =
      if r = d then some { o with body := .array out } else m.heap.get? r := by
    intro r
    rw [Heap.get?_noteWrite, Heap.get?_updateBody]
    split
    · next hr => rw [hr, ho, Option.map_some]
    · rfl
  have hout : ({ m with heap := (m.heap.updateBody d fun _ => .array out).noteWrite d } :
      Machine).arrayBody d = .ok out := by
    unfold arrayBody
    dsimp only
    rw [Heap.get_eq_ok_iff.mpr ((hget d).trans (if_pos rfl))]
    rfl
  have hlength := (ArrayBody.sameShape_of_copy? hcopy).length_eq
  constructor
  · rw [lengthOf_of_arrayBody hout, lengthOf_of_arrayBody hb, hlength]
  · intro i hi
    rw [lengthOf_of_arrayBody hb, ← hlength] at hi
    rw [element?_of_arrayBody hout]
    exact ArrayBody.load?_isSome hi
  · intro i
    rw [element?_of_arrayBody hout, element?_of_arrayBody ha, element?_of_arrayBody hb]
    exact ArrayBody.load?_of_copy? htag hcopy i
  · rw [hget, if_pos rfl, ho]
    rfl
  · intro r hr
    exact (hget r).trans (if_neg hr)
  · rfl

/-! ## Outcomes of copies -/

/-- A copy between references that are null or live. It is made exactly when neither is null and it
fits: two arrays of one class, with positions and a number that are not negative and a range that
lies within each of them. Otherwise it is refused, with an exception of its own for null. A copy that
is made has the elements of the source, as they were before it, in the range of the target, and leaves
everything else as it was, even within one array. -/
theorem arrayCopy_outcome {path : ClassPath} (h : m.Reachable path fun _ => True)
    {src dst : Option ObjectRef} (hsrc : m.NullOrLive src) (hdst : m.NullOrLive dst)
    (srcPos dstPos count : Int32) :
    ((∃ m', m.arrayCopy src srcPos dst dstPos count = .ok m') ↔
      ∃ s d, src = some s ∧ dst = some d ∧ m.CopyFits s srcPos d dstPos count) ∧
    (src = none ∨ dst = none →
      m.arrayCopy src srcPos dst dstPos count = .error (.thrown .nullPointer)) ∧
    (∀ s d, src = some s → dst = some d → ¬ m.CopyFits s srcPos d dstPos count → ∃ message,
      m.arrayCopy src srcPos dst dstPos count = .error (.thrown (.arrayStore message))) ∧
    ∀ m', m.arrayCopy src srcPos dst dstPos count = .ok m' → ∃ s d, src = some s ∧ dst = some d ∧
      m.Copied m' s srcPos.toInt.toNat d dstPos.toInt.toNat count.toInt.toNat := by
  have hw := h.wellFormed fun _ _ => trivial
  have hnull : src = none ∨ dst = none →
      m.arrayCopy src srcPos dst dstPos count = .error (.thrown .nullPointer) := by
    rintro (rfl | rfl)
    · rfl
    · cases src <;> rfl
  have hrefused : ∀ s d, src = some s → dst = some d → ¬ m.CopyFits s srcPos d dstPos count →
      ∃ message, m.arrayCopy src srcPos dst dstPos count =
        .error (.thrown (.arrayStore message)) := by
    rintro s d rfl rfl hfits
    obtain ⟨so, hso⟩ := hsrc s rfl
    obtain ⟨o, ho⟩ := hdst d rfl
    exact hw.arrayCopy_of_not_fits hso ho hfits
  -- A copy that is made is one that was not refused.
  have hfits : ∀ m', m.arrayCopy src srcPos dst dstPos count = .ok m' →
      ∃ s d, src = some s ∧ dst = some d ∧ m.CopyFits s srcPos d dstPos count := by
    intro m' hm
    cases src with
    | none => cases hm
    | some s =>
      cases dst with
      | none => cases hm
      | some d =>
        refine ⟨s, d, rfl, rfl, ?_⟩
        by_contra hnot
        obtain ⟨message, herror⟩ := hrefused s d rfl rfl hnot
        rw [hm] at herror
        cases herror
  refine ⟨⟨fun ⟨m', hm⟩ => hfits m' hm, ?_⟩, hnull, hrefused, ?_⟩
  · rintro ⟨s, d, rfl, rfl, hfit⟩
    obtain ⟨_, _, _, _, _, _, _, ⟨_, hok⟩ | ⟨_, _, hok⟩⟩ := hw.arrayCopy_of_fits hfit
    · exact ⟨_, hok⟩
    · exact ⟨_, hok⟩
  · intro m' hm
    obtain ⟨s, d, rfl, rfl, hfit⟩ := hfits m' hm
    refine ⟨s, d, rfl, rfl, ?_⟩
    obtain ⟨o, a, b, ho, ha, hb, htag, ⟨hzero, hok⟩ | ⟨out, hcopy, hok⟩⟩ :=
      hw.arrayCopy_of_fits hfit
    · rw [hm, Except.ok.injEq] at hok
      rw [hok, hzero]
      exact copied_refl hb ..
    · rw [hm, Except.ok.injEq] at hok
      rw [hok]
      exact copied_of_copy? ho ha hb htag hcopy

/-- A machine with an array of the integers 7, 8, 9 and 0. -/
def integersMachine : Machine :=
  [Operation.newArray (.ofPrimitive .int) 4, .arrayStore (some ⟨0⟩) 0 (.int 7),
    .arrayStore (some ⟨0⟩) 1 (.int 8), .arrayStore (some ⟨0⟩) 2 (.int 9)].foldl
      (fun m op => (op.run {} m).2) {}

theorem reachable_integersMachine : integersMachine.Reachable {} fun _ => True :=
  (((reachable_new.operation (.newArray (.ofPrimitive .int) 4) trivial).operation
    (.arrayStore (some ⟨0⟩) 0 (.int 7)) trivial).operation
    (.arrayStore (some ⟨0⟩) 1 (.int 8)) trivial).operation
    (.arrayStore (some ⟨0⟩) 2 (.int 9)) trivial

/-- The first three elements go one place on, over themselves. -/
theorem arrayCopy_outcome_overlapping :
    integersMachine.NullOrLive (some ⟨0⟩) ∧
      (∃ m', integersMachine.arrayCopy (some ⟨0⟩) 0 (some ⟨0⟩) 1 3 = .ok m' ∧
        (List.range 4).map (m'.element? ⟨0⟩) =
          [some (.int 7), some (.int 7), some (.int 8), some (.int 9)]) ∧
      ∃ message, integersMachine.arrayCopy (some ⟨0⟩) 2 (some ⟨0⟩) 0 0x7FFFFFFF =
        .error (.thrown (.arrayStore message)) := by
  have hsome : (integersMachine.heap.get? ⟨0⟩).isSome = true := by decide +kernel
  have hlive : integersMachine.NullOrLive (some ⟨0⟩) := by
    rintro _ ⟨⟩
    exact Option.isSome_iff_exists.mp hsome
  have hlength : integersMachine.lengthOf ⟨0⟩ = 4 := by decide +kernel
  obtain ⟨o, ho⟩ := hlive _ rfl
  have hclass : ((integersMachine.heap.get? ⟨0⟩).bind fun o =>
      integersMachine.classes.get? o.owner).map Class.isArray = some true := by decide +kernel
  rw [ho] at hclass
  obtain ⟨cls, hcls, harray⟩ := Option.map_eq_some_iff.mp hclass
  refine ⟨hlive, ?_, ?_⟩
  · obtain ⟨hmade, _, _, hdone⟩ :=
      arrayCopy_outcome reachable_integersMachine hlive hlive 0 1 3
    obtain ⟨m', hm'⟩ := hmade.mpr ⟨_, _, rfl, rfl, ⟨o, o, cls, ho, ho, rfl, hcls, harray⟩,
      by decide, by decide, by decide, by rw [hlength]; decide, by rw [hlength]; decide⟩
    obtain ⟨_, _, ⟨⟩, ⟨⟩, hcopied⟩ := hdone m' hm'
    refine ⟨m', hm', ?_⟩
    have hold : (List.range 4).map (fun i => if 1 ≤ i ∧ i < 4
        then integersMachine.element? ⟨0⟩ (0 + (i - 1)) else integersMachine.element? ⟨0⟩ i) =
        [some (.int 7), some (.int 7), some (.int 8), some (.int 9)] := by decide +kernel
    rw [← hold]
    exact List.map_congr_left fun i _ => hcopied.elements i
  · obtain ⟨_, _, hrefused, _⟩ :=
      arrayCopy_outcome reachable_integersMachine hlive hlive 2 0 0x7FFFFFFF
    refine hrefused _ _ rfl rfl fun hfits => ?_
    have hfit := hfits.dst_fits
    rw [hlength] at hfit
    exact absurd hfit (by decide)

end Machine

end JavaMachine

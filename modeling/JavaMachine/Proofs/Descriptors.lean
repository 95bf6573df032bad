/-
# Descriptors

A type is read off a text exactly when its descriptor stands in front, with a class name that goes as
far as the first semicolon (`FieldType.parse?_eq_some_iff`).  So a method descriptor is read as the one
method type that it spells (`MethodType.parse?_eq_some_iff`).
-/
import JavaMachine.Descriptor

namespace JavaMachine

/-! ## Field types -/

namespace FieldType

/-- The class that a type names, as itself or as what the arrays are made of. -/
def className? : FieldType → Option (List Char)
  | primitive _ => none
  | object name => some name
  | array component => component.className?

/-- No semicolon stands in the class name of a type. -/
def Plain (t : FieldType) : Prop := ∀ name ∈ t.className?, ';' ∉ name

/-- A descriptor begins with the letter of its kind. -/
theorem text_eq_cons (t : FieldType) : ∃ c cs, t.text = c :: cs ∧ Tag.ofLetter? c = some t.tag := by
  cases t with
  | primitive p => exact ⟨p.letter, [], rfl, Tag.ofLetter?_letter (.primitive p)⟩
  | object name => exact ⟨'L', name ++ [';'], rfl, rfl⟩
  | array component => exact ⟨'[', component.text, rfl, rfl⟩

/-- The letters of the primitive kinds stand for nothing else. -/
theorem parse?_letter (p : Primitive) (rest : List Char) :
    parse? (p.letter :: rest) = some (primitive p, rest) := by
  cases p <;> rfl

/-- A type is read off its descriptor, whatever stands behind it. -/
theorem parse?_text_append {t : FieldType} (h : t.Plain) (rest : List Char) :
    parse? (t.text ++ rest) = some (t, rest) := by
  induction t with
  | primitive p => exact parse?_letter p rest
  | object name =>
    have hname : readName? (name ++ ';' :: rest) = some (name, rest) :=
      readName?_eq_some_iff.mpr ⟨h name rfl, rfl⟩
    simp [text, parse?, hname]
  | array component ih => simp [text, parse?, ih h]

/-- No semicolon is read as part of a class name. -/
theorem plain_of_parse? {cs rest : List Char} {t : FieldType} (h : parse? cs = some (t, rest)) :
    t.Plain := by
  induction cs generalizing t with
  | nil => cases h
  | cons c cs ih =>
    unfold parse? at h
    split at h
    · obtain ⟨⟨name, after⟩, hname, ⟨⟩⟩ := Option.map_eq_some_iff.mp h
      rintro _ ⟨⟩
      exact (readName?_eq_some_iff.mp hname).1
    · split at h
      · obtain ⟨⟨component, after⟩, hcomponent, ⟨⟩⟩ := Option.map_eq_some_iff.mp h
        have hplain : component.Plain := ih hcomponent
        exact hplain
      · obtain ⟨p, -, ⟨⟩⟩ := Option.map_eq_some_iff.mp h
        rintro _ ⟨⟩

/-- A type is read exactly off the texts that begin with its descriptor. -/
theorem parse?_eq_some_iff {cs rest : List Char} {t : FieldType} :
    parse? cs = some (t, rest) ↔ t.Plain ∧ cs = t.text ++ rest := by
  constructor
  · intro h
    exact ⟨plain_of_parse? h, (text_append_of_parse? h).symm⟩
  · rintro ⟨hplain, rfl⟩
    exact parse?_text_append hplain rest

/-- A mark that does not belong to descriptors stands in one only as part of its class name. -/
theorem mem_text_iff {c : Char} (hletter : Tag.ofLetter? c = none) (hend : c ≠ ';')
    {t : FieldType} : c ∈ t.text ↔ ∃ name ∈ t.className?, c ∈ name := by
  have hL : c ≠ 'L' := by
    rintro rfl
    cases hletter
  have hbracket : c ≠ '[' := by
    rintro rfl
    cases hletter
  induction t with
  | primitive p =>
    have hp : c ≠ p.letter := by
      rintro rfl
      exact nomatch (Tag.ofLetter?_letter (.primitive p)).symm.trans hletter
    simp [text, className?, hp]
  | object name => simp [text, className?, hL, hend]
  | array component ih => simpa [text, className?, hbracket] using ih

end FieldType

/-! ## Method types -/

namespace MethodType

/-- No semicolon stands in a class name of a method type. -/
def Plain (type : MethodType) : Prop :=
  (∀ t ∈ type.params, t.Plain) ∧ ∀ t ∈ type.result, t.Plain

/-- The descriptor of a result, or of none. -/
def resultText (result : Option FieldType) : List Char := (result.map FieldType.text).getD ['V']

/-- The descriptors of parameters, one after the other. -/
def paramsText (params : List FieldType) : List Char := params.flatMap FieldType.text

theorem text_eq (type : MethodType) :
    type.text = '(' :: paramsText type.params ++ ')' :: resultText type.result := by
  rcases type with ⟨params, _ | t⟩ <;> rfl

/-- Parameters are read off their descriptors up to the parenthesis that closes the list. -/
theorem parseParams?_text {params : List FieldType} (h : ∀ t ∈ params, t.Plain)
    (rest : List Char) : parseParams? (paramsText params ++ ')' :: rest) = some (params, rest) := by
  induction params with
  | nil =>
    show parseParams? (')' :: rest) = _
    rw [parseParams?]
  | cons t params ih =>
    obtain ⟨ht, hparams⟩ := List.forall_mem_cons.mp h
    obtain ⟨c, cs, htext, hc⟩ := t.text_eq_cons
    have hopen : c ≠ ')' := by
      rintro rfl
      cases hc
    have hcs : paramsText (t :: params) ++ ')' :: rest =
        t.text ++ (paramsText params ++ ')' :: rest) := by
      rw [paramsText, List.flatMap_cons, List.append_assoc, ← paramsText]
    have hparse := FieldType.parse?_text_append ht (paramsText params ++ ')' :: rest)
    rw [hcs]
    rw [htext, List.cons_append] at hparse ⊢
    rw [parseParams?.eq_3 _ _ hopen, hparse]
    dsimp only
    rw [ih hparams, Option.map_some]

theorem parseParams?_eq_some_iff {cs rest : List Char} {params : List FieldType} :
    parseParams? cs = some (params, rest) ↔
      (∀ t ∈ params, t.Plain) ∧ cs = paramsText params ++ ')' :: rest := by
  constructor
  · intro h
    fun_induction parseParams? cs generalizing params rest with
    | case1 => cases h
    | case2 after =>
      cases h
      exact ⟨fun t ht => absurd ht List.not_mem_nil, rfl⟩
    | case3 => cases h
    | case4 c cs hc t after hparse ih =>
      obtain ⟨⟨ts, last⟩, hts, ⟨⟩⟩ := Option.map_eq_some_iff.mp h
      obtain ⟨hplain, hafter⟩ := ih hts
      refine ⟨List.forall_mem_cons.mpr ⟨FieldType.plain_of_parse? hparse, hplain⟩, ?_⟩
      rw [← FieldType.text_append_of_parse? hparse, hafter, paramsText, paramsText,
        List.flatMap_cons, List.append_assoc]
  · rintro ⟨hplain, rfl⟩
    exact parseParams?_text hplain rest

/-- A result is read exactly off the text that is its descriptor as a whole. -/
theorem parseResult?_eq_some_iff {cs : List Char} {result : Option FieldType} :
    parseResult? cs = some result ↔ (∀ t ∈ result, t.Plain) ∧ cs = resultText result := by
  unfold parseResult?
  split
  · next hv =>
    subst hv
    cases result with
    | none => simp [resultText]
    | some t =>
      -- The letter of no result begins no type.
      obtain ⟨c, cs, htext, hc⟩ := t.text_eq_cons
      have hne : ['V'] ≠ t.text := by
        rw [htext]
        rintro ⟨⟩
        cases hc
      simp [resultText, hne]
  · next hv =>
    cases result with
    | none =>
      have hnone : ¬ ((∀ t ∈ (none : Option FieldType), t.Plain) ∧ cs = resultText none) :=
        fun h => hv h.2
      refine iff_of_false ?_ hnone
      split <;> simp
    | some t =>
      have hread : FieldType.parse? cs = some (t, []) ↔
          (∀ u ∈ some t, u.Plain) ∧ cs = resultText (some t) := by
        rw [FieldType.parse?_eq_some_iff]
        simp [resultText]
      rw [← hread]
      split
      · next u hu => simp [hu]
      · next hother =>
        exact iff_of_false nofun fun h => hother t h

/-- A descriptor is read exactly as the method type that it spells. -/
theorem parse?_eq_some_iff {descriptor : String} {type : MethodType} :
    parse? descriptor = some type ↔ type.Plain ∧ type.text = descriptor.toList := by
  obtain ⟨params, result⟩ := type
  rw [text_eq]
  unfold parse?
  split
  · next cs hcs =>
    rw [hcs]
    constructor
    · intro h
      obtain ⟨⟨ps, rest⟩, hparams, h⟩ := Option.bind_eq_some_iff.mp h
      obtain ⟨res, hresult, ⟨⟩⟩ := Option.bind_eq_some_iff.mp h
      obtain ⟨hplain, rfl⟩ := parseParams?_eq_some_iff.mp hparams
      obtain ⟨hplain', rfl⟩ := parseResult?_eq_some_iff.mp hresult
      exact ⟨⟨hplain, hplain'⟩, rfl⟩
    · rintro ⟨⟨hplain, hplain'⟩, ⟨⟩⟩
      have hresult : parseResult? (resultText result) = some result :=
        parseResult?_eq_some_iff.mpr ⟨hplain', rfl⟩
      refine Option.bind_eq_some_iff.mpr ⟨_, parseParams?_text hplain _, ?_⟩
      exact Option.bind_eq_some_iff.mpr ⟨_, hresult, rfl⟩
  · next hother =>
    refine iff_of_false nofun ?_
    rintro ⟨-, htext⟩
    exact hother _ htext.symm

/-- A method type that is read off a descriptor is spelled by it. -/
theorem text_of_parse? {descriptor : String} {type : MethodType}
    (h : parse? descriptor = some type) : type.text = descriptor.toList :=
  (parse?_eq_some_iff.mp h).2

end MethodType

end JavaMachine

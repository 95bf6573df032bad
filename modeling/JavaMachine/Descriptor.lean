/-
# Descriptors

A field descriptor spells a type: one letter for a primitive kind, `L…;` around a class name, or `[`
before the type of an array's components. A method descriptor spells the parameter types between
parentheses and then the result type, `V` standing for none.

`FieldType.parse?` and `MethodType.parse?` read descriptors, `FieldType.text` and `MethodType.text`
write them.
-/
import JavaMachine.Tag

namespace JavaMachine

/-! ## Field types -/

/-- A field type. The name of a class is any text without a semicolon. -/
inductive FieldType where
  | primitive (p : Primitive)
  | object (name : List Char)
  | array (component : FieldType)
deriving DecidableEq, Repr

namespace FieldType

/-- The storage kind of a type. -/
def tag : FieldType → Tag
  | primitive p => .primitive p
  | object _ => .reference
  | array _ => .reference

/-- The descriptor of a type. -/
def text : FieldType → List Char
  | primitive p => [p.letter]
  | object name => 'L' :: name ++ [';']
  | array component => '[' :: component.text

/-- The class name up to the first semicolon, and the text after that semicolon. -/
def readName? : List Char → Option (List Char × List Char)
  | [] => none
  | c :: rest =>
    if c = ';' then some ([], rest)
    else (readName? rest).map fun (name, after) => (c :: name, after)

/-- The type whose descriptor some text starts with, and the text after it. -/
def parse? : List Char → Option (FieldType × List Char)
  | [] => none
  | c :: rest =>
    if c = 'L' then (readName? rest).map fun (name, after) => (object name, after)
    else if c = '[' then (parse? rest).map fun (component, after) => (array component, after)
    else (Primitive.ofLetter? c).map fun p => (primitive p, rest)

/-- A class name is read exactly off a text that goes on with its semicolon. -/
theorem readName?_eq_some_iff {cs name rest : List Char} :
    readName? cs = some (name, rest) ↔ ';' ∉ name ∧ cs = name ++ ';' :: rest := by
  induction cs generalizing name with
  | nil => simp [readName?]
  | cons c cs ih =>
    by_cases hc : c = ';'
    · subst hc
      cases name with
      | nil => simp [readName?, eq_comm]
      | cons d name => simp +contextual [readName?, eq_comm]
    · cases name with
      | nil => simp [readName?, hc]
      | cons d name =>
        simp only [readName?, hc, if_false, Option.map_eq_some_iff, Prod.exists, Prod.mk.injEq,
          List.cons.injEq, List.mem_cons, not_or, List.cons_append]
        constructor
        · rintro ⟨n, r, hr, ⟨rfl, rfl⟩, rfl⟩
          obtain ⟨hn, rfl⟩ := ih.1 hr
          exact ⟨⟨fun h => hc h.symm, hn⟩, rfl, rfl⟩
        · rintro ⟨⟨_, hn⟩, rfl, rfl⟩
          exact ⟨name, rest, ih.2 ⟨hn, rfl⟩, ⟨rfl, rfl⟩, rfl⟩

/-- A parsed descriptor is the front of the text it was read from. -/
theorem text_append_of_parse? {cs : List Char} {t : FieldType} {rest : List Char}
    (h : parse? cs = some (t, rest)) : t.text ++ rest = cs := by
  induction cs generalizing t with
  | nil => cases h
  | cons c cs ih =>
    unfold parse? at h
    split at h
    · next hc =>
      obtain ⟨⟨name, after⟩, hn, he⟩ := Option.map_eq_some_iff.1 h
      cases he
      simp [text, hc, (readName?_eq_some_iff.1 hn).2]
    · split at h
      · next hc =>
        obtain ⟨⟨u, after⟩, hp, he⟩ := Option.map_eq_some_iff.1 h
        cases he
        simp [text, hc, ih hp]
      · obtain ⟨p, hp, he⟩ := Option.map_eq_some_iff.1 h
        cases he
        have hl := List.find?_some hp
        simp only [decide_eq_true_eq] at hl
        simp [text, hl]

/-- A type's descriptor is not empty. -/
theorem text_ne_nil (t : FieldType) : t.text ≠ [] := by
  cases t <;> simp [text]

/-- Reading a type leaves a shorter text. -/
theorem length_lt_of_parse? {cs : List Char} {t : FieldType} {rest : List Char}
    (h : parse? cs = some (t, rest)) : rest.length < cs.length := by
  rw [← text_append_of_parse? h, List.length_append]
  have := List.length_pos_iff.2 t.text_ne_nil
  omega

end FieldType

/-! ## Method types -/

/-- The types of a method: its parameters and its result, `none` standing for no result. -/
structure MethodType where
  params : List FieldType
  result : Option FieldType
deriving DecidableEq, Repr

namespace MethodType

/-- The descriptor of a method type. -/
def text (m : MethodType) : List Char :=
  '(' :: m.params.flatMap FieldType.text ++ ')' ::
    match m.result with
    | none => ['V']
    | some t => t.text

/-- The parameter types up to the closing parenthesis, and the text after it. -/
def parseParams? (cs : List Char) : Option (List FieldType × List Char) :=
  match cs with
  | [] => none
  | ')' :: rest => some ([], rest)
  | c :: cs =>
    match _h : FieldType.parse? (c :: cs) with
    | none => none
    | some (t, rest) => (parseParams? rest).map fun (ts, after) => (t :: ts, after)
termination_by cs.length
decreasing_by exact FieldType.length_lt_of_parse? _h

/-- The result type that a text spells as a whole; the outer `none` is a text that spells none. -/
def parseResult? (cs : List Char) : Option (Option FieldType) :=
  if cs = ['V'] then some none
  else
    match FieldType.parse? cs with
    | some (t, []) => some (some t)
    | _ => none

/-- The method type that a descriptor spells. -/
def parse? (descriptor : String) : Option MethodType :=
  match descriptor.toList with
  | '(' :: cs => do
    let (params, rest) ← parseParams? cs
    let result ← parseResult? rest
    return ⟨params, result⟩
  | _ => none

end MethodType

/-! ## The argument text of a descriptor -/

/-- The text between the first character of a descriptor, which has to be a single byte in UTF-8,
and its first closing parenthesis. -/
def argumentText? (descriptor : String) : Option String :=
  match descriptor.toList with
  | [] => none
  | c :: rest =>
    if c = ')' ∨ c.utf8Size ≠ 1 ∨ ')' ∉ rest then none
    else some (String.ofList (rest.takeWhile (· ≠ ')')))

end JavaMachine

/-
# What symbols of native methods tell apart

The escapes of characters other than `/` are a prefix code, each of them with a digit after its
underscore; and no name begins with a digit.  A symbol can therefore be read as a path of names for
as long as it spells the class and the name of a method (`path_of_symbol_eq`).  What follows is the
argument text, which the same underscore sets apart: so two methods share a symbol only if they are
overloads, or if the class of one is found at the path that class and name of the other make, and
the symbol has the arguments of the latter (`names_of_candidateSymbols`).
-/
import JavaMachine.Native.Basic
import JavaMachine.Proofs.ModifiedText

namespace JavaMachine

/-! ## Escapes of characters -/

/-- Digits tell numbers below sixteen apart. -/
theorem digitChar_inj {m n : Nat} (hm : m < 16) (hn : n < 16)
    (h : m.digitChar = n.digitChar) : m = n := by
  have table : ∀ i j : Fin 16, i.val.digitChar = j.val.digitChar → i = j := by decide
  exact congrArg Fin.val (table ⟨m, hm⟩ ⟨n, hn⟩ h)

/-- Four digits tell units apart. -/
theorem hexDigits_inj {u v : UInt16} (h : hexDigits u = hexDigits v) : u = v := by
  have hu := u.toNat_lt
  have hv := v.toNat_lt
  simp only [hexDigits, List.map_cons, List.map_nil, List.cons.injEq, and_true] at h
  obtain ⟨h₁, h₂, h₃, h₄⟩ := h
  have h₁ := digitChar_inj (by omega) (by omega) h₁
  have h₂ := digitChar_inj (by omega) (by omega) h₂
  have h₃ := digitChar_inj (by omega) (by omega) h₃
  have h₄ := digitChar_inj (by omega) (by omega) h₄
  apply UInt16.toNat_inj.mp
  omega

/-- The escape of one UTF-16 unit. -/
def escapeUnit (u : UInt16) : List Char := '_' :: '0' :: hexDigits u

/-- An escape ends after its four digits, whatever stands behind it. -/
theorem escapeUnit_append_inj {u v : UInt16} {x y : List Char}
    (h : escapeUnit u ++ x = escapeUnit v ++ y) : u = v ∧ x = y := by
  obtain ⟨hfront, hrest⟩ := List.append_inj h (by simp [escapeUnit, hexDigits])
  simp only [escapeUnit, List.cons.injEq, true_and] at hfront
  exact ⟨hexDigits_inj hfront, hrest⟩

/-- Of two sequences of units whose escapes begin one text, one begins with the other. -/
theorem prefix_total_of_escapeUnit {us vs : List UInt16} {x y : List Char}
    (h : us.flatMap escapeUnit ++ x = vs.flatMap escapeUnit ++ y) : us <+: vs ∨ vs <+: us := by
  induction us generalizing vs with
  | nil => simp
  | cons u us ih =>
    cases vs with
    | nil => simp
    | cons v vs =>
      simp only [List.flatMap_cons, List.append_assoc] at h
      obtain ⟨rfl, hrest⟩ := escapeUnit_append_inj h
      simpa using ih hrest

/-- No character has units that begin those of another. -/
theorem eq_of_prefix_utf16Units {a b : Char} (h : utf16Units a <+: utf16Units b) : a = b := by
  obtain ⟨rest, hrest⟩ := h
  have hread : [b] = a :: charsOfUnits rest := by
    rw [← charsOfUnits_utf16Units_append, hrest]
    simpa [charsOfUnits] using (charsOfUnits_utf16Units_append b []).symm
  exact (List.cons.inj hread).1.symm

/-- The escapes of a character tell it, whatever stands behind them. -/
theorem escapeUnits_append_inj {a b : Char} {x y : List Char}
    (h : (utf16Units a).flatMap escapeUnit ++ x = (utf16Units b).flatMap escapeUnit ++ y) :
    a = b ∧ x = y := by
  have hab : a = b := by
    rcases prefix_total_of_escapeUnit h with hpre | hpre
    · exact eq_of_prefix_utf16Units hpre
    · exact (eq_of_prefix_utf16Units hpre).symm
  subst hab
  exact ⟨rfl, List.append_cancel_left h⟩

/-- The characters with an escape of their own, each with the digit that its escape ends with. -/
def shortEscapes : List (Char × Char) := [('_', '1'), (';', '2'), ('[', '3')]

/-- The ways in which a character other than `/` is escaped. -/
theorem escapeChar_cases {c : Char} (hc : c ≠ '/') :
    (c.isAlphanum = true ∧ escapeChar c = [c]) ∨
    (∃ d, (c, d) ∈ shortEscapes ∧ escapeChar c = ['_', d]) ∨
    escapeChar c = (utf16Units c).flatMap escapeUnit := by
  unfold escapeChar
  split
  · next h => exact Or.inl ⟨h, rfl⟩
  · right
    split
    · next h => exact Or.inl ⟨'1', by simp [shortEscapes, h], rfl⟩
    · split
      · next h => exact Or.inl ⟨'2', by simp [shortEscapes, h], rfl⟩
      · split
        · next h => exact Or.inl ⟨'3', by simp [shortEscapes, h], rfl⟩
        · exact Or.inr rfl

/-- An escape begins with an underscore and a zero. -/
theorem escapeUnits_eq_cons (c : Char) :
    ∃ rest, (utf16Units c).flatMap escapeUnit = '_' :: '0' :: rest := by
  unfold utf16Units
  split <;> exact ⟨_, rfl⟩

/-- Escapes of characters other than `/` are a prefix code. -/
theorem escapeChar_append_inj {a b : Char} {x y : List Char} (ha : a ≠ '/') (hb : b ≠ '/')
    (h : escapeChar a ++ x = escapeChar b ++ y) : a = b ∧ x = y := by
  have hunderscore : Char.isAlphanum '_' = false := by decide
  obtain ⟨ua, hua⟩ := escapeUnits_eq_cons a
  obtain ⟨ub, hub⟩ := escapeUnits_eq_cons b
  -- The kinds of escapes differ in their first character, or in the digit that follows it.
  rcases escapeChar_cases ha with ⟨hA, ea⟩ | ⟨d, hd, ea⟩ | ea <;>
    rcases escapeChar_cases hb with ⟨hB, eb⟩ | ⟨d', hd', eb⟩ | eb <;> rw [ea, eb] at h
  · simpa using h
  · obtain rfl : a = '_' := by simpa using congrArg List.head? h
    simp [hunderscore] at hA
  · rw [hub] at h
    obtain rfl : a = '_' := by simpa using congrArg List.head? h
    simp [hunderscore] at hA
  · obtain rfl : '_' = b := by simpa using congrArg List.head? h
    simp [hunderscore] at hB
  · simp at h
    obtain ⟨rfl, rfl⟩ := h
    simp [shortEscapes] at hd hd'
    grind
  · rw [hub] at h
    simp at h
    simp [shortEscapes, h.1] at hd
  · rw [hua] at h
    obtain rfl : '_' = b := by simpa using congrArg List.head? h
    simp [hunderscore] at hB
  · rw [hua] at h
    simp at h
    simp [shortEscapes, ← h.1] at hd'
  · exact escapeUnits_append_inj h

/-! ## Names and paths of names -/

/-- A name that a symbol can be read back to: it is not empty, has no `/` in it and does not begin with
a digit.  The identifiers of Java are such names. -/
def IsSimpleName (name : List Char) : Prop :=
  name ≠ [] ∧ '/' ∉ name ∧ ∀ c ∈ name.head?, c.isDigit = false

instance : DecidablePred IsSimpleName
  | [] => isFalse fun h => h.1 rfl
  | c :: cs =>
    decidable_of_iff ('/' ∉ c :: cs ∧ c.isDigit = false) (by simp [IsSimpleName])

/-- The text can follow a name in a symbol: it is empty, or its underscore begins no escape. -/
def EndsName (x : List Char) : Prop :=
  x = [] ∨ ∃ after, x = '_' :: after ∧ ∀ c ∈ after.head?, c.isDigit = false

/-- The escape of a character says by itself that the name goes on. -/
theorem not_endsName_escapeChar {c : Char} (hc : c ≠ '/') (x : List Char) :
    ¬ EndsName (escapeChar c ++ x) := by
  obtain ⟨u, hu⟩ := escapeUnits_eq_cons c
  rintro (hnil | ⟨after, hcons, hdigit⟩)
  · rcases escapeChar_cases hc with ⟨-, e⟩ | ⟨d, -, e⟩ | e
    · simp [e] at hnil
    · simp [e] at hnil
    · simp [e, hu] at hnil
  · rcases escapeChar_cases hc with ⟨halnum, e⟩ | ⟨d, hd, e⟩ | e
    · obtain rfl : c = '_' := by simpa [e] using congrArg List.head? hcons
      exact absurd halnum (by decide)
    · obtain rfl : d :: x = after := by simpa [e] using hcons
      have hplain : d.isDigit = false := by simpa using hdigit
      revert hplain
      simp only [shortEscapes, List.mem_cons, Prod.mk.injEq, List.not_mem_nil, or_false] at hd
      rcases hd with ⟨-, rfl⟩ | ⟨-, rfl⟩ | ⟨-, rfl⟩ <;> decide
    · obtain rfl : '0' :: (u ++ x) = after := by simpa [e, hu] using hcons
      exact absurd (hdigit '0' (by simp)) (by decide)

/-- A name is read back from its escape, and so is what follows it. -/
theorem escape_append_inj {name name' x y : List Char} (hname : '/' ∉ name)
    (hname' : '/' ∉ name') (hx : EndsName x) (hy : EndsName y)
    (h : name.flatMap escapeChar ++ x = name'.flatMap escapeChar ++ y) :
    name = name' ∧ x = y := by
  induction name generalizing name' with
  | nil =>
    cases name' with
    | nil => simpa using h
    | cons c name' =>
      rw [List.mem_cons, not_or] at hname'
      rw [List.flatMap_nil, List.nil_append, List.flatMap_cons, List.append_assoc] at h
      exact absurd (h ▸ hx) (not_endsName_escapeChar (Ne.symm hname'.1) _)
  | cons c name ih =>
    rw [List.mem_cons, not_or] at hname
    rw [List.flatMap_cons, List.append_assoc] at h
    cases name' with
    | nil =>
      rw [List.flatMap_nil, List.nil_append] at h
      exact absurd (h ▸ hy) (not_endsName_escapeChar (Ne.symm hname.1) _)
    | cons c' name' =>
      rw [List.mem_cons, not_or] at hname'
      rw [List.flatMap_cons, List.append_assoc] at h
      obtain ⟨rfl, hrest⟩ := escapeChar_append_inj (Ne.symm hname.1) (Ne.symm hname'.1) h
      obtain ⟨rfl, rfl⟩ := ih hname.2 hname'.2 hrest
      exact ⟨rfl, rfl⟩

/-- The part of a symbol that a path of names is written as. -/
def escapePath (path : List (List Char)) : List Char :=
  path.flatMap fun name => '_' :: name.flatMap escapeChar

/-- In front of each name of a path stands an underscore. -/
theorem escapePath_cons (name : List Char) (path : List (List Char)) :
    escapePath (name :: path) = '_' :: (name.flatMap escapeChar ++ escapePath path) := rfl

/-- A path that has a name is not written as nothing. -/
theorem escapePath_append_ne_nil {path : List (List Char)} (h : path ≠ []) (x : List Char) :
    escapePath path ++ x ≠ [] := by
  obtain ⟨name, path, rfl⟩ := List.exists_cons_of_ne_nil h
  simp [escapePath_cons]

/-- The escape of a text begins with its first character, or with an underscore. -/
theorem head_escape (c : Char) (cs : List Char) :
    ∃ d rest, (c :: cs).flatMap escapeChar = d :: rest ∧ (d = c ∨ d = '_') := by
  rw [List.flatMap_cons]
  by_cases hslash : c = '/'
  · subst hslash
    exact ⟨'_', _, rfl, Or.inr rfl⟩
  · rcases escapeChar_cases hslash with ⟨-, e⟩ | ⟨d, -, e⟩ | e
    · exact ⟨c, cs.flatMap escapeChar, by rw [e]; rfl, Or.inl rfl⟩
    · exact ⟨'_', d :: cs.flatMap escapeChar, by rw [e]; rfl, Or.inr rfl⟩
    · obtain ⟨u, hu⟩ := escapeUnits_eq_cons c
      exact ⟨'_', '0' :: u ++ cs.flatMap escapeChar, by rw [e, hu]; rfl, Or.inr rfl⟩

/-- The escape of a text that does not begin with a digit does not begin with one. -/
theorem escape_eq_cons {cs : List Char} (hne : cs ≠ []) (h : ∀ c ∈ cs.head?, c.isDigit = false) :
    ∃ c rest, cs.flatMap escapeChar = c :: rest ∧ c.isDigit = false := by
  obtain ⟨c, cs, rfl⟩ := List.exists_cons_of_ne_nil hne
  obtain ⟨d, rest, hescape, rfl | rfl⟩ := head_escape c cs
  · exact ⟨d, rest, hescape, h d rfl⟩
  · exact ⟨'_', rest, hescape, by decide⟩

/-- What is written behind a name ends it. -/
theorem endsName_escapePath {path : List (List Char)} (hpath : ∀ name ∈ path, IsSimpleName name)
    {x : List Char} (hx : EndsName x) : EndsName (escapePath path ++ x) := by
  cases path with
  | nil => exact hx
  | cons name path =>
    obtain ⟨hne, -, hhead⟩ := hpath name List.mem_cons_self
    obtain ⟨c, rest, hescape, hdigit⟩ := escape_eq_cons hne hhead
    right
    refine ⟨c :: (rest ++ escapePath path ++ x), ?_, by simpa using hdigit⟩
    simp [escapePath_cons, hescape]

/-- Two paths of names whose texts begin one symbol agree as far as both go. -/
theorem path_of_symbol_eq {p q : List (List Char)} (hp : ∀ name ∈ p, IsSimpleName name)
    (hq : ∀ name ∈ q, IsSimpleName name) {x y : List Char} (hx : EndsName x) (hy : EndsName y)
    (h : escapePath p ++ x = escapePath q ++ y) :
    (∃ r, q = p ++ r ∧ x = escapePath r ++ y) ∨ ∃ r, p = q ++ r ∧ y = escapePath r ++ x := by
  induction p generalizing q with
  | nil => exact Or.inl ⟨q, rfl, h⟩
  | cons name p ih =>
    cases q with
    | nil => exact Or.inr ⟨name :: p, rfl, h.symm⟩
    | cons name' q =>
      have hp' : ∀ name ∈ p, IsSimpleName name := fun n hn => hp n (List.mem_cons_of_mem _ hn)
      have hq' : ∀ name ∈ q, IsSimpleName name := fun n hn => hq n (List.mem_cons_of_mem _ hn)
      simp only [escapePath_cons, List.cons_append, List.append_assoc, List.cons.injEq,
        true_and] at h
      obtain ⟨rfl, hrest⟩ := escape_append_inj (hp name List.mem_cons_self).2.1
        (hq name' List.mem_cons_self).2.1 (endsName_escapePath hp' hx) (endsName_escapePath hq' hy) h
      rcases ih hp' hq' hrest with ⟨r, rfl, hr⟩ | ⟨r, rfl, hr⟩
      · exact Or.inl ⟨r, rfl, hr⟩
      · exact Or.inr ⟨r, rfl, hr⟩

/-! ## Symbols -/

/-- The path of a method: the names that its class is made of, and its own. -/
def methodPath (className methodName : String) : List (List Char) :=
  className.toList.splitOn '/' ++ [methodName.toList]

/-- A class name is made of names with `/` between them. -/
def IsPathName (className : String) : Prop :=
  ∀ name ∈ className.toList.splitOn '/', IsSimpleName name

instance : DecidablePred IsPathName := fun className =>
  List.decidableBAll IsSimpleName (className.toList.splitOn '/')

/-- Names with `/` between them are written as their path is. -/
theorem escape_intercalate {path : List (List Char)} (hne : path ≠ []) :
    '_' :: (['/'].intercalate path).flatMap escapeChar = escapePath path := by
  induction path with
  | nil => exact absurd rfl hne
  | cons name path ih =>
    rw [escapePath_cons]
    cases path with
    | nil => simp [escapePath]
    | cons name' path =>
      have hslash : escapeChar '/' = ['_'] := by decide
      rw [← ih (by simp)]
      simp [hslash]

/-- A symbol is a fixed word and an escaped path. -/
theorem toList_shortSymbol (className methodName : String) :
    (shortSymbol className methodName).toList =
      "Java".toList ++ escapePath (methodPath className methodName) := by
  have hclass : className.toList = ['/'].intercalate (className.toList.splitOn '/') :=
    (List.intercalate_splitOn '/').symm
  have hpath : escapePath (methodPath className methodName) =
      escapePath (className.toList.splitOn '/') ++ escapePath [methodName.toList] :=
    List.flatMap_append
  rw [hpath, ← escape_intercalate (List.splitOn_ne_nil '/' _), ← hclass]
  simp [shortSymbol, escapeName, escapePath]

/-- The descriptor of a type begins with a letter or a bracket. -/
theorem head_text_not_digit (t : FieldType) : ∀ c ∈ t.text.head?, c.isDigit = false := by
  intro c hc
  cases t with
  | primitive p =>
    obtain rfl : p.letter = c := by simpa [FieldType.text] using hc
    cases p <;> decide
  | object name =>
    obtain rfl : 'L' = c := by simpa [FieldType.text] using hc
    decide
  | array component =>
    obtain rfl : '[' = c := by simpa [FieldType.text] using hc
    decide

/-- The arguments of a descriptor that is valid do not begin with a digit. -/
theorem head_argumentText_not_digit {descriptor arguments : String}
    (hvalid : (MethodType.parse? descriptor).isSome)
    (h : argumentText? descriptor = some arguments) :
    ∀ c ∈ arguments.toList.head?, c.isDigit = false := by
  unfold MethodType.parse? at hvalid
  split at hvalid
  · next cs hcs =>
    have harguments : arguments.toList = cs.takeWhile (· ≠ ')') := by
      simp only [argumentText?, hcs, Option.ite_none_left_eq_some] at h
      simp [← Option.some.inj h.2]
    obtain ⟨type, htype⟩ := Option.isSome_iff_exists.mp hvalid
    obtain ⟨⟨params, rest⟩, hparams, -⟩ := Option.bind_eq_some_iff.mp htype
    intro c hc
    rw [harguments] at hc
    unfold MethodType.parseParams? at hparams
    split at hparams
    · cases hparams
    · simp at hc
    · next c' cs' _ =>
      split at hparams
      · cases hparams
      · next t after hparse =>
        -- The first parameter begins where the arguments begin.
        have htext := FieldType.text_append_of_parse? hparse
        apply head_text_not_digit t
        obtain ⟨d, ds, hd⟩ := List.exists_cons_of_ne_nil t.text_ne_nil
        rw [hd, List.cons_append, List.cons.injEq] at htext
        rw [List.takeWhile_cons] at hc
        split at hc
        · simpa [hd, htext.1] using hc
        · simp at hc
  · cases hvalid

/-- What a candidate symbol of a method is made of. -/
theorem toList_of_mem_candidateSymbols {className symbol : String} {x : Method}
    (hvalid : (MethodType.parse? x.descriptor).isSome)
    (h : symbol ∈ candidateSymbols className x) :
    ∃ tail, symbol.toList = "Java".toList ++ (escapePath (methodPath className x.name) ++ tail) ∧
      EndsName tail ∧ (tail ≠ [] → longSymbol? className x.name x.descriptor = some symbol) := by
  rw [candidateSymbols, List.mem_cons, Option.mem_toList] at h
  rcases h with rfl | hlong
  · exact ⟨[], by rw [toList_shortSymbol, List.append_nil], Or.inl rfl, by simp⟩
  · have hsome : longSymbol? className x.name x.descriptor = some symbol := hlong
    obtain ⟨arguments, harguments, rfl⟩ := Option.map_eq_some_iff.mp hsome
    have hhead := head_argumentText_not_digit hvalid harguments
    refine ⟨'_' :: arguments.toList.flatMap escapeChar, ?_, Or.inr ⟨_, rfl, ?_⟩, fun _ => hsome⟩
    · simp [toList_shortSymbol, escapeName]
    · cases hempty : arguments.toList with
      | nil => simp
      | cons c cs =>
        rw [hempty] at hhead
        obtain ⟨c', rest, hescape, hdigit⟩ := escape_eq_cons (List.cons_ne_nil c cs) hhead
        simpa [hescape] using hdigit

/-- The class is named by the path, or it lies in the package that the path names. -/
def IsAtOrBelow (className path : String) : Prop :=
  className = path ∨ (path ++ "/").toList <+: className.toList

/-- The path tells the class and the method. -/
theorem names_eq_of_methodPath {C₁ C₂ m₁ m₂ : String} (h : methodPath C₂ m₂ = methodPath C₁ m₁) :
    C₁ = C₂ ∧ m₁ = m₂ := by
  obtain ⟨hclass, hmethod⟩ := List.append_inj' h rfl
  constructor
  · have htext : ['/'].intercalate (C₁.toList.splitOn '/') = C₁.toList :=
      List.intercalate_splitOn '/'
    rw [← String.toList_inj, ← htext, ← hclass, List.intercalate_splitOn]
  · rw [← String.toList_inj]
    exact (List.cons.inj hmethod).1.symm

/-- Lists that are not empty are joined with one more separator between them. -/
theorem intercalate_append {sep : List Char} {l l' : List (List Char)} (hl : l ≠ [])
    (hl' : l' ≠ []) : sep.intercalate (l ++ l') = sep.intercalate l ++ sep ++ sep.intercalate l' := by
  induction l with
  | nil => exact absurd rfl hl
  | cons x l ih =>
    rw [List.cons_append, List.intercalate_cons_of_ne_nil (by simp [hl'])]
    cases l with
    | nil => simp
    | cons y l =>
      rw [ih (by simp), List.intercalate_cons_cons]
      simp only [List.append_assoc]

/-- A class and a method are written with slashes between all parts. -/
theorem toList_path (C m : String) :
    (C ++ "/" ++ m).toList = ['/'].intercalate (methodPath C m) := by
  rw [methodPath, intercalate_append (List.splitOn_ne_nil '/' _) (by simp),
    List.intercalate_splitOn]
  simp

/-- A method whose path goes on where that of another ends has its class at that path or below. -/
theorem isAtOrBelow_of_methodPath {C₁ C₂ m₁ m₂ : String} {r : List (List Char)} (hr : r ≠ [])
    (h : methodPath C₂ m₂ = methodPath C₁ m₁ ++ r) : IsAtOrBelow C₂ (C₁ ++ "/" ++ m₁) := by
  rcases List.eq_nil_or_concat r with rfl | ⟨r', last, rfl⟩
  · exact absurd rfl hr
  · rw [List.concat_eq_append, ← List.append_assoc] at h
    have hclass : C₂.toList.splitOn '/' = methodPath C₁ m₁ ++ r' := (List.append_inj' h rfl).1
    have htext : C₂.toList = ['/'].intercalate (methodPath C₁ m₁ ++ r') := by
      rw [← hclass, List.intercalate_splitOn]
    by_cases hempty : r' = []
    · left
      rw [← String.toList_inj, htext, hempty, List.append_nil, toList_path]
    · right
      rw [htext, intercalate_append (by simp [methodPath]) hempty, ← toList_path]
      exact ⟨['/'].intercalate r', by simp⟩

/-- All parts of a path are simple names. -/
theorem isSimpleName_of_mem_methodPath {C m : String} (hC : IsPathName C)
    (hm : IsSimpleName m.toList) : ∀ name ∈ methodPath C m, IsSimpleName name := by
  intro name hname
  rcases List.mem_append.mp hname with hclass | hmethod
  · exact hC name hclass
  · rwa [List.mem_singleton.mp hmethod]

/-- A method whose path goes on where that of another ends is a method of the same class and name, or
the symbol that they share is the long one of the other. -/
theorem names_of_longer_path {C₁ C₂ symbol : String} {x₁ x₂ : Method} {r : List (List Char)}
    {tail₁ tail₂ : List Char} (hpath : methodPath C₂ x₂.name = methodPath C₁ x₁.name ++ r)
    (htail : tail₁ = escapePath r ++ tail₂)
    (hlong : tail₁ ≠ [] → longSymbol? C₁ x₁.name x₁.descriptor = some symbol) :
    (C₁ = C₂ ∧ x₁.name = x₂.name) ∨
    longSymbol? C₁ x₁.name x₁.descriptor = some symbol ∧
      IsAtOrBelow C₂ (C₁ ++ "/" ++ x₁.name) := by
  by_cases hr : r = []
  · left
    apply names_eq_of_methodPath
    rw [hpath, hr, List.append_nil]
  · right
    constructor
    · apply hlong
      rw [htail]
      exact escapePath_append_ne_nil hr tail₂
    · exact isAtOrBelow_of_methodPath hr hpath

/-- **What a shared symbol says.**  If two native methods have a candidate symbol in common, then they
have the same class and the same name; or the symbol is the long one of one of them, and the class of
the other is named by the class and the name of that method, or lies in the package that they name. -/
theorem names_of_candidateSymbols {C₁ C₂ symbol : String} {x₁ x₂ : Method}
    (hC₁ : IsPathName C₁) (hC₂ : IsPathName C₂) (hm₁ : IsSimpleName x₁.name.toList)
    (hm₂ : IsSimpleName x₂.name.toList) (hd₁ : (MethodType.parse? x₁.descriptor).isSome)
    (hd₂ : (MethodType.parse? x₂.descriptor).isSome) (h₁ : symbol ∈ candidateSymbols C₁ x₁)
    (h₂ : symbol ∈ candidateSymbols C₂ x₂) :
    (C₁ = C₂ ∧ x₁.name = x₂.name) ∨
    (longSymbol? C₁ x₁.name x₁.descriptor = some symbol ∧
      IsAtOrBelow C₂ (C₁ ++ "/" ++ x₁.name)) ∨
    (longSymbol? C₂ x₂.name x₂.descriptor = some symbol ∧
      IsAtOrBelow C₁ (C₂ ++ "/" ++ x₂.name)) := by
  obtain ⟨tail₁, htext₁, hends₁, hlong₁⟩ := toList_of_mem_candidateSymbols hd₁ h₁
  obtain ⟨tail₂, htext₂, hends₂, hlong₂⟩ := toList_of_mem_candidateSymbols hd₂ h₂
  have hsame : escapePath (methodPath C₁ x₁.name) ++ tail₁ =
      escapePath (methodPath C₂ x₂.name) ++ tail₂ :=
    List.append_cancel_left (htext₁.symm.trans htext₂)
  have hnames₁ := isSimpleName_of_mem_methodPath hC₁ hm₁
  have hnames₂ := isSimpleName_of_mem_methodPath hC₂ hm₂
  rcases path_of_symbol_eq hnames₁ hnames₂ hends₁ hends₂ hsame with
    ⟨r, hpath, htail⟩ | ⟨r, hpath, htail⟩
  · rcases names_of_longer_path hpath htail hlong₁ with hsame | hbelow
    · exact Or.inl hsame
    · exact Or.inr (Or.inl hbelow)
  · rcases names_of_longer_path hpath htail hlong₂ with hsame | hbelow
    · exact Or.inl ⟨hsame.1.symm, hsame.2.symm⟩
    · exact Or.inr (Or.inr hbelow)

/-- A static native method. -/
def nativeMethod (name descriptor : String) : Method :=
  { owner := ⟨0⟩, name, descriptor, flags := 0x108, params := [], result := none }

/-- The long symbol of a method that reads an entry of a resource is also the short symbol of a
method `JI` of a class that is named after the first. -/
theorem symbol_shared_by_two_classes :
    let C₁ := "java/net/URL$ResourceInputStream"
    let C₂ := "java/net/URL$ResourceInputStream/read"
    let symbol := "Java_java_net_URL_00024ResourceInputStream_read_JI"
    IsPathName C₁ ∧ IsPathName C₂ ∧ IsSimpleName "read".toList ∧ IsSimpleName "JI".toList ∧
      (MethodType.parse? "(JI)I").isSome ∧ (MethodType.parse? "()V").isSome ∧
      symbol ∈ candidateSymbols C₁ (nativeMethod "read" "(JI)I") ∧
      symbol ∈ candidateSymbols C₂ (nativeMethod "JI" "()V") ∧ C₁ ≠ C₂ := by
  decide +kernel

/-- The symbol that these two methods share is the long one of the method whose class and name the
other class has for its name. -/
theorem long_symbol_shared_by_two_classes :
    longSymbol? "java/net/URL$ResourceInputStream" "read" "(JI)I" =
        some "Java_java_net_URL_00024ResourceInputStream_read_JI" ∧
      IsAtOrBelow "java/net/URL$ResourceInputStream/read"
        ("java/net/URL$ResourceInputStream" ++ "/" ++ "read") := by
  have hfirst : "Java_java_net_URL_00024ResourceInputStream_read_JI" ∈
      candidateSymbols "java/net/URL$ResourceInputStream" (nativeMethod "read" "(JI)I") := by
    decide +kernel
  have hsecond : "Java_java_net_URL_00024ResourceInputStream_read_JI" ∈
      candidateSymbols "java/net/URL$ResourceInputStream/read" (nativeMethod "JI" "()V") := by
    decide +kernel
  have hshared := names_of_candidateSymbols (by decide +kernel) (by decide +kernel)
    (by decide +kernel) (by decide +kernel) (by decide +kernel) (by decide +kernel) hfirst hsecond
  rcases hshared with ⟨hclass, -⟩ | hlong | ⟨hlong, -⟩
  · exact absurd hclass (by decide +kernel)
  · exact hlong
  · exact absurd hlong (by decide +kernel)

end JavaMachine

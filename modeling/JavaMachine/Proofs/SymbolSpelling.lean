/-
# Texts that can be read back from symbols

A `/` is escaped by the underscore alone that begins every other escape, so what follows it decides
whether it can be told apart: an escape goes on with one of the digits 0 to 3.  In a text in which
no `/` is directly followed by such a digit (`IsReadable`) each underscore of the escape can
therefore be assigned to its character, and the text is the only one of its kind with that escape
(`escape_inj`).  A short symbol is the escape of one such text, made of the class name and the
method name with a `/` between them, so it determines both (`escapes_determine_names`).
-/
import JavaMachine.Proofs.Symbols

namespace JavaMachine

/-! ## Readable texts -/

/-- The digits that can follow the underscore of an escape. -/
def escapeDigits : List Char := ['0', '1', '2', '3']

/-- The text does not begin with a digit of escapes. -/
def StartsPlainly (cs : List Char) : Prop := ∀ d ∈ cs.head?, d ∉ escapeDigits

instance (cs : List Char) : Decidable (StartsPlainly cs) :=
  match cs with
  | [] => .isTrue fun _ h => nomatch h
  | d :: _ => decidable_of_iff (d ∉ escapeDigits) (by simp [StartsPlainly])

/-- A text in which no `/` is directly followed by a digit of escapes. -/
def IsReadable (cs : List Char) : Prop := ∀ d ∈ escapeDigits, ¬ ['/', d] <:+: cs

theorem isReadable_nil : IsReadable [] := by
  intro d _ h
  exact absurd (List.infix_nil.mp h) (by simp)

theorem isReadable_cons {c : Char} {cs : List Char} :
    IsReadable (c :: cs) ↔ (c = '/' → StartsPlainly cs) ∧ IsReadable cs := by
  have hfront : ∀ d, ['/', d] <+: c :: cs ↔ c = '/' ∧ d ∈ cs.head? := by
    intro d
    cases cs with
    | nil => simp
    | cons e cs => simp [List.cons_prefix_cons, eq_comm]
  simp only [IsReadable, StartsPlainly, List.infix_cons_iff, hfront]
  grind

/-- Whether a text is readable, character by character. -/
instance decidableIsReadable : (cs : List Char) → Decidable (IsReadable cs)
  | [] => .isTrue isReadable_nil
  | _ :: cs =>
    haveI := decidableIsReadable cs
    decidable_of_iff _ isReadable_cons.symm

/-- A text without `/` is readable. -/
theorem isReadable_of_notMem {cs : List Char} (h : '/' ∉ cs) : IsReadable cs := by
  intro d _ hpart
  exact h (hpart.subset (by simp))

/-- A readable text goes on behind a `/` with another one that starts plainly. -/
theorem IsReadable.append_slash {cs ds : List Char} (hcs : IsReadable cs) (hds : IsReadable ds)
    (hstart : StartsPlainly ds) : IsReadable (cs ++ '/' :: ds) := by
  induction cs with
  | nil => exact isReadable_cons.mpr ⟨fun _ => hstart, hds⟩
  | cons c cs ih =>
    obtain ⟨hc, hcs⟩ := isReadable_cons.mp hcs
    refine isReadable_cons.mpr ⟨fun hslash => ?_, ih hcs⟩
    cases cs with
    | nil =>
      intro d hd
      obtain rfl : '/' = d := by simpa using hd
      decide
    | cons e cs => exact hc hslash

/-! ## Reading escapes -/

theorem escapeChar_slash : escapeChar '/' = ['_'] := by decide

/-- The escape of a text that starts plainly starts plainly. -/
theorem StartsPlainly.escape {cs : List Char} (h : StartsPlainly cs) :
    StartsPlainly (cs.flatMap escapeChar) := by
  cases cs with
  | nil => exact h
  | cons c cs =>
    obtain ⟨d, rest, hescape, rfl | rfl⟩ := head_escape c cs
    · intro e he
      rw [hescape] at he
      exact h e he
    · intro e he
      rw [hescape] at he
      obtain rfl : '_' = e := by simpa using he
      decide

/-- The escape of a character other than `/` is no underscore that something follows which starts
plainly. -/
theorem escapeChar_append_ne {c : Char} {x y : List Char} (hc : c ≠ '/') (hx : StartsPlainly x) :
    '_' :: x ≠ escapeChar c ++ y := by
  intro h
  rcases escapeChar_cases hc with ⟨halnum, e⟩ | ⟨d, hd, e⟩ | e
  · rw [e] at h
    obtain rfl : '_' = c := by simpa using congrArg List.head? h
    exact absurd halnum (by decide)
  · rw [e] at h
    obtain rfl : x = d :: y := by simpa using h
    have hdigit : d ∈ escapeDigits := by
      simp only [shortEscapes, List.mem_cons, Prod.mk.injEq, List.not_mem_nil, or_false] at hd
      rcases hd with ⟨-, rfl⟩ | ⟨-, rfl⟩ | ⟨-, rfl⟩ <;> decide
    exact hx d rfl hdigit
  · obtain ⟨u, hu⟩ := escapeUnits_eq_cons c
    rw [e, hu] at h
    obtain rfl : x = '0' :: (u ++ y) := by simpa using h
    exact hx '0' rfl (by decide)

/-- A readable text is read back from its escape. -/
theorem escape_inj {cs ds : List Char} (hcs : IsReadable cs) (hds : IsReadable ds)
    (h : cs.flatMap escapeChar = ds.flatMap escapeChar) : cs = ds := by
  induction cs generalizing ds with
  | nil =>
    cases ds with
    | nil => rfl
    | cons d ds =>
      obtain ⟨_, _, hescape, -⟩ := head_escape d ds
      rw [hescape] at h
      cases h
  | cons c cs ih =>
    cases ds with
    | nil =>
      obtain ⟨_, _, hescape, -⟩ := head_escape c cs
      rw [hescape] at h
      cases h
    | cons d ds =>
      obtain ⟨hc, htail⟩ := isReadable_cons.mp hcs
      obtain ⟨hd, htail'⟩ := isReadable_cons.mp hds
      rw [List.flatMap_cons, List.flatMap_cons] at h
      -- The first characters are both `/`, or neither is, by what follows the first underscore.
      by_cases hslash : c = '/'
      · by_cases hslash' : d = '/'
        · subst hslash hslash'
          rw [ih htail htail' (List.append_cancel_left h)]
        · rw [hslash, escapeChar_slash] at h
          exact absurd h (escapeChar_append_ne hslash' (hc hslash).escape)
      · by_cases hslash' : d = '/'
        · rw [hslash', escapeChar_slash] at h
          exact absurd h.symm (escapeChar_append_ne hslash (hd hslash').escape)
        · obtain ⟨rfl, hrest⟩ := escapeChar_append_inj hslash hslash' h
          rw [ih htail htail' hrest]

/-! ## Names -/

/-- A method name that can be told from the class name before it in a symbol: it has no `/` in it and
does not start with a digit of escapes. -/
def IsMethodPart (cs : List Char) : Prop := '/' ∉ cs ∧ StartsPlainly cs

instance (cs : List Char) : Decidable (IsMethodPart cs) :=
  inferInstanceAs (Decidable ('/' ∉ cs ∧ StartsPlainly cs))

/-- A short symbol is the escape of the class name and the method name with a `/` between them. -/
theorem toList_shortSymbol_eq_escape (className methodName : String) :
    (shortSymbol className methodName).toList =
      "Java_".toList ++ (className.toList ++ '/' :: methodName.toList).flatMap escapeChar := by
  simp [shortSymbol, escapeName, escapeChar_slash]

/-- Texts are split at their last `/` in one way. -/
theorem append_slash_inj {cs ds x y : List Char} (hx : '/' ∉ x) (hy : '/' ∉ y)
    (h : cs ++ '/' :: x = ds ++ '/' :: y) : cs = ds ∧ x = y := by
  rcases List.append_eq_append_iff.mp h with ⟨r, rfl, hr⟩ | ⟨r, rfl, hr⟩
  · cases r with
    | nil => simpa using hr
    | cons c r =>
      rw [List.cons_append, List.cons.injEq] at hr
      exact absurd (by simp [hr.2]) hx
  · cases r with
    | nil => simpa [eq_comm] using hr
    | cons c r =>
      rw [List.cons_append, List.cons.injEq] at hr
      exact absurd (by simp [hr.2]) hy

/-- **Escapes determine names.**  Two texts in which no `/` is directly followed by one of the digits 0
to 3 have the same escape only if they are the same.  Two class names of this kind, with method names
that have no `/` in them and do not start with such a digit, have the same short symbol only if they
are the same and so are the method names. -/
theorem escapes_determine_names :
    (∀ s t : String, IsReadable s.toList → IsReadable t.toList →
      (escapeName s = escapeName t ↔ s = t)) ∧
    ∀ C C' m m' : String, IsReadable C.toList → IsReadable C'.toList → IsMethodPart m.toList →
      IsMethodPart m'.toList → (shortSymbol C m = shortSymbol C' m' ↔ C = C' ∧ m = m') := by
  constructor
  · intro s t hs ht
    refine ⟨fun h => ?_, congrArg escapeName⟩
    exact String.toList_inj.mp (escape_inj hs ht (String.ofList_injective h))
  · rintro C C' m m' hC hC' ⟨hm, hstart⟩ ⟨hm', hstart'⟩
    constructor
    · intro h
      have htexts := congrArg String.toList h
      rw [toList_shortSymbol_eq_escape, toList_shortSymbol_eq_escape] at htexts
      have hnames := escape_inj (hC.append_slash (isReadable_of_notMem hm) hstart)
        (hC'.append_slash (isReadable_of_notMem hm') hstart') (List.append_cancel_left htexts)
      obtain ⟨hclass, hmethod⟩ := append_slash_inj hm hm' hnames
      exact ⟨String.toList_inj.mp hclass, String.toList_inj.mp hmethod⟩
    · rintro ⟨rfl, rfl⟩
      rfl

/-- Behind a `/`, the digit 1 makes its underscore the escape of another character. -/
example : ¬ IsReadable "a/1".toList ∧ escapeName "a/1" = escapeName "a_" := by decide +kernel

/-- Names with underscores, an accent and a character of two UTF-16 units are told apart. -/
theorem escapes_determine_names_of_escaped :
    escapeName "a_é/😀" ≠ escapeName "a/_é😀" ∧
      shortSymbol "a/b_" "c;😀" ≠ shortSymbol "a/b" "_c;😀" := by
  have hnames := escapes_determine_names.1 "a_é/😀" "a/_é😀" (by decide +kernel)
    (by decide +kernel)
  have hsymbols := escapes_determine_names.2 "a/b_" "a/b" "c;😀" "_c;😀" (by decide +kernel)
    (by decide +kernel) (by decide +kernel) (by decide +kernel)
  exact ⟨fun h => absurd (hnames.mp h) (by decide +kernel),
    fun h => absurd (hsymbols.mp h).1 (by decide +kernel)⟩

end JavaMachine

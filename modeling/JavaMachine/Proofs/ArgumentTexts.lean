/-
# The text of the arguments

A long symbol carries the arguments of its method, and takes them out of the descriptor without reading
any type: they are what stands in front of the first closing parenthesis.  A class name may have a
parenthesis of its own, and then the first one does not close the list of the parameters but stands in
the middle of a name.

So what is taken out is the descriptors of the parameters up to their first parenthesis
(`argumentText?_of_parse?`).  That is all of them exactly when the list is closed by its first
parenthesis (`MethodType.ClosesFirst`), and only then it can be read as parameters again: a class name
that is cut off misses its semicolon (`argument_text_whole_iff`).
-/
import JavaMachine.Proofs.Descriptors
import JavaMachine.Proofs.Symbols
import Mathlib.Data.List.Basic
import Mathlib.Data.List.TakeWhile

namespace JavaMachine

namespace MethodType

/-- No class name in some parameters has a closing parenthesis, so the first one closes their list. -/
def ClosesFirst (params : List FieldType) : Prop :=
  ∀ t ∈ params, ∀ name ∈ t.className?, ')' ∉ name

variable {params params' : List FieldType} {front back rest : List Char}

theorem closesFirst_iff : ClosesFirst params ↔ ')' ∉ paramsText params := by
  have hmem : ∀ t : FieldType, ')' ∈ t.text ↔ ∃ name ∈ t.className?, ')' ∈ name := fun t =>
    FieldType.mem_text_iff (by decide) (by decide)
  simp only [paramsText, List.mem_flatMap, hmem, not_exists, not_and]
  rfl

/-- The list of some parameters, ended by a parenthesis in the middle of it, is the list of no others:
the parenthesis stands in a class name, which goes on until its semicolon. -/
theorem paramsText_ne_of_cut (hplain : ∀ t ∈ params, t.Plain) (hplain' : ∀ t ∈ params', t.Plain)
    (h : paramsText params = front ++ ')' :: back) : paramsText params' ≠ front := by
  rintro rfl
  have hread := parseParams?_text hplain []
  have hread' := parseParams?_text hplain' (back ++ [')'])
  rw [h, List.append_assoc, List.cons_append, hread'] at hread
  obtain ⟨-, hrest⟩ := Prod.mk.inj (Option.some.inj hread)
  exact absurd hrest (by simp)

end MethodType

open MethodType

/-! ## Cutting the arguments out -/

/-- A method descriptor with the given arguments and without a result. -/
def argumentsAlone (arguments : String) : String := "(" ++ arguments ++ ")V"

variable {d a : String} {type : MethodType} {front back : List Char}

/-- What stands in front of the first closing parenthesis does not depend on what stands behind one. -/
theorem takeWhile_append_paren (l back : List Char) :
    (l ++ ')' :: back).takeWhile (· ≠ ')') = l.takeWhile (· ≠ ')') := by
  induction l with
  | nil => simp
  | cons c l ih => rw [List.cons_append, List.takeWhile_cons, List.takeWhile_cons, ih]

theorem takeWhile_of_notMem {l : List Char} (h : ')' ∉ l) : l.takeWhile (· ≠ ')') = l := by
  rw [List.takeWhile_eq_self_iff]
  intro c hc
  rw [decide_eq_true_iff]
  rintro rfl
  exact h hc

/-- What is cut out of a descriptor is the descriptors of its parameters as far as their first closing
parenthesis. -/
theorem argumentText?_of_parse? (h : MethodType.parse? d = some type) :
    argumentText? d = some (String.ofList ((paramsText type.params).takeWhile (· ≠ ')'))) := by
  have hd : d.toList = '(' :: (paramsText type.params ++ ')' :: resultText type.result) := by
    rw [← text_of_parse? h, text_eq, List.cons_append]
  have hread : ¬ ('(' = ')' ∨ '('.utf8Size ≠ 1 ∨
      ')' ∉ paramsText type.params ++ ')' :: resultText type.result) := by
    have hsize : '('.utf8Size = 1 := by decide
    simp [hsize]
  unfold argumentText?
  rw [hd]
  dsimp only
  rw [if_neg hread, takeWhile_append_paren]

/-- What is cut out of a descriptor is all of the parameters, or it ends in a class name where a
closing parenthesis stands. -/
theorem whole_or_cut (h : MethodType.parse? d = some type) (ha : argumentText? d = some a) :
    (ClosesFirst type.params ∧ a.toList = paramsText type.params) ∨
      (¬ ClosesFirst type.params ∧ ')' ∉ a.toList ∧
        ∃ back, paramsText type.params = a.toList ++ ')' :: back) := by
  rw [argumentText?_of_parse? h, Option.some.injEq] at ha
  subst ha
  rw [String.toList_ofList, closesFirst_iff]
  by_cases hmem : ')' ∈ paramsText type.params
  · right
    obtain ⟨front, back, hsplit, hfront⟩ := List.eq_append_cons_of_mem hmem
    have hcut : (paramsText type.params).takeWhile (· ≠ ')') = front := by
      rw [hsplit, takeWhile_append_paren, takeWhile_of_notMem hfront]
    rw [hcut]
    exact ⟨not_not_intro hmem, hfront, back, hsplit⟩
  · left
    exact ⟨hmem, takeWhile_of_notMem hmem⟩

theorem parse?_argumentsAlone_of_whole (hplain : ∀ t ∈ type.params, t.Plain)
    (ha : a.toList = paramsText type.params) :
    MethodType.parse? (argumentsAlone a) = some ⟨type.params, none⟩ := by
  rw [parse?_eq_some_iff, text_eq]
  refine ⟨⟨hplain, nofun⟩, ?_⟩
  simp [argumentsAlone, resultText, ha]

/-- Arguments that end within a class name are read as no parameters. -/
theorem parse?_argumentsAlone_of_cut (hplain : ∀ t ∈ type.params, t.Plain)
    (hopen : ')' ∉ a.toList) (ha : paramsText type.params = a.toList ++ ')' :: back) :
    MethodType.parse? (argumentsAlone a) = none := by
  rw [Option.eq_none_iff_forall_ne_some]
  intro type' hread
  obtain ⟨⟨hplain', -⟩, htext⟩ := parse?_eq_some_iff.mp hread
  have hlist : a.toList ++ ')' :: ['V'] =
      paramsText type'.params ++ ')' :: resultText type'.result := by
    rw [text_eq] at htext
    simpa [argumentsAlone] using htext.symm
  have hclose : ')' ∉ ['V'] := by decide
  obtain ⟨hfront, -, -⟩ := (List.append_cons_inj_of_notMem hopen hclose).mp hlist
  exact paramsText_ne_of_cut hplain hplain' ha hfront.symm

/-! ## Long symbols -/

/-- The long symbol that carries all of the parameters. -/
def completeSymbol (className methodName : String) (params : List FieldType) : String :=
  shortSymbol className methodName ++ "_" ++ escapeName (String.ofList (paramsText params))

theorem longSymbol?_of_argumentText? (ha : argumentText? d = some a) (C m : String) :
    longSymbol? C m d = some (shortSymbol C m ++ "_" ++ escapeName a) := by
  rw [longSymbol?, ha, Option.map_some]

/-- A symbol that misses the end of the parameters is not the one with all of them. -/
theorem longSymbol?_ne_of_cut (ha : argumentText? d = some a)
    (hcut : paramsText type.params = a.toList ++ ')' :: back) (C m : String) :
    longSymbol? C m d ≠ some (completeSymbol C m type.params) := by
  rw [longSymbol?_of_argumentText? ha, completeSymbol, Ne, Option.some.injEq]
  intro hsame
  have hlist := congrArg String.toList hsame
  obtain ⟨c, cs, hescape, -⟩ := head_escape ')' back
  simp only [String.toList_append, escapeName, String.toList_ofList, hcut, List.flatMap_append,
    List.append_assoc, List.append_cancel_left_eq] at hlist
  rw [hescape] at hlist
  exact absurd hlist (by simp)

/-- **When the text of the arguments is whole.**  From every valid descriptor a text of the arguments
is cut out.  The rest of the descriptor is its result, the text can be read as the parameters, and every
long symbol carries all of them: each exactly if no class name in the parameters has a closing
parenthesis. -/
theorem argument_text_whole_iff (h : MethodType.parse? d = some type) :
    ∃ a, argumentText? d = some a ∧
      a.toList = (paramsText type.params).takeWhile (· ≠ ')') ∧
      (d.toList = '(' :: a.toList ++ ')' :: resultText type.result ↔ ClosesFirst type.params) ∧
      (MethodType.parse? (argumentsAlone a) = some ⟨type.params, none⟩ ↔
        ClosesFirst type.params) ∧
      ((MethodType.parse? (argumentsAlone a)).isSome ↔ ClosesFirst type.params) ∧
      ∀ C m, longSymbol? C m d = some (completeSymbol C m type.params) ↔
        ClosesFirst type.params := by
  obtain ⟨⟨hplain, -⟩, htext⟩ := parse?_eq_some_iff.mp h
  have ha := argumentText?_of_parse? h
  refine ⟨_, ha, String.toList_ofList, ?_⟩
  generalize String.ofList ((paramsText type.params).takeWhile (· ≠ ')')) = a at ha ⊢
  rw [← htext, text_eq]
  rcases whole_or_cut h ha with ⟨hfirst, hwhole⟩ | ⟨hfirst, hopen, back, hcut⟩
  · have hread := parse?_argumentsAlone_of_whole hplain hwhole
    have hsymbol : ∀ C m, longSymbol? C m d = some (completeSymbol C m type.params) := by
      intro C m
      rw [longSymbol?_of_argumentText? ha, completeSymbol, ← hwhole, String.ofList_toList]
    rw [hread, hwhole]
    exact ⟨iff_of_true rfl hfirst, iff_of_true rfl hfirst, iff_of_true rfl hfirst,
      fun C m => iff_of_true (hsymbol C m) hfirst⟩
  · have hread := parse?_argumentsAlone_of_cut hplain hopen hcut
    have hshort : a.toList ≠ paramsText type.params := by
      rw [hcut]
      simp
    rw [hread]
    refine ⟨iff_of_false ?_ hfirst, iff_of_false nofun hfirst, iff_of_false nofun hfirst,
      fun C m => iff_of_false (longSymbol?_ne_of_cut ha hcut C m) hfirst⟩
    intro hsame
    exact hshort (List.append_cancel_right (List.cons.inj hsame).2).symm

/-- The class name `a)b` is cut in two: what is taken out of the descriptor cannot be read, and the
symbol has no more of the parameter. -/
theorem arguments_cut_in_class_name :
    MethodType.parse? "(La)b;)V" = some ⟨[.object "a)b".toList], none⟩ ∧
      argumentText? "(La)b;)V" = some "La" ∧ MethodType.parse? (argumentsAlone "La") = none ∧
      longSymbol? "A" "m" "(La)b;)V" = some "Java_A_m_La" ∧
      completeSymbol "A" "m" [.object "a)b".toList] = "Java_A_m_La_00029b_2" := by
  decide +kernel

/-- The arguments of a method with an array among its parameters are whole. -/
theorem argument_text_whole_bytes :
    MethodType.parse? "(J[BI)I" =
        some ⟨[.primitive .long, .array (.primitive .byte), .primitive .int], some (.primitive .int)⟩ ∧
      ∃ a, argumentText? "(J[BI)I" = some a ∧
        MethodType.parse? (argumentsAlone a) =
          some ⟨[.primitive .long, .array (.primitive .byte), .primitive .int], none⟩ ∧
        longSymbol? "C" "read" "(J[BI)I" = some "Java_C_read_J_3BI" := by
  have hread : MethodType.parse? "(J[BI)I" =
      some ⟨[.primitive .long, .array (.primitive .byte), .primitive .int],
        some (.primitive .int)⟩ := by decide +kernel
  obtain ⟨a, ha, -, -, hparams, -, hsymbol⟩ := argument_text_whole_iff hread
  have hfirst : ClosesFirst [.primitive .long, .array (.primitive .byte), .primitive .int] := by
    rw [closesFirst_iff]
    decide
  have hlong : completeSymbol "C" "read"
      [.primitive .long, .array (.primitive .byte), .primitive .int] = "Java_C_read_J_3BI" := by
    decide +kernel
  refine ⟨hread, a, ha, hparams.mpr hfirst, ?_⟩
  rw [← hlong]
  exact (hsymbol "C" "read").mpr hfirst

end JavaMachine

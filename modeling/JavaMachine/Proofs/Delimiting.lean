/-
# Class files that are cut off or go on too long

A class file says by itself where it ends.  Each of its readers is delimiting, the one for attributes
too: the body of an attribute is taken as a whole before anything looks into it, and how deep code may
nest makes no difference on bytes that are no more than the depth.  So a class file that is cut off
anywhere is an unexpected end, and one with more bytes behind it has just those trailing
(`ClassFile.parse_cut_or_extended`).
-/
import JavaMachine.Proofs.Readers

namespace JavaMachine

namespace Reader

/-! ## Constants -/

theorem delimiting_textConstant : Delimiting textConstant := by
  unfold textConstant
  refine delimiting_u2.bind fun length => (delimiting_bytes _).bind fun bs => ?_
  split
  · exact delimiting_pure _
  · exact delimiting_throw _

theorem delimiting_indexPair (build : UInt16 → UInt16 → Constant) :
    Delimiting (indexPair build) :=
  delimiting_u2.bind fun _ => delimiting_u2.bind fun _ => delimiting_pure _

/-- The tag of a constant settles how long it is. -/
theorem delimiting_constantOfTag (tag : UInt8) : Delimiting (constantOfTag tag) := by
  unfold constantOfTag
  split
  · exact delimiting_textConstant
  all_goals first
    | exact delimiting_throw _
    | exact delimiting_indexPair _
    | exact delimiting_u2.bind fun _ => delimiting_pure _
    | exact delimiting_u4.bind fun _ => delimiting_pure _
    | exact delimiting_u8.bind fun _ => delimiting_pure _
    | exact delimiting_u1.bind fun _ => delimiting_u2.bind fun _ => delimiting_pure _

/-- How many places are left settles where a pool ends. -/
theorem delimiting_poolPlaces (n : Nat) (afterWide : Bool) :
    Delimiting (poolPlaces n afterWide) := by
  fun_induction poolPlaces n afterWide with
  | case1 => exact delimiting_pure []
  | case2 => exact delimiting_pure [none]
  | case3 n ih => exact ih.bind fun places => delimiting_pure (none :: places)
  | case4 n ih =>
    have hconstant : Delimiting constant := delimiting_u1.bind delimiting_constantOfTag
    exact hconstant.bind fun c => (ih c).bind fun places => delimiting_pure (some c :: places)

theorem delimiting_constantPool : Delimiting constantPool :=
  delimiting_u2.bind fun _ => (delimiting_poolPlaces _ _).bind fun _ => delimiting_pure _

/-! ## Attributes -/

theorem delimiting_handlerRange : Delimiting handlerRange :=
  delimiting_u2.bind fun _ => delimiting_u2.bind fun _ =>
    delimiting_u2.bind fun _ => delimiting_u2.bind fun _ => delimiting_pure _

/-- The bytes of an attribute are its own, so what is read from them takes nothing off the input. -/
theorem delimiting_attributeBody (inner : Reader (List Attribute)) (name : String) (body : Bytes) :
    Delimiting (attributeBody inner name body) := by
  unfold attributeBody
  split
  · exact delimiting_pure _
  · refine (delimiting_lift _).bind fun p => ?_
    dsimp only
    split
    · exact delimiting_pure _
    · exact delimiting_throw _

/-- The length of an attribute settles where it ends, so its body does not count. -/
theorem delimiting_oneAttribute (pool : ConstantPool) (depth : Nat) :
    Delimiting (oneAttribute pool depth) := by
  cases depth with
  | zero => exact delimiting_throw _
  | succ depth =>
    refine delimiting_u2.bind fun index => delimiting_u4.bind fun length => ?_
    refine (delimiting_lift _).bind fun name => (delimiting_bytes _).bind fun body => ?_
    exact delimiting_attributeBody _ name body

/-- Readers for the attributes of some code that agree on the bytes of a code attribute give the same
code there. -/
theorem agreeUpTo_codeOf {α : Type} {n : Nat} {inner inner' : Reader (List α)}
    (h : AgreeUpTo n inner inner') (hd : Delimiting inner) :
    AgreeUpTo n (codeOf inner) (codeOf inner') := by
  refine (AgreeUpTo.refl n u2).bind delimiting_u2 fun maxStack => ?_
  refine (AgreeUpTo.refl n u2).bind delimiting_u2 fun maxLocals => ?_
  refine (AgreeUpTo.refl n u4).bind delimiting_u4 fun length => ?_
  refine (AgreeUpTo.refl n _).bind (delimiting_bytes _) fun code => ?_
  refine (AgreeUpTo.refl n _).bind (delimiting_table delimiting_handlerRange) fun handlers => ?_
  exact h.bind hd fun attributes => .refl n _

/-- A body is read alike by readers that agree on all that is not longer. -/
theorem attributeBody_congr {inner inner' : Reader (List Attribute)} {body : Bytes}
    (h : AgreeUpTo body.length inner inner') (hd : Delimiting inner) (name : String) :
    attributeBody inner name body = attributeBody inner' name body := by
  by_cases hcode : name = "Code"
  · have hsame : (Attribute.code <$> codeOf inner) body = (Attribute.code <$> codeOf inner') body :=
      run_bind_congr (f := fun c => pure (Attribute.code c))
        (agreeUpTo_codeOf h hd body (Nat.le_refl _)) fun _ _ _ => rfl
    have hwithin : within (Attribute.code <$> codeOf inner) body =
        within (Attribute.code <$> codeOf inner') body := congrArg StateT.lift hsame
    have hknown : ∀ inner, knownBody? inner name = some (Attribute.code <$> codeOf inner) := by
      intro inner
      simp [knownBody?, hcode]
    unfold attributeBody
    rw [hknown, hknown]
    dsimp only
    rw [hwithin]
  · have hknown : knownBody? inner name = knownBody? inner' name := by
      simp only [knownBody?, hcode, if_false]
    unfold attributeBody
    rw [hknown]

/-- On at most `n` bytes all depths from `n` on do the same: code inside an attribute is read from
fewer bytes than the attribute. -/
theorem agreeUpTo_oneAttribute (pool : ConstantPool) {n depth depth' : Nat} (h : n ≤ depth)
    (h' : n ≤ depth') : AgreeUpTo n (oneAttribute pool depth) (oneAttribute pool depth') := by
  induction n generalizing depth depth' with
  | zero =>
    intro input hlength
    have hempty : input = [] := List.eq_nil_of_length_eq_zero (Nat.le_zero.mp hlength)
    have hend : ∀ depth, oneAttribute pool depth [] = .error .unexpectedEnd := by
      intro depth
      cases depth <;> rfl
    rw [hempty, hend, hend]
  | succ n ih =>
    obtain ⟨depth, rfl⟩ := Nat.exists_eq_add_of_le' (show 1 ≤ depth by omega)
    obtain ⟨depth', rfl⟩ := Nat.exists_eq_add_of_le' (show 1 ≤ depth' by omega)
    intro input hlength
    refine run_bind_congr rfl fun index rest₁ h₁ => run_bind_congr rfl fun length rest₂ h₂ => ?_
    refine run_bind_congr rfl fun name rest₃ h₃ => run_bind_congr rfl fun body rest₄ h₄ => ?_
    have hbody : body.length ≤ n := by
      have hindex := length_of_u2 h₁
      have hlength' := delimiting_u4.length_le h₂
      have hname := (delimiting_lift _).length_le h₃
      obtain ⟨_, hsplit⟩ := bytes_eq_ok_iff.mp h₄
      have hrest := congrArg List.length hsplit
      rw [List.length_append] at hrest
      omega
    have hinner := agreeUpTo_table (ih (show n ≤ depth by omega) (show n ≤ depth' by omega))
      (delimiting_oneAttribute pool depth)
    have hshort : AgreeUpTo body.length (table (oneAttribute pool depth))
        (table (oneAttribute pool depth')) := fun input hinput => hinner input (by omega)
    rw [attributeBody_congr hshort (delimiting_table (delimiting_oneAttribute pool depth))]

/-- A table of attributes, read to any depth from the number of bytes on. -/
theorem attributes_eq (pool : ConstantPool) {input : Bytes} {depth : Nat}
    (h : input.length ≤ depth) :
    attributes pool input = table (oneAttribute pool depth) input :=
  agreeUpTo_table (agreeUpTo_oneAttribute pool (Nat.le_refl _) h)
    (delimiting_oneAttribute pool _) input (Nat.le_refl _)

/-- A table of attributes settles its end, by induction on the depth of their nesting. -/
theorem delimiting_attributes (pool : ConstantPool) : Delimiting (attributes pool) := by
  intro input l rest h
  -- At any depth that is enough for the input, the same bytes are taken for the same attributes.
  have hdeep : ∀ depth, input.length ≤ depth → ∃ front, input = front ++ rest ∧
      Reads (table (oneAttribute pool depth)) front l ∧
      EndsEarly (table (oneAttribute pool depth)) front := by
    intro depth hdepth
    rw [attributes_eq pool hdepth] at h
    exact delimiting_table (delimiting_oneAttribute pool depth) input l rest h
  obtain ⟨front, rfl, _⟩ := hdeep _ (Nat.le_refl _)
  have hfront : ∀ depth, (front ++ rest).length ≤ depth →
      Reads (table (oneAttribute pool depth)) front l ∧
      EndsEarly (table (oneAttribute pool depth)) front := by
    intro depth hdepth
    obtain ⟨front', heq, hreads, hcut⟩ := hdeep depth hdepth
    rw [List.append_cancel_right heq]
    exact ⟨hreads, hcut⟩
  refine ⟨front, rfl, ?_, ?_⟩
  · intro rest'
    have hdepth := Nat.le_max_left (front ++ rest').length (front ++ rest).length
    rw [attributes_eq pool hdepth]
    exact (hfront _ (Nat.le_max_right ..)).1 rest'
  · intro cut hcut hne
    have hlength : cut.length ≤ (front ++ rest).length :=
      Nat.le_trans hcut.length_le (List.prefix_append front rest).length_le
    rw [attributes_eq pool hlength]
    exact (hfront _ (Nat.le_refl _)).2 cut hcut hne

/-! ## Members and the whole file -/

theorem delimiting_member (pool : ConstantPool) : Delimiting (member pool) :=
  delimiting_u2.bind fun _ => delimiting_u2.bind fun _ => delimiting_u2.bind fun _ =>
    (delimiting_attributes pool).bind fun _ => delimiting_pure _

/-- A class file settles where it ends. -/
theorem delimiting_classFile : Delimiting classFile := by
  refine delimiting_u4.bind fun start => ?_
  dsimp only
  split
  · -- After a wrong start nothing else is read.
    intro input cf rest h
    obtain ⟨_, _, h, _⟩ := run_bind_eq_ok.mp h
    cases h
  · refine delimiting_u2.bind fun minorVersion => delimiting_u2.bind fun majorVersion => ?_
    refine delimiting_constantPool.bind fun pool => ?_
    refine delimiting_u2.bind fun flags => delimiting_u2.bind fun thisClass => ?_
    refine delimiting_u2.bind fun superClass => ?_
    refine (delimiting_table delimiting_u2).bind fun interfaces => ?_
    refine (delimiting_table (delimiting_member pool)).bind fun fields => ?_
    refine (delimiting_table (delimiting_member pool)).bind fun methods => ?_
    exact (delimiting_attributes pool).bind fun attributes => delimiting_pure _

end Reader

namespace ClassFile

/-- A class file that is cut off before its end is an unexpected end, and one with bytes behind its
end has just those bytes trailing. -/
theorem parse_cut_or_extended {input : Bytes} {cf : ClassFile} (h : parse input = .ok cf) :
    (∀ cut, cut <+: input → cut ≠ input → parse cut = .error .unexpectedEnd) ∧
      ∀ tail, tail ≠ [] → parse (input ++ tail) = .error (.trailingBytes tail.length) := by
  -- The file is what its reader took, for nothing was left of it.
  obtain ⟨⟨cf', rest⟩, hread, hend⟩ := bind_eq_ok.mp h
  obtain ⟨front, rfl, hreads, hcut⟩ := Reader.delimiting_classFile _ _ _ hread
  have hrest : rest = [] := by
    cases rest with
    | nil => rfl
    | cons b tail => cases hend
  rw [hrest, List.append_nil]
  constructor
  · intro cut hprefix hne
    unfold parse
    rw [StateT.run, hcut cut hprefix hne]
    rfl
  · intro tail htail
    unfold parse
    rw [StateT.run, hreads tail]
    show (if tail.isEmpty then _ else _) = _
    rw [if_neg (by simpa using htail)]
    rfl

/-- The bytes of a class `A` with a long constant and a method with code. -/
def methodFileBytes : Bytes :=
  [0xCA, 0xFE, 0xBA, 0xBE, 0, 0, 0, 52,
   0, 8, 1, 0, 1, 65, 7, 0, 1, 1, 0, 4, 67, 111, 100, 101, 1, 0, 1, 109, 1, 0, 3, 40, 41, 86,
   5, 0, 0, 0, 0, 0, 0, 0, 5,
   0, 0x21, 0, 2, 0, 0, 0, 0, 0, 0,
   0, 1, 0, 9, 0, 4, 0, 5, 0, 1, 0, 3, 0, 0, 0, 13, 0, 1, 0, 1, 0, 0, 0, 1, 0xB1, 0, 0, 0, 0,
   0, 0]

/-- The cut lies in the code of the method. -/
theorem parse_cut_or_extended_methodFile : ∃ cf, parse methodFileBytes = .ok cf ∧
    parse (methodFileBytes.take 77) = .error .unexpectedEnd ∧
    parse (methodFileBytes ++ [0, 0]) = .error (.trailingBytes 2) := by
  have hok : (parse methodFileBytes).isOk = true := by decide +kernel
  cases hparse : parse methodFileBytes with
  | error e =>
    rw [hparse] at hok
    cases hok
  | ok cf =>
    obtain ⟨hcut, hextended⟩ := parse_cut_or_extended hparse
    exact ⟨cf, rfl, hcut _ (List.take_prefix 77 _) (by decide), hextended [0, 0] (by decide)⟩

end ClassFile

end JavaMachine

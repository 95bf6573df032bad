/-
# Descriptors byte by byte

A descriptor is made of pieces: in parentheses the types of the parameters, and then the result.  What
the pieces are is said of the bytes of its UTF-8 form (`IsFieldType`, `MethodPieces`), where each mark
is a byte that no other character has among its own.  The pieces are unique, since no type goes on
where another one ends (`IsFieldType.append_inj`).

Bytes can be looked at by their positions.  `scanMethod` walks over a descriptor in that way, from one
type to the next by its length, and fails where a position lies beyond the end.  It never does: it
gives what reading the text gives (`scanMethod_utf8Bytes`).  So a descriptor is read exactly when it
has such pieces, and with the kinds that their first letters announce (`methodType_iff_pieces`).
-/
import JavaMachine.Proofs.ClassTable
import JavaMachine.Proofs.Descriptors
import JavaMachine.Proofs.Utf8Text

namespace JavaMachine

/-! ## Pieces of descriptors -/

/-- The bytes of a field type: one letter for a primitive kind, a class name between `L` and its
semicolon, or the type of the components behind a bracket. -/
inductive IsFieldType : Bytes → Prop
  | letter {c : Char} (h : c ∈ ['B', 'C', 'D', 'F', 'I', 'J', 'S', 'Z']) : IsFieldType [c.toUInt8]
  | object {name : Bytes} (h : ';'.toUInt8 ∉ name) :
      IsFieldType ('L'.toUInt8 :: (name ++ [';'.toUInt8]))
  | array {component : Bytes} (h : IsFieldType component) :
      IsFieldType ('['.toUInt8 :: component)

/-- The bytes of a method descriptor fall into the types of its parameters and its result, `V` standing
for none. -/
structure MethodPieces (bytes : Bytes) (params : List Bytes) (result : Bytes) : Prop where
  bytes_eq : bytes = '('.toUInt8 :: (params.flatten ++ ')'.toUInt8 :: result)
  params_types : ∀ p ∈ params, IsFieldType p
  result_type : result = ['V'.toUInt8] ∨ IsFieldType result

/-- The kind that a byte announces as the first one of a type. -/
def Tag.ofByte? (b : UInt8) : Option Tag := Tag.ofLetter? (Char.ofUInt8 b)

/-- The kind that the first byte of a type announces. -/
def firstTag (piece : Bytes) : Option Tag := piece.head?.bind Tag.ofByte?

/-! ## Walking over the bytes -/

/-- Why a walk over bytes ends without a result. -/
inductive ScanFault where
  | malformed
  | outside (position size : Nat)
deriving DecidableEq, Repr

/-- A result that is missing where the bytes are malformed. -/
def orMalformed {α : Type} (x : Option α) : Except ScanFault α :=
  match x with
  | none => .error .malformed
  | some a => .ok a

/-- The byte at a position, which has to lie in front of the end. -/
def byteAt (bytes : Bytes) (position : Nat) : Except ScanFault UInt8 :=
  match bytes[position]? with
  | none => .error (.outside position bytes.length)
  | some b => .ok b

/-- The bytes from a position on, which may not lie behind the end. -/
def bytesFrom (bytes : Bytes) (position : Nat) : Except ScanFault Bytes :=
  if position ≤ bytes.length then .ok (bytes.drop position)
  else .error (.outside position bytes.length)

/-- Bytes that are skipped are gone from the length. -/
theorem length_of_bytesFrom {bytes rest : Bytes} {position : Nat}
    (h : bytesFrom bytes position = .ok rest) : rest.length = bytes.length - position := by
  unfold bytesFrom at h
  split at h
  · cases h
    exact List.length_drop
  · cases h

/-- What stands behind a front is what is left when as many bytes are skipped. -/
theorem bytesFrom_append (front rest : Bytes) :
    bytesFrom (front ++ rest) front.length = .ok rest := by
  unfold bytesFrom
  rw [if_pos (by simp), List.drop_left]

theorem bytesFrom_one (b : UInt8) (rest : Bytes) : bytesFrom (b :: rest) 1 = .ok rest :=
  bytesFrom_append [b] rest

/-- A missing value stays missing, whatever is made of it. -/
theorem map_orMalformed {α β : Type} (f : α → β) (x : Option α) :
    (orMalformed x).map f = orMalformed (x.map f) := by
  cases x <;> rfl

/-- The length of the type that some bytes begin with. -/
def typeLength (bytes : Bytes) : Except ScanFault Nat :=
  match bytes with
  | [] => .error .malformed
  | b :: tail =>
    if b = 'L'.toUInt8 then
      (orMalformed ((b :: tail).idxOf? ';'.toUInt8)).map (· + 1)
    else if b = '['.toUInt8 then
      match _h : bytesFrom (b :: tail) 1 with
      | .error e => .error e
      | .ok rest => (typeLength rest).map (· + 1)
    else (orMalformed (Tag.ofByte? b)).map fun _ => 1
termination_by bytes.length
decreasing_by
  have hlength := length_of_bytesFrom _h
  simp only [List.length_cons] at hlength ⊢
  omega

/-- No type begins where the bytes have ended. -/
theorem typeLength_nil : typeLength [] = .error .malformed := by
  rw [typeLength]

/-- The type of an object reaches up to the first semicolon. -/
theorem typeLength_object (tail : Bytes) :
    typeLength ('L'.toUInt8 :: tail) = orMalformed ((tail.idxOf? ';'.toUInt8).map (· + 2)) := by
  rw [typeLength, if_pos rfl, map_orMalformed, List.idxOf?_cons,
    if_neg (by decide), Option.map_map]
  rfl

/-- The type of an array is one byte longer than that of its components. -/
theorem typeLength_array (tail : Bytes) :
    typeLength ('['.toUInt8 :: tail) = (typeLength tail).map (· + 1) := by
  rw [typeLength, if_neg (by decide), if_pos rfl]
  split
  · next h =>
    rw [bytesFrom_one] at h
    cases h
  · next h =>
    rw [bytesFrom_one] at h
    cases h
    rfl

/-- Any other type is one letter. -/
theorem typeLength_letter {b : UInt8} (hL : b ≠ 'L'.toUInt8) (hbracket : b ≠ '['.toUInt8)
    (tail : Bytes) : typeLength (b :: tail) = orMalformed ((Tag.ofByte? b).map fun _ => 1) := by
  rw [typeLength, if_neg hL, if_neg hbracket, map_orMalformed]

/-- A length that is counted on from another one is not zero. -/
theorem pos_of_map {α : Type} {x : Except ScanFault α} {f : α → Nat} (hf : ∀ a, 0 < f a) {n : Nat}
    (h : x.map f = .ok n) : 0 < n := by
  cases x with
  | error e => cases h
  | ok a =>
    cases h
    exact hf a

/-- A type is at least one byte long, and the walk goes on behind it. -/
theorem typeLength_pos {bytes : Bytes} {n : Nat} (h : typeLength bytes = .ok n) :
    0 < n ∧ 0 < bytes.length := by
  cases bytes with
  | nil =>
    rw [typeLength_nil] at h
    cases h
  | cons b tail =>
    refine ⟨?_, List.length_pos_of_mem List.mem_cons_self⟩
    by_cases hL : b = 'L'.toUInt8
    · rw [hL, typeLength_object, ← map_orMalformed] at h
      exact pos_of_map (fun _ => Nat.succ_pos _) h
    · by_cases hbracket : b = '['.toUInt8
      · rw [hbracket, typeLength_array] at h
        exact pos_of_map (fun _ => Nat.succ_pos _) h
      · rw [typeLength_letter hL hbracket, ← map_orMalformed] at h
        exact pos_of_map (fun _ => Nat.one_pos) h

/-- The kind of the type that some bytes begin with, and the bytes behind the type. -/
def scanParam (bytes : Bytes) : Except ScanFault (Tag × Bytes) := do
  let length ← typeLength bytes
  let tag ← orMalformed (Tag.ofByte? (← byteAt bytes 0))
  return (tag, ← bytesFrom bytes length)

/-- A parameter takes at least one byte, so the scan comes to an end. -/
theorem length_of_scanParam {bytes rest : Bytes} {t : Tag} (h : scanParam bytes = .ok (t, rest)) :
    rest.length < bytes.length := by
  obtain ⟨n, hn, h⟩ := bind_eq_ok.mp h
  obtain ⟨b, -, h⟩ := bind_eq_ok.mp h
  obtain ⟨tag, -, h⟩ := bind_eq_ok.mp h
  obtain ⟨after, hafter, ⟨⟩⟩ := bind_eq_ok.mp h
  have hlength := length_of_bytesFrom hafter
  have hpos := typeLength_pos hn
  omega

/-- The kinds of the parameters up to the closing parenthesis, and the bytes behind it. -/
def scanParams (bytes : Bytes) : Except ScanFault (List Tag × Bytes) :=
  match bytes with
  | [] => .error .malformed
  | b :: tail =>
    if b = ')'.toUInt8 then (bytesFrom (b :: tail) 1).map fun rest => ([], rest)
    else
      match _h : scanParam (b :: tail) with
      | .error e => .error e
      | .ok (t, rest) => (scanParams rest).map fun (ts, rest) => (t :: ts, rest)
termination_by bytes.length
decreasing_by exact length_of_scanParam _h

/-- Parameters that are never closed are malformed. -/
theorem scanParams_nil : scanParams [] = .error .malformed := by
  rw [scanParams]

/-- A closing parenthesis ends the parameters. -/
theorem scanParams_close (tail : Bytes) : scanParams (')'.toUInt8 :: tail) = .ok ([], tail) := by
  rw [scanParams, if_pos rfl, bytesFrom_one]
  rfl

/-- In front of anything else stands a parameter, and the others behind it. -/
theorem scanParams_param {b : UInt8} {tail : Bytes} (hb : b ≠ ')'.toUInt8) :
    scanParams (b :: tail) = (scanParam (b :: tail)).bind fun (t, rest) =>
      (scanParams rest).map fun (ts, rest) => (t :: ts, rest) := by
  rw [scanParams, if_neg hb]
  split <;> next h => rw [h]; rfl

/-- The kind of the result that the bytes are as a whole. -/
def scanResult (bytes : Bytes) : Except ScanFault (Option Tag) :=
  if bytes = ['V'.toUInt8] then .ok none
  else do
    let length ← typeLength bytes
    if length = bytes.length then
      let tag ← orMalformed (Tag.ofByte? (← byteAt bytes 0))
      return some tag
    else throw .malformed

/-- The kinds of the parameters and of the result of a method descriptor. -/
def scanMethod (bytes : Bytes) : Except ScanFault (List Tag × Option Tag) := do
  if bytes.head? ≠ some '('.toUInt8 then throw .malformed
  let (params, rest) ← scanParams (← bytesFrom bytes 1)
  return (params, ← scanResult rest)

/-- Behind the opening parenthesis stand the parameters and the result. -/
theorem scanMethod_open (tail : Bytes) : scanMethod ('('.toUInt8 :: tail) =
    (scanParams tail).bind fun (params, rest) =>
      (scanResult rest).map fun result => (params, result) := by
  unfold scanMethod
  rw [bytesFrom_one]
  rfl

/-! ## Letters of kinds -/

/-- Letters that announce a kind are ASCII. -/
theorem toNat_lt_of_ofLetter? {c : Char} {t : Tag} (h : Tag.ofLetter? c = some t) :
    c.toNat < 0x80 := by
  unfold Tag.ofLetter? at h
  split at h
  · next hc => rcases hc with rfl | rfl <;> decide
  · obtain ⟨p, hp, -⟩ := Option.map_eq_some_iff.mp h
    have hletter := List.find?_some hp
    rw [decide_eq_true_iff] at hletter
    rw [← hletter]
    cases p <;> decide

/-- On bytes of ASCII the kinds are those of the letters. -/
theorem Tag.ofByte?_toUInt8 {c : Char} (hc : c.toNat < 0x80) :
    Tag.ofByte? c.toUInt8 = Tag.ofLetter? c := by
  have hsame : Char.ofUInt8 c.toUInt8 = c := by
    rw [← Char.toNat_inj]
    exact toNat_toUInt8 hc
  rw [Tag.ofByte?, hsame]

/-- No other byte is the letter of a kind. -/
theorem Tag.ofByte?_eq_none {b : UInt8} (hb : 0x80 ≤ b.toNat) : Tag.ofByte? b = none := by
  cases h : Tag.ofByte? b with
  | none => rfl
  | some t =>
    have hlt : b.toNat < 0x80 := toNat_lt_of_ofLetter? h
    omega

/-- The first byte announces what the first character does. -/
theorem firstTag_utf8Bytes (cs : List Char) :
    firstTag (utf8Bytes cs) = cs.head?.bind Tag.ofLetter? := by
  cases cs with
  | nil => rfl
  | cons c cs =>
    rcases utf8Bytes_cons_cases c cs with ⟨hc, hbytes⟩ | ⟨hc, b, bs, hb, hbytes⟩
    · rw [hbytes]
      exact Tag.ofByte?_toUInt8 hc
    · have hnone : Tag.ofLetter? c = none := by
        rw [Option.eq_none_iff_forall_ne_some]
        intro t ht
        have hlt := toNat_lt_of_ofLetter? ht
        omega
      rw [hbytes, List.head?_cons, Option.bind_some, hnone]
      exact Tag.ofByte?_eq_none hb

/-! ## The walk gives what reading gives -/

/-- A byte that is not in front is found behind. -/
theorem idxOf?_append_of_notMem {b : UInt8} {front : Bytes} (h : b ∉ front) (rest : Bytes) :
    (front ++ rest).idxOf? b = (rest.idxOf? b).map (· + front.length) := by
  induction front with
  | nil => simp
  | cons c front ih =>
    obtain ⟨hc, hfront⟩ := not_or.mp (mt List.mem_cons.mpr h)
    rw [List.cons_append, List.idxOf?_cons, if_neg (by simpa using Ne.symm hc), ih hfront,
      Option.map_map]
    congr 1

/-- The first semicolon of a text stands behind the class name that is read. -/
theorem idxOf?_utf8Bytes (cs : List Char) :
    (utf8Bytes cs).idxOf? ';'.toUInt8 =
      (FieldType.readName? cs).map fun p => (utf8Bytes p.1).length := by
  induction cs with
  | nil => rfl
  | cons c cs ih =>
    unfold FieldType.readName?
    split
    · next hc =>
      subst hc
      rw [utf8Bytes_cons_ascii (by decide), List.idxOf?_cons]
      rfl
    · next hc =>
      have hnot : ';'.toUInt8 ∉ String.utf8EncodeChar c :=
        fun hmem => hc (eq_of_mem_utf8EncodeChar (by decide) hmem)
      rw [utf8Bytes, List.flatMap_cons, ← utf8Bytes, idxOf?_append_of_notMem hnot, ih,
        Option.map_map, Option.map_map]
      congr 1
      funext p
      simp [utf8Bytes, Nat.add_comm]

theorem utf8Bytes_text_primitive (p : Primitive) :
    utf8Bytes (FieldType.primitive p).text = [p.letter.toUInt8] := by
  cases p <;> decide

/-- The bytes of a class name stand between the marks. -/
theorem utf8Bytes_text_object (name : List Char) :
    utf8Bytes (FieldType.object name).text =
      'L'.toUInt8 :: (utf8Bytes name ++ [';'.toUInt8]) := by
  have hend : utf8Bytes [';'] = [';'.toUInt8] := by decide
  rw [FieldType.text, List.cons_append, utf8Bytes_cons_ascii (by decide), utf8Bytes_append, hend]

/-- The bytes of the components follow the mark. -/
theorem utf8Bytes_text_array (component : FieldType) :
    utf8Bytes (FieldType.array component).text = '['.toUInt8 :: utf8Bytes component.text := by
  rw [FieldType.text, utf8Bytes_cons_ascii (by decide)]

/-- A byte that is none of ASCII announces no type. -/
theorem typeLength_of_le {b : UInt8} (hb : 0x80 ≤ b.toNat) (bs : Bytes) :
    typeLength (b :: bs) = .error .malformed := by
  have hL : b ≠ 'L'.toUInt8 := by
    rintro rfl
    exact absurd hb (by decide)
  have hbracket : b ≠ '['.toUInt8 := by
    rintro rfl
    exact absurd hb (by decide)
  rw [typeLength_letter hL hbracket, Tag.ofByte?_eq_none hb]
  rfl

/-- No type begins with a character outside of ASCII. -/
theorem parse?_of_le {c : Char} (hc : 0x80 ≤ c.toNat) (cs : List Char) :
    FieldType.parse? (c :: cs) = none := by
  rw [Option.eq_none_iff_forall_ne_some]
  rintro ⟨t, rest⟩ h
  obtain ⟨-, htext⟩ := FieldType.parse?_eq_some_iff.mp h
  obtain ⟨d, ds, hd, htag⟩ := t.text_eq_cons
  rw [hd, List.cons_append, List.cons.injEq] at htext
  have hlt := toNat_lt_of_ofLetter? htag
  rw [← htext.1] at hlt
  omega

/-- The walk measures the type that is read. -/
theorem typeLength_utf8Bytes (cs : List Char) :
    typeLength (utf8Bytes cs) =
      orMalformed ((FieldType.parse? cs).map fun p => (utf8Bytes p.1.text).length) := by
  induction cs with
  | nil => exact typeLength_nil
  | cons c cs ih =>
    rcases utf8Bytes_cons_cases c cs with ⟨hc, hbytes⟩ | ⟨hc, b, bs, hb, hbytes⟩
    · rw [hbytes]
      unfold FieldType.parse?
      split
      · next hL =>
        rw [hL, typeLength_object, idxOf?_utf8Bytes, Option.map_map, Option.map_map]
        congr 2
        funext p
        simp [utf8Bytes_text_object]
      · next hL =>
        split
        · next hbracket =>
          rw [hbracket, typeLength_array, ih, map_orMalformed, Option.map_map, Option.map_map]
          congr 2
        · next hbracket =>
          have hL' : c.toUInt8 ≠ 'L'.toUInt8 := mt (toUInt8_eq_iff hc (by decide)).mp hL
          have hbracket' : c.toUInt8 ≠ '['.toUInt8 :=
            mt (toUInt8_eq_iff hc (by decide)).mp hbracket
          rw [typeLength_letter hL' hbracket', Tag.ofByte?_toUInt8 hc, Tag.ofLetter?,
            if_neg (by simp [hL, hbracket]), Option.map_map, Option.map_map]
          congr 2
          funext p
          simp [utf8Bytes_text_primitive]
    · rw [hbytes, typeLength_of_le hb, parse?_of_le hc]
      rfl

/-- The bytes of a type begin with one that announces its kind. -/
theorem utf8Bytes_text (t : FieldType) :
    ∃ b bs, utf8Bytes t.text = b :: bs ∧ Tag.ofByte? b = some t.tag := by
  obtain ⟨c, cs, htext, htag⟩ := t.text_eq_cons
  have hc := toNat_lt_of_ofLetter? htag
  exact ⟨c.toUInt8, utf8Bytes cs, by rw [htext, utf8Bytes_cons_ascii hc],
    by rw [Tag.ofByte?_toUInt8 hc, htag]⟩

/-- The text that was parsed is the type and what stands behind it, also in bytes. -/
theorem utf8Bytes_of_parse? {cs rest : List Char} {t : FieldType}
    (h : FieldType.parse? cs = some (t, rest)) :
    utf8Bytes cs = utf8Bytes t.text ++ utf8Bytes rest := by
  rw [← FieldType.text_append_of_parse? h, utf8Bytes_append]

/-- The kind of a type that is read is the one that the first byte announces. -/
theorem byteAt_of_parse? {cs rest : List Char} {t : FieldType}
    (h : FieldType.parse? cs = some (t, rest)) :
    ∃ b, byteAt (utf8Bytes cs) 0 = .ok b ∧ Tag.ofByte? b = some t.tag := by
  obtain ⟨b, bs, hbytes, htag⟩ := utf8Bytes_text t
  refine ⟨b, ?_, htag⟩
  rw [utf8Bytes_of_parse? h, hbytes]
  rfl

/-- On the bytes of a text, the scan reads the parameter that the parser does. -/
theorem scanParam_utf8Bytes (cs : List Char) :
    scanParam (utf8Bytes cs) =
      orMalformed ((FieldType.parse? cs).map fun (t, rest) => (t.tag, utf8Bytes rest)) := by
  unfold scanParam
  rw [typeLength_utf8Bytes]
  cases hparse : FieldType.parse? cs with
  | none => rfl
  | some p =>
    obtain ⟨t, rest⟩ := p
    obtain ⟨b, hfirst, htag⟩ := byteAt_of_parse? hparse
    have hrest : bytesFrom (utf8Bytes cs) (utf8Bytes t.text).length = .ok (utf8Bytes rest) := by
      rw [utf8Bytes_of_parse? hparse, bytesFrom_append]
    simp only [Option.map_some, orMalformed, bind, Except.bind, hfirst, htag, hrest]
    rfl

/-- On the bytes of a text, the scan reads the parameters that the parser does. -/
theorem scanParams_utf8Bytes (cs : List Char) :
    scanParams (utf8Bytes cs) =
      orMalformed ((MethodType.parseParams? cs).map fun (params, rest) =>
        (params.map (·.tag), utf8Bytes rest)) := by
  fun_induction MethodType.parseParams? cs with
  | case1 => exact scanParams_nil
  | case2 after =>
    rw [utf8Bytes_cons_ascii (by decide), scanParams_close]
    rfl
  | case3 c cs hc hparse =>
    obtain ⟨b, bs, hbytes, hb⟩ := head_utf8Bytes_ne (a := ')') (by decide) hc cs
    have hscan := scanParam_utf8Bytes (c :: cs)
    rw [hbytes, hparse] at hscan
    rw [hbytes, scanParams_param hb, hscan]
    rfl
  | case4 c cs hc t after hparse ih =>
    obtain ⟨b, bs, hbytes, hb⟩ := head_utf8Bytes_ne (a := ')') (by decide) hc cs
    have hscan := scanParam_utf8Bytes (c :: cs)
    rw [hbytes, hparse] at hscan
    rw [hbytes, scanParams_param hb, hscan]
    simp only [Option.map_some, orMalformed, Except.bind]
    rw [ih, map_orMalformed, Option.map_map, Option.map_map]
    rfl

/-- A type goes as far as the text does exactly when no character is left. -/
theorem length_of_parse?_iff {cs rest : List Char} {t : FieldType}
    (h : FieldType.parse? cs = some (t, rest)) :
    (utf8Bytes t.text).length = (utf8Bytes cs).length ↔ rest = [] := by
  rw [utf8Bytes_of_parse? h, List.length_append, ← utf8Bytes_eq_nil, ← List.length_eq_zero_iff]
  omega

/-- The walk ends at the end of a text exactly when a type is read and nothing is left. -/
theorem typeLength_eq_length_iff {cs : List Char} :
    typeLength (utf8Bytes cs) = .ok (utf8Bytes cs).length ↔
      ∃ t, FieldType.parse? cs = some (t, []) := by
  rw [typeLength_utf8Bytes]
  cases hparse : FieldType.parse? cs with
  | none => simp [orMalformed]
  | some p =>
    obtain ⟨t, rest⟩ := p
    simp [orMalformed, length_of_parse?_iff hparse]

/-- On the bytes of a text, the scan reads the result that the parser does. -/
theorem scanResult_utf8Bytes (cs : List Char) :
    scanResult (utf8Bytes cs) =
      orMalformed ((MethodType.parseResult? cs).map fun result => result.map (·.tag)) := by
  unfold scanResult MethodType.parseResult?
  simp only [utf8Bytes_eq_singleton (a := 'V') (by decide)]
  split
  · rfl
  · rw [typeLength_utf8Bytes]
    cases hparse : FieldType.parse? cs with
    | none => rfl
    | some p =>
      obtain ⟨t, rest⟩ := p
      obtain ⟨b, hfirst, htag⟩ := byteAt_of_parse? hparse
      simp only [Option.map_some, orMalformed, bind, Except.bind, length_of_parse?_iff hparse]
      cases rest with
      | nil =>
        rw [if_pos rfl, hfirst]
        simp only [htag]
        rfl
      | cons c rest =>
        rw [if_neg nofun]
        rfl

/-- The kinds of a method type. -/
def MethodType.kinds (type : MethodType) : List Tag × Option Tag :=
  (type.params.map (·.tag), type.result.map (·.tag))

/-- The walk over a descriptor gives what reading its text gives. -/
theorem scanMethod_utf8Bytes (d : String) :
    scanMethod (utf8Bytes d.toList) = orMalformed ((MethodType.parse? d).map (·.kinds)) := by
  unfold MethodType.parse?
  split
  · next cs hcs =>
    rw [hcs, utf8Bytes_cons_ascii (by decide), scanMethod_open, scanParams_utf8Bytes]
    cases hparams : MethodType.parseParams? cs with
    | none => rfl
    | some p =>
      obtain ⟨params, rest⟩ := p
      simp only [Option.map_some, orMalformed, Except.bind]
      rw [scanResult_utf8Bytes, map_orMalformed]
      cases hresult : MethodType.parseResult? rest <;>
        simp [hresult, MethodType.kinds, orMalformed]
  · next hother =>
    have hhead : (utf8Bytes d.toList).head? ≠ some '('.toUInt8 := by
      cases hcs : d.toList with
      | nil => simp [utf8Bytes]
      | cons c cs =>
        have hc : c ≠ '(' := by
          rintro rfl
          exact hother cs hcs
        obtain ⟨b, bs, hbytes, hb⟩ := head_utf8Bytes_ne (a := '(') (by decide) hc cs
        rw [hbytes]
        simpa using hb
    unfold scanMethod
    rw [if_pos hhead]
    rfl

/-- No position of the walk lies outside of the descriptor. -/
theorem scanMethod_ne_outside (d : String) (position size : Nat) :
    scanMethod (utf8Bytes d.toList) ≠ .error (.outside position size) := by
  rw [scanMethod_utf8Bytes]
  cases MethodType.parse? d <;> nofun

/-! ## Pieces are found -/

/-- The letters of the primitive kinds announce these kinds. -/
theorem primitive_letters {c : Char} (h : c ∈ ['B', 'C', 'D', 'F', 'I', 'J', 'S', 'Z']) :
    c.toUInt8 ≠ 'L'.toUInt8 ∧ c.toUInt8 ≠ '['.toUInt8 ∧ (Tag.ofByte? c.toUInt8).isSome := by
  simp only [List.mem_cons, List.not_mem_nil, or_false] at h
  rcases h with rfl | rfl | rfl | rfl | rfl | rfl | rfl | rfl <;> decide

/-- A type begins with a byte that announces a kind. -/
theorem IsFieldType.eq_cons {piece : Bytes} (h : IsFieldType piece) :
    ∃ b bs t, piece = b :: bs ∧ Tag.ofByte? b = some t := by
  cases h with
  | letter hc =>
    obtain ⟨t, ht⟩ := Option.isSome_iff_exists.mp (primitive_letters hc).2.2
    exact ⟨_, [], t, rfl, ht⟩
  | object => exact ⟨_, _, .reference, rfl, rfl⟩
  | array => exact ⟨_, _, .reference, rfl, rfl⟩

/-- A type measures what its bytes are, whatever stands behind them. -/
theorem typeLength_append {piece : Bytes} (h : IsFieldType piece) (rest : Bytes) :
    typeLength (piece ++ rest) = .ok piece.length := by
  induction h with
  | letter hc =>
    obtain ⟨hL, hbracket, htag⟩ := primitive_letters hc
    obtain ⟨t, ht⟩ := Option.isSome_iff_exists.mp htag
    rw [List.singleton_append, typeLength_letter hL hbracket, ht]
    rfl
  | @object name hname =>
    rw [List.cons_append, List.append_assoc, typeLength_object, idxOf?_append_of_notMem hname,
      List.singleton_append, List.idxOf?_cons]
    simp [orMalformed]
  | array _ ih =>
    rw [List.cons_append, typeLength_array, ih]
    rfl

/-- The length of a piece is that of its bytes. -/
theorem IsFieldType.typeLength_eq {piece : Bytes} (h : IsFieldType piece) :
    typeLength piece = .ok piece.length := by
  have hlength := typeLength_append h []
  rwa [List.append_nil] at hlength

/-- No type goes on where another one ends. -/
theorem IsFieldType.append_inj {p q rest after : Bytes} (hp : IsFieldType p) (hq : IsFieldType q)
    (h : p ++ rest = q ++ after) : p = q ∧ rest = after := by
  have hlength : p.length = q.length := by
    have hmeasure := typeLength_append hp rest
    rw [h, typeLength_append hq, Except.ok.injEq] at hmeasure
    exact hmeasure.symm
  exact List.append_inj h hlength

/-- No type begins with a byte that announces no kind. -/
theorem IsFieldType.append_ne_cons {p : Bytes} (hp : IsFieldType p) {b : UInt8}
    (hb : Tag.ofByte? b = none) (rest after : Bytes) : p ++ rest ≠ b :: after := by
  obtain ⟨c, cs, t, rfl, ht⟩ := hp.eq_cons
  rintro ⟨⟩
  rw [hb] at ht
  cases ht

/-- Types in a row, up to a closing parenthesis, are the only ones in that row. -/
theorem IsFieldType.flatten_inj {ps qs : List Bytes} (hps : ∀ p ∈ ps, IsFieldType p)
    (hqs : ∀ q ∈ qs, IsFieldType q) {rest after : Bytes}
    (h : ps.flatten ++ ')'.toUInt8 :: rest = qs.flatten ++ ')'.toUInt8 :: after) :
    ps = qs ∧ rest = after := by
  induction ps generalizing qs with
  | nil =>
    cases qs with
    | nil =>
      cases h
      exact ⟨rfl, rfl⟩
    | cons q qs =>
      -- The row that goes on would have a type that begins with the parenthesis.
      have hq := hqs q List.mem_cons_self
      rw [List.flatten_cons, List.append_assoc] at h
      exact absurd h.symm (hq.append_ne_cons rfl _ _)
  | cons p ps ih =>
    obtain ⟨hp, hps⟩ := List.forall_mem_cons.mp hps
    rw [List.flatten_cons, List.append_assoc] at h
    cases qs with
    | nil => exact absurd h (hp.append_ne_cons rfl _ _)
    | cons q qs =>
      obtain ⟨hq, hqs'⟩ := List.forall_mem_cons.mp hqs
      rw [List.flatten_cons, List.append_assoc] at h
      obtain ⟨rfl, htail⟩ := hp.append_inj hq h
      obtain ⟨rfl, rfl⟩ := ih hps hqs' htail
      exact ⟨rfl, rfl⟩

/-- A method descriptor falls into pieces in one way only. -/
theorem MethodPieces.unique {bytes result result' : Bytes} {params params' : List Bytes}
    (h : MethodPieces bytes params result) (h' : MethodPieces bytes params' result') :
    params = params' ∧ result = result' := by
  have hbytes := h.bytes_eq.symm.trans h'.bytes_eq
  exact IsFieldType.flatten_inj h.params_types h'.params_types (List.cons.inj hbytes).2

/-- At the front of a type stands the byte that announces its kind. -/
theorem IsFieldType.byteAt_append {piece : Bytes} (h : IsFieldType piece) (rest : Bytes) :
    ∃ b t, byteAt (piece ++ rest) 0 = .ok b ∧ Tag.ofByte? b = some t ∧ firstTag piece = some t := by
  obtain ⟨b, bs, t, rfl, ht⟩ := h.eq_cons
  exact ⟨b, t, rfl, ht, ht⟩

/-- The walk over a type gives the kind that its first byte announces. -/
theorem scanParam_append {piece : Bytes} (h : IsFieldType piece) (rest : Bytes) :
    ∃ t, firstTag piece = some t ∧ scanParam (piece ++ rest) = .ok (t, rest) := by
  obtain ⟨b, t, hfirst, ht, hkind⟩ := h.byteAt_append rest
  refine ⟨t, hkind, ?_⟩
  unfold scanParam
  simp only [typeLength_append h, bind, Except.bind, hfirst, ht, orMalformed, bytesFrom_append]
  rfl

/-- Pieces are read one after the other, up to the closing parenthesis. -/
theorem scanParams_append {params : List Bytes} (h : ∀ p ∈ params, IsFieldType p)
    (rest : Bytes) :
    ∃ tags, params.map firstTag = tags.map some ∧
      scanParams (params.flatten ++ ')'.toUInt8 :: rest) = .ok (tags, rest) := by
  induction params with
  | nil => exact ⟨[], rfl, scanParams_close rest⟩
  | cons p params ih =>
    obtain ⟨hp, hparams⟩ := List.forall_mem_cons.mp h
    obtain ⟨t, hfirst, hscan⟩ := scanParam_append hp (params.flatten ++ ')'.toUInt8 :: rest)
    obtain ⟨tags, htags, hrest⟩ := ih hparams
    refine ⟨t :: tags, by rw [List.map_cons, hfirst, htags, List.map_cons], ?_⟩
    obtain ⟨b, bs, tag, hpiece, htag⟩ := hp.eq_cons
    have hb : b ≠ ')'.toUInt8 := by
      rintro rfl
      cases htag
    rw [List.flatten_cons, List.append_assoc]
    rw [hpiece, List.cons_append] at hscan ⊢
    rw [scanParams_param hb, hscan]
    simp only [Except.bind, hrest]
    rfl

/-- A result that is one piece is read whole. -/
theorem scanResult_type {result : Bytes} (h : IsFieldType result) :
    ∃ t, firstTag result = some t ∧ scanResult result = .ok (some t) := by
  have hv : result ≠ ['V'.toUInt8] := by
    have hnot := h.append_ne_cons (b := 'V'.toUInt8) rfl [] []
    rwa [List.append_nil] at hnot
  obtain ⟨b, t, hfirst, ht, hkind⟩ := h.byteAt_append []
  rw [List.append_nil] at hfirst
  refine ⟨t, hkind, ?_⟩
  unfold scanResult
  rw [if_neg hv]
  simp only [h.typeLength_eq, bind, Except.bind, if_pos, hfirst, ht, orMalformed]
  rfl

/-- The kind of the result, or none. -/
def resultTag (result : Bytes) : Option Tag :=
  if result = ['V'.toUInt8] then none else firstTag result

/-- The walk over the pieces of a descriptor gives the kinds that they announce. -/
theorem MethodPieces.scanMethod_eq {bytes result : Bytes} {params : List Bytes}
    (h : MethodPieces bytes params result) :
    ∃ tags, params.map firstTag = tags.map some ∧
      scanMethod bytes = .ok (tags, resultTag result) := by
  obtain ⟨tags, htags, hparams⟩ := scanParams_append h.params_types result
  refine ⟨tags, htags, ?_⟩
  have hresult : scanResult result = .ok (resultTag result) := by
    rcases h.result_type with rfl | htype
    · rfl
    · obtain ⟨t, hfirst, hscan⟩ := scanResult_type htype
      have hv : result ≠ ['V'.toUInt8] := by
        rintro rfl
        cases hfirst
      rw [hscan, resultTag, if_neg hv, hfirst]
  rw [h.bytes_eq, scanMethod_open, hparams]
  simp only [Except.bind, hresult]
  rfl

/-- The bytes of a type that can be read are those of a type. -/
theorem isFieldType_utf8Bytes {t : FieldType} (h : t.Plain) : IsFieldType (utf8Bytes t.text) := by
  induction t with
  | primitive p =>
    rw [utf8Bytes_text_primitive]
    exact .letter (by cases p <;> decide)
  | object name =>
    rw [utf8Bytes_text_object]
    refine .object fun hmem => ?_
    obtain ⟨c, hc, hb⟩ := List.mem_flatMap.mp hmem
    rw [eq_of_mem_utf8EncodeChar (by decide) hb] at hc
    exact h name rfl hc
  | array component ih =>
    rw [utf8Bytes_text_array]
    exact .array (ih h)

/-- Bytes are those of one type exactly when the type in front goes as far as they do. -/
theorem isFieldType_utf8Bytes_iff {cs : List Char} :
    IsFieldType (utf8Bytes cs) ↔ typeLength (utf8Bytes cs) = .ok (utf8Bytes cs).length := by
  constructor
  · exact IsFieldType.typeLength_eq
  · intro h
    obtain ⟨t, ht⟩ := typeLength_eq_length_iff.mp h
    rw [utf8Bytes_of_parse? ht, utf8Bytes_eq_nil.mpr rfl, List.append_nil]
    exact isFieldType_utf8Bytes (FieldType.plain_of_parse? ht)

/-- The bytes of parameters are those of each of them in a row. -/
theorem utf8Bytes_paramsText (params : List FieldType) :
    utf8Bytes (MethodType.paramsText params) =
      (params.map fun t => utf8Bytes t.text).flatten := by
  rw [MethodType.paramsText, utf8Bytes, List.flatMap_assoc, List.flatMap_def]
  rfl

/-- A descriptor that is read falls into pieces. -/
theorem methodPieces_of_parse? {d : String} {type : MethodType}
    (h : MethodType.parse? d = some type) :
    MethodPieces (utf8Bytes d.toList) (type.params.map fun t => utf8Bytes t.text)
      (utf8Bytes (MethodType.resultText type.result)) where
  bytes_eq := by
    rw [← MethodType.text_of_parse? h, MethodType.text_eq, List.cons_append,
      utf8Bytes_cons_ascii (by decide), utf8Bytes_append, utf8Bytes_paramsText,
      utf8Bytes_cons_ascii (by decide)]
  params_types := by
    obtain ⟨hplain, -⟩ := (MethodType.parse?_eq_some_iff.mp h).1
    rintro _ hp
    obtain ⟨t, ht, rfl⟩ := List.mem_map.mp hp
    exact isFieldType_utf8Bytes (hplain t ht)
  result_type := by
    obtain ⟨-, hplain⟩ := (MethodType.parse?_eq_some_iff.mp h).1
    cases hresult : type.result with
    | none => exact Or.inl rfl
    | some t => exact Or.inr (isFieldType_utf8Bytes (hplain t hresult))

/-- A method descriptor is read exactly when its bytes fall into the types of parameters and a result.
They do so in one way, and what is read has the kinds that the first bytes of the types announce.  The
walk over the bytes gives the same and looks at no position outside of them. -/
theorem methodType_iff_pieces (d : String) :
    ((MethodType.parse? d).isSome ↔
      ∃ params result, MethodPieces d.toUTF8.data.toList params result) ∧
    (∀ params result, MethodPieces d.toUTF8.data.toList params result →
      (∀ params' result', MethodPieces d.toUTF8.data.toList params' result' →
        params' = params ∧ result' = result) ∧
      ∃ type, MethodType.parse? d = some type ∧
        type.params.map (fun t => some t.tag) = params.map firstTag ∧
        type.result.map (·.tag) = resultTag result) ∧
    scanMethod d.toUTF8.data.toList = orMalformed ((MethodType.parse? d).map (·.kinds)) ∧
    ∀ position size, scanMethod d.toUTF8.data.toList ≠ .error (.outside position size) := by
  rw [toList_toUTF8]
  have hread : ∀ params result, MethodPieces (utf8Bytes d.toList) params result →
      ∃ type, MethodType.parse? d = some type ∧
        type.params.map (fun t => some t.tag) = params.map firstTag ∧
        type.result.map (·.tag) = resultTag result := by
    intro params result hpieces
    obtain ⟨tags, htags, hscan⟩ := hpieces.scanMethod_eq
    rw [scanMethod_utf8Bytes] at hscan
    cases hparse : MethodType.parse? d with
    | none =>
      rw [hparse] at hscan
      cases hscan
    | some type =>
      rw [hparse] at hscan
      obtain ⟨hkinds, hresult⟩ := Prod.mk.inj (Except.ok.inj hscan)
      refine ⟨type, rfl, ?_, hresult⟩
      rw [htags, ← hkinds, List.map_map]
      rfl
  refine ⟨⟨fun h => ?_, ?_⟩, fun params result hpieces => ⟨?_, hread params result hpieces⟩,
    scanMethod_utf8Bytes d, scanMethod_ne_outside d⟩
  · obtain ⟨type, htype⟩ := Option.isSome_iff_exists.mp h
    exact ⟨_, _, methodPieces_of_parse? htype⟩
  · rintro ⟨params, result, hpieces⟩
    obtain ⟨type, htype, -⟩ := hread params result hpieces
    rw [htype]
    rfl
  · intro params' result' hpieces'
    exact hpieces'.unique hpieces

/-- A closing parenthesis in a class name does not close the list of the parameters. -/
theorem method_pieces_with_parenthesis :
    MethodPieces "([La)b;J)V".toUTF8.data.toList
        [utf8Bytes "[La)b;".toList, utf8Bytes "J".toList] (utf8Bytes "V".toList) ∧
      ∃ type, MethodType.parse? "([La)b;J)V" = some type ∧
        type.params.map (fun t => some t.tag) = [some .reference, some (.primitive .long)] ∧
        type.result = none := by
  have hpieces : MethodPieces "([La)b;J)V".toUTF8.data.toList
      [utf8Bytes "[La)b;".toList, utf8Bytes "J".toList] (utf8Bytes "V".toList) :=
    { bytes_eq := by decide +kernel
      params_types := by
        rw [List.forall_mem_cons, List.forall_mem_singleton]
        have hname : ';'.toUInt8 ∉ utf8Bytes "a)b".toList := by decide +kernel
        have hcomponent : IsFieldType (utf8Bytes "La)b;".toList) := .object hname
        exact ⟨.array hcomponent, .letter (c := 'J') (by decide)⟩
      result_type := Or.inl (by decide +kernel) }
  obtain ⟨-, type, htype, hparams, hresult⟩ := (methodType_iff_pieces _).2.1 _ _ hpieces
  exact ⟨hpieces, type, htype, hparams, Option.map_eq_none_iff.mp hresult⟩

end JavaMachine

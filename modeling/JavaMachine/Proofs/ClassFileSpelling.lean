/-
# Spelling a class file

The bytes that stand for a class file: its numbers with the highest byte first, its texts in modified
UTF-8, each attribute framed by an index of its name and its length.  A name may stand at several
places of the pool, so an attribute has a spelling for each of them and being spelled by some bytes is
a relation (`Attribute.SpelledBy`, `ClassFile.SpelledBy`).

A class file whose counts and lengths fit the fields that hold them (`ClassFile.Encodable`) has a
spelling, and it is parsed from each of its spellings (`ClassFile.parse_spelling`).  That is put
together as the parser is: each reader takes off the front of its input what spells the value that it
gives.
-/
import JavaMachine.Proofs.Delimiting
import JavaMachine.Proofs.ModifiedText

namespace JavaMachine

open Reader (bigEndianBytes length_bigEndianBytes Reads)

/-! ## Constants -/

/-- The number that announces a constant. -/
def Constant.tag : Constant → UInt8
  | utf8 _ => 1
  | integer _ => 3
  | float _ => 4
  | long _ => 5
  | double _ => 6
  | classRef _ => 7
  | string _ => 8
  | fieldRef _ _ => 9
  | methodRef _ _ => 10
  | interfaceMethodRef _ _ => 11
  | nameAndType _ _ => 12
  | methodHandle _ _ => 15
  | methodType _ => 16
  | dynamic _ _ => 17
  | invokeDynamic _ _ => 18
  | moduleRef _ => 19
  | packageRef _ => 20

/-- The two bytes of an index, a count or a set of flags. -/
def indexBytes (v : UInt16) : Bytes := bigEndianBytes 2 v.toNat

/-- What stands behind the tag of a constant. -/
def Constant.payload : Constant → Bytes
  | utf8 text => bigEndianBytes 2 (encodeModified text).length ++ encodeModified text
  | integer value => bigEndianBytes 4 value.toUInt32.toNat
  | float bits => bigEndianBytes 4 bits.toNat
  | long value => bigEndianBytes 8 value.toUInt64.toNat
  | double bits => bigEndianBytes 8 bits.toNat
  | classRef name => indexBytes name
  | string text => indexBytes text
  | fieldRef owner member => indexBytes owner ++ indexBytes member
  | methodRef owner member => indexBytes owner ++ indexBytes member
  | interfaceMethodRef owner member => indexBytes owner ++ indexBytes member
  | nameAndType name descriptor => indexBytes name ++ indexBytes descriptor
  | methodHandle kind reference => bigEndianBytes 1 kind.toNat ++ indexBytes reference
  | methodType descriptor => indexBytes descriptor
  | dynamic bootstrap member => indexBytes bootstrap ++ indexBytes member
  | invokeDynamic bootstrap member => indexBytes bootstrap ++ indexBytes member
  | moduleRef name => indexBytes name
  | packageRef name => indexBytes name

/-- The bytes of a constant. -/
def Constant.bytes (c : Constant) : Bytes := bigEndianBytes 1 c.tag.toNat ++ c.payload

/-- The length of a text fits the two bytes that hold it. -/
def Constant.Fits : Constant → Prop
  | utf8 text => (encodeModified text).length < 2 ^ 16
  | _ => True

instance (c : Constant) : Decidable c.Fits :=
  match c with
  | .utf8 text => inferInstanceAs (Decidable ((encodeModified text).length < 2 ^ 16))
  | .integer _ | .float _ | .long _ | .double _ | .classRef _ | .string _ | .fieldRef _ _
  | .methodRef _ _ | .interfaceMethodRef _ _ | .nameAndType _ _ | .methodHandle _ _
  | .methodType _ | .dynamic _ _ | .invokeDynamic _ _ | .moduleRef _ | .packageRef _ =>
    inferInstanceAs (Decidable True)

namespace Reader

/-- A text is spelled by its length and its modified UTF-8. -/
theorem reads_textConstant {text : String} (hfits : (encodeModified text).length < 2 ^ 16) :
    Reads textConstant (Constant.utf8 text).payload (.utf8 text) := by
  refine (reads_count hfits).bind ?_
  rw [UInt16.toNat_ofNat', Nat.mod_eq_of_lt hfits]
  refine (reads_bytes (encodeModified text)).bind_nil ?_
  rw [decodeModified?_encodeModified]
  exact reads_pure _

/-- Two indices stand one behind the other. -/
theorem reads_indexPair (build : UInt16 → UInt16 → Constant) (first second : UInt16) :
    Reads (indexPair build) (indexBytes first ++ indexBytes second) (build first second) :=
  (reads_u2 first).bind ((reads_u2 second).map (build first))

/-- The tag of a constant tells how its payload is read. -/
theorem reads_constantOfTag {c : Constant} (hfits : c.Fits) :
    Reads (constantOfTag c.tag) c.payload c := by
  cases c with
  | utf8 text => exact reads_textConstant hfits
  | integer value => exact (reads_u4 value.toUInt32).map fun v => Constant.integer v.toInt32
  | float bits => exact (reads_u4 bits).map Constant.float
  | long value => exact (reads_u8 value.toUInt64).map fun v => Constant.long v.toInt64
  | double bits => exact (reads_u8 bits).map Constant.double
  | classRef name => exact (reads_u2 name).map Constant.classRef
  | string text => exact (reads_u2 text).map Constant.string
  | methodHandle kind reference =>
    exact (reads_u1 kind).bind ((reads_u2 reference).map (Constant.methodHandle kind))
  | methodType descriptor => exact (reads_u2 descriptor).map Constant.methodType
  | moduleRef name => exact (reads_u2 name).map Constant.moduleRef
  | packageRef name => exact (reads_u2 name).map Constant.packageRef
  | fieldRef owner nameAndType => exact reads_indexPair .fieldRef owner nameAndType
  | methodRef owner nameAndType => exact reads_indexPair .methodRef owner nameAndType
  | interfaceMethodRef owner nameAndType =>
    exact reads_indexPair .interfaceMethodRef owner nameAndType
  | nameAndType name descriptor => exact reads_indexPair .nameAndType name descriptor
  | dynamic bootstrap nameAndType => exact reads_indexPair .dynamic bootstrap nameAndType
  | invokeDynamic bootstrap nameAndType => exact reads_indexPair .invokeDynamic bootstrap nameAndType

/-- A constant is spelled by its tag and its payload. -/
theorem reads_constant {c : Constant} (hfits : c.Fits) : Reads constant c.bytes c :=
  (reads_u1 c.tag).bind (reads_constantOfTag hfits)

end Reader

/-! ## The constant pool -/

namespace ConstantPool

/-- Whether a constant that takes two places stands at an index. -/
def wideAt (pool : ConstantPool) (index : Nat) : Bool :=
  pool.entries[index]?.join.any Constant.isWide

/-- The bytes of a constant pool: the number of its places, and the constants in their order. -/
def bytes (pool : ConstantPool) : Bytes :=
  bigEndianBytes 2 pool.size ++ (pool.entries.toList.filterMap id).flatMap Constant.bytes

/-- The pool has bytes: its places can be counted, just place 0 and the places after wide constants
are empty, and its texts are not too long. -/
structure Encodable (pool : ConstantPool) : Prop where
  size_lt : pool.size < 2 ^ 16
  first : pool.entries[0]? = some none
  empty_iff : ∀ i < pool.size, pool.entries[i + 1]? = some none ↔ pool.wideAt i
  fits : ∀ c, some c ∈ pool.entries → c.Fits

end ConstantPool

/-- The empty places of a row of places are those behind wide constants. The flag says whether one
stands in front of the row. -/
def PlacesFit : (afterWide : Bool) → List (Option Constant) → Prop
  | false, [] => True
  | true, [] => False
  | true, place :: places => place = none ∧ PlacesFit false places
  | false, place :: places => ∃ c, place = some c ∧ PlacesFit c.isWide places

/-- Places are right when a gap stands exactly behind each wide constant. -/
theorem placesFit_of_forall {places : List (Option Constant)} {front : Option Constant}
    (h : ∀ i ≤ places.length, (front :: places)[i + 1]? = some none ↔
      ((front :: places)[i]?.join.any Constant.isWide) = true) :
    PlacesFit (front.any Constant.isWide) places := by
  induction places generalizing front with
  | nil =>
    have hlast := h 0 (Nat.le_refl 0)
    have hnarrow : front.any Constant.isWide = false := by simpa using hlast
    rw [hnarrow]
    trivial
  | cons place places ih =>
    have hplace : place = none ↔ front.any Constant.isWide = true := by
      simpa using h 0 (Nat.zero_le _)
    have hrest : PlacesFit (place.any Constant.isWide) places := by
      apply ih
      intro i hi
      simpa using h (i + 1) (by simp; omega)
    cases place with
    | none =>
      rw [hplace.mp rfl]
      exact ⟨rfl, hrest⟩
    | some c =>
      have hnarrow : front.any Constant.isWide = false := by
        rw [Bool.eq_false_iff]
        intro hwide
        cases hplace.mpr hwide
      rw [hnarrow]
      exact ⟨c, rfl, hrest⟩

/-- The places of a pool fit, and there is none at its front. -/
theorem ConstantPool.Encodable.placesFit {pool : ConstantPool} (h : pool.Encodable) :
    ∃ places, pool.entries.toList = none :: places ∧ PlacesFit false places := by
  obtain ⟨places, hplaces⟩ : ∃ places, pool.entries.toList = none :: places := by
    have hfirst := h.first
    rw [← Array.getElem?_toList] at hfirst
    cases hlist : pool.entries.toList with
    | nil => simp [hlist] at hfirst
    | cons place places =>
      rw [hlist] at hfirst
      exact ⟨places, by simpa using hfirst⟩
  have hsize : pool.size = places.length + 1 := by
    rw [ConstantPool.size, ← Array.length_toList, hplaces, List.length_cons]
  have hempty : ∀ i ≤ places.length, (none :: places)[i + 1]? = some none ↔
      ((none :: places)[i]?.join.any Constant.isWide) = true := by
    intro i hi
    rw [← hplaces, Array.getElem?_toList, Array.getElem?_toList]
    exact h.empty_iff i (by omega)
  exact ⟨places, hplaces, placesFit_of_forall hempty⟩

namespace Reader

/-- A place behind a wide constant is skipped without a byte. -/
theorem reads_poolPlaces {afterWide : Bool} {places : List (Option Constant)}
    (hplaces : PlacesFit afterWide places) (hfits : ∀ c, some c ∈ places → c.Fits) :
    Reads (poolPlaces places.length afterWide)
      ((places.filterMap id).flatMap Constant.bytes) places := by
  induction places generalizing afterWide with
  | nil =>
    cases afterWide with
    | false => exact reads_pure []
    | true => exact hplaces.elim
  | cons place places ih =>
    have hrest : ∀ c, some c ∈ places → c.Fits := fun c hc => hfits c (List.mem_cons_of_mem _ hc)
    cases afterWide with
    | true =>
      obtain ⟨rfl, hplaces⟩ := hplaces
      exact (ih hplaces hrest).map (none :: ·)
    | false =>
      obtain ⟨c, rfl, hplaces⟩ := hplaces
      have hc := reads_constant (hfits c List.mem_cons_self)
      exact hc.bind ((ih hplaces hrest).map (some c :: ·))

/-- A pool is spelled by its count and the constants that it has. -/
theorem reads_constantPool {pool : ConstantPool} (h : pool.Encodable) :
    Reads constantPool pool.bytes pool := by
  obtain ⟨places, hlist, hplaces⟩ := h.placesFit
  have hentries : pool.entries = (none :: places).toArray := by
    rw [← hlist]
  have hsize : pool.size = places.length + 1 := by
    simp [ConstantPool.size, hentries]
  have hcount : (UInt16.ofNat pool.size).toNat - 1 = places.length := by
    rw [UInt16.toNat_ofNat', Nat.mod_eq_of_lt h.size_lt]
    omega
  have hfits : ∀ c, some c ∈ places → c.Fits := by
    intro c hc
    apply h.fits
    rw [hentries]
    simp [hc]
  have hread := (reads_poolPlaces hplaces hfits).map
    fun places => (⟨(none :: places).toArray⟩ : ConstantPool)
  rw [← hentries, ← hcount] at hread
  have hbytes : pool.bytes =
      bigEndianBytes 2 pool.size ++ (places.filterMap id).flatMap Constant.bytes := by
    rw [ConstantPool.bytes, hlist]
    rfl
  rw [hbytes]
  exact (reads_count h.size_lt).bind hread

end Reader

/-! ## Attributes -/

/-- A table: how many things it holds, and the bytes of each. -/
def tableBytes (pieces : List Bytes) : Bytes := bigEndianBytes 2 pieces.length ++ pieces.flatten

def LineEntry.bytes (e : LineEntry) : Bytes := indexBytes e.startPc ++ indexBytes e.line

def HandlerRange.bytes (h : HandlerRange) : Bytes :=
  indexBytes h.startPc ++ (indexBytes h.endPc ++ (indexBytes h.handlerPc ++ indexBytes h.catchType))

/-- What some code holds in front of its attributes. -/
def CodeOf.headBytes {α : Type} (c : CodeOf α) : Bytes :=
  indexBytes c.maxStack ++ (indexBytes c.maxLocals ++ (bigEndianBytes 4 c.code.length ++
    (c.code ++ tableBytes (c.handlers.map HandlerRange.bytes))))

namespace Attribute

/-- The names of the attributes that are more than bytes. -/
def knownNames : List String :=
  ["ConstantValue", "Code", "Exceptions", "SourceFile", "LineNumberTable"]

def name : Attribute → String
  | constantValue _ => "ConstantValue"
  | code _ => "Code"
  | exceptions _ => "Exceptions"
  | sourceFile _ => "SourceFile"
  | lineNumbers _ => "LineNumberTable"
  | unknown name _ => name

/-- The body of an attribute that holds no other attributes. -/
def plainBody? : Attribute → Option Bytes
  | constantValue index | sourceFile index => some (indexBytes index)
  | exceptions indices => some (tableBytes (indices.map indexBytes))
  | lineNumbers entries => some (tableBytes (entries.map LineEntry.bytes))
  | unknown _ info => some info
  | code _ => none

/-- An attribute with its frame: an index of its name, the length of its body, and the body. -/
def framed (index : UInt16) (body : Bytes) : Bytes :=
  indexBytes index ++ (bigEndianBytes 4 body.length ++ body)

/-- The bytes spell the attribute: the index in front leads to its name, and the attributes inside
code are spelled by the bytes of a table. -/
inductive SpelledBy (pool : ConstantPool) : Attribute → Bytes → Prop where
  | plain {a : Attribute} {index : UInt16} {body : Bytes} (hname : pool.text index = .ok a.name)
      (hbody : a.plainBody? = some body) : SpelledBy pool a (framed index body)
  | code {c : Code} {index : UInt16} {pieces : List (Attribute × Bytes)}
      (hname : pool.text index = .ok "Code") (hattributes : pieces.map Prod.fst = c.attributes)
      (hpieces : ∀ p ∈ pieces, SpelledBy pool p.1 p.2) :
      SpelledBy pool (.code c) (framed index (c.headBytes ++ tableBytes (pieces.map Prod.snd)))

mutual

/-- The length of the body of an attribute. -/
def bodySize : Attribute → Nat
  | constantValue _ | sourceFile _ => 2
  | code c => codeSize c
  | exceptions indices => 2 + 2 * indices.length
  | lineNumbers entries => 2 + 4 * entries.length
  | unknown _ info => info.length

/-- The length of the body of a code attribute. -/
def codeSize : CodeOf Attribute → Nat
  | ⟨_, _, instructions, handlers, attributes⟩ =>
    12 + instructions.length + 8 * handlers.length + framedSize attributes

/-- The length of some attributes one after the other, their frames included. -/
def framedSize : List Attribute → Nat
  | [] => 0
  | a :: l => 6 + bodySize a + framedSize l

end

/-- The attribute has bytes in a class file with this pool: the pool has its name, its counts and its
length fit, and those inside it have bytes too. One that is only bytes has a name of its own. -/
inductive Encodable (pool : ConstantPool) : Attribute → Prop where
  | constantValue {index : UInt16} (hname : some (.utf8 "ConstantValue") ∈ pool.entries) :
      Encodable pool (.constantValue index)
  | sourceFile {index : UInt16} (hname : some (.utf8 "SourceFile") ∈ pool.entries) :
      Encodable pool (.sourceFile index)
  | exceptions {indices : List UInt16} (hname : some (.utf8 "Exceptions") ∈ pool.entries)
      (hcount : indices.length < 2 ^ 16) : Encodable pool (.exceptions indices)
  | lineNumbers {entries : List LineEntry} (hname : some (.utf8 "LineNumberTable") ∈ pool.entries)
      (hcount : entries.length < 2 ^ 16) : Encodable pool (.lineNumbers entries)
  | unknown {name : String} {info : Bytes} (hname : some (.utf8 name) ∈ pool.entries)
      (hown : name ∉ knownNames) (hlength : info.length < 2 ^ 32) :
      Encodable pool (.unknown name info)
  | code {c : Code} (hname : some (.utf8 "Code") ∈ pool.entries)
      (hhandlers : c.handlers.length < 2 ^ 16) (hcount : c.attributes.length < 2 ^ 16)
      (hlength : codeSize c < 2 ^ 32) (hattributes : ∀ a ∈ c.attributes, Encodable pool a) :
      Encodable pool (.code c)

end Attribute

/-- The bytes are a table of things that are each spelled by their piece of it. -/
def TableSpelledBy {α : Type} (spelled : α → Bytes → Prop) (l : List α) (bytes : Bytes) : Prop :=
  ∃ pieces : List (α × Bytes), pieces.map Prod.fst = l ∧ (∀ p ∈ pieces, spelled p.1 p.2) ∧
    bytes = tableBytes (pieces.map Prod.snd)

/-- Where each item has a spelling, there are pieces for all of them. -/
theorem exists_pieces {α : Type} {spelled : α → Bytes → Prop} {l : List α}
    (h : ∀ a ∈ l, ∃ bytes, spelled a bytes) :
    ∃ pieces : List (α × Bytes), pieces.map Prod.fst = l ∧ ∀ p ∈ pieces, spelled p.1 p.2 := by
  induction l with
  | nil => exact ⟨[], rfl, by simp⟩
  | cons a l ih =>
    obtain ⟨⟨bytes, hbytes⟩, hl⟩ := List.forall_mem_cons.mp h
    obtain ⟨pieces, rfl, hpieces⟩ := ih hl
    exact ⟨(a, bytes) :: pieces, rfl, List.forall_mem_cons.mpr ⟨hbytes, hpieces⟩⟩

/-- The text of an entry of the pool is found at one of the places of the pool. -/
theorem ConstantPool.Encodable.exists_text {pool : ConstantPool} (hpool : pool.Encodable)
    {text : String} (h : some (.utf8 text) ∈ pool.entries) :
    ∃ index, pool.text index = .ok text := by
  obtain ⟨i, hi⟩ := Array.getElem?_of_mem h
  have hlt : i < pool.size := by
    rw [ConstantPool.size]
    exact (Array.getElem?_eq_some_iff.mp hi).1
  have hindex : (UInt16.ofNat i).toNat = i := by
    rw [UInt16.toNat_ofNat', Nat.mod_eq_of_lt (Nat.lt_trans hlt hpool.size_lt)]
  have hzero : UInt16.ofNat i ≠ 0 := by
    intro hzero
    rw [hzero] at hindex
    rw [← hindex] at hi
    have hfirst := hpool.first.symm.trans hi
    cases hfirst
  refine ⟨UInt16.ofNat i, ?_⟩
  unfold ConstantPool.text ConstantPool.get
  rw [if_neg hzero, hindex, hi]
  rfl

/-- An attribute that can have bytes has some. -/
theorem Attribute.Encodable.exists_spelling {pool : ConstantPool} (hpool : pool.Encodable)
    {a : Attribute} (h : a.Encodable pool) : ∃ bytes, a.SpelledBy pool bytes := by
  induction h with
  | constantValue hname | sourceFile hname | exceptions hname _ | lineNumbers hname _
  | unknown hname _ _ =>
    obtain ⟨index, hindex⟩ := hpool.exists_text hname
    exact ⟨_, .plain hindex rfl⟩
  | code hname _ _ _ _ ih =>
    obtain ⟨index, hindex⟩ := hpool.exists_text hname
    obtain ⟨pieces, hattributes, hpieces⟩ := exists_pieces ih
    exact ⟨_, .code hindex hattributes hpieces⟩

/-! ## Lengths -/

theorem length_indexBytes (v : UInt16) : (indexBytes v).length = 2 := length_bigEndianBytes 2 _

/-- A table of things of one width. -/
theorem length_tableBytes_map {α : Type} {bytes : α → Bytes} {width : Nat}
    (h : ∀ x, (bytes x).length = width) (l : List α) :
    (tableBytes (l.map bytes)).length = 2 + width * l.length := by
  induction l with
  | nil => simp [tableBytes, length_bigEndianBytes]
  | cons x l ih =>
    simp only [tableBytes, List.length_append, length_bigEndianBytes, List.map_cons,
      List.flatten_cons, List.length_cons, h, Nat.mul_add] at ih ⊢
    omega

namespace Attribute

/-- The size of attributes with their frames is that of their spellings. -/
theorem framedSize_eq {pieces : List (Attribute × Bytes)}
    (h : ∀ p ∈ pieces, p.2.length = 6 + p.1.bodySize) :
    (pieces.map Prod.snd).flatten.length = framedSize (pieces.map Prod.fst) := by
  induction pieces with
  | nil => rfl
  | cons p pieces ih =>
    obtain ⟨hp, hpieces⟩ := List.forall_mem_cons.mp h
    rw [List.map_cons, List.map_cons, List.flatten_cons, List.length_append, hp, ih hpieces]
    rfl

/-- A frame takes six bytes. -/
theorem length_framed (index : UInt16) (body : Bytes) :
    (framed index body).length = 6 + body.length := by
  simp only [framed, List.length_append, length_indexBytes, length_bigEndianBytes]
  omega

/-- The body of a plain attribute is as long as its size says. -/
theorem length_of_plainBody? {a : Attribute} {body : Bytes} (h : a.plainBody? = some body) :
    body.length = a.bodySize := by
  cases a with
  | code c => cases h
  | constantValue index => cases h; exact length_indexBytes index
  | sourceFile index => cases h; exact length_indexBytes index
  | exceptions indices => cases h; exact length_tableBytes_map length_indexBytes indices
  | lineNumbers entries =>
    cases h
    refine length_tableBytes_map (fun e => ?_) entries
    simp [LineEntry.bytes, length_indexBytes]
  | unknown name info => cases h; rfl

/-- The part of a code attribute in front of its own attributes. -/
theorem length_headBytes (c : Code) :
    c.headBytes.length = 10 + c.code.length + 8 * c.handlers.length := by
  have hhandlers : (tableBytes (c.handlers.map HandlerRange.bytes)).length =
      2 + 8 * c.handlers.length := by
    refine length_tableBytes_map (fun h => ?_) c.handlers
    simp [HandlerRange.bytes, length_indexBytes]
  simp only [CodeOf.headBytes, List.length_append, length_indexBytes, length_bigEndianBytes,
    hhandlers]
  omega

/-- All spellings of an attribute have one length, whatever index its name has. -/
theorem SpelledBy.length_eq {pool : ConstantPool} {a : Attribute} {bytes : Bytes}
    (h : a.SpelledBy pool bytes) : bytes.length = 6 + a.bodySize := by
  induction h with
  | plain hname hbody => rw [length_framed, length_of_plainBody? hbody]
  | @code c index pieces hname hattributes hpieces ih =>
    have hsize : bodySize (.code c) =
        12 + c.code.length + 8 * c.handlers.length + framedSize c.attributes := by
      cases c
      rfl
    rw [length_framed, hsize, ← hattributes, ← framedSize_eq ih]
    simp only [tableBytes, List.length_append, length_headBytes, length_bigEndianBytes]
    omega

/-- The size of a body fits in four bytes. -/
theorem Encodable.bodySize_lt {pool : ConstantPool} {a : Attribute} (h : a.Encodable pool) :
    a.bodySize < 2 ^ 32 := by
  cases h with
  | constantValue | sourceFile =>
    rw [bodySize]
    decide
  | exceptions _ hcount | lineNumbers _ hcount =>
    rw [bodySize]
    omega
  | unknown _ _ hlength | code _ _ _ hlength _ => exact hlength

end Attribute

/-! ## Reading attributes -/

namespace Reader

variable {α : Type}

/-- A table is spelled by its count and its items. -/
theorem reads_table {r : Reader α} (pieces : List (α × Bytes)) (hcount : pieces.length < 2 ^ 16)
    (h : ∀ p ∈ pieces, Reads r p.2 p.1) :
    Reads (table r) (tableBytes (pieces.map Prod.snd)) (pieces.map Prod.fst) := by
  unfold tableBytes
  rw [List.length_map]
  refine (reads_count hcount).bind ?_
  rw [UInt16.toNat_ofNat_of_lt' hcount]
  exact reads_times pieces h

/-- A table of things that each have their own bytes. -/
theorem reads_table_map {r : Reader α} {bytes : α → Bytes} (h : ∀ x, Reads r (bytes x) x)
    {l : List α} (hcount : l.length < 2 ^ 16) : Reads (table r) (tableBytes (l.map bytes)) l := by
  have hread := reads_table (r := r) (l.map fun x => (x, bytes x)) (by simpa using hcount) (by
    intro p hp
    obtain ⟨x, _, rfl⟩ := List.mem_map.mp hp
    exact h x)
  simpa [Function.comp_def] using hread

theorem reads_lineEntry (e : LineEntry) : Reads lineEntry e.bytes e :=
  (reads_u2 e.startPc).bind ((reads_u2 e.line).map (LineEntry.mk e.startPc))

theorem reads_handlerRange (h : HandlerRange) : Reads handlerRange h.bytes h := by
  refine (reads_u2 h.startPc).bind ((reads_u2 h.endPc).bind ((reads_u2 h.handlerPc).bind ?_))
  exact (reads_u2 h.catchType).map (HandlerRange.mk h.startPc h.endPc h.handlerPc)

/-- A code attribute is read up to its inner attributes, and they are read by the reader that is
given. -/
theorem reads_codeOf {inner : Reader (List α)} {c : CodeOf α} {back : Bytes}
    (hcode : c.code.length < 2 ^ 32) (hhandlers : c.handlers.length < 2 ^ 16)
    (hinner : Reads inner back c.attributes) : Reads (codeOf inner) (c.headBytes ++ back) c := by
  simp only [CodeOf.headBytes, List.append_assoc]
  refine (reads_u2 c.maxStack).bind ((reads_u2 c.maxLocals).bind ((reads_length hcode).bind ?_))
  rw [UInt32.toNat_ofNat_of_lt' hcode]
  refine (reads_bytes c.code).bind ((reads_table_map reads_handlerRange hhandlers).bind ?_)
  exact hinner.map (CodeOf.mk c.maxStack c.maxLocals c.code c.handlers)

/-- An attribute of a known name is read from its whole body. -/
theorem reads_attributeBody {inner : Reader (List Attribute)} {name : String} {body : Bytes}
    {known : Reader Attribute} {a : Attribute} (hknown : knownBody? inner name = some known)
    (h : Reads known body a) : Reads (attributeBody inner name body) [] a := by
  have hall := h []
  rw [List.append_nil] at hall
  unfold attributeBody
  rw [hknown]
  exact (reads_lift hall).bind (reads_pure a)

/-- An attribute is read inside its frame, one level down. -/
theorem reads_framed {pool : ConstantPool} {index : UInt16} {name : String} {body : Bytes}
    {depth : Nat} {a : Attribute} (hname : pool.text index = .ok name)
    (hlength : body.length < 2 ^ 32)
    (h : Reads (attributeBody (table (oneAttribute pool depth)) name body) [] a) :
    Reads (oneAttribute pool (depth + 1)) (Attribute.framed index body) a := by
  refine (reads_u2 index).bind ((reads_length hlength).bind ?_)
  rw [UInt32.toNat_ofNat_of_lt' hlength]
  exact (reads_lift hname).bind ((reads_bytes body).bind_nil h)

/-- A piece of a table is not longer than the pieces together. -/
theorem length_le_of_mem_pieces {pieces : List (α × Bytes)} {p : α × Bytes} (h : p ∈ pieces) :
    p.2.length ≤ (tableBytes (pieces.map Prod.snd)).length := by
  obtain ⟨before, after, rfl⟩ := List.append_of_mem h
  simp only [tableBytes, List.length_append, List.map_append, List.map_cons, List.flatten_append,
    List.flatten_cons]
  omega

/-- The body of an attribute that holds no others is read back. -/
theorem reads_plainBody {pool : ConstantPool} {inner : Reader (List Attribute)} {a : Attribute}
    {body : Bytes} (hfits : a.Encodable pool) (hbody : a.plainBody? = some body) :
    Reads (attributeBody inner a.name body) [] a := by
  cases hfits with
  | code => cases hbody
  | constantValue =>
    cases hbody
    exact reads_attributeBody rfl ((reads_u2 _).map Attribute.constantValue)
  | sourceFile =>
    cases hbody
    exact reads_attributeBody rfl ((reads_u2 _).map Attribute.sourceFile)
  | exceptions _ hcount =>
    cases hbody
    exact reads_attributeBody rfl ((reads_table_map reads_u2 hcount).map Attribute.exceptions)
  | lineNumbers _ hcount =>
    cases hbody
    exact reads_attributeBody rfl
      ((reads_table_map reads_lineEntry hcount).map Attribute.lineNumbers)
  | @unknown name _ _ hown _ =>
    cases hbody
    have hnone : knownBody? inner name = none := by
      simp only [Attribute.knownNames, List.mem_cons, List.not_mem_nil, or_false, not_or] at hown
      simp [knownBody?, hown]
    show Reads (attributeBody inner name body) [] (.unknown name body)
    unfold attributeBody
    rw [hnone]
    exact reads_pure _

/-- An attribute is read from its bytes to any depth from their number on. -/
theorem reads_oneAttribute {pool : ConstantPool} {a : Attribute} {front : Bytes} {depth : Nat}
    (hspelled : a.SpelledBy pool front) (hfits : a.Encodable pool) (hdepth : front.length ≤ depth) :
    Reads (oneAttribute pool depth) front a := by
  -- The frame takes bytes of its own, so at least one step is left for what is inside.
  have hframe : ∀ {depth index} {body : Bytes}, (Attribute.framed index body).length ≤ depth →
      ∃ inner, depth = inner + 1 ∧ body.length ≤ inner := by
    intro depth index body hle
    rw [Attribute.length_framed] at hle
    exact ⟨depth - 1, by omega, by omega⟩
  have hsmall := hfits.bodySize_lt
  induction hspelled generalizing depth with
  | plain hname hbody =>
    obtain ⟨inner, rfl, _⟩ := hframe hdepth
    rw [← Attribute.length_of_plainBody? hbody] at hsmall
    exact reads_framed hname hsmall (reads_plainBody hfits hbody)
  | @code c index pieces hname hattributes hpieces ih =>
    obtain ⟨inner, rfl, hinner⟩ := hframe hdepth
    have hlength := (Attribute.SpelledBy.code hname hattributes hpieces).length_eq
    rw [Attribute.length_framed] at hlength
    cases hfits with
    | code _ hhandlers hcount hcode hfits =>
      have hread : ∀ p ∈ pieces, Reads (oneAttribute pool inner) p.2 p.1 := by
        intro p hp
        have hfit : p.1.Encodable pool := by
          apply hfits
          rw [← hattributes]
          exact List.mem_map_of_mem hp
        have hshort := length_le_of_mem_pieces hp
        rw [List.length_append] at hinner
        exact ih p hp hfit (by omega) hfit.bodySize_lt
      rw [← hattributes, List.length_map] at hcount
      have htable := reads_table pieces hcount hread
      rw [hattributes] at htable
      have hinstructions : c.code.length < 2 ^ 32 := by
        rw [List.length_append, Attribute.length_headBytes] at hlength
        omega
      refine reads_framed hname (by omega) (reads_attributeBody rfl ?_)
      exact (reads_codeOf hinstructions hhandlers htable).map Attribute.code

/-! ## Members and the whole file -/

/-- A table of attributes is read where each of them is, by induction on the depth of their
nesting. -/
theorem reads_attributes {pool : ConstantPool} {l : List Attribute} {front : Bytes}
    (hspelled : TableSpelledBy (Attribute.SpelledBy pool) l front) (hcount : l.length < 2 ^ 16)
    (hfits : ∀ a ∈ l, a.Encodable pool) : Reads (attributes pool) front l := by
  intro rest
  obtain ⟨pieces, rfl, hpieces, rfl⟩ := hspelled
  rw [attributes_eq pool (Nat.le_refl _)]
  rw [List.length_map] at hcount
  refine reads_table pieces hcount (fun p hp => ?_) rest
  have hshort := length_le_of_mem_pieces hp
  refine reads_oneAttribute (hpieces p hp) (hfits _ (List.mem_map_of_mem hp)) ?_
  rw [List.length_append]
  omega

end Reader

/-- The bytes spell the member. -/
def MemberInfo.SpelledBy (pool : ConstantPool) (m : MemberInfo) (bytes : Bytes) : Prop :=
  ∃ attributes, TableSpelledBy (Attribute.SpelledBy pool) m.attributes attributes ∧
    bytes = indexBytes m.flags ++ (indexBytes m.name ++ (indexBytes m.descriptor ++ attributes))

/-- The member has bytes: its attributes can be counted and have bytes. -/
structure MemberInfo.Encodable (pool : ConstantPool) (m : MemberInfo) : Prop where
  count_lt : m.attributes.length < 2 ^ 16
  attributes : ∀ a ∈ m.attributes, a.Encodable pool

namespace ClassFile

/-- The bytes spell the class file. -/
def SpelledBy (cf : ClassFile) (bytes : Bytes) : Prop :=
  ∃ fields methods attributes, TableSpelledBy (MemberInfo.SpelledBy cf.pool) cf.fields fields ∧
    TableSpelledBy (MemberInfo.SpelledBy cf.pool) cf.methods methods ∧
    TableSpelledBy (Attribute.SpelledBy cf.pool) cf.attributes attributes ∧
    bytes = bigEndianBytes 4 Reader.magic.toNat ++ (indexBytes cf.minorVersion ++
      (indexBytes cf.majorVersion ++ (cf.pool.bytes ++ (indexBytes cf.flags ++
      (indexBytes cf.thisClass ++ (indexBytes cf.superClass ++
      (tableBytes (cf.interfaces.map indexBytes) ++ (fields ++ (methods ++ attributes)))))))))

/-- The class file has bytes: all its counts and lengths fit the fields that hold them, and the pool
has the names of its attributes. -/
structure Encodable (cf : ClassFile) : Prop where
  pool : cf.pool.Encodable
  interfaces_lt : cf.interfaces.length < 2 ^ 16
  fields_lt : cf.fields.length < 2 ^ 16
  methods_lt : cf.methods.length < 2 ^ 16
  attributes_lt : cf.attributes.length < 2 ^ 16
  fields : ∀ m ∈ cf.fields, m.Encodable cf.pool
  methods : ∀ m ∈ cf.methods, m.Encodable cf.pool
  attributes : ∀ a ∈ cf.attributes, a.Encodable cf.pool

end ClassFile

/-- A table has a spelling where all its items have one. -/
theorem TableSpelledBy.exists {α : Type} {spelled : α → Bytes → Prop} {l : List α}
    (h : ∀ a ∈ l, ∃ bytes, spelled a bytes) : ∃ bytes, TableSpelledBy spelled l bytes := by
  obtain ⟨pieces, hl, hpieces⟩ := exists_pieces h
  exact ⟨_, pieces, hl, hpieces, rfl⟩

/-- A member has a spelling, since its attributes do. -/
theorem MemberInfo.Encodable.exists_spelling {pool : ConstantPool} (hpool : pool.Encodable)
    {m : MemberInfo} (h : m.Encodable pool) : ∃ bytes, m.SpelledBy pool bytes := by
  obtain ⟨attributes, hattributes⟩ :=
    TableSpelledBy.exists fun a ha => (h.attributes a ha).exists_spelling hpool
  exact ⟨_, attributes, hattributes, rfl⟩

/-- A class file that fits its fields has a spelling. -/
theorem ClassFile.Encodable.exists_spelling {cf : ClassFile} (h : cf.Encodable) :
    ∃ bytes, cf.SpelledBy bytes := by
  obtain ⟨fields, hfields⟩ :=
    TableSpelledBy.exists fun m hm => (h.fields m hm).exists_spelling h.pool
  obtain ⟨methods, hmethods⟩ :=
    TableSpelledBy.exists fun m hm => (h.methods m hm).exists_spelling h.pool
  obtain ⟨attributes, hattributes⟩ :=
    TableSpelledBy.exists fun a ha => (h.attributes a ha).exists_spelling h.pool
  exact ⟨_, fields, methods, attributes, hfields, hmethods, hattributes, rfl⟩

namespace Reader

/-- A member is read from each of its spellings. -/
theorem reads_member {pool : ConstantPool} {m : MemberInfo} {front : Bytes}
    (hspelled : m.SpelledBy pool front) (hfits : m.Encodable pool) :
    Reads (member pool) front m := by
  obtain ⟨attributes, hattributes, rfl⟩ := hspelled
  refine (reads_u2 m.flags).bind ((reads_u2 m.name).bind ((reads_u2 m.descriptor).bind ?_))
  exact (reads_attributes hattributes hfits.count_lt hfits.attributes).map
    (MemberInfo.mk m.flags m.name m.descriptor)

/-- A table of members is read from each of its spellings. -/
theorem reads_members {pool : ConstantPool} {l : List MemberInfo} {front : Bytes}
    (hspelled : TableSpelledBy (MemberInfo.SpelledBy pool) l front) (hcount : l.length < 2 ^ 16)
    (hfits : ∀ m ∈ l, m.Encodable pool) : Reads (table (member pool)) front l := by
  obtain ⟨pieces, rfl, hpieces, rfl⟩ := hspelled
  rw [List.length_map] at hcount
  exact reads_table pieces hcount fun p hp =>
    reads_member (hpieces p hp) (hfits _ (List.mem_map_of_mem hp))

/-- A class file is read from each of its spellings. -/
theorem reads_classFile {cf : ClassFile} {front : Bytes} (hspelled : cf.SpelledBy front)
    (hfits : cf.Encodable) : Reads classFile front cf := by
  obtain ⟨fields, methods, attributes, hfields, hmethods, hattributes, rfl⟩ := hspelled
  refine (reads_u4 magic).bind ?_
  refine (reads_u2 cf.minorVersion).bind ((reads_u2 cf.majorVersion).bind ?_)
  refine (reads_constantPool hfits.pool).bind ?_
  refine (reads_u2 cf.flags).bind ((reads_u2 cf.thisClass).bind ((reads_u2 cf.superClass).bind ?_))
  refine (reads_table_map reads_u2 hfits.interfaces_lt).bind ?_
  refine (reads_members hfields hfits.fields_lt hfits.fields).bind ?_
  refine (reads_members hmethods hfits.methods_lt hfits.methods).bind ?_
  exact (reads_attributes hattributes hfits.attributes_lt hfits.attributes).map
    (ClassFile.mk cf.minorVersion cf.majorVersion cf.pool cf.flags cf.thisClass cf.superClass
      cf.interfaces cf.fields cf.methods)

end Reader

/-- The parser gives the file, as nothing is left behind it. -/
theorem ClassFile.Encodable.parse_eq {cf : ClassFile} (h : cf.Encodable) {bytes : Bytes}
    (hspelled : cf.SpelledBy bytes) : parse bytes = .ok cf := by
  have hread := Reader.reads_classFile hspelled h []
  rw [List.append_nil] at hread
  unfold parse
  rw [StateT.run, hread]
  rfl

/-- A class file that fits its format has bytes, and it is parsed from any bytes that spell it. -/
theorem ClassFile.parse_spelling {cf : ClassFile} (h : cf.Encodable) :
    (∃ bytes, cf.SpelledBy bytes) ∧ ∀ bytes, cf.SpelledBy bytes → parse bytes = .ok cf :=
  ⟨h.exists_spelling, fun _ hspelled => h.parse_eq hspelled⟩

/-! ## A file with code inside code -/

/-- A class `A` with one method. Its code holds a line table, more code and an attribute with a NUL
and a character beyond the basic plane in its name. -/
def nestedFile : ClassFile :=
  let inner : Code := { maxStack := 0, maxLocals := 0, code := [0xB1], handlers := [], attributes := [] }
  let outer : Code := { maxStack := 1, maxLocals := 2, code := [0x00, 0xB1],
                        handlers := [{ startPc := 0, endPc := 1, handlerPc := 1, catchType := 0 }],
                        attributes := [.lineNumbers [{ startPc := 0, line := 7 }], .code inner,
                                       .unknown "\x00😀" [1, 2, 3]] }
  { minorVersion := 0
    majorVersion := 52
    pool := ⟨#[none, some (.utf8 "A"), some (.classRef 1), some (.utf8 "Code"), some (.long (-5)),
               none, some (.utf8 "LineNumberTable"), some (.utf8 "\x00😀"), some (.utf8 "Code")]⟩
    flags := 0x0021
    thisClass := 2
    superClass := 0
    interfaces := []
    fields := []
    methods := [{ flags := 9, name := 1, descriptor := 1, attributes := [.code outer] }]
    attributes := [] }

theorem nestedFile_encodable : nestedFile.Encodable where
  pool :=
    { size_lt := by decide
      first := by decide +kernel
      empty_iff := by decide +kernel
      fits := fun c hc =>
        (by decide +kernel : ∀ place ∈ nestedFile.pool.entries, ∀ c ∈ place, c.Fits) _ hc c rfl }
  interfaces_lt := by decide
  fields_lt := by decide
  methods_lt := by decide
  attributes_lt := by decide
  fields := by simp [nestedFile]
  methods := by
    refine List.forall_mem_singleton.mpr ⟨by decide, List.forall_mem_singleton.mpr ?_⟩
    refine .code (by decide +kernel) (by decide) (by decide) (by decide) ?_
    refine List.forall_mem_cons.mpr ⟨.lineNumbers (by decide +kernel) (by decide), ?_⟩
    refine List.forall_mem_cons.mpr ⟨?_, List.forall_mem_singleton.mpr ?_⟩
    · exact .code (by decide +kernel) (by decide) (by decide) (by decide) (by simp)
    · exact .unknown (by decide +kernel) (by decide +kernel) (by decide)
  attributes := by simp [nestedFile]

/-- A file with attributes inside attributes is parsed from a spelling of it. -/
theorem ClassFile.parse_spelling_nestedFile : nestedFile.Encodable ∧
    ∃ bytes, nestedFile.SpelledBy bytes ∧ parse bytes = .ok nestedFile := by
  obtain ⟨⟨bytes, hspelled⟩, hparse⟩ := parse_spelling nestedFile_encodable
  exact ⟨nestedFile_encodable, bytes, hspelled, hparse bytes hspelled⟩

end JavaMachine

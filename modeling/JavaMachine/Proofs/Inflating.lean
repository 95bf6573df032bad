/-
# Inflating compressed streams

An `Inflater` reads bits and writes bytes. Bytes that are stored as they are come back as they are,
however they are cut into blocks and whatever stands behind the stream
(`inflate?_storedStream`): a block is written in whole bytes, so the bits that are left count how many
of a byte are still to be skipped.

Blocks and symbols are read with a bound on their number. The bound never decides what is read
(`symbols_eq_of_lt`, `blocks_eq_of_lt`): every symbol and every block takes at least one bit, and nothing
that is read gives bits back. That, and what becomes of the bits behind, is `Reads`, a relation between a
run and one on more bits that is proved of each reader in turn.
-/
import JavaMachine.Archive.Deflate
import JavaMachine.Proofs.PrefixCodes

namespace JavaMachine

/-! ## Bits of bytes -/

theorem bitsLowFirst_append (bytes bytes' : Bytes) :
    bitsLowFirst (bytes ++ bytes') = bitsLowFirst bytes ++ bitsLowFirst bytes' := List.flatMap_append

theorem length_bitsLowFirst (bytes : Bytes) : (bitsLowFirst bytes).length = 8 * bytes.length := by
  induction bytes with
  | nil => rfl
  | cons b bytes ih =>
    rw [← List.singleton_append, bitsLowFirst_append, List.length_append, ih, List.length_append,
      List.length_singleton, Nat.mul_add]
    rfl

/-- Bits behind others count for more, by as much as those can spell. -/
theorem ofBitsLowFirst_append (bits bits' : List Bool) :
    ofBitsLowFirst (bits ++ bits') =
      ofBitsLowFirst bits + 2 ^ bits.length * ofBitsLowFirst bits' := by
  induction bits with
  | nil => simp [ofBitsLowFirst]
  | cons b bits ih =>
    simp only [ofBitsLowFirst, List.cons_append, List.foldr_cons, List.length_cons, Nat.pow_succ] at ih ⊢
    rw [ih, Nat.mul_add, Nat.mul_comm (2 ^ bits.length) 2, Nat.mul_assoc]
    omega

/-- The bits of a byte spell its number. -/
theorem ofBitsLowFirst_byte (b : UInt8) : ofBitsLowFirst (bitsLowFirst [b]) = b.toNat := by
  have hall : ∀ n < 256, ofBitsLowFirst ((List.range 8).map (Nat.testBit n)) = n := by decide +kernel
  have hbits : bitsLowFirst [b] = (List.range 8).map b.toNat.testBit := List.append_nil _
  rw [hbits]
  exact hall b.toNat b.toNat_lt

/-- The bits of some bytes spell the number that the bytes do. -/
theorem ofBitsLowFirst_bitsLowFirst (bytes : Bytes) :
    ofBitsLowFirst (bitsLowFirst bytes) = ofBytesLowFirst bytes := by
  induction bytes with
  | nil => rfl
  | cons b bytes ih =>
    rw [← List.singleton_append, bitsLowFirst_append, ofBitsLowFirst_append, ofBitsLowFirst_byte, ih,
      length_bitsLowFirst, ofBytesLowFirst, ofBytesLowFirst, List.singleton_append, List.foldr_cons]
    simp only [List.length_singleton]
    omega

namespace Deflate

/-! ## Runs -/

/-- A computation that fails is followed by nothing. -/
theorem run_bind {α β : Type} (x : Inflater α) (f : α → Inflater β) (out : Array UInt8)
    (bits : List Bool) :
    (x >>= f) out bits = (x out bits).bind fun r => f r.1.1 r.1.2 r.2 := by
  show (x out bits >>= _ : Option _) = _
  rcases x out bits with _ | ⟨⟨a, out⟩, bits⟩ <;> rfl

theorem run_discard {α : Type} (x : Inflater α) (out : Array UInt8) (bits : List Bool) :
    (discard x) out bits = (x out bits).map fun r => (((), r.1.2), r.2) := by
  show (x out bits >>= _ : Option _) = _
  rcases x out bits with _ | ⟨⟨a, out⟩, bits⟩ <;> rfl

theorem run_take_eq (n : Nat) (out : Array UInt8) (bits : List Bool) :
    take n out bits = (Intake.take n bits).map fun r => ((ofBitsLowFirst r.1, out), r.2) := by
  show ((ofBitsLowFirst <$> Intake.take n : BitIntake Nat) bits >>= fun r => some ((r.1, out), r.2)) = _
  show ((Intake.take n bits >>= fun r => some (ofBitsLowFirst r.1, r.2)) >>= _ : Option _) = _
  rcases Intake.take n bits with _ | r <;> rfl

/-- A symbol is read off the bits, and nothing is written. -/
theorem run_next_eq (tree : PrefixTree) (out : Array UInt8) (bits : List Bool) :
    (tree.next : Inflater Nat) out bits = (tree.decode? bits).map fun r => ((r.1, out), r.2) := by
  show (tree.decode? bits >>= _ : Option _) = _
  rcases tree.decode? bits with _ | r <;> rfl

/-- Counting the bits takes none. -/
theorem run_bitsLeft_bind {β : Type} (f : Nat → Inflater β) (out : Array UInt8) (bits : List Bool) :
    (bitsLeft >>= f) out bits = f bits.length out bits := rfl

/-- A number is read off its bits. -/
theorem run_take_bind {β : Type} (n : Nat) (front : List Bool) (h : front.length = n)
    (f : Nat → Inflater β) (out : Array UInt8) (rest : List Bool) :
    (take n >>= f) out (front ++ rest) = f (ofBitsLowFirst front) out rest := by
  rw [run_bind, run_take_eq, Intake.take_eq_some_iff.mpr ⟨h, rfl⟩]
  rfl

/-- A number is read off the bytes that spell it. -/
theorem run_take_bytes_bind {β : Type} (n : Nat) (bytes : Bytes) (h : 8 * bytes.length = n)
    (f : Nat → Inflater β) (out : Array UInt8) (behind : Bytes) :
    (take n >>= f) out (bitsLowFirst (bytes ++ behind)) =
      f (ofBytesLowFirst bytes) out (bitsLowFirst behind) := by
  rw [bitsLowFirst_append, run_take_bind n _ ((length_bitsLowFirst bytes).trans h),
    ofBitsLowFirst_bitsLowFirst]

/-- Bits that are read for nothing are skipped. -/
theorem run_discard_take_bind {β : Type} {n : Nat} (front : List Bool) (h : front.length = n)
    (f : Unit → Inflater β) (out : Array UInt8) (rest : List Bool) :
    (discard (take n) >>= f) out (front ++ rest) = f () out rest := by
  rw [run_bind, run_discard, run_take_eq, Intake.take_eq_some_iff.mpr ⟨h, rfl⟩]
  rfl

/-! ## Stored blocks -/

/-- Bytes are written one by one, as they are. -/
theorem run_writes (bytes behind : Bytes) (out : Array UInt8) {times : List Nat}
    (h : times.length = bytes.length) :
    (forIn times PUnit.unit fun _ _ => do
        write (UInt8.ofNat (← take 8))
        return ForInStep.yield PUnit.unit : Inflater PUnit)
      out (bitsLowFirst (bytes ++ behind)) =
      some ((PUnit.unit, out ++ bytes.toArray), bitsLowFirst behind) := by
  induction times generalizing bytes out with
  | nil =>
    obtain rfl := List.length_eq_zero_iff.mp h.symm
    show some ((PUnit.unit, out), bitsLowFirst behind) = _
    simp
  | cons a times ih =>
    obtain ⟨b, bytes, rfl⟩ := List.exists_cons_of_length_eq_add_one h.symm
    have hbyte : UInt8.ofNat (ofBytesLowFirst [b]) = b := by simp [ofBytesLowFirst]
    rw [List.forIn_cons, run_bind, List.cons_append, ← List.singleton_append,
      run_take_bytes_bind 8 [b] rfl, hbyte]
    show (forIn times PUnit.unit _ : Inflater PUnit) (out.push b) _ = _
    rw [ih bytes _ (Nat.succ.inj h)]
    simp

/-- A number in two bytes, the lower one first. -/
def twoBytes (n : Nat) : Bytes := [UInt8.ofNat (n % 256), UInt8.ofNat (n / 256)]

/-- Two bytes spell all numbers that fit in them. -/
theorem ofBytesLowFirst_twoBytes {n : Nat} (h : n ≤ 0xFFFF) : ofBytesLowFirst (twoBytes n) = n := by
  have hlow : n % 256 % 256 = n % 256 := Nat.mod_mod n 256
  have hhigh : n / 256 % 256 = n / 256 := Nat.mod_eq_of_lt (by omega)
  simp only [ofBytesLowFirst, twoBytes, List.foldr_cons, List.foldr_nil, UInt8.toNat_ofNat']
  omega

/-- A block of bytes that are stored as they are: whether it is the last one, the number of bytes, that
number with all its bits flipped, and the bytes. -/
def storedBlock (final : Bool) (bytes : Bytes) : Bytes :=
  UInt8.ofNat final.toNat :: (twoBytes bytes.length ++ (twoBytes (0xFFFF - bytes.length) ++ bytes))

/-- Stored bytes are written as they are. What is left of a byte in front of their number is skipped. -/
theorem run_stored {bytes : Bytes} (h : bytes.length ≤ 0xFFFF) {pad : List Bool}
    (hpad : pad.length < 8) (behind : Bytes) (out : Array UInt8) :
    stored out (pad ++ bitsLowFirst (twoBytes bytes.length ++
        (twoBytes (0xFFFF - bytes.length) ++ (bytes ++ behind)))) =
      some (((), out ++ bytes.toArray), bitsLowFirst behind) := by
  have hskip : (pad ++ bitsLowFirst (twoBytes bytes.length ++
      (twoBytes (0xFFFF - bytes.length) ++ (bytes ++ behind)))).length % 8 = pad.length := by
    rw [List.length_append, length_bitsLowFirst]
    omega
  have hsum : ¬ bytes.length + (0xFFFF - bytes.length) ≠ 0xFFFF := by omega
  unfold stored
  rw [run_bitsLeft_bind, hskip, run_discard_take_bind pad rfl, run_take_bytes_bind 16 _ rfl,
    ofBytesLowFirst_twoBytes h, run_take_bytes_bind 16 _ rfl, ofBytesLowFirst_twoBytes (Nat.sub_le _ _)]
  dsimp only
  rw [if_neg hsum, run_bind, run_writes bytes behind out (List.length_range ..)]
  rfl

/-- A stored block is read whole. It is the last one, or the others follow. -/
theorem run_blocks_stored {bytes : Bytes} (h : bytes.length ≤ 0xFFFF) (final : Bool) (behind : Bytes)
    (bound : Nat) (out : Array UInt8) :
    blocks (bound + 1) out (bitsLowFirst (storedBlock final bytes ++ behind)) =
      if final then some (((), out ++ bytes.toArray), bitsLowFirst behind)
      else blocks bound (out ++ bytes.toArray) (bitsLowFirst behind) := by
  have hbits : bitsLowFirst (storedBlock final bytes ++ behind) =
      [final] ++ ([false, false] ++ (List.replicate 5 false ++ bitsLowFirst (twoBytes bytes.length ++
        (twoBytes (0xFFFF - bytes.length) ++ (bytes ++ behind))))) := by
    rw [storedBlock, List.cons_append, ← List.singleton_append, bitsLowFirst_append]
    simp only [List.append_assoc]
    cases final <;> rfl
  have hfinal : ofBitsLowFirst [final] = final.toNat := by cases final <;> rfl
  have hkind : ofBitsLowFirst [false, false] = 0 := rfl
  rw [hbits, blocks, run_take_bind 1 [final] rfl, run_take_bind 2 [false, false] rfl, hfinal, hkind]
  show (stored >>= fun _ => if final.toNat = 1 then pure () else blocks bound) out _ = _
  rw [run_bind, run_stored h (by simp), Option.bind_some]
  cases final <;> rfl

/-- Some bytes stored in blocks, of which there is always a last one. -/
def storedStream : (chunks : List Bytes) → (last : Bytes) → Bytes
  | [], last => storedBlock true last
  | chunk :: chunks, last => storedBlock false chunk ++ storedStream chunks last

/-- The blocks of a stored stream are read up to the last one. -/
theorem run_blocks_storedStream {chunks : List Bytes} {last : Bytes}
    (hchunks : ∀ chunk ∈ chunks, chunk.length ≤ 0xFFFF) (hlast : last.length ≤ 0xFFFF)
    {bound : Nat} (hbound : chunks.length < bound) (out : Array UInt8) :
    blocks bound out (bitsLowFirst (storedStream chunks last)) =
      some (((), out ++ (chunks.flatten ++ last).toArray), []) := by
  induction chunks generalizing bound out with
  | nil =>
    obtain ⟨bound, rfl⟩ := Nat.exists_eq_add_one_of_ne_zero (Nat.ne_of_gt (Nat.zero_lt_of_lt hbound))
    rw [storedStream, ← List.append_nil (storedBlock true last), run_blocks_stored hlast, if_pos rfl]
    rfl
  | cons chunk chunks ih =>
    obtain ⟨bound, rfl⟩ := Nat.exists_eq_add_one_of_ne_zero (Nat.ne_of_gt (Nat.zero_lt_of_lt hbound))
    rw [storedStream, run_blocks_stored (hchunks chunk (List.mem_cons_self ..)),
      if_neg Bool.false_ne_true,
      ih (fun c hc => hchunks c (List.mem_cons_of_mem _ hc)) (Nat.lt_of_succ_lt_succ hbound)]
    simp

/-- Every block takes at least one byte. -/
theorem length_lt_length_storedStream (chunks : List Bytes) (last : Bytes) :
    chunks.length < (storedStream chunks last).length := by
  induction chunks with
  | nil => exact Nat.succ_pos _
  | cons chunk chunks ih =>
    rw [storedStream, storedBlock, List.length_append, List.length_cons, List.length_cons]
    omega

/-! ## What stands behind -/

/-- What the first computation reads off the front of some bits, the second one reads off them when there
are more whole bytes behind. -/
def Reads {α : Type} (x y : Inflater α) : Prop :=
  ∀ out bits a out' rest, x out bits = some ((a, out'), rest) → rest <:+ bits ∧
    ∀ more : List Bool, more.length % 8 = 0 → y out (bits ++ more) = some ((a, out'), rest ++ more)

namespace Reads

variable {α β : Type} {x y : Inflater α} {f g : α → Inflater β}

theorem pure (a : α) : Reads (Pure.pure a) (Pure.pure a) := by
  rintro out bits _ _ _ ⟨⟩
  exact ⟨List.suffix_rfl, fun _ _ => rfl⟩

theorem failure : Reads Alternative.failure x := by
  rintro out bits _ _ _ ⟨⟩

/-- What follows starts from the bits that the first computation left. -/
theorem bind (hx : Reads x y) (hf : ∀ a, Reads (f a) (g a)) : Reads (x >>= f) (y >>= g) := by
  intro out bits b out₂ rest₂ h
  rw [run_bind, Option.bind_eq_some_iff] at h
  obtain ⟨⟨⟨a, out₁⟩, rest₁⟩, hfirst, hthen⟩ := h
  obtain ⟨hsuffix, hmore⟩ := hx _ _ _ _ _ hfirst
  obtain ⟨hsuffix', hmore'⟩ := hf _ _ _ _ _ _ hthen
  refine ⟨hsuffix'.trans hsuffix, fun more hbytes => ?_⟩
  rw [run_bind, hmore more hbytes, Option.bind_some]
  exact hmore' more hbytes

theorem ite {p : Prop} [Decidable p] {x' y' : Inflater α} (h : Reads x y) (h' : Reads x' y') :
    Reads (if p then x else x') (if p then y else y') := by
  split
  · exact h
  · exact h'

/-- As many bits as are asked for are taken off the front. -/
theorem take (n : Nat) : Reads (Deflate.take n) (Deflate.take n) := by
  intro out bits a out' rest h
  rw [run_take_eq, Option.map_eq_some_iff] at h
  obtain ⟨⟨front, rest⟩, htake, ⟨⟩⟩ := h
  obtain ⟨hlength, rfl⟩ := Intake.take_eq_some_iff.mp htake
  refine ⟨List.suffix_append front rest, fun more _ => ?_⟩
  rw [run_take_eq, List.append_assoc, Intake.take_eq_some_iff.mpr ⟨hlength, rfl⟩]
  rfl

theorem discard (h : Reads x y) : Reads (Functor.discard x) (Functor.discard y) := by
  intro out bits a out' rest hrun
  rw [run_discard, Option.map_eq_some_iff] at hrun
  obtain ⟨⟨⟨a, out'⟩, rest⟩, hrun, ⟨⟩⟩ := hrun
  obtain ⟨hsuffix, hmore⟩ := h _ _ _ _ _ hrun
  refine ⟨hsuffix, fun more hbytes => ?_⟩
  rw [run_discard, hmore more hbytes]
  rfl

theorem get : Reads (MonadState.get : Inflater (Array UInt8)) MonadState.get := by
  rintro out bits _ _ _ ⟨⟩
  exact ⟨List.suffix_rfl, fun _ _ => rfl⟩

theorem write (b : UInt8) : Reads (Deflate.write b) (Deflate.write b) := by
  rintro out bits _ _ _ ⟨⟩
  exact ⟨List.suffix_rfl, fun _ _ => rfl⟩

/-- A word is taken off the front. -/
theorem next (tree : PrefixTree) : Reads (tree.next : Inflater Nat) (tree.next : Inflater Nat) := by
  intro out bits a out' rest h
  rw [run_next_eq, Option.map_eq_some_iff] at h
  obtain ⟨⟨s, rest⟩, hread, ⟨⟩⟩ := h
  obtain ⟨word, hword, rfl⟩ := PrefixTree.decode?_eq_some_iff.mp hread
  refine ⟨List.suffix_append word rest, fun more _ => ?_⟩
  rw [run_next_eq, List.append_assoc, PrefixTree.decode?_eq_some_iff.mpr ⟨word, hword, rfl⟩]
  rfl

/-- Whole bytes behind do not change how many bits are left of a byte, so the same ones are skipped. -/
theorem skip {f g : Unit → Inflater β} (h : ∀ u, Reads (f u) (g u)) :
    Reads (Deflate.bitsLeft >>= fun n => Functor.discard (Deflate.take (n % 8)) >>= f)
      (Deflate.bitsLeft >>= fun n => Functor.discard (Deflate.take (n % 8)) >>= g) := by
  intro out bits a out' rest hrun
  have hskip := ((take (bits.length % 8)).discard.bind h) _ _ _ _ _ hrun
  refine ⟨hskip.1, fun more hbytes => ?_⟩
  rw [run_bitsLeft_bind, List.length_append, Nat.add_mod, hbytes, Nat.add_zero, Nat.mod_mod]
  exact hskip.2 more hbytes

/-- There are not fewer bits with some behind. -/
theorem bitsLeft {f g : Nat → Inflater β} (h : ∀ n m, n ≤ m → Reads (f n) (g m)) :
    Reads (Deflate.bitsLeft >>= f) (Deflate.bitsLeft >>= g) := by
  intro out bits a out' rest hrun
  rw [run_bitsLeft_bind] at hrun
  refine ⟨(h _ _ (Nat.le_refl _) _ _ _ _ _ hrun).1, fun more hbytes => ?_⟩
  rw [run_bitsLeft_bind, List.length_append]
  exact (h _ _ (Nat.le_add_right _ _) _ _ _ _ _ hrun).2 more hbytes

theorem mapM {γ : Type} {f : γ → Inflater α} (h : ∀ c, Reads (f c) (f c)) (cs : List γ) :
    Reads (cs.mapM f) (cs.mapM f) := by
  induction cs with
  | nil => exact pure _
  | cons c cs ih =>
    rw [List.mapM_cons]
    exact (h c).bind fun _ => ih.bind fun _ => pure _

theorem forIn {γ : Type} {f : γ → PUnit → Inflater (ForInStep PUnit)}
    (h : ∀ c u, Reads (f c u) (f c u)) (cs : List γ) (u : PUnit) :
    Reads (ForIn.forIn cs u f) (ForIn.forIn cs u f) := by
  induction cs generalizing u with
  | nil => exact pure _
  | cons c cs ih =>
    rw [List.forIn_cons]
    refine (h c u).bind fun step => ?_
    cases step with
    | done u => exact pure u
    | yield u => exact ih u

/-! ### Blocks -/

theorem copy (distance length : Nat) :
    Reads (Deflate.copy distance length) (Deflate.copy distance length) := by
  induction length with
  | zero => exact pure ()
  | succ length ih => exact get.bind fun out => (write _).bind fun _ => ih

theorem extended (codes : List (Nat × Nat)) (i : Nat) :
    Reads (Deflate.extended codes i) (Deflate.extended codes i) := by
  unfold Deflate.extended
  split
  · exact (take _).bind fun _ => pure _
  · exact failure

/-- More symbols may be allowed where there are more bits. -/
theorem symbols (literals distances : PrefixTree) {n m : Nat} (h : n ≤ m) :
    Reads (Deflate.symbols literals distances n) (Deflate.symbols literals distances m) := by
  induction n generalizing m with
  | zero => exact failure
  | succ n ih =>
    obtain ⟨m, rfl⟩ := Nat.exists_eq_add_one_of_ne_zero (Nat.ne_of_gt (Nat.lt_of_lt_of_le n.succ_pos h))
    have hrest := ih (Nat.le_of_succ_le_succ h)
    refine (next literals).bind fun s => .ite ((write _).bind fun _ => hrest) (.ite (pure ()) ?_)
    exact (extended _ _).bind fun length => (next distances).bind fun d =>
      (extended _ _).bind fun distance => (copy _ _).bind fun _ => hrest

/-- A stored block begins at the same byte. -/
theorem stored : Reads Deflate.stored Deflate.stored := by
  unfold Deflate.stored
  refine skip fun _ => (take 16).bind fun length => (take 16).bind fun complement => ?_
  have hwrites := (forIn (fun (_ : Nat) (_ : PUnit) => (take 8).bind fun b =>
    (write (UInt8.ofNat b)).bind fun _ => pure (ForInStep.yield PUnit.unit)) (List.range length)
      PUnit.unit).bind fun _ => pure ()
  exact .ite (failure.bind fun _ => hwrites) hwrites

theorem codeLengths (tree : PrefixTree) (wanted bound : Nat) (sofar : List Nat) :
    Reads (Deflate.codeLengths tree wanted bound sofar) (Deflate.codeLengths tree wanted bound sofar) := by
  induction bound generalizing sofar with
  | zero => exact pure _
  | succ bound ih =>
    have hrun := fun (base extra code : Nat) => (take extra).bind fun n =>
      ih (List.replicate (base + n) code ++ sofar)
    refine .ite (pure _) ((next tree).bind fun s => .ite (ih _) (.ite ?_ (.ite ?_ ?_)))
    · cases sofar with
      | nil => exact failure
      | cons last sofar => exact hrun 3 2 last
    · exact hrun 3 3 0
    · exact hrun 11 7 0

/-- The codes of a block are told by its own bits. -/
theorem ownCodes : Reads Deflate.ownCodes Deflate.ownCodes := by
  -- Where a check is not passed, nothing is read.
  have checked : ∀ {γ : Type} {p : Prop} [Decidable p] {z : Inflater γ}, Reads z z →
      Reads (if p then Alternative.failure >>= fun (_ : Unit) => z else z)
        (if p then Alternative.failure >>= fun (_ : Unit) => z else z) :=
    fun h => .ite (failure.bind fun _ => h) h
  unfold Deflate.ownCodes
  refine (take 5).bind fun literalCount => (take 5).bind fun distanceCount =>
    (take 4).bind fun given => checked <| (mapM (fun _ => take 3) _).bind fun lengths =>
      checked <| (codeLengths _ _ _ _).bind fun all => checked ?_
  split
  · exact pure _
  · exact failure

/-- More blocks may be allowed where there are more bits. -/
theorem blocks {n m : Nat} (h : n ≤ m) : Reads (Deflate.blocks n) (Deflate.blocks m) := by
  induction n generalizing m with
  | zero => exact failure
  | succ n ih =>
    obtain ⟨m, rfl⟩ := Nat.exists_eq_add_one_of_ne_zero (Nat.ne_of_gt (Nat.lt_of_lt_of_le n.succ_pos h))
    have hrest := fun final : Nat => ite (p := final = 1) (pure ()) (ih (Nat.le_of_succ_le_succ h))
    refine (take 1).bind fun final => (take 2).bind fun kind => ?_
    rcases kind with _ | _ | _ | kind
    · exact stored.bind fun _ => hrest final
    · exact bitsLeft fun _ _ hle => (symbols _ _ (Nat.succ_le_succ hle)).bind fun _ => hrest final
    · exact ownCodes.bind fun codes => bitsLeft fun _ _ hle =>
        (symbols _ _ (Nat.succ_le_succ hle)).bind fun _ => hrest final
    · exact failure.bind fun _ => hrest final

end Reads

/-! ## Bounds -/

/-- What follows a computation counts only for the bits that the computation leaves. -/
theorem run_bind_congr {α β : Type} {x : Inflater α} {f g : α → Inflater β} {out : Array UInt8}
    {bits : List Bool} (hx : Reads x x)
    (h : ∀ a out' rest, rest.length ≤ bits.length → f a out' rest = g a out' rest) :
    (x >>= f) out bits = (x >>= g) out bits := by
  rw [run_bind, run_bind]
  rcases hrun : x out bits with _ | ⟨⟨a, out'⟩, rest⟩
  · rfl
  · exact h a out' rest (hx _ _ _ _ _ hrun).1.length_le

/-- What follows a symbol counts only for fewer bits than there were. -/
theorem run_next_bind_congr {β : Type} {tree : PrefixTree} (hleaf : ∀ s, tree ≠ .leaf s)
    {f g : Nat → Inflater β} {out : Array UInt8} {bits : List Bool}
    (h : ∀ s (rest : List Bool), rest.length < bits.length → f s out rest = g s out rest) :
    ((tree.next : Inflater Nat) >>= f) out bits = ((tree.next : Inflater Nat) >>= g) out bits := by
  rw [run_bind, run_bind, run_next_eq]
  rcases hread : tree.decode? bits with _ | ⟨s, rest⟩
  · rfl
  · exact h s rest (PrefixTree.length_lt_of_decode? hleaf hread)

/-- What follows the symbols of a block counts only for the bits that they leave. -/
theorem run_symbols_bind_congr {β : Type} {literals distances : PrefixTree} {f g : Unit → Inflater β}
    {out : Array UInt8} {bits : List Bool}
    (h : ∀ u out' rest, rest.length ≤ bits.length → f u out' rest = g u out' rest) :
    (bitsLeft >>= fun left => symbols literals distances (left + 1) >>= f) out bits =
      (bitsLeft >>= fun left => symbols literals distances (left + 1) >>= g) out bits := by
  rw [run_bitsLeft_bind, run_bitsLeft_bind]
  exact run_bind_congr (Reads.symbols _ _ (Nat.le_refl _)) h

/-- The bound does not matter once it is above the number of bits: every symbol takes one. -/
theorem symbols_eq_of_lt (lengths : List Nat) (distances : PrefixTree) {n m : Nat} {bits : List Bool}
    (hn : bits.length < n) (hm : bits.length < m) (out : Array UInt8) :
    symbols (.ofLengths lengths) distances n out bits =
      symbols (.ofLengths lengths) distances m out bits := by
  induction n generalizing m bits out with
  | zero => omega
  | succ n ih =>
    obtain ⟨m, rfl⟩ := Nat.exists_eq_add_one_of_ne_zero (Nat.ne_of_gt (Nat.zero_lt_of_lt hm))
    refine run_next_bind_congr PrefixTree.ofLengths_ne_leaf fun s rest hlt => ?_
    have hrest : ∀ (rest' : List Bool) out', rest'.length ≤ rest.length →
        symbols (.ofLengths lengths) distances n out' rest' =
          symbols (.ofLengths lengths) distances m out' rest' :=
      fun rest' out' hle => ih (by omega) (by omega) out'
    split
    · exact run_bind_congr (Reads.write _) fun _ out' rest' hle => hrest rest' out' hle
    · split
      · rfl
      · refine run_bind_congr (Reads.extended _ _) fun length out₁ rest₁ h₁ => ?_
        refine run_bind_congr (Reads.next distances) fun d out₂ rest₂ h₂ => ?_
        refine run_bind_congr (Reads.extended _ _) fun distance out₃ rest₃ h₃ => ?_
        refine run_bind_congr (Reads.copy _ _) fun _ out₄ rest₄ h₄ => ?_
        exact hrest rest₄ out₄ (by omega)

/-- The bound does not matter once it is above the number of bits: every block takes some. -/
theorem blocks_eq_of_lt {n m : Nat} {bits : List Bool} (hn : bits.length < n) (hm : bits.length < m)
    (out : Array UInt8) : blocks n out bits = blocks m out bits := by
  induction n generalizing m bits out with
  | zero => omega
  | succ n ih =>
    obtain ⟨m, rfl⟩ := Nat.exists_eq_add_one_of_ne_zero (Nat.ne_of_gt (Nat.zero_lt_of_lt hm))
    rw [blocks, blocks, run_bind, run_bind, run_take_eq]
    rcases htake : Intake.take 1 bits with _ | ⟨front, rest⟩
    · rfl
    · obtain ⟨hfront, rfl⟩ := Intake.take_eq_some_iff.mp htake
      rw [List.length_append, hfront] at hn hm
      simp only [Option.map_some, Option.bind_some]
      have hnext : ∀ (_ : Unit) out' (rest' : List Bool), rest'.length ≤ rest.length →
          (if ofBitsLowFirst front = 1 then pure () else blocks n : Inflater Unit) out' rest' =
            (if ofBitsLowFirst front = 1 then pure () else blocks m : Inflater Unit) out' rest' := by
        intro _ out' rest' hle
        split
        · rfl
        · exact ih (by omega) (by omega) out'
      refine run_bind_congr (Reads.take 2) fun kind out₁ rest₁ h₁ => ?_
      rcases kind with _ | _ | _ | kind
      · exact run_bind_congr Reads.stored fun u out₂ rest₂ h₂ => hnext u out₂ rest₂ (by omega)
      · exact run_symbols_bind_congr fun u out₂ rest₂ h₂ => hnext u out₂ rest₂ (by omega)
      · exact run_bind_congr Reads.ownCodes fun codes out₂ rest₂ h₂ =>
          run_symbols_bind_congr fun u out₃ rest₃ h₃ => hnext u out₃ rest₃ (by omega)
      · rfl

end Deflate

/-! ## Streams -/

section Streams

variable {data behind bytes : Bytes}

/-- The bytes of a stream are those of its blocks, within any bound that is large enough. -/
theorem inflate?_eq (data : Bytes) {bound : Nat} (h : 8 * data.length < bound) :
    inflate? data = (Deflate.blocks bound #[] (bitsLowFirst data)).map fun r => r.1.2.toList := by
  have hbits := length_bitsLowFirst data
  show ((Deflate.blocks _ #[] (bitsLowFirst data)).map Prod.fst).map _ = _
  rw [Deflate.blocks_eq_of_lt (Nat.lt_succ_self _) (by omega : (bitsLowFirst data).length < bound),
    Option.map_map]
  rfl

/-- What stands behind a stream is not looked at. -/
theorem inflate?_append (h : inflate? data = some bytes) (behind : Bytes) :
    inflate? (data ++ behind) = some bytes := by
  have hlength : 8 * data.length < 8 * (data ++ behind).length + 1 := by
    rw [List.length_append]
    omega
  rw [inflate?_eq data hlength, Option.map_eq_some_iff] at h
  obtain ⟨⟨⟨u, out⟩, rest⟩, hrun, rfl⟩ := h
  have hbytes : (bitsLowFirst behind).length % 8 = 0 := by
    rw [length_bitsLowFirst, Nat.mul_mod_right]
  have hmore := (Deflate.Reads.blocks (Nat.le_refl _) _ _ _ _ _ hrun).2 _ hbytes
  rw [inflate?_eq (data ++ behind) (Nat.lt_succ_self _), bitsLowFirst_append, hmore]
  rfl

/-- Bytes that are stored come back as they are. -/
theorem inflate?_storedStream {chunks : List Bytes} {last : Bytes}
    (hchunks : ∀ chunk ∈ chunks, chunk.length ≤ 0xFFFF) (hlast : last.length ≤ 0xFFFF)
    (behind : Bytes) :
    inflate? (Deflate.storedStream chunks last ++ behind) = some (chunks.flatten ++ last) := by
  refine inflate?_append ?_ behind
  have hbound := Deflate.length_lt_length_storedStream chunks last
  rw [inflate?_eq _ (Nat.lt_succ_self _), Deflate.run_blocks_storedStream hchunks hlast (by omega)]
  simp

end Streams

end JavaMachine

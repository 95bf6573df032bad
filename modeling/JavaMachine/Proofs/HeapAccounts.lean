/-
# The accounts of a heap

The slots of a heap, the list of free ones, the number of live objects and the bytes in use are kept
apart.  They agree (`Heap.Sound`) in a new heap, and go on agreeing when objects are added, changed
within their shape or freed, since each of these changes one slot and every account by the share of
that slot (`Heap.total_eq`).
-/
import JavaMachine.Proofs.Objects
import Mathlib.Algebra.GroupWithZero.Nat
import Mathlib.Data.List.Nodup

namespace JavaMachine

/-- Bodies of one shape are charged alike. -/
theorem Body.footprint_of_sameShape {b b' : Body} (h : b.SameShape b') :
    b'.footprint = b.footprint := by
  cases b with
  | fields bytes refs =>
    cases b' with
    | fields bytes' refs' => simp only [footprint, h.1, h.2]
    | _ => cases h
  | array a =>
    cases b' with
    | array a' =>
      have hsame : a.SameShape a' := h
      cases a with
      | primitive p data =>
        cases a' with
        | primitive q data' => simp only [footprint, hsame.2]
        | references _ => cases hsame
      | references slots =>
        cases a' with
        | primitive q data' => cases hsame
        | references slots' =>
          have hlength : slots'.length = slots.length := hsame
          simp only [footprint, hlength]
    | _ => cases h
  | _ =>
    cases h
    rfl

namespace Heap

variable {h h' : Heap} {r : ObjectRef} {o : Object}

/-! ## The live objects -/

theorem get?_eq_some_iff : h.get? r = some o ↔ h.slots[r.index]? = some (some o) := by
  unfold get?
  cases h.slots[r.index]? with
  | none => simp
  | some slot => simp

/-- The objects of a heap are those that are live. -/
theorem mem_objects_iff : (r, o) ∈ h.objects ↔ h.get? r = some o := by
  rw [get?_eq_some_iff, objects, List.mem_filterMap]
  constructor
  · rintro ⟨⟨slot, i⟩, hmem, hslot⟩
    rw [List.mem_zipIdx_iff_getElem?] at hmem
    obtain ⟨x, rfl, heq⟩ := Option.map_eq_some_iff.mp hslot
    cases heq
    rw [← Array.getElem?_toList]
    exact hmem
  · intro hslot
    refine ⟨(some o, r.index), ?_, rfl⟩
    rw [List.mem_zipIdx_iff_getElem?, Array.getElem?_toList]
    exact hslot

/-- Each live object is listed once. -/
theorem nodup_objects (h : Heap) : h.objects.Nodup := by
  have hindices : (h.slots.toList.zipIdx.map Prod.snd).Nodup := by
    rw [List.zipIdx_map_snd]
    exact List.nodup_range'
  refine (List.Nodup.of_map _ hindices).filterMap ?_
  rintro ⟨slot, i⟩ ⟨slot', i'⟩ b hb hb'
  obtain ⟨x, rfl, rfl⟩ := Option.map_eq_some_iff.mp hb
  obtain ⟨x', rfl, heq⟩ := Option.map_eq_some_iff.mp hb'
  cases heq
  rfl

theorem eq_of_mem_objects {x : Object} (hx : (r, x) ∈ h.objects) (ho : (r, o) ∈ h.objects) :
    x = o := by
  rw [mem_objects_iff] at hx ho
  exact Option.some.inj (hx.symm.trans ho)

/-! ## What the objects come to -/

/-- What the live objects come to under a measure of objects. -/
def total (h : Heap) (measure : Object → Nat) : Nat := (h.objects.map fun p => measure p.2).sum

/-- What the live objects come to without the one at a reference. -/
def totalBeside (h : Heap) (r : ObjectRef) (measure : Object → Nat) : Nat :=
  ((h.objects.filter fun p => p.1 ≠ r).map fun p => measure p.2).sum

/-- A total is the share of one slot and that of all others. -/
theorem total_eq (h : Heap) (r : ObjectRef) (measure : Object → Nat) :
    h.total measure = ((h.get? r).elim 0 measure) + h.totalBeside r measure := by
  unfold total totalBeside
  cases hr : h.get? r with
  | none =>
    -- Nothing is listed at `r`, so nothing is left out.
    have hall : h.objects.filter (fun p => p.1 ≠ r) = h.objects := by
      refine List.filter_eq_self.mpr fun p hp => ?_
      rw [decide_eq_true_eq]
      rintro rfl
      have hlive := mem_objects_iff.mp hp
      rw [hr] at hlive
      cases hlive
    rw [hall]
    simp
  | some o =>
    -- Up to order, the list is the object at `r` and all others.
    have hsplit : h.objects.Perm ((r, o) :: h.objects.filter fun p => p.1 ≠ r) := by
      have hnodup : ((r, o) :: h.objects.filter fun p => p.1 ≠ r).Nodup := by
        refine List.nodup_cons.mpr ⟨by simp, h.nodup_objects.filter _⟩
      refine (List.perm_ext_iff_of_nodup h.nodup_objects hnodup).mpr ?_
      rintro ⟨p, x⟩
      have hmem := mem_objects_iff.mpr hr
      rw [List.mem_cons, List.mem_filter, decide_eq_true_eq, Prod.mk.injEq]
      constructor
      · intro hx
        by_cases hp : p = r
        · subst hp
          exact Or.inl ⟨rfl, eq_of_mem_objects hx hmem⟩
        · exact Or.inr ⟨hx, hp⟩
      · rintro (⟨rfl, rfl⟩ | ⟨hx, _⟩)
        · exact hmem
        · exact hx
    have hsum := (hsplit.map fun p => measure p.2).sum_nat
    simpa using hsum

/-- Heaps that agree beside one slot differ in a total by the share of that slot alone. -/
theorem total_of_agree (hagree : ∀ p, p ≠ r → h'.get? p = h.get? p) (measure : Object → Nat) :
    h'.total measure + (h.get? r).elim 0 measure =
      h.total measure + (h'.get? r).elim 0 measure := by
  have hperm : (h'.objects.filter fun p => p.1 ≠ r).Perm (h.objects.filter fun p => p.1 ≠ r) := by
    refine (List.perm_ext_iff_of_nodup (h'.nodup_objects.filter _) (h.nodup_objects.filter _)).mpr ?_
    rintro ⟨p, x⟩
    rw [List.mem_filter, List.mem_filter, decide_eq_true_eq]
    refine and_congr_left fun hp => ?_
    rw [mem_objects_iff, mem_objects_iff, hagree p hp]
  have hbeside : h'.totalBeside r measure = h.totalBeside r measure :=
    (hperm.map fun p : ObjectRef × Object => measure p.2).sum_nat
  rw [total_eq h' r, total_eq h r, hbeside]
  omega

/-- Counting objects is adding up ones. -/
theorem length_objects (h : Heap) : h.objects.length = h.total fun _ => 1 := by
  simp [total]

/-! ## Accounts that agree -/

/-- The accounts of a heap agree: each empty slot is on the free list once and nothing else is, every
slot is free or has a live object, and the bytes in use are those that the live objects are charged
with. -/
structure Sound (h : Heap) : Prop where
  free_nodup : h.free.Nodup
  mem_free_iff : ∀ i, i ∈ h.free ↔ h.slots[i]? = some none
  size_eq : h.slots.size = h.free.length + h.objects.length
  bytesUsed_eq : h.bytesUsed = h.total fun o => o.body.footprint

theorem sound_new : Sound {} where
  free_nodup := List.nodup_nil
  mem_free_iff := by simp
  size_eq := rfl
  bytesUsed_eq := rfl

/-- The count that the heap keeps is the number of its objects. -/
theorem Sound.liveCount_eq (hs : h.Sound) : h.liveCount = h.objects.length := by
  rw [liveCount, hs.size_eq]
  omega

/-- A live object is charged for within the bytes in use. -/
theorem Sound.footprint_le (hs : h.Sound) (ho : h.get? r = some o) :
    o.body.footprint ≤ h.bytesUsed := by
  rw [hs.bytesUsed_eq, total_eq h r, ho, Option.elim_some]
  omega

/-! ## Adding an object -/

/-- The object that is added next. -/
def nextObject (h : Heap) (owner : ClassId) (body : Body) : Object :=
  { owner, hash := hashOfSeed (nextSeed h.seed), body }

/-- Without free slots an object is added at the end. -/
theorem allocate_of_nil (hfree : h.free = []) (owner : ClassId) (body : Body) :
    h.allocate owner body =
      ({ h with slots := h.slots.push (some (h.nextObject owner body))
                bytesUsed := h.bytesUsed + body.footprint, seed := nextSeed h.seed },
        ⟨h.slots.size⟩) := by
  unfold allocate
  rw [hfree]
  rfl

/-- Otherwise an object takes the slot that was freed last. -/
theorem allocate_of_cons {i : Nat} {free : List Nat} (hfree : h.free = i :: free) (owner : ClassId)
    (body : Body) :
    h.allocate owner body =
      ({ h with slots := h.slots.setIfInBounds i (some (h.nextObject owner body)), free
                bytesUsed := h.bytesUsed + body.footprint, seed := nextSeed h.seed }, ⟨i⟩) := by
  unfold allocate
  rw [hfree]
  rfl

/-- A new object takes a reference at which nothing was live, and leaves all others as they are. -/
theorem Sound.allocate_spec (hs : h.Sound) (owner : ClassId) (body : Body) :
    h.get? (h.allocate owner body).2 = none ∧
      ∀ p, (h.allocate owner body).1.get? p =
        if p = (h.allocate owner body).2 then some (h.nextObject owner body) else h.get? p := by
  cases hfree : h.free with
  | nil =>
    rw [allocate_of_nil hfree]
    refine ⟨by simp [get?], fun p => ?_⟩
    rw [get?, Array.getElem?_push, if_congr ObjectRef.eq_iff_index rfl rfl]
    by_cases hp : h.slots.size = p.index
    · rw [if_pos hp, if_pos hp.symm]
      rfl
    · rw [if_neg hp, if_neg fun hc => hp hc.symm]
      rfl
  | cons i free =>
    rw [allocate_of_cons hfree]
    have hempty : h.slots[i]? = some none := (hs.mem_free_iff i).mp (hfree ▸ List.mem_cons_self)
    refine ⟨by simp [get?, hempty], fun p => ?_⟩
    rw [get?, Array.getElem?_setIfInBounds, if_congr ObjectRef.eq_iff_index rfl rfl]
    by_cases hp : i = p.index
    · rw [if_pos hp, if_pos hp, if_pos (Array.getElem?_eq_some_iff.mp hempty).1]
      rfl
    · rw [if_neg hp, if_neg hp]
      rfl

/-- With a new object, every total is more by its share. -/
theorem Sound.total_allocate (hs : h.Sound) (owner : ClassId) (body : Body)
    (measure : Object → Nat) :
    (h.allocate owner body).1.total measure =
      h.total measure + measure (h.nextObject owner body) := by
  obtain ⟨hfree, hget⟩ := hs.allocate_spec owner body
  have htotal := total_of_agree (h := h) (fun p hp => (hget p).trans (if_neg hp)) measure
  rw [hfree, hget, if_pos rfl] at htotal
  exact htotal

/-- A new object keeps the accounts in order. -/
theorem Sound.allocate (hs : h.Sound) (owner : ClassId) (body : Body) :
    (h.allocate owner body).1.Sound := by
  have hlength := hs.total_allocate owner body fun _ => 1
  have hcharged := hs.total_allocate owner body fun o => o.body.footprint
  rw [← length_objects, ← length_objects] at hlength
  rw [← hs.bytesUsed_eq] at hcharged
  have hsize := hs.size_eq
  cases hfree : h.free with
  | nil =>
    rw [allocate_of_nil hfree] at hlength hcharged ⊢
    refine ⟨hs.free_nodup, fun i => ?_, ?_, hcharged.symm⟩
    · -- The slot at the end is new and not empty.
      show i ∈ h.free ↔ (h.slots.push _)[i]? = some none
      rw [hs.mem_free_iff, Array.getElem?_push]
      split
      · next hi =>
        rw [hi, Array.getElem?_eq_none (Nat.le_refl _)]
        simp
      · rfl
    · show (h.slots.push _).size = h.free.length + _
      rw [Array.size_push]
      omega
  | cons j free =>
    have hempty : h.slots[j]? = some none := (hs.mem_free_iff j).mp (hfree ▸ List.mem_cons_self)
    have hnodup := hs.free_nodup
    rw [hfree, List.nodup_cons] at hnodup
    rw [allocate_of_cons hfree] at hlength hcharged ⊢
    refine ⟨hnodup.2, fun i => ?_, ?_, hcharged.symm⟩
    · -- The slot at `j` was empty and is not any more; it was on the list once.
      show i ∈ free ↔ (h.slots.setIfInBounds j _)[i]? = some none
      have hi := hs.mem_free_iff i
      rw [hfree, List.mem_cons] at hi
      rw [Array.getElem?_setIfInBounds, if_pos (Array.getElem?_eq_some_iff.mp hempty).1]
      by_cases hji : j = i
      · subst hji
        simp [hnodup.1]
      · rw [if_neg hji, ← hi]
        simp [Ne.symm hji]
    · show (h.slots.setIfInBounds j _).size = free.length + _
      rw [hfree, List.length_cons] at hsize
      rw [Array.size_setIfInBounds]
      omega

/-! ## Changing an object -/

/-- Contents that are replaced within their shape are charged as they were before. -/
theorem Sound.updateBody (hs : h.Sound) (ho : h.get? r = some o) {body : Body}
    (hshape : o.body.SameShape body) : (h.updateBody r fun _ => body).Sound := by
  have hget := get?_updateBody h r fun _ => body
  have htotal : ∀ measure : Object → Nat, measure { o with body } = measure o →
      (h.updateBody r fun _ => body).total measure = h.total measure := by
    intro measure hmeasure
    have hagree := total_of_agree (h := h) (fun p hp => (hget p).trans (if_neg hp)) measure
    rw [hget, if_pos rfl, ho, Option.map_some, Option.elim_some, Option.elim_some, hmeasure]
      at hagree
    omega
  have hlength := htotal (fun _ => 1) rfl
  have hcharged := htotal (fun o => o.body.footprint) (Body.footprint_of_sameShape hshape)
  rw [← length_objects, ← length_objects] at hlength
  refine ⟨hs.free_nodup, fun i => ?_, ?_, hs.bytesUsed_eq.trans hcharged.symm⟩
  · show i ∈ h.free ↔ (h.slots.modify r.index _)[i]? = some none
    rw [hs.mem_free_iff, Array.getElem?_modify]
    split
    · rcases h.slots[i]? with _ | _ | _ <;> simp
    · rfl
  · show (h.slots.modify r.index _).size = h.free.length + _
    rw [Array.size_modify, hlength]
    exact hs.size_eq

/-- The list of written objects is no part of the accounts. -/
theorem Sound.of_written (hs : h.Sound) (written : List ObjectRef) :
    ({ h with written } : Heap).Sound := ⟨hs.1, hs.2, hs.3, hs.4⟩

theorem Sound.noteWrite (hs : h.Sound) (r : ObjectRef) : (h.noteWrite r).Sound := by
  unfold Heap.noteWrite
  split
  · exact hs
  · exact hs.of_written _

/-! ## Freeing objects -/

/-- A live object that is freed is taken off every account. -/
theorem Sound.freeOne (hs : h.Sound) (ho : h.get? r = some o) : (h.freeOne r o).Sound := by
  have hget := get?_freeOne h r o
  have htotal : ∀ measure : Object → Nat,
      (h.freeOne r o).total measure + measure o = h.total measure := by
    intro measure
    have hagree := total_of_agree (h := h) (fun p hp => (hget p).trans (if_neg hp)) measure
    rw [hget, if_pos rfl, ho] at hagree
    exact hagree
  have hlength := htotal fun _ => 1
  have hcharged := htotal fun o => o.body.footprint
  rw [← length_objects, ← length_objects] at hlength
  have hslot := get?_eq_some_iff.mp ho
  have hnew : r.index ∉ h.free := by
    rw [hs.mem_free_iff, hslot]
    simp
  refine ⟨List.nodup_cons.mpr ⟨hnew, hs.free_nodup⟩, fun i => ?_, ?_, ?_⟩
  · show i ∈ r.index :: h.free ↔ (h.slots.setIfInBounds r.index none)[i]? = some none
    rw [List.mem_cons, hs.mem_free_iff, Array.getElem?_setIfInBounds,
      if_pos (Array.getElem?_eq_some_iff.mp hslot).1]
    split
    · next hi => simp [hi]
    · next hi => simp [Ne.symm hi]
  · have hsize := hs.size_eq
    show (h.slots.setIfInBounds r.index none).size = (r.index :: h.free).length + _
    rw [Array.size_setIfInBounds, List.length_cons]
    omega
  · have hbytes := hs.bytesUsed_eq
    show h.bytesUsed - o.body.footprint = _
    omega

/-- The heap after objects were freed one after the other. -/
def freeAll (h : Heap) (l : List (ObjectRef × Object)) : Heap :=
  l.foldl (fun h p => h.freeOne p.1 p.2) h

/-- Live objects that are freed one after the other are gone, and no others. -/
theorem Sound.freeAll (hs : h.Sound) {l : List (ObjectRef × Object)} (hl : l ⊆ h.objects)
    (hnodup : l.Nodup) :
    (h.freeAll l).Sound ∧
      ∀ p x, (h.freeAll l).get? p = some x ↔ h.get? p = some x ∧ (p, x) ∉ l := by
  induction l generalizing h with
  | nil => exact ⟨hs, fun p x => by simp [Heap.freeAll]⟩
  | cons e l ih =>
    obtain ⟨r, o⟩ := e
    obtain ⟨hnew, hrest⟩ := List.nodup_cons.mp hnodup
    obtain ⟨hmem, hsub⟩ := List.cons_subset.mp hl
    have hlive := mem_objects_iff.mp hmem
    have hget := get?_freeOne h r o
    -- What is freed later is at other references, and so is still live.
    have hother : ∀ p x, (p, x) ∈ l → p ≠ r := by
      rintro p x hx rfl
      rw [eq_of_mem_objects (hsub hx) hmem] at hx
      exact hnew hx
    have hleft : l ⊆ (h.freeOne r o).objects := by
      rintro ⟨p, x⟩ hx
      rw [mem_objects_iff, hget, if_neg (hother p x hx)]
      exact mem_objects_iff.mp (hsub hx)
    obtain ⟨hsound, hfreed⟩ := ih (hs.freeOne hlive) hleft hrest
    refine ⟨hsound, fun p x => ?_⟩
    show ((h.freeOne r o).freeAll l).get? p = some x ↔ _
    rw [hfreed, hget, List.mem_cons, not_or, Prod.mk.injEq]
    by_cases hp : p = r
    · subst hp
      rw [if_pos rfl, hlive]
      constructor
      · rintro ⟨⟨⟩, _⟩
      · rintro ⟨⟨⟩, hne, _⟩
        exact absurd ⟨rfl, rfl⟩ hne
    · rw [if_neg hp]
      simp [hp]

/-! ## Collecting -/

variable {keep : ObjectRef → Object → Bool}

/-- What is rejected is live and not to be kept. -/
theorem mem_rejected_iff : (r, o) ∈ h.rejected keep ↔ h.get? r = some o ∧ keep r o = false := by
  rw [rejected, List.mem_filter, mem_objects_iff]
  simp

theorem rejected_subset (h : Heap) (keep : ObjectRef → Object → Bool) :
    h.rejected keep ⊆ h.objects :=
  fun _ hp => List.mem_of_mem_filter hp

theorem nodup_rejected (h : Heap) (keep : ObjectRef → Object → Bool) : (h.rejected keep).Nodup :=
  h.nodup_objects.filter _

/-- Each object that is freed is charged for within the bytes that are then in use. -/
theorem Sound.footprint_le_freeAll (hs : h.Sound) {before after : List (ObjectRef × Object)}
    (hsplit : h.rejected keep = before ++ (r, o) :: after) :
    o.body.footprint ≤ (h.freeAll before).bytesUsed := by
  have hsub := h.rejected_subset keep
  have hnodup := h.nodup_rejected keep
  rw [hsplit] at hsub hnodup
  obtain ⟨hbefore, hafter⟩ := List.append_subset.mp hsub
  obtain ⟨hone, _, hdisjoint⟩ := List.nodup_append.mp hnodup
  obtain ⟨hsound, hfreed⟩ := hs.freeAll hbefore hone
  have hnew : (r, o) ∉ before := fun hc => hdisjoint _ hc _ List.mem_cons_self rfl
  exact hsound.footprint_le ((hfreed r o).mpr ⟨mem_objects_iff.mp (hafter List.mem_cons_self), hnew⟩)

/-- A collection leaves the objects that it keeps, and no others. -/
theorem get?_sweep_iff (hs : h.Sound) (keep : ObjectRef → Object → Bool) :
    (h.sweep keep).1.get? r = some o ↔ h.get? r = some o ∧ keep r o = true := by
  have hfreed := (hs.freeAll (h.rejected_subset keep) (h.nodup_rejected keep)).2 r o
  show (h.freeAll (h.rejected keep)).get? r = some o ↔ _
  rw [hfreed, mem_rejected_iff]
  refine and_congr_right fun hlive => ?_
  simp [hlive]

/-- A collection keeps the accounts in order. -/
theorem Sound.sweep (hs : h.Sound) (keep : ObjectRef → Object → Bool) : (h.sweep keep).1.Sound :=
  (hs.freeAll (h.rejected_subset keep) (h.nodup_rejected keep)).1.of_written _

/-- What a collection frees and what it leaves are all objects together. -/
theorem liveCount_sweep (hs : h.Sound) (keep : ObjectRef → Object → Bool) :
    (h.sweep keep).1.liveCount + (h.sweep keep).2 = h.liveCount := by
  have hkept : (h.sweep keep).1.objects.Perm (h.objects.filter fun p => keep p.1 p.2) := by
    refine (List.perm_ext_iff_of_nodup (nodup_objects _) (h.nodup_objects.filter _)).mpr ?_
    rintro ⟨r, o⟩
    rw [mem_objects_iff, get?_sweep_iff hs, List.mem_filter, mem_objects_iff]
  have hlength := hkept.length_eq
  have hall := List.length_eq_length_filter_add (l := h.objects) fun p => keep p.1 p.2
  have hfreed : (h.sweep keep).2 = (h.objects.filter fun p => !keep p.1 p.2).length := rfl
  rw [(hs.sweep keep).liveCount_eq, hs.liveCount_eq, hfreed]
  omega

end Heap

end JavaMachine

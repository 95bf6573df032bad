/-
# Finite maps

A small finite map: a list of keys with their values. What a key was inserted with last is what it
is looked up as, and the entries stay in the order in which their keys were first inserted.
-/

namespace JavaMachine

/-- A finite map from `κ` to `β`. -/
structure Table (κ β : Type) where
  entries : List (κ × β) := []

namespace Table

variable {κ β : Type} [DecidableEq κ]

/-- The map without entries. -/
def empty : Table κ β := {}

/-- The value of a key. -/
def get? (t : Table κ β) (k : κ) : Option β := t.entries.lookup k

/-- The number of entries. -/
def size (t : Table κ β) : Nat := t.entries.length

/-- The keys, in the order of the entries. -/
def keys (t : Table κ β) : List κ := t.entries.map Prod.fst

def contains (t : Table κ β) (k : κ) : Bool := (t.get? k).isSome

/-- Gives a key a value, in the place of the one it had. -/
def insert (t : Table κ β) (k : κ) (b : β) : Table κ β :=
  if t.contains k then ⟨t.entries.map fun e => if e.1 = k then (k, b) else e⟩
  else ⟨t.entries ++ [(k, b)]⟩

/-- Changes the value of a key, if it has one. -/
def modify (t : Table κ β) (k : κ) (f : β → β) : Table κ β :=
  ⟨t.entries.map fun e => if e.1 = k then (k, f e.2) else e⟩

/-- Removes a key. -/
def erase (t : Table κ β) (k : κ) : Table κ β := ⟨t.entries.filter (·.1 ≠ k)⟩

/-- Keeps the entries that pass a test. -/
def filter (t : Table κ β) (p : κ → β → Bool) : Table κ β := ⟨t.entries.filter fun e => p e.1 e.2⟩

/-! ## Looking up -/

theorem get?_empty (k : κ) : (empty : Table κ β).get? k = none := rfl

/-- Looking a key up in an updated list of entries. -/
theorem lookup_map_update (l : List (κ × β)) (k : κ) (f : β → β) (j : κ) :
    (l.map fun e => if e.1 = k then (k, f e.2) else e).lookup j =
      if j = k then (l.lookup k).map f else l.lookup j := by
  induction l with
  | nil => simp
  | cons e l ih =>
    obtain ⟨a, b⟩ := e
    by_cases hak : a = k
    · subst hak
      by_cases hj : j = a
      · subst hj
        simp
      · have hb : (j == a) = false := by simpa using hj
        simp [List.lookup_cons, hb, ih, hj]
    · by_cases hj : j = k
      · subst hj
        have hb : (j == a) = false := by simpa using fun h : j = a => hak h.symm
        simp only [List.map_cons, hak, if_false, List.lookup_cons, hb, ih, if_true]
      · simp only [List.map_cons, hak, if_false, List.lookup_cons, ih, hj]

/-- A key has its new value after a modification, and the other keys keep theirs. -/
theorem get?_modify (t : Table κ β) (k : κ) (f : β → β) (j : κ) :
    (t.modify k f).get? j = if j = k then (t.get? k).map f else t.get? j :=
  lookup_map_update t.entries k f j

/-- A key has the value it was given last, and the other keys keep theirs. -/
theorem get?_insert (t : Table κ β) (k : κ) (b : β) (j : κ) :
    (t.insert k b).get? j = if j = k then some b else t.get? j := by
  unfold insert contains
  split
  · next h =>
    obtain ⟨c, hc⟩ := Option.isSome_iff_exists.1 h
    have := lookup_map_update t.entries k (fun _ => b) j
    simp only [get?] at hc
    simpa [get?, hc] using this
  · next h =>
    have hn : t.entries.lookup k = none := Option.not_isSome_iff_eq_none.1 h
    simp only [get?, List.lookup_append]
    by_cases hj : j = k
    · subst hj
      simp [hn]
    · have hb : (j == k) = false := by simpa using hj
      simp [List.lookup_cons, hb, hj]

/-- A removed key has no value, and the other keys keep theirs. -/
theorem get?_erase (t : Table κ β) (k j : κ) :
    (t.erase k).get? j = if j = k then none else t.get? j := by
  unfold erase get?
  induction t.entries with
  | nil => simp
  | cons e l ih =>
    obtain ⟨a, b⟩ := e
    by_cases hak : a = k
    · subst hak
      by_cases hj : j = a
      · simpa [hj] using ih
      · have hb : (j == a) = false := by simpa using hj
        simpa [List.lookup_cons, hb, hj] using ih
    · by_cases hja : j = a
      · subst hja
        simp [hak]
      · have hb : (j == a) = false := by simpa using hja
        simpa [List.lookup_cons, hb, hak] using ih

/-! ## Keys -/

theorem isSome_get?_iff (t : Table κ β) (k : κ) : (t.get? k).isSome ↔ k ∈ t.keys := by
  unfold get? keys
  induction t.entries with
  | nil => simp
  | cons e l ih =>
    obtain ⟨a, b⟩ := e
    by_cases h : k = a
    · simp [h]
    · have hb : (k == a) = false := by simpa using h
      simp [List.lookup_cons, hb, h, ih]

/-- A key that is not there has no value. -/
theorem get?_eq_none_iff (t : Table κ β) (k : κ) : t.get? k = none ↔ k ∉ t.keys := by
  rw [← isSome_get?_iff, Option.not_isSome_iff_eq_none]

/-- A new key comes last. -/
theorem insert_of_not_mem {t : Table κ β} {k : κ} (h : k ∉ t.keys) (b : β) :
    t.insert k b = ⟨t.entries ++ [(k, b)]⟩ := by
  have hnot : t.contains k = false := by
    unfold contains
    rw [(get?_eq_none_iff t k).mpr h]
    rfl
  unfold insert
  rw [if_neg (by simp [hnot])]

/-- A new key comes last. -/
theorem keys_insert_of_not_mem {t : Table κ β} {k : κ} (h : k ∉ t.keys) (b : β) :
    (t.insert k b).keys = t.keys ++ [k] := by
  rw [insert_of_not_mem h]
  simp [keys]

theorem keys_erase (t : Table κ β) (k : κ) : (t.erase k).keys = t.keys.filter (· ≠ k) := by
  unfold keys erase
  rw [List.filter_map]
  rfl

/-- Values are changed without their keys. -/
theorem keys_modify (t : Table κ β) (k : κ) (f : β → β) : (t.modify k f).keys = t.keys := by
  unfold keys modify
  rw [List.map_map]
  refine List.map_congr_left fun e _ => ?_
  by_cases h : e.1 = k
  · simp [h]
  · simp [h]

/-- A new key that is removed again leaves the table as it was. -/
theorem erase_insert_of_not_mem {t : Table κ β} {k : κ} (h : k ∉ t.keys) (b : β) :
    (t.insert k b).erase k = t := by
  have hkeep : t.entries.filter (fun e => decide (e.1 ≠ k)) = t.entries := by
    refine List.filter_eq_self.mpr fun e he => ?_
    have hne : e.1 ≠ k := fun heq => h (heq ▸ List.mem_map_of_mem he)
    simpa using hne
  rw [insert_of_not_mem h]
  unfold erase
  rw [List.filter_append, hkeep]
  simp

/-- A value that is found is one of the entries. -/
theorem mem_of_get? {t : Table κ β} {k : κ} {b : β} (h : t.get? k = some b) :
    (k, b) ∈ t.entries := by
  obtain ⟨before, after, hentries, -⟩ := List.lookup_eq_some_iff.mp h
  rw [hentries]
  exact List.mem_append_right _ List.mem_cons_self

/-- No key comes twice after one was given a value. -/
theorem nodup_keys_insert {t : Table κ β} (h : t.keys.Nodup) (k : κ) (b : β) :
    (t.insert k b).keys.Nodup := by
  by_cases hk : k ∈ t.keys
  · have hcontains : t.contains k = true := (isSome_get?_iff t k).mpr hk
    have hsame : t.insert k b = t.modify k fun _ => b := by
      unfold insert
      rw [if_pos hcontains]
      rfl
    rw [hsame, keys_modify]
    exact h
  · rw [keys_insert_of_not_mem hk]
    refine List.nodup_append.mpr ⟨h, by simp, ?_⟩
    rintro j hj _ hk' rfl
    exact hk (List.mem_singleton.mp hk' ▸ hj)

/-- Where no key comes twice, each entry is what its key is looked up as. -/
theorem get?_eq_some_of_mem {t : Table κ β} {k : κ} {b : β} (h : t.keys.Nodup)
    (hmem : (k, b) ∈ t.entries) : t.get? k = some b := by
  obtain ⟨before, after, hentries⟩ := List.append_of_mem hmem
  refine List.lookup_eq_some_iff.mpr ⟨before, after, hentries, fun e he => ?_⟩
  unfold keys at h
  rw [hentries, List.map_append, List.map_cons, List.nodup_append] at h
  have hne := h.2.2 e.1 (List.mem_map_of_mem he) k List.mem_cons_self
  simpa using fun heq : k = e.1 => hne heq.symm

omit [DecidableEq κ] in
theorem nodup_keys_filter {t : Table κ β} (h : t.keys.Nodup) (p : κ → β → Bool) :
    (t.filter p).keys.Nodup :=
  (List.filter_sublist.map Prod.fst).nodup h

/-- A key of which all entries are kept or dropped alike. -/
theorem get?_filter {t : Table κ β} {p : κ → β → Bool} {k : κ} {kept : Bool}
    (h : ∀ b, (k, b) ∈ t.entries → p k b = kept) :
    (t.filter p).get? k = if kept then t.get? k else none := by
  unfold filter get?
  revert h
  induction t.entries with
  | nil => simp
  | cons e l ih =>
    obtain ⟨a, b⟩ := e
    intro h
    have hrest := ih fun b hb => h b (List.mem_cons_of_mem _ hb)
    by_cases hk : k = a
    · subst hk
      have hp : p k b = kept := h b List.mem_cons_self
      cases kept with
      | true => simp [hp]
      | false => simpa [hp] using hrest
    · have hb : (k == a) = false := by simpa using hk
      by_cases hp : p a b = true
      · simpa [hp, List.lookup_cons, hb] using hrest
      · simpa [hp, List.lookup_cons, hb] using hrest

end Table

end JavaMachine

import FormStaging.SlotTable
import Mathlib.Data.List.Induction

/-!
# Slots of a numbering

The slot of a key is the one of its only entry (`SlotTable.slot?_eq_some_iff`). A table made from
entries with distinct keys has just these entries, so the numbering of distinct keys gives each key its
place in the list (`SlotTable.slot?_numbering`).
-/

set_option autoImplicit false

namespace FormStaging.SlotTable

variable {κ : Type} [DecidableEq κ] {table : SlotTable κ} {key : κ} {slot : Nat} {keys : List κ}
  {entries : List (κ × Nat)}

/-! ## Lookup -/

/-- In a list of entries with distinct keys, an entry is found by its key. -/
theorem lookup_of_mem (hdistinct : (entries.map Prod.fst).Nodup) (h : (key, slot) ∈ entries) :
    entries.lookup key = some slot := by
  induction entries with
  | nil => cases h
  | cons e entries ih =>
    obtain ⟨hnew, hdistinct⟩ := List.nodup_cons.1 hdistinct
    rcases List.mem_cons.1 h with rfl | h
    · simp
    · have hne : key ≠ e.1 := fun he => hnew (he ▸ List.mem_map_of_mem h)
      rw [List.lookup_cons, beq_eq_false_iff_ne.2 hne]
      exact ih hdistinct h

/-- The slot of a key is in the table. -/
theorem mem_of_slot? (h : table.slot? key = some slot) : (key, slot) ∈ table.entries := by
  rw [slot?, List.lookup_eq_some_iff] at h
  obtain ⟨before, after, hentries, -⟩ := h
  simp [hentries]

/-- The slot of a key is the one of its entry. -/
theorem slot?_eq_some_iff : table.slot? key = some slot ↔ (key, slot) ∈ table.entries :=
  ⟨mem_of_slot?, lookup_of_mem table.distinct⟩

/-! ## Numbering -/

theorem assign_of_not_mem (h : key ∉ entries.map Prod.fst) :
    assign key slot entries = entries ++ [(key, slot)] := by
  induction entries with
  | nil => rfl
  | cons e entries ih =>
    rw [List.map_cons, List.mem_cons, not_or] at h
    rw [assign, if_neg (Ne.symm h.1), ih h.2, List.cons_append]

theorem entries_insert (table : SlotTable κ) (key : κ) (slot : Nat) :
    (table.insert key slot).entries = assign key slot table.entries := rfl

/-- Distinct keys keep their slots. -/
theorem entries_ofEntries (h : (entries.map Prod.fst).Nodup) :
    (ofEntries entries).entries = entries := by
  -- from the end of the list, since a new key comes last
  induction entries using List.reverseRecOn with
  | nil => rfl
  | append_singleton entries e ih =>
    rw [List.map_append, List.nodup_append] at h
    obtain ⟨hdistinct, -, hnew⟩ := h
    have hkey : e.1 ∉ entries.map Prod.fst := fun he => hnew e.1 he e.1 (by simp) rfl
    rw [ofEntries, List.foldl_append, List.foldl_cons, List.foldl_nil, ← ofEntries,
      entries_insert, ih hdistinct, assign_of_not_mem hkey]

theorem entries_numbering (h : keys.Nodup) : (numbering keys).entries = keys.zipIdx :=
  entries_ofEntries (by rwa [List.zipIdx_map_fst])

theorem size_numbering (h : keys.Nodup) : (numbering keys).size = keys.length := by
  rw [size, entries_numbering h, List.length_zipIdx]

/-- A numbering gives each key its place. -/
theorem slot?_numbering (h : keys.Nodup) :
    (numbering keys).slot? key = some slot ↔ keys[slot]? = some key := by
  rw [slot?_eq_some_iff, entries_numbering h, List.mem_zipIdx_iff_getElem?]

/-- The keys with a slot are the numbered ones. -/
theorem exists_slot?_numbering (h : keys.Nodup) :
    (∃ slot, (numbering keys).slot? key = some slot) ↔ key ∈ keys := by
  simp only [slot?_numbering h, List.mem_iff_getElem?]

/-- The slots are below the number of keys. -/
theorem lt_size_numbering (h : keys.Nodup) {entry : κ × Nat}
    (hentry : entry ∈ (numbering keys).entries) : entry.2 < (numbering keys).size := by
  rw [entries_numbering h, List.mem_zipIdx_iff_getElem?] at hentry
  rw [size_numbering h]
  exact (List.getElem?_eq_some_iff.1 hentry).1

end FormStaging.SlotTable

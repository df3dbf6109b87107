import FormStaging.Sorting

/-!
# Slot tables

A `SlotTable` gives a slot to each of its keys. Keys are distinct, slots need not be: whether a
table is a numbering is for its user to check. Giving a slot to a key that has one replaces it.
-/

set_option autoImplicit false

namespace FormStaging

/-- The slots of distinct keys. -/
structure SlotTable (κ : Type) where
  entries : List (κ × Nat) := []
  /-- No key has two slots. -/
  distinct : (entries.map Prod.fst).Nodup := by simp
deriving Repr

namespace SlotTable

variable {κ : Type} [DecidableEq κ]

/-- Gives a slot to a key of a list of entries. A new key comes last. -/
def assign (key : κ) (slot : Nat) : List (κ × Nat) → List (κ × Nat)
  | [] => [(key, slot)]
  | e :: rest => if e.1 = key then (key, slot) :: rest else e :: assign key slot rest

/-- An assignment keeps the keys in place and adds a new one at the end. -/
theorem map_fst_assign (key : κ) (slot : Nat) (l : List (κ × Nat)) :
    (assign key slot l).map Prod.fst =
      if key ∈ l.map Prod.fst then l.map Prod.fst else l.map Prod.fst ++ [key] := by
  induction l with
  | nil => simp [assign]
  | cons e rest ih =>
    by_cases h : e.1 = key
    · simp [assign, h]
    · rw [assign, if_neg h, List.map_cons, ih]
      by_cases hk : key ∈ rest.map Prod.fst
      · rw [if_pos hk, List.map_cons, if_pos (List.mem_cons_of_mem _ hk)]
      · rw [if_neg hk, List.map_cons, if_neg, List.cons_append]
        intro hmem
        rcases List.mem_cons.1 hmem with he | hr
        · exact h he.symm
        · exact hk hr

/-- The table with a slot for the key, in place of the one it may have. -/
def insert (t : SlotTable κ) (key : κ) (slot : Nat) : SlotTable κ where
  entries := assign key slot t.entries
  distinct := by
    rw [map_fst_assign]
    split
    case isTrue => exact t.distinct
    case isFalse h =>
      refine List.nodup_append.2 ⟨t.distinct, List.nodup_cons.2 ⟨List.not_mem_nil, List.nodup_nil⟩, ?_⟩
      intro a ha b hb hab
      exact h (List.mem_singleton.1 hb ▸ hab ▸ ha)

/-- The table of a list of entries; the last slot given to a key counts. -/
def ofEntries (entries : List (κ × Nat)) : SlotTable κ :=
  entries.foldl (fun t e => t.insert e.1 e.2) {}

/-- The table that numbers distinct keys in order. -/
def numbering (keys : List κ) : SlotTable κ := ofEntries keys.zipIdx

/-- The number of keys. -/
def size (t : SlotTable κ) : Nat := t.entries.length

/-- The slot of a key. -/
def slot? (t : SlotTable κ) (key : κ) : Option Nat := t.entries.lookup key

/-- The entries in ascending order of their slots. -/
def bySlot (t : SlotTable κ) : List (κ × Nat) := ascendingBy Prod.snd t.entries

/-- The entry of least slot among those whose slot is not below a bound. -/
def firstFrom? (t : SlotTable κ) (bound : Nat) : Option (κ × Nat) :=
  t.bySlot.find? fun e => bound ≤ e.2

end SlotTable

end FormStaging

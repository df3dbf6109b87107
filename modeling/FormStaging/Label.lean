/-!
# Variable labels

A `Label` names a variable. Two variable nodes with one label are the same variable, even if they
were built apart. There is no global counter: whoever builds expressions owns a `LabelSupply`
and passes it on. The supply stays strictly above every label it minted or was told to avoid
(`LabelSupply.lt_next_of_mint?`, `LabelSupply.lt_next_of_reserve?`).

Labels are small numbers, kept in machine words. The last word has no successor, so a supply cannot
stay above it: `mint?` and `reserve?` have no result there.
-/

set_option autoImplicit false

namespace FormStaging

/-- The number of labels, which is that of machine words. -/
def Label.count : Nat := UInt64.size

-- with the zero that `Fin.ofNat` asks for
instance : @NeZero Nat Zero.ofOfNat0 Label.count := ⟨Nat.succ_ne_zero (UInt64.size - 1)⟩

/-- The label of a variable. -/
structure Label where
  value : Fin Label.count
deriving DecidableEq, Hashable, Repr

/-- The written form of a label. -/
def Label.text (l : Label) : String := "var" ++ toString l.value.val

/-- Mints labels in ascending order. -/
structure LabelSupply where
  /-- The value of the next label to mint. -/
  next : Fin Label.count := 0
deriving DecidableEq, Repr

namespace LabelSupply

/-- The supply of the labels above `l`, unless this is the last label. -/
def above? (l : Label) : Option LabelSupply :=
  if h : l.value.val + 1 < Label.count then some ⟨⟨l.value.val + 1, h⟩⟩ else none

/-- The next label, and the supply without it. -/
def mint? (a : LabelSupply) : Option (Label × LabelSupply) :=
  (above? ⟨a.next⟩).map fun rest => (⟨a.next⟩, rest)

/-- The supply that never mints `l`, nor any label it already avoided. -/
def reserve? (a : LabelSupply) (l : Label) : Option LabelSupply :=
  (above? l).map fun b => if a.next ≤ b.next then b else a

variable {a b : LabelSupply} {l m : Label}

theorem above?_eq_some_iff : above? l = some b ↔ b.next.val = l.value.val + 1 := by
  rw [above?]
  constructor
  · intro h
    split at h
    · cases h
      rfl
    · cases h
  · intro h
    rw [dif_pos (h ▸ b.next.isLt), Option.some.injEq]
    obtain ⟨next⟩ := b
    exact congrArg LabelSupply.mk (Fin.ext h.symm)

/-- Only the last label has none above it. -/
theorem above?_eq_none_iff : above? l = none ↔ l.value.val + 1 = Label.count := by
  have hlt := l.value.isLt
  rw [above?]
  split <;> simp <;> omega

theorem mint?_eq_some_iff : a.mint? = some (l, b) ↔ l = ⟨a.next⟩ ∧ b.next.val = a.next.val + 1 := by
  rw [mint?, Option.map_eq_some_iff]
  simp only [above?_eq_some_iff, Prod.mk.injEq]
  constructor
  · rintro ⟨_, hb, rfl, rfl⟩
    exact ⟨rfl, hb⟩
  · rintro ⟨rfl, hb⟩
    exact ⟨b, hb, rfl, rfl⟩

theorem mint?_eq_none_iff : a.mint? = none ↔ a.next.val + 1 = Label.count := by
  rw [mint?, Option.map_eq_none_iff, above?_eq_none_iff]

theorem lt_next_of_mint? (h : a.mint? = some (l, b)) : l.value < b.next := by
  obtain ⟨rfl, hb⟩ := mint?_eq_some_iff.1 h
  rw [Fin.lt_def, hb]
  exact Nat.lt_succ_self _

theorem next_le_of_mint? (h : a.mint? = some (l, b)) : a.next ≤ b.next := by
  obtain ⟨rfl, hb⟩ := mint?_eq_some_iff.1 h
  rw [Fin.le_def, hb]
  exact Nat.le_succ _

/-- A reserved label is avoided. -/
theorem lt_next_of_reserve? (h : a.reserve? l = some b) : l.value < b.next := by
  obtain ⟨c, hc, rfl⟩ := Option.map_eq_some_iff.1 h
  rw [above?_eq_some_iff] at hc
  have hlt : l.value < c.next := by
    rw [Fin.lt_def, hc]
    exact Nat.lt_succ_self _
  split
  case isTrue => exact hlt
  case isFalse hle => exact Nat.lt_trans hlt (Nat.lt_of_not_le hle)

/-- What was avoided is still avoided. -/
theorem next_le_of_reserve? (h : a.reserve? l = some b) : a.next ≤ b.next := by
  obtain ⟨c, -, rfl⟩ := Option.map_eq_some_iff.1 h
  split
  case isTrue hle => exact hle
  case isFalse => exact Nat.le_refl _

/-- No more labels are avoided than must be. -/
theorem next_of_reserve? (h : a.reserve? l = some b) :
    b = a ∨ b.next.val = l.value.val + 1 := by
  obtain ⟨c, hc, rfl⟩ := Option.map_eq_some_iff.1 h
  split
  case isTrue => exact Or.inr (above?_eq_some_iff.1 hc)
  case isFalse => exact Or.inl rfl

/-- A label that is avoided already is reserved. -/
theorem reserve?_of_lt (h : l.value < a.next) : a.reserve? l = some a := by
  have hlt : l.value.val + 1 < Label.count := Nat.lt_of_le_of_lt h a.next.isLt
  rw [reserve?, above?, dif_pos hlt, Option.map_some, Option.some.injEq]
  split
  case isTrue hle => exact congrArg LabelSupply.mk (Fin.le_antisymm h hle)
  case isFalse => rfl

/-- Only the last label cannot be reserved. -/
theorem reserve?_eq_none_iff : a.reserve? l = none ↔ l.value.val + 1 = Label.count := by
  rw [reserve?, Option.map_eq_none_iff, above?_eq_none_iff]

/-- To mint a label is to reserve it. -/
theorem mint?_eq_reserve? (a : LabelSupply) :
    a.mint? = (a.reserve? ⟨a.next⟩).map fun rest => (⟨a.next⟩, rest) := by
  rw [mint?, reserve?, Option.map_map]
  cases habove : above? ⟨a.next⟩ with
  | none => rfl
  | some b =>
    have hle : a.next ≤ b.next := by
      rw [Fin.le_def, above?_eq_some_iff.1 habove]
      exact Nat.le_succ _
    simp only [Option.map_some, Function.comp_apply, if_pos hle]

end LabelSupply

end FormStaging

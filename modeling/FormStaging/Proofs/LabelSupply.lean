import FormStaging.Label

/-!
# Reserving many labels

`LabelSupply.reserveAll?` reserves the labels of a list one after the other. Its result starts at
`LabelSupply.nextAbove`, the first value that is neither below the supply nor at or below one of the
labels (`LabelSupply.next_of_reserveAll?`). It has a result unless the last label of all is among them
(`LabelSupply.reserveAll?_eq_none_iff`).
-/

set_option autoImplicit false

namespace FormStaging.LabelSupply

variable {a b : LabelSupply} {l : Label} {labels : List Label}

/-- The supply that never mints a label of the list, nor any label it already avoided. -/
def reserveAll? (a : LabelSupply) : List Label → Option LabelSupply
  | [] => some a
  | l :: labels => (a.reserve? l).bind fun b => b.reserveAll? labels

/-- The first value from `n` on that is above all labels of a list. -/
def firstFrom (n : Nat) (labels : List Label) : Nat :=
  labels.foldl (fun m l => max m (l.value.val + 1)) n

/-- The value that is minted next once the labels of a list are reserved. -/
def nextAbove (a : LabelSupply) (labels : List Label) : Nat := firstFrom a.next labels

/-! ## The first value above -/

theorem le_firstFrom (n : Nat) (labels : List Label) : n ≤ firstFrom n labels := by
  induction labels generalizing n with
  | nil => exact Nat.le_refl _
  | cons l labels ih => exact Nat.le_trans (Nat.le_max_left _ _) (ih _)

theorem lt_firstFrom (n : Nat) (h : l ∈ labels) : l.value.val < firstFrom n labels := by
  induction labels generalizing n with
  | nil => exact absurd h List.not_mem_nil
  | cons m labels ih =>
    rcases List.mem_cons.1 h with rfl | h
    · exact Nat.lt_of_lt_of_le (Nat.le_max_right n _) (le_firstFrom _ labels)
    · exact ih _ h

/-- No more values are passed than must be. -/
theorem firstFrom_eq (n : Nat) (labels : List Label) :
    firstFrom n labels = n ∨ ∃ l ∈ labels, firstFrom n labels = l.value.val + 1 := by
  induction labels generalizing n with
  | nil => exact Or.inl rfl
  | cons l labels ih =>
    rw [firstFrom, List.foldl_cons, ← firstFrom]
    rcases ih (max n (l.value.val + 1)) with h | ⟨m, hm, h⟩
    · rw [h]
      rcases Nat.le_total (l.value.val + 1) n with hle | hle
      · exact Or.inl (Nat.max_eq_left hle)
      · exact Or.inr ⟨l, List.mem_cons_self, Nat.max_eq_right hle⟩
    · exact Or.inr ⟨m, List.mem_cons_of_mem l hm, h⟩

theorem le_nextAbove (a : LabelSupply) (labels : List Label) : a.next.val ≤ a.nextAbove labels :=
  le_firstFrom _ labels

theorem lt_nextAbove (a : LabelSupply) (h : l ∈ labels) : l.value.val < a.nextAbove labels :=
  lt_firstFrom _ h

/-- A value above the supply and above all labels is at or after the first one. -/
theorem nextAbove_le {n : Nat} (ha : a.next.val ≤ n) (h : ∀ l ∈ labels, l.value.val < n) :
    a.nextAbove labels ≤ n := by
  rcases firstFrom_eq a.next labels with heq | ⟨l, hl, heq⟩
  · rwa [nextAbove, heq]
  · rw [nextAbove, heq]
    exact h l hl

/-! ## Reserved lists -/

theorem val_next_of_reserve? (h : a.reserve? l = some b) :
    b.next.val = max a.next.val (l.value.val + 1) := by
  have hle : a.next.val ≤ b.next.val := next_le_of_reserve? h
  have hlt : l.value.val < b.next.val := lt_next_of_reserve? h
  rcases next_of_reserve? h with rfl | hnext
  · exact (Nat.max_eq_left hlt).symm
  · rw [hnext] at hle ⊢
    exact (Nat.max_eq_right hle).symm

/-- The supply above a list starts right above it. -/
theorem next_of_reserveAll? (h : a.reserveAll? labels = some b) :
    b.next.val = a.nextAbove labels := by
  induction labels generalizing a with
  | nil =>
    cases h
    rfl
  | cons l labels ih =>
    obtain ⟨c, hc, h⟩ := Option.bind_eq_some_iff.1 h
    rw [ih h, nextAbove, nextAbove, val_next_of_reserve? hc]
    rfl

theorem next_le_of_reserveAll? (h : a.reserveAll? labels = some b) : a.next ≤ b.next := by
  rw [Fin.le_def, next_of_reserveAll? h]
  exact le_nextAbove a labels

theorem lt_next_of_reserveAll? (h : a.reserveAll? labels = some b) (hl : l ∈ labels) :
    l.value < b.next := by
  rw [Fin.lt_def, next_of_reserveAll? h]
  exact lt_nextAbove a hl

/-- Labels that are avoided already are reserved. -/
theorem reserveAll?_of_lt (h : ∀ l ∈ labels, l.value < a.next) : a.reserveAll? labels = some a := by
  induction labels with
  | nil => rfl
  | cons l labels ih =>
    rw [reserveAll?, reserve?_of_lt (h l List.mem_cons_self), Option.bind_some]
    exact ih fun m hm => h m (List.mem_cons_of_mem l hm)

theorem nextAbove_of_lt (h : ∀ l ∈ labels, l.value < a.next) :
    a.nextAbove labels = a.next := by
  rw [← next_of_reserveAll? (reserveAll?_of_lt h)]

/-- Only the last label of all cannot be reserved. -/
theorem reserveAll?_eq_none_iff :
    a.reserveAll? labels = none ↔ ∃ l ∈ labels, l.value.val + 1 = Label.count := by
  induction labels generalizing a with
  | nil => simp [reserveAll?]
  | cons l labels ih =>
    simp only [List.mem_cons, exists_eq_or_imp, reserveAll?]
    cases h : a.reserve? l with
    | none => exact iff_of_true rfl (Or.inl (reserve?_eq_none_iff.1 h))
    | some b =>
      have hl : ¬ l.value.val + 1 = Label.count := by
        rw [← reserve?_eq_none_iff (a := a), h]
        exact nofun
      rw [Option.bind_some, ih, or_iff_right hl]

end FormStaging.LabelSupply

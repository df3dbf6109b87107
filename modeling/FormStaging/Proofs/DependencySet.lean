import FormStaging.DependencySet

/-!
# The flags of dependency sets

A dependency set of a given rank is known by its flags (`ext_of_has`). Sets of one rank are combined flag
by flag (`has_combine`). So their union has a flag if one of the sets has it, and one set covers another
if it has all its flags (`covers_iff`).
-/

set_option autoImplicit false

namespace FormStaging.DependencySet

variable {s t u : DependencySet} {sets : List DependencySet}

/-- The flags of a dependency set. -/
inductive Flag where
  | runtime
  | coordinates
  | basis (slot : Nat)
deriving DecidableEq, Repr

/-- Whether a flag is set. -/
def has (s : DependencySet) : Flag → Bool
  | .runtime => s.runtime
  | .coordinates => s.coordinates
  | .basis slot => s.dependsOn slot

theorem dependsOn_of_lt {slot : Nat} (h : slot < s.basis.length) : s.dependsOn slot = s.basis[slot] := by
  rw [dependsOn, List.getD_eq_getElem?_getD, List.getElem?_eq_getElem h, Option.getD_some]

/-- Sets of one rank with the same flags are equal. -/
theorem ext_of_has (hrank : s.rank = t.rank) (h : ∀ f, s.has f = t.has f) : s = t := by
  obtain ⟨sr, sc, sb⟩ := s
  obtain ⟨tr, tc, tb⟩ := t
  have hr : sr = tr := h .runtime
  have hc : sc = tc := h .coordinates
  have hb : sb = tb := by
    refine List.ext_getElem hrank fun slot hs ht => ?_
    have hslot := h (.basis slot)
    rw [has, has, dependsOn_of_lt hs, dependsOn_of_lt ht] at hslot
    exact hslot
  rw [hr, hc, hb]

@[simp] theorem has_empty (n : Nat) (f : Flag) : (empty n).has f = false := by
  cases f with
  | runtime => rfl
  | coordinates => rfl
  | basis slot =>
    rw [has, dependsOn, empty, List.getD_eq_getElem?_getD, List.getElem?_replicate]
    split <;> rfl

theorem has_withRuntime (s : DependencySet) (f : Flag) :
    s.withRuntime.has f = (f = .runtime || s.has f) := by
  cases f <;> simp [has, withRuntime, dependsOn]

/-! ## Combinations -/

section Combinations

variable {operation : SetOperation} {f : Bool → Bool → Bool}

theorem combine_eq_ok_iff : combine operation f s t = .ok u ↔ s.rank = t.rank ∧
    u = ⟨f s.runtime t.runtime, f s.coordinates t.coordinates, List.zipWith f s.basis t.basis⟩ := by
  rw [combine]
  split
  case isTrue h => simp [h, eq_comm]
  case isFalse h => simp [h]

/-- Sets of different ranks have no combination. -/
theorem combine_eq_error (h : s.rank ≠ t.rank) :
    combine operation f s t = .error (.rankMismatch operation) := if_neg h

/-- The flags of a combination are combined, if no flag comes from two that are not set. -/
theorem has_combine (hf : f false false = false) (h : combine operation f s t = .ok u) (x : Flag) :
    u.has x = f (s.has x) (t.has x) := by
  obtain ⟨hrank, rfl⟩ := combine_eq_ok_iff.1 h
  cases x with
  | runtime => rfl
  | coordinates => rfl
  | basis slot =>
    simp only [has, dependsOn, List.getD_eq_getElem?_getD, List.getElem?_zipWith]
    rw [rank, rank] at hrank
    -- past the rank neither set has the flag
    by_cases hs : slot < s.basis.length
    · have ht : slot < t.basis.length := hrank ▸ hs
      rw [List.getElem?_eq_getElem hs, List.getElem?_eq_getElem ht]
      rfl
    · have ht : ¬ slot < t.basis.length := hrank ▸ hs
      rw [List.getElem?_eq_none (Nat.le_of_not_lt hs), List.getElem?_eq_none (Nat.le_of_not_lt ht)]
      exact hf.symm

end Combinations

/-! ## Unions -/

theorem exists_union (h : s.rank = t.rank) : ∃ u, s.union t = .ok u :=
  ⟨_, combine_eq_ok_iff.2 ⟨h, rfl⟩⟩

theorem rank_eq_of_union (h : s.union t = .ok u) : s.rank = t.rank := (combine_eq_ok_iff.1 h).1

/-- A union has the flags of both sets. -/
theorem has_union (h : s.union t = .ok u) (f : Flag) : u.has f = (s.has f || t.has f) :=
  has_combine rfl h f

theorem unionAll_cons_eq_ok : s.unionAll (t :: sets) = .ok u ↔
    ∃ v, s.union t = .ok v ∧ v.unionAll sets = .ok u := by
  rw [unionAll, List.foldlM_cons]
  cases hu : s.union t with
  | error e => simp [bind, Except.bind]
  | ok v => simp [bind, Except.bind, unionAll]

/-- Sets of one rank have a union. -/
theorem exists_unionAll (h : ∀ t ∈ sets, t.rank = s.rank) : ∃ u, s.unionAll sets = .ok u := by
  induction sets generalizing s with
  | nil => exact ⟨s, rfl⟩
  | cons t sets ih =>
    obtain ⟨v, hv⟩ := exists_union (h t List.mem_cons_self).symm
    have hrank : v.rank = s.rank := rank_of_combine_eq_ok hv
    obtain ⟨u, hu⟩ := ih fun w hw => (h w (List.mem_cons_of_mem _ hw)).trans hrank.symm
    exact ⟨u, unionAll_cons_eq_ok.2 ⟨v, hv, hu⟩⟩

theorem rank_unionAll (h : s.unionAll sets = .ok u) : u.rank = s.rank := by
  induction sets generalizing s with
  | nil =>
    cases h
    rfl
  | cons t sets ih =>
    obtain ⟨v, hv, hu⟩ := unionAll_cons_eq_ok.1 h
    exact (ih hu).trans (rank_of_combine_eq_ok hv)

/-- A union has a flag if one of the sets has it. -/
theorem has_unionAll (h : s.unionAll sets = .ok u) (f : Flag) :
    u.has f = (s.has f || sets.any fun t => t.has f) := by
  induction sets generalizing s with
  | nil =>
    cases h
    simp
  | cons t sets ih =>
    obtain ⟨v, hv, hu⟩ := unionAll_cons_eq_ok.1 h
    rw [ih hu, has_union hv, List.any_cons, Bool.or_assoc]

/-! ## Covering -/

/-- One set covers another if it has all its flags. -/
theorem covers_iff : s.covers t = .ok true ↔
    s.rank = t.rank ∧ ∀ f, t.has f = true → s.has f = true := by
  constructor
  · intro h
    rw [covers] at h
    cases hu : s.union t with
    | error e =>
      rw [hu] at h
      cases h
    | ok u =>
      rw [hu] at h
      -- the union is the covering set
      have hus : u = s := eq_of_beq (Except.ok.inj h)
      refine ⟨rank_eq_of_union hu, fun f hf => ?_⟩
      rw [← hus, has_union hu, hf, Bool.or_true]
  · rintro ⟨hrank, hflags⟩
    obtain ⟨u, hu⟩ := exists_union hrank
    have hus : u = s := by
      refine ext_of_has (rank_of_combine_eq_ok hu) fun f => ?_
      rw [has_union hu]
      cases ht : t.has f with
      | false => exact Bool.or_false _
      | true => rw [hflags f ht, Bool.or_true]
    rw [covers, hu, hus]
    simp [Except.map]

end FormStaging.DependencySet

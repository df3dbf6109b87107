import FormStaging.Proofs.Staging.Evolution

/-!
# Code structures that are only added to

`CodeStructure.Extends code code'` says that `code'` comes from `code` by additions: what is registered
stays so, every stack keeps its place and its dependency set, and the labels that it has stay in front
and in order. A registration extends a code structure, and so does every action of a run
(`Steps.extends`).
-/

set_option autoImplicit false

namespace FormStaging

/-- The variables of the first code structure are in the second one, where they stand in the same
places, with all others after them. -/
structure CodeStructure.Extends (code code' : CodeStructure) : Prop where
  registered : ∀ l info, code.get? l = some info → code'.get? l = some info
  «stacks» : ∀ (k : Nat) (s : Stack), code.stacks[k]? = some s →
    ∃ s', code'.stacks[k]? = some s' ∧ s'.deps = s.deps ∧ s.labels <+: s'.labels

/-- A label is placed behind those that are there. -/
theorem Stack.exists_place {deps : DependencySet} {label : Label} {ss : List Stack} {k : Nat}
    {s : Stack} (h : ss[k]? = some s) :
    ∃ s', (Stack.place deps label ss)[k]? = some s' ∧ s'.deps = s.deps ∧ s.labels <+: s'.labels := by
  induction ss generalizing k with
  | nil => simp at h
  | cons t ss ih =>
    rw [Stack.place]
    split
    case isTrue hdeps =>
      cases k with
      | zero =>
        cases h
        exact ⟨⟨s.deps, s.labels ++ [label]⟩, rfl, rfl, List.prefix_append _ _⟩
      | succ k => exact ⟨s, h, rfl, List.prefix_refl _⟩
    case isFalse =>
      cases k with
      | zero =>
        cases h
        exact ⟨s, rfl, rfl, List.prefix_refl _⟩
      | succ k => exact ih h

namespace CodeStructure.Extends

variable {code code' code'' : CodeStructure}

theorem refl (code : CodeStructure) : code.Extends code :=
  ⟨fun _ _ h => h, fun _ s hs => ⟨s, hs, rfl, List.prefix_refl _⟩⟩

theorem trans (h : code.Extends code') (h' : code'.Extends code'') : code.Extends code'' := by
  refine ⟨fun l info hl => h'.registered l info (h.registered l info hl), fun k s hs => ?_⟩
  obtain ⟨s', hs', hdeps, hlabels⟩ := h.stacks k s hs
  obtain ⟨s'', hs'', hdeps', hlabels'⟩ := h'.stacks k s' hs'
  exact ⟨s'', hs'', hdeps'.trans hdeps, hlabels.trans hlabels'⟩

/-- A variable with a new label is added. -/
theorem insert {info : RegisteredVariable} (hnew : code.get? info.label = none) :
    code.Extends (code.insert info) := by
  refine ⟨fun l known hl => ?_, fun k s hs => Stack.exists_place hs⟩
  rw [get?_insert, if_neg, hl]
  rintro rfl
  rw [hnew] at hl
  cases hl

end CodeStructure.Extends

/-- A run only adds to the registered variables. -/
theorem Staging.Steps.extends {s s' : Staging.State} (h : Staging.Steps s s') :
    s.code.Extends s'.code := by
  refine Staging.Steps.keep (P := fun t => s.code.Extends t.code) h (fun t t' hstep ht => ?_)
    (.refl _)
  cases hstep with
  | register hnew => exact ht.trans (.insert hnew)
  | _ => exact ht

end FormStaging

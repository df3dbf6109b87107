import FormStaging.FirstOccurrence
import FormStaging.Proofs.Repeats
import Mathlib.Data.Set.Function

/-!
# Lists of first occurrences

`firstPer_concat` says what `firstPer` does with one more element: it is kept exactly if it has a key
that no element before it has. All else follows by induction from the end of the list. The kept
elements keep their order, their keys are the keys of the list, each once, and an element is kept
exactly if it is the first one with its key (`mem_firstPer_iff`).
-/

set_option autoImplicit false

namespace FormStaging

variable {α κ : Type} {key : α → Option κ} {l l' : List α} {a b : α} {k : κ}

/-- Whether an element of the list has the key. -/
def HasKey (key : α → Option κ) (l : List α) (k : κ) : Prop := ∃ a ∈ l, key a = some k

theorem hasKey_cons : HasKey key (a :: l) k ↔ key a = some k ∨ HasKey key l k := by
  simp [HasKey]

theorem hasKey_concat : HasKey key (l ++ [a]) k ↔ HasKey key l k ∨ key a = some k := by
  simp [HasKey, or_and_right, exists_or]

variable [DecidableEq κ] [Hashable κ]

theorem firstPer_go_concat_of_none (met : Std.HashSet κ) (kept : Array α) (ha : key a = none) :
    firstPer.go key met kept (l ++ [a]) = firstPer.go key met kept l := by
  -- for all keys met so far, since the recursion adds to them
  induction l generalizing met kept with
  | nil => simp [firstPer.go, ha]
  | cons b l ih =>
    rw [List.cons_append, firstPer.go, firstPer.go]
    cases key b with
    | none => exact ih met kept
    | some k =>
      simp only [ih]

theorem firstPer_go_concat_of_met (met : Std.HashSet κ) (kept : Array α) (ha : key a = some k)
    (hk : k ∈ met ∨ HasKey key l k) :
    firstPer.go key met kept (l ++ [a]) = firstPer.go key met kept l := by
  induction l generalizing met kept with
  | nil =>
    have hmet : met.contains k = true := by
      rcases hk with hk | ⟨b, hb, -⟩
      · exact hk
      · exact absurd hb List.not_mem_nil
    simp [firstPer.go, ha, hmet]
  | cons b l ih =>
    rw [List.cons_append, firstPer.go, firstPer.go]
    rw [hasKey_cons] at hk
    cases hb : key b with
    | none =>
      refine ih met kept (hk.imp_right fun h => ?_)
      exact h.resolve_left (by rw [hb]; simp)
    | some m =>
      simp only
      split
      case isTrue hm =>
        -- nothing is added: if `b` has the key of `a`, this key was met before `b`
        refine ih met kept ?_
        rcases hk with hk | hk | hk
        · exact Or.inl hk
        · rw [hb, Option.some.injEq] at hk
          exact Or.inl (hk ▸ hm)
        · exact Or.inr hk
      case isFalse hm =>
        -- the key of `b` is met from now on
        refine ih _ _ ?_
        rw [Std.HashSet.mem_insert]
        rcases hk with hk | hk | hk
        · exact Or.inl (Or.inr hk)
        · rw [hb, Option.some.injEq] at hk
          exact Or.inl (Or.inl (by simp [hk]))
        · exact Or.inr hk

theorem firstPer_go_concat_of_new (met : Std.HashSet κ) (kept : Array α) (ha : key a = some k)
    (hmet : k ∉ met) (hk : ¬ HasKey key l k) :
    firstPer.go key met kept (l ++ [a]) = firstPer.go key met kept l ++ [a] := by
  induction l generalizing met kept with
  | nil =>
    have hc : met.contains k = false := by simpa using hmet
    simp [firstPer.go, ha, hc]
  | cons b l ih =>
    rw [hasKey_cons, not_or] at hk
    rw [List.cons_append, firstPer.go, firstPer.go]
    cases hb : key b with
    | none => exact ih met kept hmet hk.2
    | some m =>
      simp only
      split
      case isTrue => exact ih met kept hmet hk.2
      case isFalse =>
        refine ih _ _ ?_ hk.2
        rw [Std.HashSet.mem_insert, not_or]
        refine ⟨fun h => hk.1 ?_, hmet⟩
        rw [hb, beq_iff_eq.1 h]

@[simp] theorem firstPer_nil (key : α → Option κ) : firstPer key [] = [] := rfl

/-- An element without a key is left out. -/
theorem firstPer_concat_of_none (ha : key a = none) : firstPer key (l ++ [a]) = firstPer key l :=
  firstPer_go_concat_of_none ∅ #[] ha

/-- An element with a key met before is left out. -/
theorem firstPer_concat_of_hasKey (ha : key a = some k) (hk : HasKey key l k) :
    firstPer key (l ++ [a]) = firstPer key l :=
  firstPer_go_concat_of_met ∅ #[] ha (Or.inr hk)

/-- An element with a new key is kept. -/
theorem firstPer_concat_of_not_hasKey (ha : key a = some k) (hk : ¬ HasKey key l k) :
    firstPer key (l ++ [a]) = firstPer key l ++ [a] :=
  firstPer_go_concat_of_new ∅ #[] ha (by simp) hk

/-- What happens to one more element. -/
theorem firstPer_concat (key : α → Option κ) (l : List α) (a : α) :
    firstPer key (l ++ [a]) = firstPer key l ∧ (∀ k, key a = some k → HasKey key l k) ∨
      firstPer key (l ++ [a]) = firstPer key l ++ [a] ∧ ∃ k, key a = some k ∧ ¬ HasKey key l k := by
  cases ha : key a with
  | none =>
    refine Or.inl ⟨firstPer_concat_of_none ha, fun k hk => ?_⟩
    simp at hk
  | some k =>
    by_cases hk : HasKey key l k
    · refine Or.inl ⟨firstPer_concat_of_hasKey ha hk, fun m hm => ?_⟩
      rwa [← Option.some.inj hm]
    · exact Or.inr ⟨firstPer_concat_of_not_hasKey ha hk, k, rfl, hk⟩

/-- Only the keys of the listed elements count. -/
theorem firstPer_congr {key' : α → Option κ} (h : ∀ a ∈ l, key a = key' a) :
    firstPer key l = firstPer key' l := by
  induction l using List.reverseRecOn with
  | nil => rfl
  | append_singleton l a ih =>
    have hl := ih fun b hb => h b (List.mem_append_left _ hb)
    have ha : key a = key' a := h a (by simp)
    have hkeys : ∀ k, HasKey key l k ↔ HasKey key' l k := by
      intro k
      refine exists_congr fun b => and_congr_right fun hb => ?_
      rw [h b (List.mem_append_left _ hb)]
    rcases firstPer_concat key l a with ⟨he, hmet⟩ | ⟨he, k, hk, hnew⟩
    · rw [he, hl]
      cases hk : key' a with
      | none => exact (firstPer_concat_of_none hk).symm
      | some k =>
        exact (firstPer_concat_of_hasKey hk ((hkeys k).1 (hmet k (ha.trans hk)))).symm
    · rw [he, hl]
      rw [hkeys] at hnew
      exact (firstPer_concat_of_not_hasKey (ha ▸ hk) hnew).symm

/-! ## Order, keys and first elements -/

/-- The kept elements keep their order. -/
theorem firstPer_sublist (key : α → Option κ) (l : List α) : (firstPer key l).Sublist l := by
  induction l using List.reverseRecOn with
  | nil => exact List.Sublist.slnil
  | append_singleton l a ih =>
    rcases firstPer_concat key l a with ⟨h, -⟩ | ⟨h, -⟩
    · rw [h]
      exact ih.trans (List.sublist_append_left l [a])
    · rw [h]
      exact ih.append (List.Sublist.refl [a])

/-- More elements at the end come after what was kept. -/
theorem firstPer_prefix (key : α → Option κ) (l l' : List α) :
    firstPer key l <+: firstPer key (l ++ l') := by
  induction l' using List.reverseRecOn with
  | nil => simp
  | append_singleton l' a ih =>
    rw [← List.append_assoc]
    rcases firstPer_concat key (l ++ l') a with ⟨h, -⟩ | ⟨h, -⟩
    · rw [h]
      exact ih
    · rw [h]
      exact ih.trans (List.prefix_append _ _)

/-- No key is lost. -/
theorem hasKey_firstPer : HasKey key (firstPer key l) k ↔ HasKey key l k := by
  induction l using List.reverseRecOn with
  | nil => rfl
  | append_singleton l a ih =>
    rcases firstPer_concat key l a with ⟨h, hmet⟩ | ⟨h, -⟩
    · rw [h, ih, hasKey_concat]
      exact ⟨Or.inl, fun hk => hk.elim id (hmet k)⟩
    · rw [h, hasKey_concat, hasKey_concat, ih]

/-- Every kept element has a key. -/
theorem isSome_key_of_mem_firstPer (h : a ∈ firstPer key l) : ∃ k, key a = some k := by
  induction l using List.reverseRecOn with
  | nil => simp at h
  | append_singleton l b ih =>
    rcases firstPer_concat key l b with ⟨he, -⟩ | ⟨he, k, hk, -⟩
    · exact ih (he ▸ h)
    · rw [he, List.mem_append, List.mem_singleton] at h
      rcases h with h | rfl
      · exact ih h
      · exact ⟨k, hk⟩

/-- No key is met twice. -/
theorem nodup_keys_firstPer (key : α → Option κ) (l : List α) :
    ((firstPer key l).filterMap key).Nodup := by
  induction l using List.reverseRecOn with
  | nil => exact List.nodup_nil
  | append_singleton l a ih =>
    rcases firstPer_concat key l a with ⟨h, -⟩ | ⟨h, k, hk, hnew⟩
    · rwa [h]
    · rw [h, List.filterMap_append, List.filterMap_cons_some hk]
      refine List.nodup_append.2 ⟨ih, by simp, ?_⟩
      intro m hm m' hm' he
      simp only [List.filterMap_nil, List.mem_singleton] at hm'
      rw [he, hm', List.mem_filterMap] at hm
      exact hnew (hasKey_firstPer.1 hm)

/-- The kept elements are the first ones with their keys. -/
theorem mem_firstPer_iff (hk : key a = some k) :
    a ∈ firstPer key l ↔ l.find? (fun b => key b = some k) = some a := by
  induction l using List.reverseRecOn with
  | nil => simp
  | append_singleton l b ih =>
    rw [List.find?_append]
    rcases firstPer_concat key l b with ⟨h, hmet⟩ | ⟨h, m, hm, hnew⟩
    · -- `b` is left out, and it is not the first one with its key
      rw [h, ih]
      cases hf : l.find? (fun b => key b = some k) with
      | some c => simp
      | none =>
        have hkb : key b ≠ some k := by
          intro hkb
          obtain ⟨c, hc, hkc⟩ := hmet k hkb
          exact absurd (by simpa using hkc) (List.find?_eq_none.1 hf c hc)
        simp [hkb]
    · -- `b` is kept, and it is the first one with the key `m`
      rw [h, List.mem_append, ih, List.mem_singleton]
      cases hf : l.find? (fun b => key b = some k) with
      | some c =>
        have hne : key b ≠ some k := by
          intro hkb
          rw [hm, Option.some.injEq] at hkb
          refine hnew ⟨c, List.mem_of_find?_eq_some hf, ?_⟩
          simpa [hkb] using List.find?_some hf
        have hab : a ≠ b := fun he => hne (he ▸ hk)
        simp [hab]
      | none =>
        simp only [reduceCtorEq, false_or, Option.none_or, List.find?_cons]
        constructor
        · rintro rfl
          simp [hk]
        · intro hfb
          split at hfb
          · exact (Option.some.inj hfb).symm
          · simp at hfb

/-! ## Elements as their own keys -/

/-- The first occurrences of the elements of a list. -/
theorem firstPer_some_eq_eraseDups (l : List κ) : firstPer some l = l.eraseDups := by
  induction l using List.reverseRecOn with
  | nil => rfl
  | append_singleton l a ih =>
    by_cases ha : a ∈ l
    · rw [firstPer_concat_of_hasKey rfl ⟨a, ha, rfl⟩, eraseDups_append_of_subset (by simpa using ha), ih]
    · rw [firstPer_concat_of_not_hasKey rfl, eraseDups_concat_of_not_mem ha, ih]
      rintro ⟨b, hb, he⟩
      exact ha (Option.some.inj he ▸ hb)

/-- Of a list, what is not in the distinct list before it is added, once each. -/
theorem firstPer_some_append {l l' : List κ} (hl : l.Nodup) (hl' : l'.Nodup) :
    firstPer some (l ++ l') = l ++ l'.filter (· ∉ l) := by
  rw [firstPer_some_eq_eraseDups, eraseDups_append_eq, eraseDups_of_nodup hl, eraseDups_of_nodup hl']

/-! ## Images -/

section Images

variable {β κ' : Type} [DecidableEq κ'] [Hashable κ']

/-- The first of the images are the images of the first. An element has the key of its image. -/
theorem firstPer_filterMap {key : β → Option κ} {key' : α → Option κ} {f : α → Option β}
    (hkey : ∀ a, key' a = (f a).bind key) (l : List α) :
    firstPer key (l.filterMap f) = (firstPer key' l).filterMap f := by
  induction l using List.reverseRecOn with
  | nil => rfl
  | append_singleton l a ih =>
    have hkeys : ∀ k, HasKey key (l.filterMap f) k ↔ HasKey key' l k := by
      intro k
      simp only [HasKey, List.mem_filterMap, hkey, Option.bind_eq_some_iff]
      grind
    rw [List.filterMap_append]
    cases hf : f a with
    | none =>
      have hnone : key' a = none := by rw [hkey, hf, Option.bind_none]
      rw [List.filterMap_cons_none hf, List.filterMap_nil, List.append_nil,
        firstPer_concat_of_none hnone, ih]
    | some b =>
      have hsome : key' a = key b := by rw [hkey, hf, Option.bind_some]
      rw [List.filterMap_cons_some hf, List.filterMap_nil]
      rcases firstPer_concat key (l.filterMap f) b with ⟨he, hmet⟩ | ⟨he, k, hk, hnew⟩
      · rw [he, ih]
        cases hk : key b with
        | none => rw [firstPer_concat_of_none (hsome.trans hk)]
        | some k => rw [firstPer_concat_of_hasKey (hsome.trans hk) ((hkeys k).1 (hmet k hk))]
      · rw [he, ih, firstPer_concat_of_not_hasKey (hsome.trans hk) (fun h => hnew ((hkeys k).2 h)),
          List.filterMap_append, List.filterMap_cons_some hf, List.filterMap_nil]

/-- The first of the images under a map that is total. -/
theorem firstPer_map (key : β → Option κ) {key' : α → Option κ} {f : α → β}
    (hkey : ∀ a, key' a = key (f a)) (l : List α) :
    firstPer key (l.map f) = (firstPer key' l).map f := by
  simpa using firstPer_filterMap (f := fun a => some (f a)) hkey l

/-- Keys may be renamed, if different keys stay different. -/
theorem firstPer_of_key_map {key' : α → Option κ'} {f : κ → κ'}
    (hkey : ∀ a ∈ l, key' a = (key a).map f) (hf : Set.InjOn f {k | HasKey key l k}) :
    firstPer key' l = firstPer key l := by
  induction l using List.reverseRecOn with
  | nil => rfl
  | append_singleton l a ih =>
    have hold : ∀ b ∈ l, key' b = (key b).map f := fun b hb => hkey b (List.mem_append_left _ hb)
    have hl := ih hold (hf.mono fun k hk => hasKey_concat.2 (Or.inl hk))
    have ha : key' a = (key a).map f := hkey a (by simp)
    cases hk : key a with
    | none =>
      rw [hk, Option.map_none] at ha
      rw [firstPer_concat_of_none hk, firstPer_concat_of_none ha, hl]
    | some k =>
      rw [hk, Option.map_some] at ha
      have hmet : HasKey key' l (f k) ↔ HasKey key l k := by
        constructor
        · rintro ⟨b, hb, hkb⟩
          rw [hold b hb, Option.map_eq_some_iff] at hkb
          obtain ⟨m, hm, he⟩ := hkb
          have hbm : HasKey key l m := ⟨b, hb, hm⟩
          exact hf (hasKey_concat.2 (Or.inl hbm)) (hasKey_concat.2 (Or.inr hk)) he ▸ hbm
        · rintro ⟨b, hb, hkb⟩
          exact ⟨b, hb, by rw [hold b hb, hkb, Option.map_some]⟩
      by_cases hold : HasKey key l k
      · rw [firstPer_concat_of_hasKey hk hold, firstPer_concat_of_hasKey ha (hmet.2 hold), hl]
      · rw [firstPer_concat_of_not_hasKey hk hold,
          firstPer_concat_of_not_hasKey ha (fun h => hold (hmet.1 h)), hl]

/-- The first occurrences of images, if different elements have different ones. -/
theorem firstPer_some_map {l : List κ} {f : κ → κ'} (hf : Set.InjOn f {k | k ∈ l}) :
    firstPer some (l.map f) = (firstPer some l).map f := by
  have hkeys : Set.InjOn f {k | HasKey some l k} := by
    simpa [HasKey] using hf
  rw [firstPer_map some (fun _ => rfl)]
  exact congrArg (List.map f) (firstPer_of_key_map (fun _ _ => rfl) hkeys)

end Images

end FormStaging

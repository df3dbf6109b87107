import Mathlib.Data.List.Induction
import Mathlib.Data.List.Nodup

/-!
# Lists without repeats

`List.eraseDups` keeps the first occurrence of every entry. One more entry at the end is kept exactly if
it is new (`eraseDups_append_of_subset`, `eraseDups_concat_of_not_mem`), and the rest follows by induction
from the end. What is kept stands in the order of the first places of the entries
(`pairwise_findIdx_eraseDups`). A list is put in front of another one once and for all: a second time
this changes nothing (`eraseDups_append_again`).
-/

set_option autoImplicit false

namespace FormStaging

variable {α : Type}

section Entries

variable [BEq α] [LawfulBEq α] {l l' : List α} {a : α}

/-- Entries that are in the list already are repeats. -/
theorem eraseDups_append_of_subset (h : l' ⊆ l) : (l ++ l').eraseDups = l.eraseDups := by
  have hnone : l'.removeAll l = [] := by
    refine List.filter_eq_nil_iff.2 fun b hb => ?_
    simpa using h hb
  rw [List.eraseDups_append, hnone, List.eraseDups_nil, List.append_nil]

/-- An entry that is not in the list is no repeat. -/
theorem eraseDups_concat_of_not_mem (h : a ∉ l) : (l ++ [a]).eraseDups = l.eraseDups ++ [a] := by
  rw [List.eraseDups_append]
  simp [List.removeAll, h, List.eraseDups_cons]

end Entries

section Lists

variable [DecidableEq α] {l l' l'' : List α}

theorem nodup_eraseDups (l : List α) : l.eraseDups.Nodup := by
  induction l using List.reverseRecOn with
  | nil => exact List.nodup_nil
  | append_singleton l a ih =>
    by_cases ha : a ∈ l
    · rwa [eraseDups_append_of_subset (by simpa using ha)]
    · rw [eraseDups_concat_of_not_mem ha, ← List.concat_eq_append]
      exact ih.concat fun h => ha (List.mem_eraseDups.1 h)

theorem eraseDups_of_nodup (h : l.Nodup) : l.eraseDups = l := by
  induction l using List.reverseRecOn with
  | nil => rfl
  | append_singleton l a ih =>
    obtain ⟨hl, -, hdisjoint⟩ := List.nodup_append.1 h
    have ha : a ∉ l := fun ha => hdisjoint a ha a (by simp) rfl
    rw [eraseDups_concat_of_not_mem ha, ih hl]

theorem eraseDups_filter (p : α → Bool) (l : List α) :
    (l.filter p).eraseDups = l.eraseDups.filter p := by
  induction l using List.reverseRecOn with
  | nil => rfl
  | append_singleton l a ih =>
    by_cases ha : a ∈ l
    · have hsub : [a] ⊆ l := by simpa using ha
      rw [List.filter_append, eraseDups_append_of_subset hsub,
        eraseDups_append_of_subset (List.filter_subset p hsub), ih]
    · have hnew : a ∉ l.filter p := fun h => ha (List.mem_of_mem_filter h)
      rw [List.filter_append, eraseDups_concat_of_not_mem ha, List.filter_append, ← ih]
      cases hp : p a with
      | false => simp [hp]
      | true => simpa [hp] using eraseDups_concat_of_not_mem hnew

/-- A list adds to the one in front of it what is not in that one. -/
theorem eraseDups_append_eq (l l' : List α) :
    (l ++ l').eraseDups = l.eraseDups ++ l'.eraseDups.filter (· ∉ l) := by
  rw [List.eraseDups_append, List.removeAll, eraseDups_filter]
  simp

/-- The repeats within two lists do not count when they are put together. -/
theorem eraseDups_append_eraseDups (l l' : List α) :
    (l.eraseDups ++ l'.eraseDups).eraseDups = (l ++ l').eraseDups := by
  rw [eraseDups_append_eq, eraseDups_append_eq, eraseDups_of_nodup (nodup_eraseDups l),
    eraseDups_of_nodup (nodup_eraseDups l')]
  simp only [List.mem_eraseDups]

/-- A list that is in front already is not put there again. -/
theorem eraseDups_append_again (h : l''.eraseDups = (l ++ l').eraseDups) :
    (l ++ l'').eraseDups = (l ++ l').eraseDups := by
  calc (l ++ l'').eraseDups = (l ++ (l ++ l')).eraseDups := by
        rw [eraseDups_append_eq, h, ← eraseDups_append_eq]
    _ = ((l ++ l) ++ l').eraseDups := by rw [List.append_assoc]
    _ = (l ++ l').eraseDups := by
        rw [← eraseDups_append_eraseDups, eraseDups_append_of_subset (List.Subset.refl l),
          eraseDups_append_eraseDups]

end Lists

/-! ## Values of the entries -/

section Values

variable {β : Type} [DecidableEq β] {l : List α} {f : α → Option β} {b : β}

/-- A repeated entry gives a repeated value. -/
theorem eraseDups_filterMap_eraseDups [DecidableEq α] (f : α → Option β) (l : List α) :
    (l.eraseDups.filterMap f).eraseDups = (l.filterMap f).eraseDups := by
  induction l using List.reverseRecOn with
  | nil => rfl
  | append_singleton l a ih =>
    by_cases ha : a ∈ l
    · have hsub : [a] ⊆ l := by simpa using ha
      rw [List.filterMap_append, eraseDups_append_of_subset hsub,
        eraseDups_append_of_subset (List.filterMap_subset f hsub), ih]
    · rw [List.filterMap_append, eraseDups_concat_of_not_mem ha, List.filterMap_append,
        ← eraseDups_append_eraseDups, ih, eraseDups_append_eraseDups]

/-- What comes after the first place of a value does not change it. -/
theorem findIdx_append_of_mem (h : b ∈ l.filterMap f) (l' : List α) :
    (l ++ l').findIdx (f · = some b) = l.findIdx (f · = some b) ∧
      l.findIdx (f · = some b) < l.length := by
  have hlt : l.findIdx (f · = some b) < l.length := by
    obtain ⟨a, ha, hfa⟩ := List.mem_filterMap.1 h
    exact List.findIdx_lt_length.2 ⟨a, ha, decide_eq_true hfa⟩
  exact ⟨by rw [List.findIdx_append, if_pos hlt], hlt⟩

/-- The kept values stand in the order of their first places. -/
theorem pairwise_findIdx_eraseDups (f : α → Option β) (l : List α) :
    (l.filterMap f).eraseDups.Pairwise fun b c =>
      l.findIdx (f · = some b) < l.findIdx (f · = some c) := by
  induction l using List.reverseRecOn with
  | nil => exact List.Pairwise.nil
  | append_singleton l a ih =>
    -- the values that were kept before have kept their places
    have hold : (l.filterMap f).eraseDups.Pairwise fun b c =>
        (l ++ [a]).findIdx (f · = some b) < (l ++ [a]).findIdx (f · = some c) := by
      refine ih.imp_of_mem fun {b c} hb hc hlt => ?_
      rwa [(findIdx_append_of_mem (List.mem_eraseDups.1 hb) [a]).1,
        (findIdx_append_of_mem (List.mem_eraseDups.1 hc) [a]).1]
    rw [List.filterMap_append]
    cases hfa : f a with
    | none => simpa [hfa] using hold
    | some d =>
      by_cases hd : d ∈ l.filterMap f
      · rw [eraseDups_append_of_subset]
        · exact hold
        · simpa [hfa] using hd
      · have hnone : ¬ l.findIdx (f · = some d) < l.length := by
          rw [List.findIdx_lt_length]
          rintro ⟨b, hb, hfb⟩
          exact hd (List.mem_filterMap.2 ⟨b, hb, of_decide_eq_true hfb⟩)
        rw [List.filterMap_cons_some hfa, List.filterMap_nil, eraseDups_concat_of_not_mem hd]
        refine List.pairwise_append.2 ⟨hold, List.pairwise_singleton _ _, fun b hb c hc => ?_⟩
        obtain ⟨hplace, hlt⟩ := findIdx_append_of_mem (List.mem_eraseDups.1 hb) [a]
        rw [List.mem_singleton.1 hc, hplace, List.findIdx_append, if_neg hnone]
        exact Nat.lt_of_lt_of_le hlt (Nat.le_add_left _ _)

end Values

end FormStaging

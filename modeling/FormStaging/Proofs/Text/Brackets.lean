import Mathlib.Data.List.Basic

/-!
# Text outside of brackets

`exposed depth l` is what is left of a text if everything in brackets is left out, the brackets
included, where `depth` brackets are open before it. A text is `Closed` if it closes just the brackets that it
opens, so that it may stand in a larger text without changing what is exposed of the rest.

A sign that is exposed divides a text in one way only if no such sign is exposed to the right of it
(`Closed.split_last`), or none to the left (`Closed.split_first`). So closed texts can be read off the
text that joins them with commas (`intercalate_injective`).
-/

set_option autoImplicit false

namespace FormStaging

/-- Whether a character opens a bracket. -/
def isOpening (c : Char) : Bool := c = '(' || c = '['

/-- Whether a character closes a bracket. -/
def isClosing (c : Char) : Bool := c = ')' || c = ']'

/-- Whether a character is a bracket. -/
def isBracket (c : Char) : Bool := isOpening c || isClosing c

/-- The characters outside of brackets in a text with `depth` open brackets before it. -/
def exposed : (depth : Nat) → List Char → List Char
  | _, [] => []
  | depth, c :: l =>
    if isOpening c then exposed (depth + 1) l
    else if isClosing c then exposed (depth - 1) l
    else if depth = 0 then c :: exposed depth l
    else exposed depth l

/-- A text that closes just the brackets it opens. -/
structure Closed (l : List Char) : Prop where
  /-- What follows is exposed as if the text were not there. -/
  exposed_append : ∀ depth r, exposed depth (l ++ r) = exposed depth l ++ exposed depth r
  /-- Within brackets nothing of the text is exposed. -/
  exposed_succ : ∀ depth, exposed (depth + 1) l = []

variable {l x x' y y' : List Char} {c s s' : Char}

theorem exposed_cons (h : isBracket c = false) (l : List Char) :
    exposed 0 (c :: l) = c :: exposed 0 l := by
  simp only [isBracket, Bool.or_eq_false_iff] at h
  simp [exposed, h]

/-- A text without brackets is exposed as a whole. -/
theorem exposed_eq_self (h : ∀ c ∈ l, isBracket c = false) : exposed 0 l = l := by
  induction l with
  | nil => rfl
  | cons c l ih =>
    obtain ⟨hc, hl⟩ := List.forall_mem_cons.1 h
    rw [exposed_cons hc, ih hl]

namespace Closed

theorem nil : Closed [] := ⟨fun _ _ => rfl, fun _ => rfl⟩

theorem append (hx : Closed x) (hy : Closed y) : Closed (x ++ y) := by
  refine ⟨fun depth r => ?_, fun depth => ?_⟩
  · rw [List.append_assoc, hx.exposed_append, hy.exposed_append, hx.exposed_append,
      List.append_assoc]
  · rw [hx.exposed_append, hx.exposed_succ, hy.exposed_succ, List.append_nil]

/-- A single character that is no bracket. -/
theorem singleton (h : isBracket c = false) : Closed [c] := by
  simp only [isBracket, Bool.or_eq_false_iff] at h
  refine ⟨fun depth r => ?_, fun depth => by simp [exposed, h]⟩
  cases depth <;> simp [exposed, h]

theorem of_forall (h : ∀ c ∈ l, isBracket c = false) : Closed l := by
  induction l with
  | nil => exact nil
  | cons c l ih =>
    obtain ⟨hc, hl⟩ := List.forall_mem_cons.1 h
    exact (singleton hc).append (ih hl)

/-- Nothing is exposed of a text in brackets. -/
theorem exposed_brackets (h : Closed l) (hs : isOpening s = true) (hs' : isClosing s' = true)
    (depth : Nat) (r : List Char) : exposed depth (s :: l ++ [s'] ++ r) = exposed depth r := by
  have hno : isOpening s' = false := by
    simp only [isClosing, Bool.or_eq_true, decide_eq_true_eq] at hs'
    rcases hs' with rfl | rfl <;> rfl
  simp [exposed, hs, hs', hno, h.exposed_append, h.exposed_succ]

theorem exposed_brackets_eq_nil (h : Closed l) (hs : isOpening s = true)
    (hs' : isClosing s' = true) (depth : Nat) : exposed depth (s :: l ++ [s']) = [] := by
  have hnil := h.exposed_brackets hs hs' depth []
  rwa [List.append_nil] at hnil

theorem brackets (h : Closed l) (hs : isOpening s = true) (hs' : isClosing s' = true) :
    Closed (s :: l ++ [s']) := by
  refine ⟨fun depth r => ?_, fun depth => h.exposed_brackets_eq_nil hs hs' _⟩
  rw [h.exposed_brackets hs hs', h.exposed_brackets_eq_nil hs hs', List.nil_append]

/-! ## Splitting at a sign -/

/-- What stands between a closed text and a longer one is exposed as if it were alone. -/
theorem exposed_append_of_append (hx : Closed x) (hs : isBracket s = false)
    (hxsy : Closed (x ++ s :: y)) (r : List Char) :
    exposed 0 (y ++ r) = exposed 0 y ++ exposed 0 r := by
  have hall := hxsy.exposed_append 0 r
  rw [List.append_assoc, List.cons_append, hx.exposed_append, hx.exposed_append, exposed_cons hs,
    exposed_cons hs, List.append_assoc, List.cons_append] at hall
  exact (List.cons.inj (List.append_cancel_left hall)).2

/-- The parts of a text around an exposed sign, if no such sign is exposed further to the right. -/
theorem split_last {p : Char → Bool} (hx : Closed x) (hx' : Closed x')
    (hs : isBracket s = false) (hs' : isBracket s' = false) (hps : p s = true) (hps' : p s' = true)
    (hy : ∀ c ∈ exposed 0 y, p c = false) (hy' : ∀ c ∈ exposed 0 y', p c = false)
    (h : x ++ s :: y = x' ++ s' :: y') : x = x' ∧ s = s' ∧ y = y' := by
  -- if the left part of one side went further, its right part would be exposed in the other
  have hlonger : ∀ {x s y z s' y'}, Closed x → isBracket s = false → isBracket s' = false →
      p s' = true → (∀ c ∈ exposed 0 y, p c = false) → Closed (x ++ s :: z) → y ≠ z ++ s' :: y' := by
    intro x s y z s' y' hx hs hs' hps' hy hxz heq
    have hexposed := hx.exposed_append_of_append hs hxz (s' :: y')
    rw [exposed_cons hs', ← heq] at hexposed
    have hno := hy s' (by simp [hexposed])
    rw [hps'] at hno
    cases hno
  rcases List.append_eq_append_iff.1 h with ⟨_ | ⟨t, z⟩, hz, hrest⟩ | ⟨_ | ⟨t, z⟩, hz, hrest⟩
  · obtain ⟨rfl, rfl⟩ := List.cons.inj hrest
    simp [hz]
  · rw [List.cons_append, List.cons.injEq] at hrest
    obtain ⟨rfl, hrest⟩ := hrest
    exact absurd hrest (hlonger hx hs hs' hps' hy (hz ▸ hx'))
  · obtain ⟨rfl, rfl⟩ := List.cons.inj hrest
    simp [hz]
  · rw [List.cons_append, List.cons.injEq] at hrest
    obtain ⟨rfl, hrest⟩ := hrest
    exact absurd hrest (hlonger hx' hs' hs hps hy' (hz ▸ hx))

/-- The parts of a text around an exposed sign, if no such sign is exposed further to the left. -/
theorem split_first {p : Char → Bool} (hx : Closed x) (hx' : Closed x')
    (hs : isBracket s = false) (hs' : isBracket s' = false) (hps : p s = true) (hps' : p s' = true)
    (hpx : ∀ c ∈ exposed 0 x, p c = false) (hpx' : ∀ c ∈ exposed 0 x', p c = false)
    (h : x ++ s :: y = x' ++ s' :: y') : x = x' ∧ s = s' ∧ y = y' := by
  -- if the left part of one side went further, it would expose the sign of the other
  have hlonger : ∀ {x s z : _}, Closed x → isBracket s = false → p s = true →
      ¬ ∀ c ∈ exposed 0 (x ++ s :: z), p c = false := by
    intro x s z hx hs hps hall
    have hno := hall s (by rw [hx.exposed_append, exposed_cons hs]; simp)
    rw [hps] at hno
    cases hno
  rcases List.append_eq_append_iff.1 h with ⟨_ | ⟨t, z⟩, hz, hrest⟩ | ⟨_ | ⟨t, z⟩, hz, hrest⟩
  · obtain ⟨rfl, rfl⟩ := List.cons.inj hrest
    simp [hz]
  · rw [List.cons_append, List.cons.injEq] at hrest
    obtain ⟨rfl, -⟩ := hrest
    exact absurd hpx' (hz ▸ hlonger hx hs hps)
  · obtain ⟨rfl, rfl⟩ := List.cons.inj hrest
    simp [hz]
  · rw [List.cons_append, List.cons.injEq] at hrest
    obtain ⟨rfl, -⟩ := hrest
    exact absurd hpx (hz ▸ hlonger hx' hs' hps')

end Closed

/-! ## Texts joined with commas -/

/-- A text that a comma can separate from others. -/
structure Separable (l : List Char) : Prop where
  closed : Closed l
  ne_nil : l ≠ []
  ne_comma : ∀ c ∈ exposed 0 l, (c == ',') = false

theorem Separable.ne_append (h : Separable l) (hx : Closed x) (y : List Char) : l ≠ x ++ ',' :: y := by
  rintro rfl
  have hcomma := h.ne_comma ',' (by rw [hx.exposed_append, exposed_cons rfl]; simp)
  simp at hcomma

theorem closed_intercalate {texts : List (List Char)} (h : ∀ l ∈ texts, Closed l) :
    Closed ([',', ' '].intercalate texts) := by
  match texts with
  | [] => exact Closed.nil
  | [l] => simpa using h l
  | l :: m :: rest =>
    have hcomma : Closed [',', ' '] := (Closed.singleton rfl).append (Closed.singleton rfl)
    rw [List.intercalate_cons_cons]
    exact ((h l (by simp)).append hcomma).append
      (closed_intercalate fun k hk => h k (List.mem_cons_of_mem _ hk))

theorem intercalate_ne_nil {texts : List (List Char)} (h : ∀ l ∈ texts, Separable l)
    (htexts : texts ≠ []) : [',', ' '].intercalate texts ≠ [] := by
  match texts with
  | [] => exact absurd rfl htexts
  | [l] => simpa using (h l (by simp)).ne_nil
  | l :: m :: rest => simp [List.intercalate_cons_cons]

/-- The texts of a row can be read off the row. -/
theorem intercalate_injective {texts texts' : List (List Char)} (h : ∀ l ∈ texts, Separable l)
    (h' : ∀ l ∈ texts', Separable l)
    (heq : [',', ' '].intercalate texts = [',', ' '].intercalate texts') : texts = texts' := by
  induction texts generalizing texts' with
  | nil =>
    by_contra hne
    exact intercalate_ne_nil h' (Ne.symm hne) (by simpa using heq.symm)
  | cons l rest ih =>
    have hl := h l (by simp)
    match rest, texts' with
    | rest, [] => exact absurd (by simpa using heq) (intercalate_ne_nil h (by simp))
    | [], [l'] => simpa using heq
    | [], l' :: m' :: rest' =>
      simp only [List.intercalate_singleton, List.intercalate_cons_cons, List.append_assoc] at heq
      exact absurd heq (hl.ne_append (h' l' (by simp)).closed _)
    | m :: rest, [l'] =>
      simp only [List.intercalate_singleton, List.intercalate_cons_cons, List.append_assoc] at heq
      exact absurd heq.symm ((h' l' (by simp)).ne_append hl.closed _)
    | m :: rest, l' :: m' :: rest' =>
      have hl' := h' l' (by simp)
      simp only [List.intercalate_cons_cons, List.append_assoc, List.cons_append,
        List.nil_append] at heq
      obtain ⟨rfl, -, hrest⟩ := Closed.split_first (p := (· == ',')) hl.closed hl'.closed rfl rfl rfl
        rfl hl.ne_comma hl'.ne_comma heq
      rw [ih (fun t ht => h t (List.mem_cons_of_mem _ ht))
        (fun t ht => h' t (List.mem_cons_of_mem _ ht)) (List.cons.inj hrest).2]

end FormStaging

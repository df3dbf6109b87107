import FormStaging.Proofs.Graph.Expansion
import FormStaging.Proofs.Staging.Soundness
import Mathlib

/-!
# The outcome of a split

`Outcome settings g i r` collects what is true of the result `r` of a successful split of node `i` of
a graph `g` (`outcome_of_split`). The run works on the expression `root` of a graph `src` that is
node `i` of `g` or a variable around it (`Wraps`). All labels of this expression are registered, the
registered variables have their origins, and at the end they are put into the order in which the
variable of the expression needs them.

A split of a closed expression (`Graph.ofNodes`) is evaluated by `cbv`. This unfolds the operations of
`EStateM` by equations that come with Mathlib as a whole only, so this module imports the whole of it.
-/

set_option autoImplicit false

namespace FormStaging

/-- The graph of a list of nodes. A node whose operands do not stand before it is left out. -/
def Graph.ofNodes (nodes : List (Node NodeId)) : Graph :=
  nodes.foldl (fun g n => ((g.push? n).map Prod.fst).getD g) ∅

theorem Except.exists_eq_ok {ε α : Type} {e : Except ε α} (h : e.isOk = true) :
    ∃ a, e = .ok a := by
  cases e with
  | ok a => exact ⟨a, rfl⟩
  | error => cases h

/-! ## The variable around an expression -/

/-- Node `root` of `src` is the variable of node `i` of `g`: this node itself if it is a variable, or a
new variable around it. -/
inductive Wraps (g : Graph) (i : NodeId) : Graph → NodeId → Prop where
  | itself {l : Label} (h : g.label? i = some l) : Wraps g i g i
  | wrapper {l : Label} (h : g.label? i = none) (hl : l ∉ g.labels i)
      (hn : ∀ j ∈ (Node.labelled i l).operands, j ∈ g) :
      Wraps g i (g.push (.labelled i l) hn) g.size

namespace Wraps

variable {g src : Graph} {i root : NodeId}

theorem grows (h : Wraps g i src root) : g.Extends src := by
  cases h with
  | itself => exact Graph.Extends.refl g
  | wrapper _ _ hn => exact Graph.Extends.push g _ hn

theorem mem (h : Wraps g i src root) : i ∈ g := by
  cases h with
  | itself h => exact Graph.mem_of_label? h
  | wrapper _ _ hn => exact hn i (List.mem_singleton.2 rfl)

theorem root_mem (h : Wraps g i src root) : root ∈ src := by
  cases h with
  | itself h => exact Graph.mem_of_label? h
  | wrapper =>
    rw [Graph.mem_iff, Graph.size_push]
    exact Nat.lt_succ_self _

/-- The root is a variable. -/
theorem exists_label (h : Wraps g i src root) : ∃ l, src.label? root = some l := by
  cases h with
  | @itself l h => exact ⟨l, h⟩
  | @wrapper l _ _ hn =>
    refine ⟨l, ?_⟩
    rw [Graph.label?, Graph.node_push_size]
    rfl

/-- The root reaches the expression. -/
theorem reaches (h : Wraps g i src root) : src.Reaches root i := by
  cases h with
  | itself => exact Graph.Reaches.refl _ _
  | wrapper =>
    refine Graph.Reaches.operand ?_
    rw [Graph.operands, Graph.node_push_size]
    exact List.mem_singleton.2 rfl

/-- Below the root there is the expression and nothing else. -/
theorem eq_or_reaches (h : Wraps g i src root) {j : NodeId} (hj : src.Reaches root j) :
    j = root ∨ g.Reaches i j := by
  rcases hj.cases_head with rfl | ⟨k, hk, hkj⟩
  · exact Or.inl rfl
  · cases h with
    | itself => exact Or.inr hj
    | wrapper _ _ hn =>
      rw [Graph.operands, Graph.node_push_size] at hk
      obtain rfl : k = i := List.mem_singleton.1 hk
      exact Or.inr (((Graph.Extends.push g _ hn).reaches_iff (hn k (List.mem_singleton.2 rfl))).1 hkj)

/-- A node below the root that is no variable lies below the expression. -/
theorem reaches_of_label?_eq_none (h : Wraps g i src root) {j : NodeId} (hj : src.Reaches root j)
    (hl : src.label? j = none) : g.Reaches i j ∧ src.node j = g.node j := by
  rcases h.eq_or_reaches hj with rfl | hgj
  · obtain ⟨l, hroot⟩ := h.exists_label
    rw [hroot] at hl
    cases hl
  · exact ⟨hgj, h.grows.node_eq j (hgj.mem h.mem)⟩

/-- The first nodes of the labels of the expression. -/
theorem firstVariable?_eq (h : Wraps g i src root) {l : Label} {v : NodeId}
    (hv : g.firstVariable? i l = some v) : src.firstVariable? root l = some v := by
  have hfirst := (h.grows.firstVariable?_eq h.mem l).trans hv
  cases h with
  | itself => exact hfirst
  | @wrapper m hl hm hn =>
    -- the new variable comes last
    have hroot := (Wraps.wrapper hl hm hn).root_mem
    have hops : (g.push (.labelled i m) hn).operands g.size = [i] := by
      rw [Graph.operands, Graph.node_push_size]
      rfl
    rw [Graph.firstVariable?] at hfirst ⊢
    rw [Graph.postOrder_of_operands_eq hroot hops, List.find?_append, hfirst, Option.some_or]

/-- The labels of the expression are labels of its variable. -/
theorem labels_subset (h : Wraps g i src root) : g.labels i ⊆ src.labels root := by
  intro l hl
  obtain ⟨j, hj, hjl⟩ := (Graph.mem_labels_iff h.mem).1 hl
  refine (Graph.mem_labels_iff h.root_mem).2 ⟨j, h.reaches.trans (h.grows.reaches h.mem hj), ?_⟩
  exact h.grows.label?_eq_some hjl

/-- The content of a new variable is the expression. -/
theorem content_root (h : Wraps g i src root) (hne : root ≠ i) : src.content root = i := by
  cases h with
  | itself => exact absurd rfl hne
  | wrapper _ _ hn =>
    rw [Graph.content, Graph.node_push_size]
    rfl

/-- A new variable is the only one with its label. -/
theorem eq_root_of_label? (h : Wraps g i src root) (hne : root ≠ i) {j : NodeId} {l : Label}
    (hroot : src.label? root = some l) (hj : src.Reaches root j) (hl : src.label? j = some l) :
    j = root := by
  rcases h.eq_or_reaches hj with rfl | hgj
  · rfl
  · cases h with
    | itself => exact absurd rfl hne
    | @wrapper m hl' hm hn =>
      have hi : i ∈ g := hn i (List.mem_singleton.2 rfl)
      rw [Graph.label?, Graph.node_push_size] at hroot
      rw [(Graph.Extends.push g _ hn).label?_eq (hgj.mem hi), ← hroot] at hl
      exact absurd ((Graph.mem_labels_iff hi).2 ⟨j, hgj, hl⟩) hm

/-- A relation between the terms of variables with equal labels extends to a new variable. -/
theorem forall_pairs {R : Term → Term → Prop} (h : Wraps g i src root) (hrefl : ∀ t, R t t)
    (hc : ∀ v w l, g.Reaches i v → g.Reaches i w → g.label? v = some l → g.label? w = some l →
      R (g.unfold v) (g.unfold w)) {v w : NodeId} {l : Label} (hv : src.Reaches root v)
    (hw : src.Reaches root w) (hvl : src.label? v = some l) (hwl : src.label? w = some l) :
    R (src.unfold v) (src.unfold w) := by
  by_cases hroot : src.label? root = some l ∧ root ≠ i
  · rw [h.eq_root_of_label? hroot.2 hroot.1 hv hvl, h.eq_root_of_label? hroot.2 hroot.1 hw hwl]
    exact hrefl _
  · -- both variables lie below the expression
    have hbelow : ∀ j, src.Reaches root j → src.label? j = some l → g.Reaches i j := by
      intro j hj hjl
      rcases h.eq_or_reaches hj with rfl | hgj
      · have hri : j = i := by
          by_cases hji : j = i
          · exact hji
          · exact absurd ⟨hjl, hji⟩ hroot
        rw [hri]
        exact Graph.Reaches.refl g i
      · exact hgj
    have hgv := hbelow v hv hvl
    have hgw := hbelow w hw hwl
    rw [h.grows.label?_eq (hgv.mem h.mem)] at hvl
    rw [h.grows.label?_eq (hgw.mem h.mem)] at hwl
    rw [h.grows.unfold_eq v (hgv.mem h.mem), h.grows.unfold_eq w (hgw.mem h.mem)]
    exact hc v w l hgv hgw hvl hwl

/-- A new variable is consistent with the others. -/
theorem consistent (h : Wraps g i src root) (hc : g.Consistent i) : src.Consistent root :=
  fun _ _ _ => h.forall_pairs (fun _ => rfl) hc

theorem consistentContents (h : Wraps g i src root) (hc : g.ConsistentContents i) :
    src.ConsistentContents root :=
  fun _ _ _ => h.forall_pairs (R := fun t u => t.erase = u.erase) (fun _ => rfl) hc

end Wraps

/-! ## The parts of a split -/

namespace Staging

variable {ctx : Context} {src : Graph} {root v c : NodeId} {l : Label} {s s' : State}
  {infos : List RegisteredVariable} {info : RegisteredVariable}

/-- The variable around staged content: the old one if the content is kept, or a new node. -/
theorem variable_eq_ok {n w : NodeId} (hc : s.graph.node v = .labelled c l)
    (h : (if n = c then pure v else addNode (.labelled n l)).run s = .ok w s') :
    s.graph.Extends s'.graph ∧ s' = { s with graph := s'.graph } ∧
      s'.graph.node w = .labelled n l := by
  split at h
  case isTrue hsame =>
    obtain ⟨rfl, rfl⟩ := run_pure_eq_ok.1 h
    exact ⟨Graph.Extends.refl _, rfl, hsame ▸ hc⟩
  case isFalse =>
    obtain ⟨hn, rfl, rfl⟩ := addNode_eq_ok.1 h
    exact ⟨Graph.Extends.push _ _ hn, rfl, Graph.node_push_size _ hn⟩

/-- A variable is registered under its label. Other variables are registered before it only if it
reaches them. -/
theorem stageVariable_sound (hs : Sound ctx.settings src root s infos) (hroot : root ∈ src)
    (hv : src.firstVariable? root l = some v) (hc : src.node v = .labelled c l)
    (hready : Ready src infos c) (h : (stageVariable ctx v).run s = .ok info s') :
    ∃ more, Sound ctx.settings src root s' (infos ++ more) ∧ s.graph.Extends s'.graph ∧
      info ∈ infos ++ more ∧ info.label = l ∧
      ∀ other ∈ more, s'.graph.Reaches info.node other.node := by
  have hreach : src.Reaches root v := Graph.reaches_of_firstVariable? hroot hv
  have hcv : c ∈ src.operands v := by simp [Graph.operands_of_labelled hc]
  have hnode : s.graph.node v = .labelled c l := by
    rw [hs.grows.node_eq v (hreach.mem hroot), hc]
  cases hget : s.code.get? l with
  | some known =>
    rw [run_stageVariable_of_registered hnode hget] at h
    cases h
    refine ⟨[], by rwa [List.append_nil], Graph.Extends.refl _, ?_, hs.groups.label_eq hget,
      List.forall_mem_nil _⟩
    rw [List.append_nil]
    exact hs.groups.mem hget
  | none =>
    obtain ⟨labels, r, s₁, w, s₂, hlabels, hr, hw, hinfo⟩ := (stageVariable_eq_ok hnode hget).1 h
    rw [hs.reserveAll?_labels hroot hreach] at hlabels
    cases hlabels
    -- the content is staged
    obtain ⟨more, hprogress, hstaged, hmore⟩ :=
      stage_sound ctx hroot _ hs (hreach.tail hcv) hready hr
    obtain ⟨-, hstands⟩ := hprogress.sound.staged c r hstaged
    have hrmem := hprogress.sound.mem hroot (hreach.tail hcv) hstands
    -- the variable is kept, or made anew around what stands for the content
    have hnode₁ : s₁.graph.node v = .labelled c l := by
      rw [hprogress.sound.grows.node_eq v (hreach.mem hroot), hc]
    obtain ⟨hgrows₂, hstate₂, hwnode⟩ := variable_eq_ok hnode₁ hw
    have hlabel : s₂.graph.label? w = some l := Graph.label?_of_labelled hwnode
    -- its label is still new
    have hl : l ∈ src.labels root :=
      (Graph.mem_labels_iff hroot).2 ⟨v, hreach, Graph.label?_of_firstVariable? hv⟩
    have hnew : s₁.code.get? l = none := hprogress.get?_eq_none hs hl hget
    have hlt : l.value < s₁.labels.next := hprogress.sound.source_lt l hl
    rw [run_register_new hlabel (by rw [hstate₂]; exact hlt) (by rw [hstate₂]; exact hnew)] at hinfo
    cases hinfo
    have hstands₂ := hstands.mono hprogress.sound.grows hgrows₂ hprogress.sound.built.labels
      (List.Subset.refl _) ((hreach.tail hcv).mem hroot)
    have horigin : Origin ctx.settings src root s₂.graph (infos ++ more) ⟨l, w, r.deps⟩ :=
      .source hv hc hstands₂ hwnode rfl
    have hsound := hprogress.sound.register s₁.named hroot hgrows₂ (Nat.le_refl _)
      (Nat.le_add_right _ _) hlt hnew horigin (fun _ _ hv => Or.inl hv) (fun _ _ hv => hv)
      (fun hminted => absurd hl hminted)
    rw [hstate₂]
    refine ⟨more ++ [⟨l, w, r.deps⟩], ?_, hprogress.grows.trans hgrows₂, by simp, rfl, ?_⟩
    · rw [← List.append_assoc]
      exact hsound
    · intro other hmem
      rcases List.mem_append.1 hmem with hmem | hmem
      · refine Graph.Reaches.head ?_ (hgrows₂.reaches hrmem (hmore other hmem))
        rw [Graph.operands_of_labelled hwnode]
        exact List.mem_singleton.2 rfl
      · rw [List.mem_singleton.1 hmem]
        exact Graph.Reaches.refl _ _

/-- The content of a variable is ready to be staged once the variables before it are registered. -/
theorem ready_of_before {before rest : List NodeId} (hroot : root ∈ src)
    (hsplit : src.variables root = before ++ v :: rest) (hc : src.node v = .labelled c l)
    (hbefore : ∀ w ∈ before, ∀ m, src.label? w = some m → Registers infos m) :
    Ready src infos c := by
  intro j m hcj hm
  have hcv : c ∈ src.operands v := by simp [Graph.operands_of_labelled hc]
  have hlt : j < v := hcj.lt_of_operand hcv
  obtain ⟨w, hw, hwm⟩ :=
    Graph.exists_mem_before hroot hsplit (Graph.Reaches.head hcv hcj) (Nat.ne_of_lt hlt) hm
  exact hbefore w hw m hwm

/-- A variable that was registered joins those before it. -/
theorem registers_concat {before : List NodeId} {more : List RegisteredVariable}
    (hbefore : ∀ w ∈ before, ∀ m, src.label? w = some m → Registers infos m)
    (hl : src.label? v = some l) (hv : Registers (infos ++ more) l) :
    ∀ w ∈ before ++ [v], ∀ m, src.label? w = some m → Registers (infos ++ more) m := by
  intro w hw m hwm
  rcases List.mem_append.1 hw with hw | hw
  · exact (hbefore w hw m hwm).mono (List.subset_append_left _ _)
  · rw [List.mem_singleton.1 hw, hl] at hwm
    exact Option.some.inj hwm ▸ hv

/-- The variables of an expression are registered. All others are reached from them. -/
theorem stageVariables_sound {before rest : List NodeId} {u : Unit}
    (hs : Sound ctx.settings src root s infos) (hroot : root ∈ src)
    (hsplit : src.variables root = before ++ rest)
    (hbefore : ∀ w ∈ before, ∀ l, src.label? w = some l → Registers infos l)
    (h : (stageVariables ctx rest).run s = .ok u s') :
    ∃ more, Sound ctx.settings src root s' (infos ++ more) ∧ s.graph.Extends s'.graph ∧
      (∀ l ∈ src.labels root, Registers (infos ++ more) l) ∧
      ∀ other ∈ more, ∃ top ∈ infos ++ more, top.label ∈ src.labels root ∧
        s'.graph.Reaches top.node other.node := by
  induction rest generalizing s infos before with
  | nil =>
    rw [stageVariables, run_pure_eq_ok] at h
    obtain ⟨-, rfl⟩ := h
    rw [List.append_nil] at hsplit
    refine ⟨[], by rwa [List.append_nil], Graph.Extends.refl _, fun l hl => ?_,
      List.forall_mem_nil _⟩
    obtain ⟨w, hw, hwl⟩ := List.mem_filterMap.1 hl
    rw [List.append_nil]
    exact hbefore w (hsplit ▸ hw) l hwl
  | cons v rest ih =>
    obtain ⟨info, s₁, hinfo, hrest⟩ := stageVariables_cons_eq_ok.1 h
    have hmem : v ∈ src.variables root := by simp [hsplit]
    obtain ⟨l, hl, hv⟩ := Graph.firstVariable?_of_mem_variables hmem
    obtain ⟨c, hc, -⟩ := Graph.operands_of_label? hl
    -- the variables below `v` stand before it
    have hready : Ready src infos c := ready_of_before hroot hsplit hc hbefore
    obtain ⟨more₁, hsound₁, hgrows₁, hin, hlabel, hmore₁⟩ :=
      stageVariable_sound hs hroot hv hc hready hinfo
    have hbefore₁ := registers_concat hbefore hl ⟨info, hin, hlabel⟩
    obtain ⟨more₂, hsound₂, hgrows₂, hall, hmore₂⟩ :=
      ih hsound₁ (by rw [hsplit, List.append_assoc]; rfl) hbefore₁ hrest
    rw [List.append_assoc] at hsound₂ hall hmore₂
    refine ⟨more₁ ++ more₂, hsound₂, hgrows₁.trans hgrows₂, hall, fun other hmem => ?_⟩
    rcases List.mem_append.1 hmem with hmem | hmem
    · refine ⟨info, ?_, ?_, hgrows₂.reaches (hsound₁.built.labels.mem hin) (hmore₁ other hmem)⟩
      · rw [← List.append_assoc]
        exact List.mem_append_left _ hin
      · rw [hlabel]
        exact List.mem_filterMap.2 ⟨v, by simp [hsplit], hl⟩
    · exact hmore₂ other hmem

/-- Once all labels are registered, staging the variable of the expression gives what is registered. -/
theorem exists_root_registered {g : Graph} {i : NodeId} (hwraps : Wraps g i src root)
    (hs : Sound ctx.settings src root s infos)
    (hall : ∀ l ∈ src.labels root, Registers infos l) :
    ∃ info ∈ infos, src.label? root = some info.label ∧
      (stageVariable ctx root).run s = .ok info s := by
  obtain ⟨l, hl⟩ := hwraps.exists_label
  obtain ⟨c, hc, -⟩ := Graph.operands_of_label? hl
  obtain ⟨info, hinfo, rfl⟩ := hall l ((Graph.mem_labels_iff hwraps.root_mem).2
    ⟨root, Graph.Reaches.refl _ _, hl⟩)
  have hnode : s.graph.node root = .labelled c info.label := by
    rw [hs.grows.node_eq _ hwraps.root_mem, hc]
  exact ⟨info, hinfo, hl, run_stageVariable_of_registered hnode (hs.groups.get?_of_mem hinfo)⟩

/-- Two variables with minted labels have different contents. -/
theorem Sound.eq_of_content_eq {settings : Settings} (h : Sound settings src root s infos) :
    ∀ info ∈ infos, ∀ other ∈ infos, info.label ∉ src.labels root →
      other.label ∉ src.labels root → s.graph.content info.node = s.graph.content other.node →
      info = other := by
  intro info hinfo other hother hminted hminted' hcontent
  obtain ⟨c, hc, -⟩ := Graph.operands_of_label? (h.built.labels info hinfo)
  obtain ⟨c', hc', -⟩ := Graph.operands_of_label? (h.built.labels other hother)
  rw [Graph.content_eq hc, Graph.content_eq hc'] at hcontent
  subst hcontent
  -- both are remembered as the name of the one content
  have hname := h.named_minted info hinfo hminted c hc
  rw [h.named_minted other hother hminted' c hc', Option.some.injEq] at hname
  refine List.inj_on_of_nodup_map h.groups.nodup hinfo hother (Option.some.inj ?_)
  rw [← h.built.labels info hinfo, ← h.built.labels other hother, hname]

/-- A state with nothing but labels reserved is sound, if they are just the labels of the expression. -/
theorem Sound.start (settings : Settings) {labels : LabelSupply}
    (hlt : ∀ l ∈ src.labels root, l.value < labels.next)
    (hle : labels.next.val ≤ LabelSupply.nextAbove {} (src.labels root)) :
    Sound settings src root { graph := src, labels := labels } [] := by
  refine ⟨Graph.Extends.refl _, .empty, .nil, List.forall_mem_nil _, hlt, ?_, ?_, ?_,
    List.forall_mem_nil _, hle⟩
  · exact fun _ _ hr => by simp at hr
  · exact fun _ _ hv => by simp at hv
  · exact fun _ _ hv => by simp at hv

/-- The labels of the wrapped expression are reserved before its variables are staged. -/
theorem wrap_sound (settings : Settings) {g : Graph} {i : NodeId} {labels : LabelSupply}
    (hlabels : LabelSupply.reserveAll? {} (g.labels i) = some labels)
    (h : (wrap i).run { graph := g, labels := labels } = .ok root s) :
    Wraps g i s.graph root ∧ Sound settings s.graph root s [] := by
  have hlt : ∀ m ∈ g.labels i, m.value < labels.next :=
    fun m hm => LabelSupply.lt_next_of_reserveAll? hlabels hm
  cases hl : g.label? i with
  | some l =>
    rw [run_wrap_of_label? hl] at h
    cases h
    exact ⟨.itself hl, .start settings hlt (Nat.le_of_eq (LabelSupply.next_of_reserveAll? hlabels))⟩
  | none =>
    obtain ⟨rest, hmint, hn, rfl, rfl⟩ := (wrap_fresh_eq_ok hl).1 h
    have hminted : labels.next < rest.next := LabelSupply.lt_next_of_mint? hmint
    have hnew : (⟨labels.next⟩ : Label) ∉ g.labels i := by
      intro hmem
      exact absurd (hlt _ hmem) (Nat.lt_irrefl _)
    have hwraps := Wraps.wrapper hl hnew hn
    have hroot : (g.push (.labelled i ⟨labels.next⟩) hn).label? g.size = some ⟨labels.next⟩ :=
      Graph.label?_of_labelled (Graph.node_push_size _ hn)
    refine ⟨hwraps, .start settings (fun m hm => ?_) ?_⟩
    · -- the minted label is avoided too
      obtain ⟨j, hj, hjm⟩ := (Graph.mem_labels_iff hwraps.root_mem).1 hm
      rcases hwraps.eq_or_reaches hj with rfl | hj
      · rw [hroot] at hjm
        rw [← Option.some.inj hjm]
        exact hminted
      · rw [hwraps.grows.label?_eq (hj.mem hwraps.mem)] at hjm
        have hmem : m ∈ g.labels i := (Graph.mem_labels_iff hwraps.mem).2 ⟨j, hj, hjm⟩
        exact Nat.lt_trans (hlt m hmem) hminted
    · -- and no other one
      rw [(LabelSupply.mint?_eq_some_iff.1 hmint).2]
      exact LabelSupply.lt_nextAbove {} ((Graph.mem_labels_iff hwraps.root_mem).2
        ⟨g.size, Graph.Reaches.refl _ _, hroot⟩)

end Staging

/-! ## The outcome -/

open Staging

/-- What is true of the result of a split: the wrapped expression, and the variables `infos` in the
order of their registration. -/
structure Outcome (settings : Settings) (g : Graph) (i : NodeId) (r : SplitResult) (src : Graph)
    (root : NodeId) (infos : List RegisteredVariable) : Prop where
  wraps : Wraps g i src root
  grows : src.Extends r.graph
  built : Built settings src root r.graph infos
  reordered : ∃ code : CodeStructure, code.Groups infos ∧
    r.code = code.reorder (r.graph.labels r.root.node)
  registers : ∀ l ∈ src.labels root, Registers infos l
  root_registered : r.root ∈ infos
  root_label : src.label? root = some r.root.label
  reached : ∀ info ∈ infos, ∃ top ∈ infos, top.label ∈ src.labels root ∧
    r.graph.Reaches top.node info.node
  named_once : ∀ info ∈ infos, ∀ other ∈ infos, info.label ∉ src.labels root →
    other.label ∉ src.labels root → r.graph.content info.node = r.graph.content other.node →
    info = other
  /-- The last label of all is not registered. -/
  label_lt : ∀ info ∈ infos, info.label.value.val + 1 < Label.count

namespace Outcome

variable {settings : Settings} {g src : Graph} {i root : NodeId} {r : SplitResult}
  {infos : List RegisteredVariable}

/-- What is registered in the result. -/
theorem get?_iff (h : Outcome settings g i r src root infos) {l : Label}
    {info : RegisteredVariable} : r.code.get? l = some info ↔ info ∈ infos ∧ info.label = l := by
  obtain ⟨code, hgroups, heq⟩ := h.reordered
  rw [heq, CodeStructure.get?_reorder, hgroups.get?_iff]

theorem nodup (h : Outcome settings g i r src root infos) :
    (infos.map RegisteredVariable.label).Nodup := by
  obtain ⟨code, hgroups, -⟩ := h.reordered
  exact hgroups.nodup

/-- The label of a variable of the expression is registered, and the wrapped expression has this
variable too. -/
theorem exists_registered (h : Outcome settings g i r src root infos) {v : NodeId} {l : Label}
    (hv : g.Reaches i v) (hl : g.label? v = some l) :
    ∃ info ∈ infos, r.code.get? l = some info ∧ src.Reaches root v ∧
      src.label? v = some info.label := by
  have hmem : l ∈ g.labels i := (Graph.mem_labels_iff h.wraps.mem).2 ⟨v, hv, hl⟩
  obtain ⟨info, hinfo, rfl⟩ := h.registers l (h.wraps.labels_subset hmem)
  exact ⟨info, hinfo, h.get?_iff.2 ⟨hinfo, rfl⟩,
    h.wraps.reaches.trans (h.wraps.grows.reaches h.wraps.mem hv), h.wraps.grows.label?_eq_some hl⟩

end Outcome

/-- The outcome of a successful split. -/
theorem outcome_of_split {settings : Settings} {g : Graph} {i : NodeId} {r : SplitResult}
    (h : split settings g i = .ok r) : ∃ src root infos, Outcome settings g i r src root infos := by
  obtain ⟨-, s, hrun, hgraph, hcode⟩ := split_eq_ok.1 h
  obtain ⟨labels, root, s₁, s₂, s₃, hlabels, hwrap, hvars, hroot, rfl⟩ := splitExpression_eq_ok.1 hrun
  obtain ⟨hwraps, hsound₁⟩ := wrap_sound settings hlabels hwrap
  obtain ⟨infos, hsound₂, hgrows, hall, hreached⟩ :=
    stageVariables_sound hsound₁ hwraps.root_mem (List.nil_append _).symm
      (List.forall_mem_nil _) hvars
  rw [List.nil_append] at hsound₂ hall hreached
  -- the root is registered with the other variables
  obtain ⟨info, hinfo, hl, hrun₂⟩ := exists_root_registered hwraps hsound₂ hall
  rw [hrun₂] at hroot
  cases hroot
  refine ⟨s₁.graph, root, infos, hwraps, ?_, ?_, ⟨s₂.code, hsound₂.groups, ?_⟩, hall, hinfo, hl, ?_,
    ?_, fun other hother => ?_⟩
  · rw [hgraph]
    exact hsound₂.grows
  · rw [hgraph]
    exact hsound₂.built
  · rw [hgraph]
    exact hcode
  · rw [hgraph]
    exact hreached
  · rw [hgraph]
    exact hsound₂.eq_of_content_eq
  · exact Nat.lt_of_le_of_lt (hsound₂.registered_lt other hother) s₂.labels.next.isLt

end FormStaging

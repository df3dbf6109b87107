import FormStaging.Proofs.Staging.Derivation
import FormStaging.Proofs.Staging.Entries

/-!
# Every run builds derivations

`Sound settings src root s infos` is the invariant of a run that splits the expression `root` of the
graph `src`: the state `s` has registered the variables `infos`, in this order and each with its
origin, both memos hold derivations only, and a variable with a minted label is remembered as the name
of its content. `Progress` relates the states before and after an action; it composes
(`Progress.trans`), and each action brings only variables that its result reaches.

The main statement is `stage_sound`: a successful run of `stage` on a node of the expression keeps
the invariant, and its result stands for the node. The recursion of `stage` is met once, in this
theorem; everything said of the result of a split follows from derivations.
-/

set_option autoImplicit false

namespace FormStaging

/-- The first value above all labels of an expression. -/
def Graph.firstLabel (g : Graph) (i : NodeId) : Nat := LabelSupply.nextAbove {} (g.labels i)

namespace Staging

/-! ## Memos -/

section Memos

variable {β : Type} {m : Std.HashMap NodeId β} {i j : NodeId} {b c : β}

/-- An entry of a map is the last one inserted or was there before. -/
theorem eq_or_of_getElem?_insert (h : (m.insert i b)[j]? = some c) :
    (i = j ∧ b = c) ∨ m[j]? = some c := by
  rw [Std.HashMap.getElem?_insert] at h
  split at h
  case isTrue hij => exact Or.inl ⟨eq_of_beq hij, Option.some.inj h⟩
  case isFalse => exact Or.inr h

/-- An entry that was there when a key had none is not hidden by an entry for the key. -/
theorem getElem?_insert_of_none {m' : Std.HashMap NodeId β} (hnone : m[i]? = none)
    (hj : m[j]? = some c) (hkept : m'[j]? = some c) : (m'.insert i b)[j]? = some c := by
  have hne : i ≠ j := by
    rintro rfl
    rw [hnone] at hj
    cases hj
  rw [Std.HashMap.getElem?_insert, if_neg (by simpa using hne), hkept]

end Memos

/-! ## The invariant -/

/-- Node `j` is an operand of a plain node of the expression. -/
def IsOperand (src : Graph) (root j : NodeId) : Prop :=
  ∃ i, src.Reaches root i ∧ isPlain (src.node i) = true ∧ j ∈ src.operands i

/-- Result `r` is that for an operand. -/
def StagedOperand (src : Graph) (root : NodeId) (s : State) (r : Staged) : Prop :=
  ∃ j, IsOperand src root j ∧ s.staged[j]? = some r

/-- The variables with minted labels. -/
def minted (src : Graph) (root : NodeId) (infos : List RegisteredVariable) :
    List RegisteredVariable :=
  infos.filter fun info => info.label ∉ src.labels root

/-- What is true of every state of a run that splits an expression. -/
structure Sound (settings : Settings) (src : Graph) (root : NodeId) (s : State)
    (infos : List RegisteredVariable) : Prop where
  grows : src.Extends s.graph
  groups : s.code.Groups infos
  built : Built settings src root s.graph infos
  registered_lt : ∀ info ∈ infos, info.label.value < s.labels.next
  source_lt : ∀ l ∈ src.labels root, l.value < s.labels.next
  staged : ∀ i r, s.staged[i]? = some r →
    src.Reaches root i ∧ Stands settings src s.graph infos i r
  named : ∀ n v, s.named[n]? = some v → Names s.graph infos n v
  /-- A name is that of a result for an operand. -/
  named_operand : ∀ n v : NodeId, s.named[n]? = some v →
    ∃ r, StagedOperand src root s r ∧ r.node = n
  named_minted : ∀ info ∈ infos, info.label ∉ src.labels root →
    ∀ n, s.graph.node info.node = .labelled n info.label → s.named[n]? = some info.node
  /-- Every label that is minted is registered. -/
  next_le : s.labels.next.val ≤ src.firstLabel root + (minted src root infos).length

/-- What staging does to a sound state: it registers the variables `more`, all with minted labels, and
keeps the graph and the memos. -/
structure Progress (settings : Settings) (src : Graph) (root : NodeId) (s : State)
    (infos : List RegisteredVariable) (s' : State) (more : List RegisteredVariable) : Prop where
  sound : Sound settings src root s' (infos ++ more)
  grows : s.graph.Extends s'.graph
  staged : ∀ (i : NodeId) (r : Staged), s.staged[i]? = some r → s'.staged[i]? = some r
  named : ∀ (n v : NodeId), s.named[n]? = some v → s'.named[n]? = some v
  minted : ∀ info ∈ more, info.label ∉ src.labels root

variable {settings : Settings} {src : Graph} {root : NodeId} {s s' : State}
  {infos more : List RegisteredVariable}

namespace Progress

theorem refl (h : Sound settings src root s infos) :
    Progress settings src root s infos s [] := by
  refine ⟨?_, Graph.Extends.refl _, fun _ _ h => h, fun _ _ h => h, List.forall_mem_nil _⟩
  rwa [List.append_nil]

theorem trans {s'' : State} {more' : List RegisteredVariable}
    (h : Progress settings src root s infos s' more)
    (h' : Progress settings src root s' (infos ++ more) s'' more') :
    Progress settings src root s infos s'' (more ++ more') := by
  refine ⟨?_, h.grows.trans h'.grows, fun i r hr => h'.staged i r (h.staged i r hr),
    fun n v hv => h'.named n v (h.named n v hv), fun info hmem => ?_⟩
  · rw [← List.append_assoc]
    exact h'.sound
  · exact (List.mem_append.1 hmem).elim (h.minted info) (h'.minted info)

/-- Labels of the source are not registered on the way. -/
theorem get?_eq_none (h : Progress settings src root s infos s' more)
    (hs : Sound settings src root s infos) {l : Label} (hl : l ∈ src.labels root)
    (hnew : s.code.get? l = none) : s'.code.get? l = none := by
  cases hget : s'.code.get? l with
  | none => rfl
  | some other =>
    obtain ⟨hmem, rfl⟩ := (h.sound.groups.get?_iff _ _).1 hget
    rcases List.mem_append.1 hmem with hmem | hmem
    · have hother := hs.groups.get?_of_mem hmem
      rw [hnew] at hother
      cases hother
    · exact absurd hl (h.minted other hmem)

end Progress

namespace Sound

/-- New nodes keep the invariant. -/
theorem grow {g : Graph} (h : Sound settings src root s infos) (hroot : root ∈ src)
    (hg : s.graph.Extends g) :
    Progress settings src root s infos { s with graph := g } [] := by
  refine ⟨?_, hg, fun _ _ h => h, fun _ _ h => h, List.forall_mem_nil _⟩
  rw [List.append_nil]
  exact
    { grows := h.grows.trans hg
      groups := h.groups
      built := h.built.mono h.grows hg hroot
      registered_lt := h.registered_lt
      source_lt := h.source_lt
      staged := fun i r hr => by
        obtain ⟨hi, hstands⟩ := h.staged i r hr
        exact ⟨hi, hstands.mono h.grows hg h.built.labels (List.Subset.refl _) (hi.mem hroot)⟩
      named := fun n v hv =>
        (h.named n v hv).mono hg h.built.labels (List.Subset.refl _)
      named_operand := h.named_operand
      named_minted := fun info hmem hminted n hn => by
        rw [hg.node_eq _ (h.built.labels.mem hmem)] at hn
        exact h.named_minted info hmem hminted n hn
      next_le := h.next_le }

/-- The labels below a node of the expression are reserved already. -/
theorem reserveAll?_labels (h : Sound settings src root s infos) (hroot : root ∈ src) {i : NodeId}
    (hi : src.Reaches root i) : s.labels.reserveAll? (s.graph.labels i) = some s.labels := by
  refine LabelSupply.reserveAll?_of_lt fun l hl => h.source_lt l ?_
  rw [h.grows.labels_eq (hi.mem hroot), Graph.mem_labels_iff (hi.mem hroot)] at hl
  obtain ⟨v, hv, hvl⟩ := hl
  exact (Graph.mem_labels_iff hroot).2 ⟨v, hi.trans hv, hvl⟩

/-- The registration of a variable with a new label and an origin keeps the invariant. If the label is
minted, it is one more label, and the variable is remembered as the name of its content. -/
theorem register {g : Graph} {labels : LabelSupply} {info : RegisteredVariable}
    (named : Std.HashMap NodeId NodeId) (h : Sound settings src root s infos) (hroot : root ∈ src)
    (hg : s.graph.Extends g) (hle : s.labels.next ≤ labels.next)
    (hnext : labels.next.val ≤ s.labels.next.val + (minted src root [info]).length)
    (hlt : info.label.value < labels.next) (hnew : s.code.get? info.label = none)
    (ho : Origin settings src root g infos info)
    (hnames : ∀ n v : NodeId, named[n]? = some v → s.named[n]? = some v ∨
      Names g (infos ++ [info]) n v ∧ ∃ r, StagedOperand src root s r ∧ r.node = n)
    (hkeep : ∀ n v : NodeId, s.named[n]? = some v → named[n]? = some v)
    (hminted : info.label ∉ src.labels root →
      ∀ n, g.node info.node = .labelled n info.label → named[n]? = some info.node) :
    Sound settings src root
      { s with graph := g, code := s.code.insert info, labels := labels, named := named }
      (infos ++ [info]) := by
  have hgrown := (h.grow hroot hg).sound
  rw [List.append_nil] at hgrown
  have hsub : infos ⊆ infos ++ [info] := List.subset_append_left _ _
  exact
    { grows := hgrown.grows
      groups := h.groups.insert hnew
      built := .concat hgrown.built ho
      registered_lt := fun other hmem => by
        rcases List.mem_append.1 hmem with hmem | hmem
        · exact Nat.lt_of_lt_of_le (hgrown.registered_lt other hmem) hle
        · rw [List.mem_singleton.1 hmem]
          exact hlt
      source_lt := fun l hl => Nat.lt_of_lt_of_le (hgrown.source_lt l hl) hle
      staged := fun i r hr => by
        obtain ⟨hi, hstands⟩ := hgrown.staged i r hr
        exact ⟨hi, hstands.mono hgrown.grows (Graph.Extends.refl _) hgrown.built.labels hsub
          (hi.mem hroot)⟩
      named := fun n v hv => by
        rcases hnames n v hv with hv | ⟨hv, -⟩
        · exact (hgrown.named n v hv).mono (Graph.Extends.refl _) hgrown.built.labels hsub
        · exact hv
      named_operand := fun n v hv => by
        rcases hnames n v hv with hv | ⟨-, hoperand⟩
        · exact hgrown.named_operand n v hv
        · exact hoperand
      named_minted := fun other hmem => by
        rcases List.mem_append.1 hmem with hmem | hmem
        · intro hother n hn
          exact hkeep _ _ (hgrown.named_minted other hmem hother n hn)
        · rw [List.mem_singleton.1 hmem]
          exact hminted
      next_le := by
        have hbefore := h.next_le
        rw [minted, List.filter_append, List.length_append, ← minted, ← minted]
        show labels.next.val ≤ _
        omega }

/-- A derived result may be remembered. -/
theorem remember {i : NodeId} {r : Staged} (h : Sound settings src root s infos)
    (hnone : s.staged[i]? = none) (hi : src.Reaches root i)
    (hr : Stands settings src s.graph infos i r) :
    Sound settings src root { s with staged := s.staged.insert i r } infos := by
  refine ⟨h.grows, h.groups, h.built, h.registered_lt, h.source_lt, fun j r' hr' => ?_, h.named,
    fun n v hv => ?_, h.named_minted, h.next_le⟩
  · rcases eq_or_of_getElem?_insert hr' with ⟨rfl, rfl⟩ | hr'
    · exact ⟨hi, hr⟩
    · exact h.staged j r' hr'
  · obtain ⟨r', ⟨j, hj, hr'⟩, hn⟩ := h.named_operand n v hv
    exact ⟨r', ⟨j, hj, getElem?_insert_of_none hnone hr' hr'⟩, hn⟩

/-- A first name may be remembered. -/
theorem rememberName {n v : NodeId} (h : Sound settings src root s infos)
    (hnone : s.named[n]? = none) (hv : Names s.graph infos n v)
    (hn : ∃ r, StagedOperand src root s r ∧ r.node = n) :
    Sound settings src root { s with named := s.named.insert n v } infos := by
  refine ⟨h.grows, h.groups, h.built, h.registered_lt, h.source_lt, h.staged, fun m w hw => ?_,
    fun m w hw => ?_, fun info hmem hminted m hm => ?_, h.next_le⟩
  · rcases eq_or_of_getElem?_insert hw with ⟨rfl, rfl⟩ | hw
    · exact hv
    · exact h.named m w hw
  · rcases eq_or_of_getElem?_insert hw with ⟨rfl, rfl⟩ | hw
    · exact hn
    · exact h.named_operand m w hw
  · have hknown := h.named_minted info hmem hminted m hm
    exact getElem?_insert_of_none hnone hknown hknown

/-- What stands for a node of the expression belongs to the graph. -/
theorem mem (h : Sound settings src root s infos) (hroot : root ∈ src) {i : NodeId} {r : Staged}
    (hi : src.Reaches root i) (hr : Stands settings src s.graph infos i r) : r.node ∈ s.graph :=
  hr.mem h.grows (hi.mem hroot) h.built.labels

end Sound

/-! ## Naming an operand -/

variable {ctx : Context}

/-- A label that is not minted yet is not registered. -/
theorem Sound.get?_next (h : Sound settings src root s infos) :
    s.code.get? ⟨s.labels.next⟩ = none := by
  cases hget : s.code.get? ⟨s.labels.next⟩ with
  | none => rfl
  | some other =>
    have hlt := h.registered_lt other (h.groups.mem hget)
    rw [h.groups.label_eq hget] at hlt
    exact absurd hlt (Nat.lt_irrefl _)

/-- The result for an operand stands for a node of the expression. -/
theorem StagedOperand.exists_stands {r : Staged} (h : StagedOperand src root s r)
    (hs : Sound settings src root s infos) :
    ∃ i, src.Reaches root i ∧ Stands settings src s.graph infos i r := by
  obtain ⟨i, -, hr⟩ := h
  exact ⟨i, hs.staged i r hr⟩

theorem StagedOperand.mono {r : Staged} (h : StagedOperand src root s r)
    (hprogress : Progress settings src root s infos s' more) : StagedOperand src root s' r := by
  obtain ⟨i, hi, hr⟩ := h
  exact ⟨i, hi, hprogress.staged i r hr⟩

/-- A variable that stands for a node is registered already, just as it is. -/
theorem StagedOperand.run_register {operand : Staged} {l : Label}
    (hr : StagedOperand src root s operand) (hs : Sound ctx.settings src root s infos)
    (hroot : root ∈ src) (hl : s.graph.label? operand.node = some l) :
    ⟨l, operand.node, operand.deps⟩ ∈ infos ∧
      (register ctx operand.node operand.deps none).run s =
        .ok ⟨l, operand.node, operand.deps⟩ s := by
  obtain ⟨i, hi, hstands⟩ := hr.exists_stands hs
  obtain ⟨known, hmem, rfl, hoperand⟩ :=
    hstands.exists_info hs.grows (hi.mem hroot) hs.built.labels hl
  have hsame : known = ⟨known.label, operand.node, operand.deps⟩ := by rw [hoperand]
  have hget : s.code.get? known.label = some ⟨known.label, operand.node, operand.deps⟩ :=
    hsame ▸ hs.groups.get?_of_mem hmem
  exact ⟨hsame ▸ hmem, run_register_known hl (hs.registered_lt known hmem) hget⟩

/-- An operand that is no variable and has no name gets a new variable with a minted label. -/
theorem nameFresh_sound {operand : Staged} {info : RegisteredVariable}
    (hs : Sound ctx.settings src root s infos) (hroot : root ∈ src)
    (hr : StagedOperand src root s operand) (hl : s.graph.label? operand.node = none)
    (hnone : s.named[operand.node]? = none)
    (h : (register ctx operand.node operand.deps none).run s = .ok info s') :
    Progress ctx.settings src root s infos
      { s' with named := s'.named.insert operand.node info.node } [info] := by
  obtain ⟨i, hi, hstands⟩ := hr.exists_stands hs
  obtain ⟨labels, hmint, hn, hinfo, rfl⟩ := register_fresh_eq_ok hl hs.get?_next h
  have hlt : (⟨s.labels.next⟩ : Label).value < labels.next := LabelSupply.lt_next_of_mint? hmint
  have hnext := (LabelSupply.mint?_eq_some_iff.1 hmint).2
  have hg := Graph.Extends.push s.graph (.labelled operand.node ⟨s.labels.next⟩) hn
  have hnode : (s.graph.push (.labelled operand.node ⟨s.labels.next⟩) hn).node info.node =
      .labelled operand.node info.label := by
    rw [hinfo, Graph.node_push_size]
  -- the new label is neither registered nor a label of the source
  have hnew : info.label ∉ src.labels root := by
    intro hmem
    have hlt := hs.source_lt _ hmem
    rw [hinfo] at hlt
    exact absurd hlt (Nat.lt_irrefl _)
  have hminted : (minted src root [info]).length = 1 := by
    rw [minted, List.filter_cons_of_pos (by simpa using hnew)]
    rfl
  have hcontent : (s.graph.push (.labelled operand.node ⟨s.labels.next⟩) hn).label? operand.node =
      none := by
    rw [hg.label?_eq (hs.mem hroot hi hstands), hl]
  have hstands' := hstands.mono hs.grows hg hs.built.labels (List.Subset.refl _) (hi.mem hroot)
  have horigin := Origin.minted hnew hi hstands' hnode (by rw [hinfo]) hcontent
  have hkeep : ∀ n v : NodeId, s.named[n]? = some v →
      (s.named.insert operand.node info.node)[n]? = some v :=
    fun n v hv => getElem?_insert_of_none hnone hv hv
  have hsound := hs.register (s.named.insert operand.node info.node) hroot hg (Fin.le_of_lt hlt)
    (by rw [hnext, hminted]) (by rw [hinfo]; exact hlt) (by rw [hinfo]; exact hs.get?_next) horigin
    ?_ hkeep ?_
  · refine ⟨hsound, hg, fun _ _ h => h, hkeep, fun other hmem => ?_⟩
    rw [List.mem_singleton.1 hmem]
    exact hnew
  · intro n v hv
    rcases eq_or_of_getElem?_insert hv with ⟨rfl, rfl⟩ | hv
    · exact Or.inr ⟨⟨info, by simp, rfl, Or.inr hnode⟩, operand, hr, rfl⟩
    · exact Or.inl hv
  · intro _ n hn'
    obtain ⟨rfl, -⟩ := Node.labelled.inj (hnode.symm.trans hn')
    exact Std.HashMap.getElem?_insert_self

/-- An operand gets a name. At most its variable is new. -/
theorem nameOperand_sound {v : NodeId} {operand : Staged}
    (hs : Sound ctx.settings src root s infos) (hroot : root ∈ src)
    (hr : StagedOperand src root s operand) (h : (nameOperand ctx operand).run s = .ok v s') :
    ∃ more, Progress ctx.settings src root s infos s' more ∧
      s'.named[operand.node]? = some v ∧ ∀ info ∈ more, info.node = v := by
  rcases nameOperand_eq_ok.1 h with ⟨hknown, rfl⟩ | ⟨hnone, info, s₁, hinfo, rfl, rfl⟩
  · exact ⟨[], .refl hs, hknown, List.forall_mem_nil _⟩
  · cases hl : s.graph.label? operand.node with
    | some l =>
      -- a variable is its own name
      obtain ⟨hmem, hrun⟩ := hr.run_register hs hroot hl
      rw [hrun] at hinfo
      cases hinfo
      have hrefl := Progress.refl hs
      have hname : Names s.graph (infos ++ []) operand.node operand.node :=
        ⟨_, by rwa [List.append_nil], rfl, Or.inl rfl⟩
      exact ⟨[], ⟨hrefl.sound.rememberName hnone hname ⟨operand, hr, rfl⟩, hrefl.grows, hrefl.staged,
        fun n v hv => getElem?_insert_of_none hnone hv hv, hrefl.minted⟩,
        Std.HashMap.getElem?_insert_self, List.forall_mem_nil _⟩
    | none =>
      refine ⟨[info], nameFresh_sound hs hroot hr hl hnone hinfo,
        Std.HashMap.getElem?_insert_self, fun other hmem => ?_⟩
      rw [List.mem_singleton.1 hmem]

/-- The operand that replaces a staged one, if names are given. -/
def State.nameOf (s : State) (r : Staged) : NodeId :=
  if worthNaming (s.graph.node r.node) = true then (s.named[r.node]?).getD r.node else r.node

/-- Every operand that is worth a name gets one. -/
theorem nameEach_sound {rs : List Staged} {new : List NodeId}
    (hs : Sound ctx.settings src root s infos) (hroot : root ∈ src)
    (hrs : ∀ r ∈ rs, StagedOperand src root s r) (h : (nameEach ctx rs).run s = .ok new s') :
    ∃ more, Progress ctx.settings src root s infos s' more ∧ new = rs.map s'.nameOf ∧
      (∀ r ∈ rs, worthNaming (s'.graph.node r.node) = true →
        s'.named[r.node]? = some (s'.nameOf r)) ∧
      ∀ info ∈ more, info.node ∈ new := by
  induction rs generalizing s infos new with
  | nil =>
    rw [nameEach, run_pure_eq_ok] at h
    obtain ⟨rfl, rfl⟩ := h
    exact ⟨[], .refl hs, rfl, List.forall_mem_nil _, List.forall_mem_nil _⟩
  | cons operand rest ih =>
    obtain ⟨v, s₁, others, hv, hothers, rfl⟩ := nameEach_cons_eq_ok.1 h
    have hr := hrs operand List.mem_cons_self
    obtain ⟨i, hi, hstands⟩ := hr.exists_stands hs
    -- the first operand is named, or stays as it is
    obtain ⟨more₁, hprogress₁, hname, hmore₁⟩ :
        ∃ more₁, Progress ctx.settings src root s infos s₁ more₁ ∧
          (if worthNaming (s.graph.node operand.node) = true then
            s₁.named[operand.node]? = some v else v = operand.node) ∧
          ∀ info ∈ more₁, info.node = v := by
      split at hv
      case isTrue hworth =>
        obtain ⟨more₁, hprogress₁, hname, hmore₁⟩ := nameOperand_sound hs hroot hr hv
        rw [if_pos hworth]
        exact ⟨more₁, hprogress₁, hname, hmore₁⟩
      case isFalse hworth =>
        obtain ⟨rfl, rfl⟩ := run_pure_eq_ok.1 hv
        rw [if_neg hworth]
        exact ⟨[], .refl hs, rfl, List.forall_mem_nil _⟩
    have hrest : ∀ r ∈ rest, StagedOperand src root s₁ r :=
      fun r hmem => (hrs r (List.mem_cons_of_mem _ hmem)).mono hprogress₁
    obtain ⟨more₂, hprogress₂, rfl, hnamed, hmore₂⟩ := ih hprogress₁.sound hrest hothers
    have hprogress := hprogress₁.trans hprogress₂
    -- naming the others changes neither its layer nor its name
    have hkept : s'.graph.node operand.node = s.graph.node operand.node :=
      hprogress.grows.node_eq _ (hs.mem hroot hi hstands)
    have hof : s'.nameOf operand = v := by
      rw [State.nameOf, hkept]
      split at hname
      case isTrue hworth => rw [if_pos hworth, hprogress₂.named _ _ hname, Option.getD_some]
      case isFalse hworth => rw [if_neg hworth, hname]
    refine ⟨more₁ ++ more₂, hprogress, by rw [List.map_cons, hof], ?_, ?_⟩
    · intro r hmem hworth
      rcases List.mem_cons.1 hmem with rfl | hmem
      · rw [hkept] at hworth
        rw [if_pos hworth] at hname
        rw [hof]
        exact hprogress₂.named _ _ hname
      · exact hnamed r hmem hworth
    · intro info hmem
      rcases List.mem_append.1 hmem with hmem | hmem
      · rw [hmore₁ info hmem]
        exact List.mem_cons_self
      · exact List.mem_cons_of_mem _ (hmore₂ info hmem)

/-! ## Staging the operands -/

/-- The result for a node that was staged. -/
def State.standIn (s : State) (i : NodeId) : Staged := (s.staged[i]?).getD ⟨i, .empty 0⟩

theorem State.standIn_eq {s : State} {i : NodeId} {r : Staged} (h : s.staged[i]? = some r) :
    s.standIn i = r := by
  rw [standIn, h, Option.getD_some]

/-- What is asked of an action that stages nodes: it keeps the invariant, remembers its result, and
registers only variables that the result reaches. -/
def StagesSoundly (settings : Settings) (src : Graph) (root : NodeId)
    (stage : NodeId → Action Staged) : Prop :=
  ∀ {s : State} {infos : List RegisteredVariable} {i : NodeId} {r : Staged} {s' : State},
    Sound settings src root s infos → src.Reaches root i → Ready src infos i →
    (stage i).run s = .ok r s' →
    ∃ more, Progress settings src root s infos s' more ∧ s'.staged[i]? = some r ∧
      ∀ info ∈ more, s'.graph.Reaches r.node info.node

theorem stageEach_sound {stage : NodeId → Action Staged} {is : List NodeId} {rs : List Staged}
    (hstage : StagesSoundly settings src root stage) (hroot : root ∈ src)
    (hs : Sound settings src root s infos) (his : ∀ i ∈ is, src.Reaches root i)
    (hready : ∀ i ∈ is, Ready src infos i) (h : (stageEach stage is).run s = .ok rs s') :
    ∃ more, Progress settings src root s infos s' more ∧ rs = is.map s'.standIn ∧
      (∀ i ∈ is, s'.staged[i]? = some (s'.standIn i)) ∧
      ∀ info ∈ more, ∃ i ∈ is, s'.graph.Reaches (s'.standIn i).node info.node := by
  induction is generalizing s infos rs with
  | nil =>
    rw [stageEach, run_pure_eq_ok] at h
    obtain ⟨rfl, rfl⟩ := h
    exact ⟨[], .refl hs, rfl, List.forall_mem_nil _, List.forall_mem_nil _⟩
  | cons i is ih =>
    obtain ⟨r, s₁, rest, hr, hrest, rfl⟩ := stageEach_cons_eq_ok.1 h
    have hi := his i List.mem_cons_self
    obtain ⟨more₁, hprogress₁, hstaged, hmore₁⟩ :=
      hstage hs hi (hready i List.mem_cons_self) hr
    obtain ⟨more₂, hprogress₂, rfl, hall, hmore₂⟩ := ih hprogress₁.sound
      (fun j hj => his j (List.mem_cons_of_mem _ hj))
      (fun j hj => (hready j (List.mem_cons_of_mem _ hj)).mono (List.subset_append_left _ _))
      hrest
    have hkept : s'.staged[i]? = some r := hprogress₂.staged i r hstaged
    have hof : s'.standIn i = r := State.standIn_eq hkept
    refine ⟨more₁ ++ more₂, hprogress₁.trans hprogress₂, by rw [List.map_cons, hof], ?_, ?_⟩
    · intro j hj
      rcases List.mem_cons.1 hj with rfl | hj
      · rw [hof]
        exact hkept
      · exact hall j hj
    · intro info hmem
      rcases List.mem_append.1 hmem with hmem | hmem
      · refine ⟨i, List.mem_cons_self, ?_⟩
        obtain ⟨-, hstands⟩ := hprogress₁.sound.staged i r hstaged
        rw [hof]
        exact hprogress₂.grows.reaches (hprogress₁.sound.mem hroot hi hstands)
          (hmore₁ info hmem)
      · obtain ⟨j, hj, hreach⟩ := hmore₂ info hmem
        exact ⟨j, List.mem_cons_of_mem _ hj, hreach⟩

/-! ## Staging a layer -/

/-- The new operands of a node: what stands for the old ones, or names where they differ. -/
theorem replaces_of_names {is : List NodeId} {staged : NodeId → Staged} {deps : DependencySet}
    {new : List NodeId} (hs : Sound ctx.settings src root s infos) (hroot : root ∈ src)
    (his : ∀ j ∈ is, IsOperand src root j)
    (hstaged : ∀ j ∈ is, s.staged[j]? = some (staged j))
    (h : (if isMixed s.graph (is.map staged) deps then nameEach ctx (is.map staged)
      else pure ((is.map staged).map Staged.node)).run s = .ok new s') :
    ∃ more names, Progress ctx.settings src root s infos s' more ∧ new = is.map names ∧
      Replaces s'.graph (infos ++ more) is staged deps names ∧
      ∀ info ∈ more, info.node ∈ new := by
  split at h
  case isTrue hmixed =>
    have hrs : ∀ r ∈ is.map staged, StagedOperand src root s r :=
      List.forall_mem_map.2 fun j hj => ⟨j, his j hj, hstaged j hj⟩
    obtain ⟨more, hprogress, hnew, hnamed, hmore⟩ := nameEach_sound hs hroot hrs h
    refine ⟨more, fun j => s'.nameOf (staged j), hprogress, ?_, .named (fun j hj => ?_) ?_, hmore⟩
    · rw [hnew, List.map_map]
      rfl
    · split
      case isTrue hworth =>
        exact hprogress.sound.named _ _ (hnamed _ (List.mem_map_of_mem hj) hworth)
      case isFalse hworth => rw [State.nameOf, if_neg hworth]
    · -- some operand has made the node mixed
      rw [isMixed, List.any_eq_true] at hmixed
      obtain ⟨r, hr, hworth⟩ := hmixed
      obtain ⟨j, hj, rfl⟩ := List.mem_map.1 hr
      rw [Bool.and_eq_true, bne_iff_ne] at hworth
      refine ⟨j, hj, ?_, hworth.2⟩
      obtain ⟨hreach, hstands⟩ := hs.staged j _ (hstaged j hj)
      rw [hprogress.grows.node_eq _ (hs.mem hroot hreach hstands)]
      exact hworth.1
  case isFalse hmixed =>
    obtain ⟨rfl, rfl⟩ := run_pure_eq_ok.1 h
    refine ⟨[], fun j => (staged j).node, .refl hs, List.map_map, .uniform fun j hj => ⟨rfl, ?_⟩,
      List.forall_mem_nil _⟩
    -- an operand with other dependencies would make the node mixed
    intro hworth
    by_cases hdeps : (staged j).deps = deps
    · exact hdeps
    · refine absurd ?_ hmixed
      rw [isMixed, List.any_eq_true]
      exact ⟨staged j, List.mem_map_of_mem hj, by simp [hworth, hdeps]⟩

/-- A node over new operands is the old layer over them. -/
theorem Rebuilds.node_eq_map {i j : NodeId} {names : NodeId → NodeId}
    (h : Rebuilds s i ((s.graph.operands i).map names) j s') :
    s'.graph.node j = (s.graph.node i).map names := by
  have heq := h.node_eq
  rw [Graph.operands, Node.withOperands?_map] at heq
  exact (Option.some.inj heq).symm

/-- A new node over given operands keeps the invariant. -/
theorem Rebuilds.progress {i j : NodeId} {operands : List NodeId}
    (h : Rebuilds s i operands j s') (hs : Sound settings src root s infos)
    (hroot : root ∈ src) : Progress settings src root s infos s' [] := by
  rw [h.state_eq]
  exact hs.grow hroot h.grows

theorem stageOperator_sound {stage : NodeId → Action Staged} {i : NodeId} {r : Staged}
    (hstage : StagesSoundly ctx.settings src root stage) (hroot : root ∈ src)
    (hs : Sound ctx.settings src root s infos) (hi : src.Reaches root i)
    (hready : Ready src infos i) (hplain : isPlain (src.node i) = true)
    (h : (stageOperator ctx stage i (s.graph.operands i)).run s = .ok r s') :
    ∃ more, Progress ctx.settings src root s infos s' more ∧
      Stands ctx.settings src s'.graph (infos ++ more) i r ∧
      ∀ info ∈ more, s'.graph.Reaches r.node info.node := by
  have hin := hi.mem hroot
  rw [hs.grows.operands_eq hin] at h
  obtain ⟨rs, s₁, deps, new, s₂, hrs, hdeps, hnew, hr⟩ := stageOperator_eq_ok.1 h
  have hops : ∀ j ∈ src.operands i, src.Reaches root j := fun j hj => hi.tail hj
  -- the operands are staged
  obtain ⟨more₁, hprogress₁, rfl, hall, hmore₁⟩ :=
    stageEach_sound hstage hroot hs hops (fun j hj => hready.operand hj) hrs
  have hstands₁ : ∀ j ∈ src.operands i,
      Stands ctx.settings src s₁.graph (infos ++ more₁) j (s₁.standIn j) :=
    fun j hj => (hprogress₁.sound.staged j _ (hall j hj)).2
  -- they are replaced
  obtain ⟨more₂, names, hprogress₂, rfl, hreplaces, hmore₂⟩ :=
    replaces_of_names hprogress₁.sound hroot (fun j hj => ⟨i, hi, hplain, hj⟩) hall hnew
  have hprogress₁₂ := hprogress₁.trans hprogress₂
  -- the node is rebuilt over what replaces them
  rw [← hprogress₁₂.sound.grows.operands_eq hin] at hr
  obtain ⟨hrebuilds, hrdeps⟩ := withOperands_eq_ok (hprogress₁₂.sound.grows.mem hin) hr
  have hprogress₃ := hrebuilds.progress hprogress₁₂.sound hroot
  have hprogress := hprogress₁₂.trans hprogress₃
  rw [List.append_nil] at hprogress
  have hnode : s'.graph.node r.node = (src.node i).map names := by
    rw [← hprogress₁₂.sound.grows.node_eq i hin]
    exact hrebuilds.node_eq_map
  have hmem₁ : ∀ j ∈ src.operands i, (s₁.standIn j).node ∈ s₁.graph :=
    fun j hj => hprogress₁.sound.mem hroot (hops j hj) (hstands₁ j hj)
  have hgrows : s₁.graph.Extends s'.graph := hprogress₂.grows.trans hrebuilds.grows
  have hsub : infos ++ more₁ ⊆ infos ++ (more₁ ++ more₂) := by
    rw [← List.append_assoc]
    exact List.subset_append_left _ _
  have hreplaces' : Replaces s'.graph (infos ++ (more₁ ++ more₂)) (src.operands i) s₁.standIn
      deps names := by
    have hmem₂ : ∀ j ∈ src.operands i, (s₁.standIn j).node ∈ s₂.graph :=
      fun j hj => hprogress₂.grows.mem (hmem₁ j hj)
    have hkept := hreplaces.mono hrebuilds.grows hprogress₂.sound.built.labels
      (List.Subset.refl _) hmem₂
    rwa [List.append_assoc] at hkept
  -- what is registered on the way is an operand of the new node, or below one
  have hoperand : ∀ j ∈ src.operands i, names j ∈ s'.graph.operands r.node := by
    intro j hj
    rw [Graph.operands, hnode, Node.operands_map]
    exact List.mem_map_of_mem hj
  refine ⟨more₁ ++ more₂, hprogress, ?_, ?_⟩
  · have hstands : Stands ctx.settings src s'.graph (infos ++ (more₁ ++ more₂)) i
        ⟨r.node, deps⟩ := by
      refine .operator s₁.standIn names hplain (fun j hj => ?_) ?_ hreplaces' hrebuilds.mem hnode
      · exact (hstands₁ j hj).mono hprogress₁.sound.grows hgrows hprogress₁.sound.built.labels
          hsub ((hops j hj).mem hroot)
      · rw [List.map_map] at hdeps
        exact hdeps
    rwa [← hrdeps] at hstands
  · intro info hmem
    rcases List.mem_append.1 hmem with hmem | hmem
    · obtain ⟨j, hj, hreach⟩ := hmore₁ info hmem
      exact Graph.Reaches.head (hoperand j hj)
        ((hreplaces'.reaches hj).trans (hgrows.reaches (hmem₁ j hj) hreach))
    · obtain ⟨j, hj, hname⟩ := List.mem_map.1 (hmore₂ info hmem)
      rw [← hname]
      exact Graph.Reaches.operand (hoperand j hj)

theorem stageDerivative_sound {stage : NodeId → Action Staged} {i a b : NodeId} {r : Staged}
    (hstage : StagesSoundly settings src root stage) (hroot : root ∈ src)
    (hs : Sound settings src root s infos) (hi : src.Reaches root i)
    (hready : Ready src infos i) (hnode : src.node i = .spatialDerivative a b)
    (h : (stageDerivative stage i a b).run s = .ok r s') :
    ∃ more, Progress settings src root s infos s' more ∧
      Stands settings src s'.graph (infos ++ more) i r ∧
      ∀ info ∈ more, s'.graph.Reaches r.node info.node := by
  have hin := hi.mem hroot
  have hops := Graph.operands_of_derivative hnode
  have ha : a ∈ src.operands i := by simp [hops]
  have hb : b ∈ src.operands i := by simp [hops]
  obtain ⟨ra, s₁, hra, hr⟩ := stageDerivative_eq_ok.1 h
  obtain ⟨more, hprogress₁, hstaged, hmore⟩ := hstage hs (hi.tail ha) (hready.operand ha) hra
  obtain ⟨-, hstands⟩ := hprogress₁.sound.staged a ra hstaged
  have hmem := hprogress₁.sound.mem hroot (hi.tail ha) hstands
  rw [← hops, ← hprogress₁.sound.grows.operands_eq hin] at hr
  obtain ⟨hrebuilds, hrdeps⟩ := withOperands_eq_ok (hprogress₁.sound.grows.mem hin) hr
  have hprogress := hprogress₁.trans (hrebuilds.progress hprogress₁.sound hroot)
  rw [List.append_nil] at hprogress
  have hnode' : s'.graph.node r.node = .spatialDerivative ra.node b := by
    have heq := hrebuilds.node_eq
    rw [hprogress₁.sound.grows.node_eq i hin, hnode] at heq
    exact (Option.some.inj heq).symm
  refine ⟨more, hprogress, ?_, fun info hinfo => ?_⟩
  · have hstands' := hstands.mono hprogress₁.sound.grows hrebuilds.grows
      hprogress₁.sound.built.labels (List.Subset.refl _) ((hi.tail ha).mem hroot)
    have hready' := (hready.operand hb).mono (List.subset_append_left infos more)
    have hderivative := Stands.derivative hnode hstands' hready' hrebuilds.mem hnode'
    rwa [← hrdeps] at hderivative
  · refine Graph.Reaches.head (k := info.node) ?_ (hrebuilds.grows.reaches hmem (hmore info hinfo))
    simp [Graph.operands_of_derivative hnode']

/-- A layer is replaced by what stands for it. -/
theorem stageNode_sound {stage : NodeId → Action Staged} {i : NodeId} {r : Staged}
    (hstage : StagesSoundly ctx.settings src root stage) (hroot : root ∈ src)
    (hs : Sound ctx.settings src root s infos) (hi : src.Reaches root i)
    (hready : Ready src infos i) (h : (stageNode ctx stage i).run s = .ok r s') :
    ∃ more, Progress ctx.settings src root s infos s' more ∧
      Stands ctx.settings src s'.graph (infos ++ more) i r ∧
      ∀ info ∈ more, s'.graph.Reaches r.node info.node := by
  have hnode := hs.grows.node_eq i (hi.mem hroot)
  have hnone : ∀ info ∈ ([] : List RegisteredVariable), s'.graph.Reaches r.node info.node :=
    List.forall_mem_nil _
  rcases stageNode_eq_ok.1 h with ⟨hdeps, rfl, rfl⟩ | ⟨l, info, hl, hget, rfl, rfl⟩ |
    ⟨a, b, hab, h⟩ | ⟨hplain, h⟩
  · refine ⟨[], .refl hs, ?_, hnone⟩
    rw [hnode] at hdeps
    exact .leaf hdeps
  · refine ⟨[], .refl hs, ?_, hnone⟩
    rw [List.append_nil]
    rw [hs.grows.label?_eq (hi.mem hroot), ← hs.groups.label_eq hget] at hl
    exact .labelled hl (hs.groups.mem hget)
  · rw [hnode] at hab
    exact stageDerivative_sound hstage hroot hs hi hready hab h
  · rw [hnode] at hplain
    exact stageOperator_sound hstage hroot hs hi hready hplain h

/-- What staging gives stands for the node. -/
theorem stage_sound (ctx : Context) (hroot : root ∈ src) (room : Nat) :
    StagesSoundly ctx.settings src root (stage ctx room) := by
  induction room using Nat.strongRecOn with
  | ind room ih =>
    intro s infos i r s' hs hi hready h
    rcases stage_eq_ok h with ⟨hknown, rfl⟩ | ⟨less, s₁, hless, hnone, hr, rfl⟩
    · exact ⟨[], .refl hs, hknown, List.forall_mem_nil _⟩
    · obtain ⟨more, hprogress, hstands, hmore⟩ :=
        stageNode_sound (ih less hless) hroot hs hi hready hr
      -- the memo has no result for `i` yet, so none is overwritten
      have hfills := (FillsBelow.stageNode (.stage ctx less) i).fills hr
      have hnone₁ : s₁.staged[i]? = none := (hfills.from_bound i (Nat.le_refl i)).trans hnone
      refine ⟨more, ⟨hprogress.sound.remember hnone₁ hi hstands, hprogress.grows, ?_, hprogress.named,
        hprogress.minted⟩, Std.HashMap.getElem?_insert_self, hmore⟩
      exact fun j r' hr' => getElem?_insert_of_none hnone hr' (hprogress.staged j r' hr')

end Staging

end FormStaging

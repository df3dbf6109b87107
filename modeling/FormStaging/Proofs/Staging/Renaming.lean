import FormStaging.Proofs.Graph.Copies
import FormStaging.Proofs.Staging.Evolution

/-!
# States under other labels

Two runs go side by side, one on an expression and one on a copy under other labels. A `Renaming` says
which nodes and labels of the second run stand for those of the first one, for the nodes and labels of
the expression and for all that the runs will make. Nodes are numbered and labels are minted in
ascending order, so what is made next in one run stands for what is made next in the other one, though
the numbers differ.

`Matches ρ s s'` says that state `s'` is state `s` renamed. It is kept by each change that a run makes
to a state, if the change is made in both states: a new node and its copy (`Matches.push`), a minted
label (`Matches.mint`), a registration (`Matches.register`), an entry of a memo, and the final order of
the variables (`Matches.reorder`).
-/

set_option autoImplicit false

namespace FormStaging

/-! ## Renamed data -/

/-- The variable at another node and under another label. -/
def RegisteredVariable.rename (φ : NodeId → NodeId) (r : Label → Label) (info : RegisteredVariable) :
    RegisteredVariable :=
  ⟨r info.label, φ info.node, info.deps⟩

/-- The stack under other labels. -/
def Stack.rename (r : Label → Label) (s : Stack) : Stack := ⟨s.deps, s.labels.map r⟩

namespace Stack

variable (r : Label → Label)

theorem place_rename (deps : DependencySet) (label : Label) (ss : List Stack) :
    place deps (r label) (ss.map (rename r)) = (place deps label ss).map (rename r) := by
  induction ss with
  | nil => rfl
  | cons s ss ih =>
    rw [List.map_cons, place, place, ih]
    by_cases h : s.deps = deps <;> simp [rename, h]

/-- Variables under other labels have the stacks under these labels. -/
theorem group_rename (φ : NodeId → NodeId) (infos : List RegisteredVariable) :
    group (infos.map (RegisteredVariable.rename φ r)) = (group infos).map (rename r) := by
  induction infos using List.reverseRecOn with
  | nil => rfl
  | append_singleton infos info ih =>
    rw [List.map_append, List.map_cons, List.map_nil, group_concat, group_concat, ih]
    exact place_rename r info.deps info.label (group infos)

theorem flatMap_labels_rename (ss : List Stack) :
    (ss.map (rename r)).flatMap labels = (ss.flatMap labels).map r := by
  simp only [List.flatMap_map, List.map_flatMap, rename]

end Stack

/-- Variables under other labels are registered under these labels. -/
theorem CodeStructure.Groups.get?_rename {code code' : CodeStructure}
    {infos : List RegisteredVariable} {φ : NodeId → NodeId} {r : Label → Label} {labels : Set Label}
    {l : Label} (h : code.Groups infos)
    (h' : code'.Groups (infos.map (RegisteredVariable.rename φ r))) (hr : Set.InjOn r labels)
    (hinfos : ∀ info ∈ infos, info.label ∈ labels) (hl : l ∈ labels) :
    code'.get? (r l) = (code.get? l).map (RegisteredVariable.rename φ r) := by
  apply Option.ext
  intro info'
  rw [h'.get?_iff, Option.map_eq_some_iff, List.mem_map]
  constructor
  · rintro ⟨⟨info, hmem, rfl⟩, hlabel⟩
    exact ⟨info, (h.get?_iff l info).2 ⟨hmem, hr (hinfos info hmem) hl hlabel⟩, rfl⟩
  · rintro ⟨info, hget, rfl⟩
    obtain ⟨hmem, rfl⟩ := (h.get?_iff l info).1 hget
    exact ⟨⟨info, hmem, rfl⟩, rfl⟩

namespace Staging

/-- The result for another node. -/
def Staged.rename (φ : NodeId → NodeId) (r : Staged) : Staged := ⟨φ r.node, r.deps⟩

/-! ## Renamings -/

/-- Other numbers for some nodes and other values for some labels. -/
structure Renaming where
  node : NodeId → NodeId
  label : Label → Label
  /-- The nodes that are renamed. -/
  nodes : Set NodeId
  /-- The labels that are renamed. -/
  labels : Set Label
  /-- No two nodes become one. -/
  node_injOn : Set.InjOn node nodes
  /-- No two labels become one. -/
  label_injOn : Set.InjOn label labels

/-- Lists of renamed nodes are told apart by their images. -/
theorem Renaming.eq_of_map_node_eq {ρ : Renaming} {is js : List NodeId} (his : ∀ i ∈ is, i ∈ ρ.nodes)
    (hjs : ∀ j ∈ js, j ∈ ρ.nodes) (h : is.map ρ.node = js.map ρ.node) : is = js := by
  induction is generalizing js with
  | nil => simpa [eq_comm] using h
  | cons i is ih =>
    cases js with
    | nil => cases h
    | cons j js =>
      rw [List.map_cons, List.map_cons, List.cons.injEq] at h
      obtain ⟨hi, his⟩ := List.forall_mem_cons.1 his
      obtain ⟨hj, hjs⟩ := List.forall_mem_cons.1 hjs
      rw [ρ.node_injOn hi hj h.1, ih his hjs h.2]

/-- A layer over renamed operands and under a renamed label. -/
def Renaming.layer (ρ : Renaming) (n : Node NodeId) : Node NodeId :=
  (n.map ρ.node).relabel ρ.label

theorem Renaming.worthNaming_layer (ρ : Renaming) (n : Node NodeId) :
    worthNaming (ρ.layer n) = worthNaming n := by
  cases n <;> rfl

/-- A memo for the renamed nodes. All its values satisfy `P`, and in the second memo they are renamed
by `f`. -/
def Renaming.MapsMemo {β : Type} (ρ : Renaming) (f : β → β) (P : β → Prop)
    (memo memo' : Std.HashMap NodeId β) : Prop :=
  ∀ i ∈ ρ.nodes, memo'[ρ.node i]? = (memo[i]?).map f ∧ ∀ b, memo[i]? = some b → P b

theorem Renaming.MapsMemo.insert {β : Type} {ρ : Renaming} {f : β → β} {P : β → Prop}
    {memo memo' : Std.HashMap NodeId β} {i : NodeId} {b : β} (h : ρ.MapsMemo f P memo memo')
    (hi : i ∈ ρ.nodes) (hb : P b) :
    ρ.MapsMemo f P (memo.insert i b) (memo'.insert (ρ.node i) (f b)) := by
  intro j hj
  by_cases hij : i = j
  · subst hij
    simp [hb]
  · have hne : ρ.node i ≠ ρ.node j := fun he => hij (ρ.node_injOn hi hj he)
    simpa [Std.HashMap.getElem?_insert, hij, hne] using h j hj

/-! ## States -/

/-- A label that is renamed and is not minted any more. -/
structure Avoided (ρ : Renaming) (supply supply' : LabelSupply) (l : Label) : Prop where
  mem : l ∈ ρ.labels
  lt : l.value < supply.next
  lt' : (ρ.label l).value < supply'.next

/-- The registered variables of two code structures are `infos` and these renamed, in the order of their
registration. -/
structure RenamesCode (ρ : Renaming) (g : Graph) (code code' : CodeStructure)
    (infos : List RegisteredVariable) : Prop where
  groups : code.Groups infos
  groups' : code'.Groups (infos.map (RegisteredVariable.rename ρ.node ρ.label))
  node_mem : ∀ info ∈ infos, info.node ∈ ρ.nodes
  labels : Labels g infos

/-- State `s'` is state `s` renamed. -/
structure Matches (ρ : Renaming) (s s' : State) : Prop where
  copies : s.graph.Copies s'.graph ρ.node ρ.label ρ.nodes
  /-- The nodes that will be made stand for each other. -/
  next_node : ∀ k, s.graph.size + k ∈ ρ.nodes ∧ ρ.node (s.graph.size + k) = s'.graph.size + k
  /-- The labels that will be minted stand for each other, as far as there are labels. -/
  next_label : ∀ l l' : Label, s.labels.next ≤ l.value →
    l.value.val + s'.labels.next.val = l'.value.val + s.labels.next.val →
    l ∈ ρ.labels ∧ ρ.label l = l'
  avoided : ∀ l ∈ s.graph.labelsOf ρ.nodes, Avoided ρ s.labels s'.labels l
  code : ∃ infos, RenamesCode ρ s.graph s.code s'.code infos
  staged : ρ.MapsMemo (Staged.rename ρ.node) (fun r => r.node ∈ ρ.nodes) s.staged s'.staged
  named : ρ.MapsMemo ρ.node (· ∈ ρ.nodes) s.named s'.named

variable {ρ : Renaming} {s s' : State} {i : NodeId} {l : Label} {info : RegisteredVariable}

namespace Matches

/-! ### What is known of matching states -/

theorem labels_injOn (h : Matches ρ s s') : Set.InjOn ρ.label (s.graph.labelsOf ρ.nodes) :=
  ρ.label_injOn.mono fun l hl => (h.avoided l hl).mem

theorem avoided_of_label? (h : Matches ρ s s') (hi : i ∈ ρ.nodes) (hl : s.graph.label? i = some l) :
    Avoided ρ s.labels s'.labels l :=
  h.avoided l ⟨i, hi, hl⟩

theorem node_eq (h : Matches ρ s s') (hi : i ∈ ρ.nodes) :
    s'.graph.node (ρ.node i) = ρ.layer (s.graph.node i) :=
  h.copies.node_eq i hi

/-- What is registered is a renamed node with its label. -/
theorem registered (h : Matches ρ s s') (hget : s.code.get? l = some info) :
    info.node ∈ ρ.nodes ∧ info.label = l ∧ s.graph.label? info.node = some l := by
  obtain ⟨infos, hcode⟩ := h.code
  have hmem := hcode.groups.mem hget
  have hlabel := hcode.groups.label_eq hget
  exact ⟨hcode.node_mem info hmem, hlabel, hlabel ▸ hcode.labels info hmem⟩

/-- Under a renamed label, the renamed variable is registered, or none in both states. -/
theorem get?_eq (h : Matches ρ s s') (hl : l ∈ ρ.labels) :
    s'.code.get? (ρ.label l) = (s.code.get? l).map (RegisteredVariable.rename ρ.node ρ.label) := by
  obtain ⟨infos, hcode⟩ := h.code
  apply hcode.groups.get?_rename hcode.groups' ρ.label_injOn _ hl
  intro info hmem
  exact (h.avoided_of_label? (hcode.node_mem info hmem) (hcode.labels info hmem)).mem

/-- A renamed label is registered in both states, for a variable and the renamed one, or in none. -/
theorem get?_cases (h : Matches ρ s s') (hl : l ∈ ρ.labels) :
    (s.code.get? l = none ∧ s'.code.get? (ρ.label l) = none) ∨
      ∃ info, s.code.get? l = some info ∧
        s'.code.get? (ρ.label l) = some (info.rename ρ.node ρ.label) ∧ info.node ∈ ρ.nodes ∧
        s.graph.label? info.node = some l := by
  have hget := h.get?_eq hl
  cases hknown : s.code.get? l with
  | none =>
    rw [hknown, Option.map_none] at hget
    exact Or.inl ⟨rfl, hget⟩
  | some info =>
    rw [hknown, Option.map_some] at hget
    obtain ⟨hmem, -, hlabel⟩ := h.registered hknown
    exact Or.inr ⟨info, rfl, hget, hmem, hlabel⟩

/-- The labels below a renamed node are avoided already. -/
theorem reserveAll?_eq (h : Matches ρ s s') (hi : i ∈ ρ.nodes) :
    s.labels.reserveAll? (s.graph.labels i) = some s.labels ∧
      s'.labels.reserveAll? (s'.graph.labels (ρ.node i)) = some s'.labels := by
  have havoided : ∀ l ∈ s.graph.labels i, Avoided ρ s.labels s'.labels l := fun l hl =>
    h.avoided l (h.copies.mem_labelsOf hi hl)
  rw [h.copies.labels_eq h.labels_injOn hi]
  refine ⟨LabelSupply.reserveAll?_of_lt fun l hl => (havoided l hl).lt,
    LabelSupply.reserveAll?_of_lt ?_⟩
  intro l' hl'
  obtain ⟨l, hl, rfl⟩ := List.mem_map.1 hl'
  exact (havoided l hl).lt'

/-- The next labels stand for each other. -/
theorem label_next (h : Matches ρ s s') :
    (⟨s.labels.next⟩ : Label) ∈ ρ.labels ∧ ρ.label ⟨s.labels.next⟩ = ⟨s'.labels.next⟩ :=
  h.next_label ⟨s.labels.next⟩ ⟨s'.labels.next⟩ (Nat.le_refl _) (Nat.add_comm _ _)

/-! ### What keeps states matching -/

/-- Minting a label in both states. The label is avoided from then on. -/
theorem mint {labels labels' : LabelSupply} {l' : Label} (h : Matches ρ s s')
    (hmint : s.labels.mint? = some (l, labels)) (hmint' : s'.labels.mint? = some (l', labels')) :
    Matches ρ { s with labels := labels } { s' with labels := labels' } ∧
      Avoided ρ labels labels' l ∧ ρ.label l = l' := by
  have hle : s.labels.next.val ≤ labels.next.val := LabelSupply.next_le_of_mint? hmint
  have hle' : s'.labels.next.val ≤ labels'.next.val := LabelSupply.next_le_of_mint? hmint'
  have hlt := LabelSupply.lt_next_of_mint? hmint
  have hlt' := LabelSupply.lt_next_of_mint? hmint'
  obtain ⟨rfl, hnext⟩ := LabelSupply.mint?_eq_some_iff.1 hmint
  obtain ⟨rfl, hnext'⟩ := LabelSupply.mint?_eq_some_iff.1 hmint'
  obtain ⟨hmem, hlabel⟩ := h.label_next
  refine ⟨{ h with next_label := fun m m' hm hsum => ?_, avoided := fun m hm => ?_ },
    ⟨hmem, hlt, hlabel ▸ hlt'⟩, hlabel⟩
  · refine h.next_label m m' (Nat.le_trans hle hm) ?_
    simp only [hnext, hnext'] at hsum
    omega
  · obtain ⟨hmem, hm, hm'⟩ := h.avoided m hm
    exact ⟨hmem, Nat.lt_of_lt_of_le hm hle, Nat.lt_of_lt_of_le hm' hle'⟩

/-- A renamed node is in both graphs, or it is the next one in both, or it comes later in both. -/
theorem node_cases {j : NodeId} (h : Matches ρ s s') (hj : j ∈ ρ.nodes) :
    (j ∈ s.graph ∧ ρ.node j ∈ s'.graph) ∨ (j = s.graph.size ∧ ρ.node j = s'.graph.size) ∨
      (s.graph.size < j ∧ s'.graph.size < ρ.node j) := by
  rcases Nat.lt_trichotomy j s.graph.size with hlt | rfl | hlt
  · exact Or.inl ⟨hlt, (h.copies.mem_iff j hj).2 hlt⟩
  · exact Or.inr (Or.inl ⟨rfl, (h.next_node 0).2⟩)
  · obtain ⟨k, rfl⟩ := Nat.exists_eq_add_of_lt hlt
    refine Or.inr (Or.inr ⟨hlt, ?_⟩)
    rw [Nat.add_assoc, (h.next_node (k + 1)).2]
    omega

/-- Adding a layer in one state and its copy in the other one. -/
theorem push {n : Node NodeId} (h : Matches ρ s s') (hops : ∀ j ∈ n.operands, j ∈ ρ.nodes)
    (hl : ∀ l, n.label? = some l → Avoided ρ s.labels s'.labels l)
    (hn : ∀ j ∈ n.operands, j ∈ s.graph) (hn' : ∀ j ∈ (ρ.layer n).operands, j ∈ s'.graph) :
    Matches ρ { s with graph := s.graph.push n hn }
      { s' with graph := s'.graph.push (ρ.layer n) hn' } := by
  have hg := Graph.Extends.push s.graph n hn
  have hg' := Graph.Extends.push s'.graph (ρ.layer n) hn'
  refine { h with
    copies := ⟨?closed, ?node, ?mem, ρ.node_injOn⟩
    next_node := ?next
    avoided := ?avoided
    code := ?code }
  case closed =>
    intro j hj k hk
    rcases h.node_cases hj with ⟨hlt, -⟩ | ⟨rfl, -⟩ | ⟨hlt, -⟩
    · rw [hg.operands_eq hlt] at hk
      exact h.copies.closed j hj k hk
    · rw [Graph.operands, Graph.node_push_size] at hk
      exact hops k hk
    · rw [Graph.operands, Graph.node_push_of_gt hn hlt] at hk
      exact absurd hk List.not_mem_nil
  case node =>
    intro j hj
    rcases h.node_cases hj with ⟨hlt, hlt'⟩ | ⟨rfl, heq⟩ | ⟨hlt, hlt'⟩
    · rw [hg.node_eq j hlt, hg'.node_eq _ hlt']
      exact h.node_eq hj
    · rw [heq, Graph.node_push_size, Graph.node_push_size]
      rfl
    · rw [Graph.node_push_of_gt hn hlt, Graph.node_push_of_gt hn' hlt']
      rfl
  case mem =>
    intro j hj
    rw [Graph.mem_push_iff, Graph.mem_push_iff]
    rcases h.node_cases hj with ⟨hlt, hlt'⟩ | ⟨rfl, heq⟩ | ⟨hlt, hlt'⟩
    · exact iff_of_true (Nat.le_of_lt hlt') (Nat.le_of_lt hlt)
    · exact iff_of_true (Nat.le_of_eq heq) (Nat.le_refl _)
    · exact iff_of_false (Nat.not_le_of_lt hlt') (Nat.not_le_of_lt hlt)
  case next =>
    intro k
    have hnext := h.next_node (k + 1)
    simpa [Nat.add_assoc, Nat.add_comm 1 k] using hnext
  case avoided =>
    rintro l ⟨j, hj, hlj⟩
    rcases h.node_cases hj with ⟨hlt, -⟩ | ⟨rfl, -⟩ | ⟨hlt, -⟩
    · rw [hg.label?_eq hlt] at hlj
      exact h.avoided_of_label? hj hlj
    · rw [Graph.label?, Graph.node_push_size] at hlj
      exact hl l hlj
    · rw [Graph.label?, Graph.node_push_of_gt hn hlt] at hlj
      cases hlj
  case code =>
    obtain ⟨infos, hcode⟩ := h.code
    refine ⟨infos, { hcode with labels := fun info hmem => ?_ }⟩
    exact hg.label?_eq_some (hcode.labels info hmem)

/-- Registering a variable under a new label. -/
theorem register (h : Matches ρ s s') (hi : info.node ∈ ρ.nodes)
    (hl : s.graph.label? info.node = some info.label) (hnew : s.code.get? info.label = none) :
    Matches ρ { s with code := s.code.insert info }
      { s' with code := s'.code.insert (info.rename ρ.node ρ.label) } := by
  have havoided := h.avoided_of_label? hi hl
  have hnew' : s'.code.get? (info.rename ρ.node ρ.label).label = none := by
    rw [RegisteredVariable.rename, h.get?_eq havoided.mem, hnew, Option.map_none]
  obtain ⟨infos, hcode⟩ := h.code
  refine { h with code := ⟨infos ++ [info], hcode.groups.insert hnew, ?_, ?_, ?_⟩ }
  · rw [List.map_append]
    exact hcode.groups'.insert hnew'
  · intro other hmem
    rcases List.mem_append.1 hmem with hmem | hmem
    · exact hcode.node_mem other hmem
    · rw [List.mem_singleton.1 hmem]
      exact hi
  · intro other hmem
    rcases List.mem_append.1 hmem with hmem | hmem
    · exact hcode.labels other hmem
    · rw [List.mem_singleton.1 hmem]
      exact hl

/-- Remembering a result. -/
theorem remember {r : Staged} (h : Matches ρ s s') (hi : i ∈ ρ.nodes) (hr : r.node ∈ ρ.nodes) :
    Matches ρ { s with staged := s.staged.insert i r }
      { s' with staged := s'.staged.insert (ρ.node i) (r.rename ρ.node) } :=
  { h with staged := h.staged.insert hi hr }

/-- Remembering a name. -/
theorem rememberName {v : NodeId} (h : Matches ρ s s') (hi : i ∈ ρ.nodes) (hv : v ∈ ρ.nodes) :
    Matches ρ { s with named := s.named.insert i v }
      { s' with named := s'.named.insert (ρ.node i) (ρ.node v) } :=
  { h with named := h.named.insert hi hv }

/-- Reordering the variables by the labels below a node. -/
theorem reorder (h : Matches ρ s s') (hi : i ∈ ρ.nodes) :
    Matches ρ { s with code := s.code.reorder (s.graph.labels i) }
      { s' with code := s'.code.reorder (s'.graph.labels (ρ.node i)) } := by
  obtain ⟨infos, hcode⟩ := h.code
  have horder : s'.code.order = s.code.order.map ρ.label := by
    rw [CodeStructure.order, CodeStructure.order, hcode.groups.stacks_eq, hcode.groups'.stacks_eq,
      Stack.group_rename, Stack.flatMap_labels_rename]
  -- all labels that count are renamed, so first occurrences stay first
  have hlabels : ∀ l ∈ s.graph.labels i ++ s.code.order, l ∈ ρ.labels := by
    intro l hl
    rcases List.mem_append.1 hl with hl | hl
    · exact (h.avoided l (h.copies.mem_labelsOf hi hl)).mem
    · obtain ⟨info, hget⟩ := hcode.groups.mem_order.1 hl
      obtain ⟨hmem, -, hlabel⟩ := h.registered hget
      exact (h.avoided_of_label? hmem hlabel).mem
  have hresolve : ∀ ls : List Label, (∀ l ∈ ls, l ∈ ρ.labels) → s'.code.resolve (ls.map ρ.label) =
      (s.code.resolve ls).map (RegisteredVariable.rename ρ.node ρ.label) := by
    intro ls hls
    rw [CodeStructure.resolve, CodeStructure.resolve, List.filterMap_map, List.map_filterMap]
    exact List.filterMap_congr fun l hl => h.get?_eq (hls l hl)
  have hinfos : ∀ info ∈ s.code.resolve (firstPer some (s.graph.labels i ++ s.code.order)),
      info ∈ infos := fun info => hcode.groups.mem_of_mem_resolve
  refine { h with code := ⟨_, hcode.groups.reorder _, ?_, fun info hmem => ?_, fun info hmem => ?_⟩ }
  · rw [← hresolve _ fun l hl => hlabels l ((firstPer_sublist _ _).subset hl),
      ← firstPer_some_map (ρ.label_injOn.mono hlabels), List.map_append,
      ← h.copies.labels_eq h.labels_injOn hi, ← horder]
    exact hcode.groups'.reorder _
  · exact hcode.node_mem info (hinfos info hmem)
  · exact hcode.labels info (hinfos info hmem)

end Matches

end Staging

end FormStaging

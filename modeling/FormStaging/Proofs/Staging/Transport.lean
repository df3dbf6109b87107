import FormStaging.Proofs.Graph.Expansion
import FormStaging.Proofs.Staging.Derivation

/-!
# Meanings along derivations

An `Interpretation` gives terms to the nodes of the source and to the nodes of the staged graph. Its
laws are local: they speak about one layer, one variable or one kept subexpression. The main
statement is `Interpretation.carries`: what stands for a node has every term of this node. The
induction over a derivation is inside the one over the registered variables, since a derivation may
use the variables registered before.
-/

set_option autoImplicit false

namespace FormStaging

/-- A layer over new operands takes the same terms to the same layer. -/
theorem Node.map_eq_of_withOperands? {α β γ : Type} {n : Node α} {m : Node β} {new : List β}
    {f : α → γ} {f' : β → γ} (h : n.withOperands? new = some m)
    (hmap : new.map f' = n.operands.map f) : m.map f' = n.map f := by
  cases n <;> rcases new with _ | ⟨a, _ | ⟨b, _ | ⟨c, l⟩⟩⟩ <;>
    simp only [withOperands?, Option.some.injEq, reduceCtorEq] at h
  all_goals first
    | (subst h
       simp_all [map, operands])
    | (split at h
       · simp only [Option.some.injEq] at h
         subst h
         simp_all [map, operands]
       · cases h)

namespace Staging

open FormStaging.Graph

variable {settings : Settings} {src g : Graph} {root : NodeId} {infos : List RegisteredVariable}
  {term term' : NodeId → Term → Prop}

/-- Terms of a registered variable: it has those of every variable of the source with its label. -/
def Carries (src : Graph) (root : NodeId) (term term' : NodeId → Term → Prop)
    (info : RegisteredVariable) : Prop :=
  ∀ i t, src.Reaches root i → src.label? i = some info.label → term i t → term' info.node t

/-- Terms `term` for the nodes of the source and `term'` for the nodes of the staged graph. -/
structure Interpretation (src : Graph) (root : NodeId) (g : Graph)
    (infos : List RegisteredVariable) (term term' : NodeId → Term → Prop) : Prop where
  /-- A layer of the source has terms made of terms of the operands. -/
  layer : ∀ i t, src.label? i = none → term i t →
    ∃ parts, (∀ j ∈ src.operands i, term j (parts j)) ∧ t = .mk ((src.node i).map parts)
  /-- A variable of the source has terms of the content of the first one with its label. -/
  first : ∀ i l v t, src.Reaches root i → src.label? i = some l →
    src.firstVariable? root l = some v → term i t → term (src.content v) t
  /-- A staged layer has the terms made of terms of the operands. -/
  layer' : ∀ n parts, g.label? n = none → (∀ k ∈ g.operands n, term' k (parts k)) →
    term' n (.mk ((g.node n).map parts))
  /-- A registered variable has the terms of its content. -/
  registered : ∀ info ∈ infos, ∀ n t, g.node info.node = .labelled n info.label → term' n t →
    term' info.node t
  /-- A staged node has one term. -/
  functional' : ∀ n t t', term' n t → term' n t' → t = t'
  /-- A kept node keeps its terms, if the variables below it carry theirs. -/
  kept : ∀ earlier ⊆ infos, (∀ info ∈ earlier, Carries src root term term' info) →
    ∀ b t, Ready src earlier b → src.Reaches root b → term b t → term' b t

/-- If elements have one value each, lists of elements and values that match are the graph of a
function. -/
theorem exists_map_eq {α β γ : Type} [DecidableEq β] [Inhabited γ] {R : β → γ → Prop}
    (hfun : ∀ b c c', R b c → R b c' → c = c') {f : α → γ} {as : List α} {bs : List β}
    (h : List.Forall₂ (fun a b => R b (f a)) as bs) :
    ∃ f' : β → γ, (∀ b ∈ bs, R b (f' b)) ∧ bs.map f' = as.map f := by
  induction h with
  | nil => exact ⟨fun _ => default, List.forall_mem_nil _, rfl⟩
  | @cons a b as bs hab _ ih =>
    -- `b` may occur in `bs`, where it has the same value
    obtain ⟨f', hf', hmap⟩ := ih
    refine ⟨Function.update f' b (f a), fun x hx => ?_, ?_⟩
    · by_cases hxb : x = b
      · rw [hxb, Function.update_self]
        exact hab
      · rw [Function.update_of_ne hxb]
        exact hf' x ((List.mem_cons.1 hx).resolve_left hxb)
    · rw [List.map_cons, List.map_cons, Function.update_self, ← hmap]
      congr 1
      refine List.map_congr_left fun x hx => ?_
      by_cases hxb : x = b
      · rw [hxb, Function.update_self]
        exact hfun b _ _ hab (hf' b (hxb ▸ hx))
      · rw [Function.update_of_ne hxb]

namespace Interpretation

/-- New operands with the terms of the old ones make a layer with the term of the old one. -/
theorem rebuilt {i n : NodeId} {new : List NodeId} {parts : NodeId → Term}
    (hI : Interpretation src root g infos term term') (hl : g.label? n = none)
    (hn : (src.node i).withOperands? new = some (g.node n))
    (hnew : List.Forall₂ (fun j k => term' k (parts j)) (src.operands i) new) :
    term' n (.mk ((src.node i).map parts)) := by
  have hops : g.operands n = new := (Node.withOperands?_eq_some hn).1
  obtain ⟨parts', hparts', hmap⟩ := exists_map_eq hI.functional' hnew
  rw [← Node.map_eq_of_withOperands? hn hmap]
  exact hI.layer' n parts' hl fun k hk => hparts' k (hops ▸ hk)

/-- A name has the terms of what it names. -/
theorem names {n v : NodeId} {t : Term} (hI : Interpretation src root g infos term term')
    (h : Names g infos n v) (ht : term' n t) : term' v t := by
  obtain ⟨info, hmem, rfl, rfl | hv⟩ := h
  · exact ht
  · exact hI.registered info hmem n t hv ht

theorem replaces {is : List NodeId} {staged : NodeId → Staged} {deps : DependencySet}
    {new : NodeId → NodeId} {j : NodeId} {t : Term}
    (hI : Interpretation src root g infos term term') (h : Replaces g infos is staged deps new)
    (hj : j ∈ is) (ht : term' (staged j).node t) : term' (new j) t := by
  cases h with
  | uniform h =>
    rw [(h j hj).1]
    exact ht
  | named h =>
    have hname := h j hj
    split at hname
    · exact hI.names hname ht
    · rw [hname]
      exact ht

/-- What stands for a node has its terms, if the registered variables carry theirs. -/
theorem stands_of_carries {earlier : List RegisteredVariable} {i : NodeId} {r : Staged} {t : Term}
    (hI : Interpretation src root g infos term term') (hroot : root ∈ src) (hsrc : src.Extends g)
    (hsub : earlier ⊆ infos) (hcarries : ∀ info ∈ earlier, Carries src root term term' info)
    (h : Stands settings src g earlier i r) (hi : src.Reaches root i) (ht : term i t) :
    term' r.node t := by
  induction h generalizing t with
  | @leaf i deps h =>
    have hnone : src.operands i = [] := operands_of_leafDeps h
    have hl : src.label? i = none := label?_of_leafDeps h
    obtain ⟨parts, -, rfl⟩ := hI.layer i t hl ht
    have hmem := hi.mem hroot
    rw [← hsrc.node_eq i hmem]
    refine hI.layer' i parts (by rw [hsrc.label?_eq hmem, hl]) fun k hk => ?_
    rw [hsrc.operands_eq hmem, hnone] at hk
    exact absurd hk List.not_mem_nil
  | labelled h hinfo => exact hcarries _ hinfo _ t hi h ht
  | @derivative i a b n r h ha hb hmem hn ih =>
    have hops := operands_of_derivative h
    have hl : src.label? i = none := by rw [label?, h]; rfl
    have hl' : g.label? n = none := by rw [label?, hn]; rfl
    obtain ⟨parts, hparts, rfl⟩ := hI.layer i t hl ht
    have ha' : a ∈ src.operands i := by simp [hops]
    have hb' : b ∈ src.operands i := by simp [hops]
    have hrebuilt : (src.node i).withOperands? [r.node, b] = some (g.node n) := by
      rw [h, hn]
      rfl
    refine hI.rebuilt hl' hrebuilt ?_
    rw [hops]
    refine .cons (ih (hi.tail ha') (hparts a ha')) (.cons ?_ .nil)
    exact hI.kept earlier hsub hcarries b _ hb (hi.tail hb') (hparts b hb')
  | @operator i n deps staged new h hops hdeps hnew hmem hn ih =>
    have hl : src.label? i = none := label?_of_isPlain h
    have hl' : g.label? n = none := by
      rw [label?, hn, Node.label?_map]
      exact hl
    obtain ⟨parts, hparts, rfl⟩ := hI.layer i t hl ht
    have hrebuilt : (src.node i).withOperands? ((src.operands i).map new) = some (g.node n) := by
      rw [hn]
      exact Node.withOperands?_map _ _
    -- the names of the operands are earlier variables
    have hearlier : Interpretation src root g earlier term term' :=
      { hI with
        registered := fun info hmem => hI.registered info (hsub hmem)
        kept := fun e he => hI.kept e (List.Subset.trans he hsub) }
    refine hI.rebuilt hl' hrebuilt ?_
    rw [List.forall₂_map_right_iff, List.forall₂_same]
    intro j hj
    exact hearlier.replaces hnew hj (ih j hj (hi.tail hj) (hparts j hj))

/-- Every registered variable carries its terms. -/
theorem carries_of_built (hI : Interpretation src root g infos term term') (hroot : root ∈ src)
    (hsrc : src.Extends g) (hb : Built settings src root g infos) :
    ∀ info ∈ infos, Carries src root term term' info := by
  refine hb.forall_of_earlier fun earlier hsub info hmem hearlier ho hcarries i t hi hl ht => ?_
  cases ho with
  | @source v c r hv hc h hnode hdeps =>
    -- every variable with the label has the terms of the content of the first one
    have hterm := hI.first i _ v t hi hl hv ht
    rw [content_eq hc] at hterm
    have hcv : c ∈ src.operands v := by simp [operands_of_labelled hc]
    have hreach := (reaches_of_firstVariable? hroot hv).tail hcv
    exact hI.registered info hmem _ t hnode
      (hI.stands_of_carries hroot hsrc hsub hcarries h hreach hterm)
  | minted hnew =>
    -- no variable of the source has a minted label
    exact absurd ((mem_labels_iff hroot).2 ⟨i, hi, hl⟩) hnew

/-- What stands for a node has its terms. -/
theorem carries {i : NodeId} {r : Staged} {t : Term}
    (hI : Interpretation src root g infos term term') (hroot : root ∈ src) (hsrc : src.Extends g)
    (hb : Built settings src root g infos) (h : Stands settings src g infos i r)
    (hi : src.Reaches root i) (ht : term i t) : term' r.node t :=
  hI.stands_of_carries hroot hsrc (List.Subset.refl _) (hI.carries_of_built hroot hsrc hb) h hi ht

end Interpretation

end Staging

end FormStaging

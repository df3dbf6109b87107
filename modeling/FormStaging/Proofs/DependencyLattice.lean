import FormStaging.Proofs.DependencySet
import Mathlib.Order.BoundedOrder.Lattice

/-!
# The dependency sets of one rank form a lattice

The sets of rank `n` (`OfRank n`) are known by their flags, and their unions and intersections are
computed flag by flag. So they form a distributive lattice, which the flags embed into the functions
from flags to truth values. Its order is that of `covers`: a set is below those that cover it.

`sets_of_rank_form_lattice` says this of the operations themselves, which never fail for sets of one rank
and always fail for sets of two ranks.
-/

set_option autoImplicit false

namespace FormStaging.DependencySet

/-- A dependency set with `n` basis-function slots. -/
@[ext]
structure OfRank (n : Nat) where
  set : DependencySet
  rank_set : set.rank = n

namespace OfRank

variable {n : Nat} {s t u : OfRank n}

/-- The first set has every dependency of the second one. -/
def Covers (s t : OfRank n) : Prop := s.set.covers t.set = .ok true

/-! ## The lattice -/

/-- Whether a flag is set. -/
def flags (s : OfRank n) : Flag → Bool := s.set.has

theorem flags_injective : Function.Injective (flags (n := n)) := by
  rintro ⟨s, hs⟩ ⟨t, ht⟩ h
  obtain rfl : s = t := ext_of_has (hs.trans ht.symm) (congrFun h)
  rfl

/-- The combination of two sets. -/
def combined (f : Bool → Bool → Bool) (s t : OfRank n) : OfRank n where
  set := ⟨f s.set.runtime t.set.runtime, f s.set.coordinates t.set.coordinates,
    List.zipWith f s.set.basis t.set.basis⟩
  rank_set := by
    have hs := s.rank_set
    have ht := t.rank_set
    rw [rank] at hs ht ⊢
    rw [List.length_zipWith, hs, ht, Nat.min_self]

/-- Sets of one rank have a combination. -/
theorem combine_eq (operation : SetOperation) (f : Bool → Bool → Bool) (s t : OfRank n) :
    combine operation f s.set t.set = .ok (combined f s t).set :=
  combine_eq_ok_iff.2 ⟨s.rank_set.trans t.rank_set.symm, rfl⟩

instance : Max (OfRank n) := ⟨combined (· || ·)⟩

instance : Min (OfRank n) := ⟨combined (· && ·)⟩

instance : LE (OfRank n) := ⟨fun s t => t.Covers s⟩

instance : LT (OfRank n) := ⟨fun s t => s ≤ t ∧ ¬ t ≤ s⟩

theorem union_eq (s t : OfRank n) : s.set.union t.set = .ok (s ⊔ t).set := combine_eq _ _ s t

theorem intersection_eq (s t : OfRank n) : s.set.intersection t.set = .ok (s ⊓ t).set :=
  combine_eq _ _ s t

theorem flags_sup (s t : OfRank n) : (s ⊔ t).flags = s.flags ⊔ t.flags :=
  funext fun x => has_combine rfl (union_eq s t) x

theorem flags_inf (s t : OfRank n) : (s ⊓ t).flags = s.flags ⊓ t.flags :=
  funext fun x => has_combine rfl (intersection_eq s t) x

/-- A set covers another if it has all its flags. -/
theorem covers_iff : s.Covers t ↔ ∀ f, t.set.has f = true → s.set.has f = true := by
  rw [Covers, DependencySet.covers_iff, and_iff_right (s.rank_set.trans t.rank_set.symm)]

theorem flags_le : s.flags ≤ t.flags ↔ s ≤ t := by
  change (∀ f, s.set.has f ≤ t.set.has f) ↔ t.Covers s
  rw [covers_iff]
  exact forall_congr' fun f => Bool.le_iff_imp

theorem flags_lt : s.flags < t.flags ↔ s < t := by
  rw [lt_iff_le_not_ge, flags_le, flags_le]
  rfl

-- all laws are those of truth values, since the flags determine a set
instance : DistribLattice (OfRank n) :=
  flags_injective.distribLattice flags flags_le flags_lt flags_sup flags_inf

instance : OrderBot (OfRank n) where
  bot := ⟨.empty n, rank_empty n⟩
  bot_le s := by
    refine covers_iff.2 fun f hf => ?_
    rw [has_empty] at hf
    cases hf

/-! ## The operations and the lattice -/

theorem covers_iff_le : s.Covers t ↔ t ≤ s := Iff.rfl

theorem Covers.antisymm (h : s.Covers t) (h' : t.Covers s) : s = t :=
  le_antisymm (covers_iff_le.1 h') (covers_iff_le.1 h)

theorem Covers.trans (h : s.Covers t) (h' : t.Covers u) : s.Covers u :=
  covers_iff_le.2 (le_trans (covers_iff_le.1 h') (covers_iff_le.1 h))

theorem exists_covers (s t : OfRank n) : ∃ b, s.set.covers t.set = .ok b := by
  rw [DependencySet.covers, union_eq]
  exact ⟨_, rfl⟩

/-- The join is the least set that covers both. -/
theorem sup_eq_iff : s ⊔ t = u ↔
    u.Covers s ∧ u.Covers t ∧ ∀ v : OfRank n, v.Covers s → v.Covers t → v.Covers u := by
  simp only [covers_iff_le]
  constructor
  · rintro rfl
    exact ⟨le_sup_left, le_sup_right, fun v => sup_le⟩
  · rintro ⟨hs, ht, hleast⟩
    exact le_antisymm (sup_le hs ht) (hleast _ le_sup_left le_sup_right)

/-- The meet is the greatest set that both cover. -/
theorem inf_eq_iff : s ⊓ t = u ↔
    s.Covers u ∧ t.Covers u ∧ ∀ v : OfRank n, s.Covers v → t.Covers v → u.Covers v := by
  simp only [covers_iff_le]
  constructor
  · rintro rfl
    exact ⟨inf_le_left, inf_le_right, fun v => le_inf⟩
  · rintro ⟨hs, ht, hgreatest⟩
    exact le_antisymm (hgreatest _ inf_le_left inf_le_right) (le_inf hs ht)

end OfRank

/-! ## Laws of the operations -/

section Laws

variable {n : Nat} {op op' : DependencySet → DependencySet → Except Misuse DependencySet}
  {f f' : OfRank n → OfRank n → OfRank n}

/-- On the sets of rank `n`, an operation never fails, and the order, the brackets and the repeats of its
operands do not matter. -/
structure CombinesFreely (n : Nat)
    (op : DependencySet → DependencySet → Except Misuse DependencySet) : Prop where
  /-- Two sets of rank `n` give a set of rank `n`. -/
  exists_eq_ok : ∀ s t : OfRank n, ∃ u : OfRank n, op s.set t.set = .ok u.set
  comm : ∀ s t : OfRank n, op s.set t.set = op t.set s.set
  assoc : ∀ s t u : OfRank n,
    (do op (← op s.set t.set) u.set) = (do op s.set (← op t.set u.set))
  idem : ∀ s : OfRank n, op s.set s.set = .ok s.set

/-- On the sets of rank `n`, the first operation absorbs the second one and distributes over it. -/
structure Distributes (n : Nat)
    (op op' : DependencySet → DependencySet → Except Misuse DependencySet) : Prop where
  absorb : ∀ s t : OfRank n, (do op s.set (← op' s.set t.set)) = .ok s.set
  distrib : ∀ s t u : OfRank n, (do op s.set (← op' t.set u.set)) =
    (do op' (← op s.set t.set) (← op s.set u.set))

theorem combinesFreely_of (hop : ∀ s t : OfRank n, op s.set t.set = .ok (f s t).set)
    (hcomm : ∀ s t, f s t = f t s) (hassoc : ∀ s t u, f (f s t) u = f s (f t u))
    (hidem : ∀ s, f s s = s) : CombinesFreely n op where
  exists_eq_ok s t := ⟨f s t, hop s t⟩
  comm s t := by rw [hop, hop, hcomm]
  assoc s t u := by simp only [bind, Except.bind, hop, hassoc]
  idem s := by rw [hop, hidem]

theorem distributes_of (hop : ∀ s t : OfRank n, op s.set t.set = .ok (f s t).set)
    (hop' : ∀ s t : OfRank n, op' s.set t.set = .ok (f' s t).set)
    (habsorb : ∀ s t, f s (f' s t) = s)
    (hdistrib : ∀ s t u, f s (f' t u) = f' (f s t) (f s u)) : Distributes n op op' where
  absorb s t := by simp only [bind, Except.bind, hop, hop', habsorb]
  distrib s t u := by simp only [bind, Except.bind, hop, hop', hdistrib]

end Laws

/-! ## Unions of many sets -/

namespace OfRank

variable {n : Nat} {s t u : OfRank n} {sets sets' : List (OfRank n)}

theorem unionAll_eq (s : OfRank n) (sets : List (OfRank n)) :
    s.set.unionAll (sets.map set) = .ok (sets.foldl (· ⊔ ·) s).set := by
  induction sets generalizing s with
  | nil => rfl
  | cons t sets ih =>
    rw [List.map_cons, unionAll, List.foldlM_cons, union_eq]
    exact ih (s ⊔ t)

/-- A join is covered by what covers each of the joined sets. -/
theorem foldl_sup_le_iff : sets.foldl (· ⊔ ·) s ≤ u ↔ ∀ w ∈ s :: sets, w ≤ u := by
  induction sets generalizing s with
  | nil => simp
  | cons t sets ih => simp [ih, and_assoc]

/-- A union depends only on which sets are united. -/
theorem unionAll_congr (h : ∀ w, w ∈ s :: sets ↔ w ∈ t :: sets') :
    s.set.unionAll (sets.map set) = t.set.unionAll (sets'.map set) := by
  -- both are covered by the same sets
  have heq : sets.foldl (· ⊔ ·) s = sets'.foldl (· ⊔ ·) t :=
    eq_of_forall_ge_iff fun u => by simp only [foldl_sup_le_iff, h]
  rw [unionAll_eq, unionAll_eq, heq]

end OfRank

/-! ## The theorem -/

/-- The dependency sets of rank `n` form a distributive lattice, which is ordered by `covers`. -/
structure FormsLattice (n : Nat) : Prop where
  union : CombinesFreely n DependencySet.union
  intersection : CombinesFreely n DependencySet.intersection
  union_over_intersection : Distributes n DependencySet.union DependencySet.intersection
  intersection_over_union : Distributes n DependencySet.intersection DependencySet.union
  /-- Any two sets can be compared. -/
  exists_covers : ∀ s t : OfRank n, ∃ b, s.set.covers t.set = .ok b
  /-- A set covers another if every flag of the other is set in it. -/
  covers_iff : ∀ s t : OfRank n, s.Covers t ↔ ∀ f, t.set.has f = true → s.set.has f = true
  covers_refl : ∀ s : OfRank n, s.Covers s
  covers_antisymm : ∀ s t : OfRank n, s.Covers t → t.Covers s → s = t
  covers_trans : ∀ s t u : OfRank n, s.Covers t → t.Covers u → s.Covers u
  /-- The union is the least upper bound. -/
  union_iff : ∀ s t u : OfRank n, s.set.union t.set = .ok u.set ↔
    u.Covers s ∧ u.Covers t ∧ ∀ v : OfRank n, v.Covers s → v.Covers t → v.Covers u
  /-- The intersection is the greatest lower bound. -/
  intersection_iff : ∀ s t u : OfRank n, s.set.intersection t.set = .ok u.set ↔
    s.Covers u ∧ t.Covers u ∧ ∀ v : OfRank n, s.Covers v → t.Covers v → u.Covers v
  /-- The empty set is the least one. -/
  covers_empty : ∀ s : OfRank n, s.set.covers (empty n) = .ok true
  /-- Any number of sets have a union. -/
  exists_unionAll : ∀ (s : OfRank n) (sets : List (OfRank n)),
    ∃ u : OfRank n, s.set.unionAll (sets.map OfRank.set) = .ok u.set
  /-- It depends only on which sets are united, not on their order and number. -/
  unionAll_congr : ∀ (s t : OfRank n) (sets sets' : List (OfRank n)),
    (∀ w, w ∈ s :: sets ↔ w ∈ t :: sets') →
      s.set.unionAll (sets.map OfRank.set) = t.set.unionAll (sets'.map OfRank.set)

/-- Two sets of different ranks can be neither combined nor compared. -/
structure Incomparable (s t : DependencySet) : Prop where
  union : s.union t = .error (.rankMismatch .union)
  intersection : s.intersection t = .error (.rankMismatch .intersection)
  covers : s.covers t = .error (.rankMismatch .union)

theorem incomparable_of_rank_ne {s t : DependencySet} (h : s.rank ≠ t.rank) : Incomparable s t where
  union := combine_eq_error h
  intersection := combine_eq_error h
  covers := by
    rw [DependencySet.covers, DependencySet.union, combine_eq_error h]
    rfl

theorem formsLattice (n : Nat) : FormsLattice n where
  union := combinesFreely_of OfRank.union_eq sup_comm sup_assoc sup_idem
  intersection := combinesFreely_of OfRank.intersection_eq inf_comm inf_assoc inf_idem
  union_over_intersection := distributes_of OfRank.union_eq OfRank.intersection_eq
    (fun _ _ => sup_inf_self) sup_inf_left
  intersection_over_union := distributes_of OfRank.intersection_eq OfRank.union_eq
    (fun _ _ => inf_sup_self) inf_sup_left
  exists_covers := OfRank.exists_covers
  covers_iff _ _ := OfRank.covers_iff
  covers_refl := le_refl
  covers_antisymm _ _ := OfRank.Covers.antisymm
  covers_trans _ _ _ := OfRank.Covers.trans
  union_iff _ _ _ := by
    rw [OfRank.union_eq, Except.ok.injEq, ← OfRank.ext_iff, OfRank.sup_eq_iff]
  intersection_iff _ _ _ := by
    rw [OfRank.intersection_eq, Except.ok.injEq, ← OfRank.ext_iff, OfRank.inf_eq_iff]
  covers_empty s := (bot_le : ⊥ ≤ s)
  exists_unionAll s sets := ⟨_, OfRank.unionAll_eq s sets⟩
  unionAll_congr _ _ _ _ := OfRank.unionAll_congr

/-- The dependency sets of each rank form a lattice, and sets of different ranks can be neither
combined nor compared. -/
theorem sets_of_rank_form_lattice :
    (∀ n, FormsLattice n) ∧ ∀ s t : DependencySet, s.rank ≠ t.rank → Incomparable s t :=
  ⟨formsLattice, fun _ _ => incomparable_of_rank_ne⟩

/-- Two sets of rank 2 that do not cover each other are united in either order. With a set of rank 3 this
is not possible. -/
theorem sets_of_rank_form_lattice_twoSlots :
    FormsLattice 2 ∧
      (single 2 0).union (single 2 1).withRuntime = .ok ⟨true, false, [true, true]⟩ ∧
      (single 2 1).withRuntime.union (single 2 0) = .ok ⟨true, false, [true, true]⟩ ∧
      (single 2 0).covers (single 2 1).withRuntime = .ok false ∧
      (single 2 1).rank ≠ (single 3 1).rank ∧ Incomparable (single 2 1) (single 3 1) := by
  obtain ⟨hlattice, hincomparable⟩ := sets_of_rank_form_lattice
  have hrank : (single 2 1).rank ≠ (single 3 1).rank := by decide
  have hunion : (single 2 0).union (single 2 1).withRuntime = .ok ⟨true, false, [true, true]⟩ := rfl
  have hcomm := (hlattice 2).union.comm ⟨single 2 0, rfl⟩ ⟨(single 2 1).withRuntime, rfl⟩
  exact ⟨hlattice 2, hunion, hcomm.symm.trans hunion, rfl, hrank, hincomparable _ _ hrank⟩

end FormStaging.DependencySet

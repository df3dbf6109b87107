import FormStaging.Node.Profile

/-!
# Expression graphs

A `Graph` is a table of nodes. A node is known by its number, and its operands are earlier entries
of the table, so a node may be an operand of several others and no node lies below itself. The
number is the identity of a node: two entries with equal content are different nodes. Nodes are
only ever added, by `Graph.push?`, and an entry never changes once it is made.

Every entry keeps the profile of its node, computed when the node was added; `Graph.profile_eq`
says that it is the profile by the rules of `Node.profile`. A number past the end of the table is
read as a nameless symbol.
-/

set_option autoImplicit false

namespace FormStaging

/-- The number of a node in a graph. -/
abbrev NodeId := Nat

/-- A node with the profile computed when it was added. -/
structure Entry where
  node : Node NodeId
  profile : Profile
deriving DecidableEq

instance : Inhabited Entry := ⟨⟨default, default⟩⟩

/-- The entry at a place of a table. -/
def Entry.at (entries : Array Entry) (i : NodeId) : Entry := entries[i]?.getD default

/-- A table of nodes whose operands are earlier entries. -/
structure Graph where
  entries : Array Entry
  /-- Operands are earlier entries. -/
  ordered : ∀ i < entries.size, ∀ j ∈ (Entry.at entries i).node.operands, j < i
  /-- The profiles follow the rules. -/
  profiled : ∀ i < entries.size, (Entry.at entries i).profile =
    ((Entry.at entries i).node.map fun j => (Entry.at entries j).profile).profile

theorem Entry.at_of_le {entries : Array Entry} {i : NodeId} (h : entries.size ≤ i) :
    Entry.at entries i = default := by
  simp [Entry.at, Array.getElem?_eq_none h]

theorem Entry.at_push_lt {entries : Array Entry} {e : Entry} {i : NodeId} (h : i < entries.size) :
    Entry.at (entries.push e) i = Entry.at entries i := by
  simp [Entry.at, Array.getElem?_push_lt h, h]

theorem Entry.at_push_size (entries : Array Entry) (e : Entry) :
    Entry.at (entries.push e) entries.size = e := by
  simp [Entry.at]

namespace Graph

variable {g : Graph} {i j : NodeId}

/-- The number of nodes. -/
def size (g : Graph) : Nat := g.entries.size

/-- The graph without nodes. -/
def empty : Graph where
  entries := #[]
  ordered := fun _ h => absurd h (Nat.not_lt_zero _)
  profiled := fun _ h => absurd h (Nat.not_lt_zero _)

instance : EmptyCollection Graph := ⟨empty⟩

instance : Inhabited Graph := ⟨∅⟩

/-- A node number belongs to a graph if the table has such an entry. -/
instance : Membership NodeId Graph := ⟨fun g i => i < g.size⟩

instance (i : NodeId) (g : Graph) : Decidable (i ∈ g) := inferInstanceAs (Decidable (i < g.size))

theorem mem_iff : i ∈ g ↔ i < g.size := Iff.rfl

/-- The layer of a node. -/
def node (g : Graph) (i : NodeId) : Node NodeId := (Entry.at g.entries i).node

/-- Shape and free indices of a node. -/
def profile (g : Graph) (i : NodeId) : Profile := (Entry.at g.entries i).profile

/-- The operands of a node. -/
def operands (g : Graph) (i : NodeId) : List NodeId := (g.node i).operands

/-- The label of a node, if it is a variable. -/
def label? (g : Graph) (i : NodeId) : Option Label := (g.node i).label?

/-- The entries of a node, if it is a multi-index. -/
def items (g : Graph) (i : NodeId) : List IndexItem := (g.node i).items

theorem node_of_not_mem (h : i ∉ g) : g.node i = default := by
  rw [node, Entry.at_of_le (Nat.le_of_not_lt h)]
  rfl

/-- Operands come first. -/
theorem lt_of_mem_operands (h : j ∈ g.operands i) : j < i := by
  by_cases hi : i ∈ g
  · exact g.ordered i hi j h
  · rw [operands, node_of_not_mem hi] at h
    simp [Node.operands, default] at h

/-- The stored profile follows the rules. -/
theorem profile_eq (g : Graph) (i : NodeId) : g.profile i = ((g.node i).map g.profile).profile := by
  by_cases hi : i ∈ g
  · exact g.profiled i hi
  · rw [node_of_not_mem hi, profile, Entry.at_of_le (Nat.le_of_not_lt hi)]
    rfl

/-- What holds of a node whenever it holds of the operands holds of every node. -/
theorem induction {P : NodeId → Prop} (g : Graph)
    (step : ∀ i, (∀ j ∈ g.operands i, P j) → P i) : ∀ i, P i := by
  intro i
  induction i using Nat.strongRecOn with
  | ind i ih => exact step i fun j hj => ih j (lt_of_mem_operands hj)

/-! ## Adding a node -/

/-- Adds a node whose operands belong to the graph. -/
def push (g : Graph) (n : Node NodeId) (h : ∀ j ∈ n.operands, j ∈ g) : Graph where
  entries := g.entries.push ⟨n, (n.map g.profile).profile⟩
  ordered := by
    intro i hi j hj
    rw [Array.size_push] at hi
    by_cases hlt : i < g.entries.size
    · rw [Entry.at_push_lt hlt] at hj
      exact g.ordered i hlt j hj
    · obtain rfl : i = g.entries.size := by omega
      rw [Entry.at_push_size] at hj
      exact h j hj
  profiled := by
    intro i hi
    rw [Array.size_push] at hi
    by_cases hlt : i < g.entries.size
    · rw [Entry.at_push_lt hlt, g.profiled i hlt]
      refine congrArg Node.profile (Node.map_congr fun j hj => ?_)
      rw [Entry.at_push_lt (Nat.lt_trans (g.ordered i hlt j hj) hlt)]
    · obtain rfl : i = g.entries.size := by omega
      rw [Entry.at_push_size]
      refine congrArg Node.profile (Node.map_congr fun j hj => ?_)
      rw [Entry.at_push_lt (h j hj)]
      rfl

/-- Adds a node and gives its number, or `none` if an operand does not belong to the graph. -/
def push? (g : Graph) (n : Node NodeId) : Option (Graph × NodeId) :=
  if h : ∀ j ∈ n.operands, j ∈ g then
    -- the size is taken first, so that the table has one owner and grows in place
    let next := g.size
    some (g.push n h, next)
  else none

@[simp] theorem size_push (n : Node NodeId) (h : ∀ j ∈ n.operands, j ∈ g) :
    (g.push n h).size = g.size + 1 := by
  simp [size, push]

/-- The new node is the last one. -/
@[simp] theorem node_push_size (n : Node NodeId) (h : ∀ j ∈ n.operands, j ∈ g) :
    (g.push n h).node g.size = n := by
  simp only [node, push, size, Entry.at_push_size]

/-- Old nodes stay as they are. -/
theorem node_push_of_mem (n : Node NodeId) (h : ∀ j ∈ n.operands, j ∈ g) (hi : i ∈ g) :
    (g.push n h).node i = g.node i := by
  simp only [node, push, Entry.at_push_lt hi]

theorem push?_eq_some_iff {n : Node NodeId} {g' : Graph} :
    g.push? n = some (g', i) ↔ ∃ h : ∀ j ∈ n.operands, j ∈ g, g' = g.push n h ∧ i = g.size := by
  simp only [push?]
  split
  case isTrue h =>
    constructor
    · intro e
      cases e
      exact ⟨h, rfl, rfl⟩
    · rintro ⟨_, rfl, rfl⟩
      rfl
  case isFalse h =>
    constructor
    · intro e
      cases e
    · rintro ⟨h', -, -⟩
      exact absurd h' h

end Graph

end FormStaging

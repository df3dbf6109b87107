/-!
# Broken promises

Some operations are promised well-formed input by their callers: sets of one rank, a slot below
the rank, operands that belong to the graph. A broken promise is no diagnostic for the user of a
form. It has an outcome of its own, `Misuse`, so that "this call never breaks a promise" can be
stated and proved.
-/

set_option autoImplicit false

namespace FormStaging

/-- The two ways to combine dependency sets flag by flag. -/
inductive SetOperation where
  | union
  | intersection
deriving DecidableEq, Repr

/-- The name of the operation in messages. -/
def SetOperation.name : SetOperation → String
  | union => "union"
  | intersection => "intersection"

/-- A promise that a caller broke. -/
inductive Misuse where
  /-- Two dependency sets of different ranks were combined. -/
  | rankMismatch (operation : SetOperation)
  /-- A dependency set was asked for a slot that a form of this rank does not have. -/
  | slotOutOfRange (slot rank : Nat)
  /-- A slot without a dependency declaration was looked up. -/
  | undeclaredSlot (slot declared : Nat)
  /-- A node was built from an operand that is not in the graph. -/
  | foreignOperand
deriving DecidableEq, Repr

/-- The text for the developer who broke the promise. -/
def Misuse.message : Misuse → String
  | rankMismatch operation =>
    "cannot compute the " ++ operation.name ++
      " of dependency sets with different numbers of basis functions"
  | slotOutOfRange slot rank =>
    "basis function slot " ++ toString slot ++ " is out of range for a form of rank " ++
      toString rank
  | undeclaredSlot slot declared =>
    "slot " ++ toString slot ++ " is not among the " ++ toString declared ++ " declared ones"
  | foreignOperand => "the operands of a node must belong to the same graph"

end FormStaging

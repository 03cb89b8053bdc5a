import ContractComposition.Bindings.Subst
import ContractComposition.Hierarchy

/-!
# When a condition holds

A clause holds as long as its variable is not bound to anything but a variable. Once it is bound to
a constant, that constant must be a class below the bound of the clause; no other value will do.
-/

namespace ContractComposition

namespace Condition

/-- Whether a condition holds under some bindings. -/
def holds (c : Condition) (b : Bindings) (h : Hierarchy) : Bool :=
  match c with
  | .inherits x cls =>
    match (Ty.var x).subst b with
    | .var _ => true
    | .const name => h.isSubclass name cls
    | _ => false
  | .both l r => l.holds b h && r.holds b h

end Condition

end ContractComposition

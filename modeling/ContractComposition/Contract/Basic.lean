import ContractComposition.Ty.Stream
import ContractComposition.Bindings.Subst

/-!
# Contracts

Construction of contracts, and the check that a contract is well formed: whatever variable it
yields must be bound, either by what the contract receives or beforehand.
-/

namespace ContractComposition

/-- Why a contract is malformed: it yields variables that nothing binds. -/
structure Malformed where
  /-- The unbound variables, ascending. -/
  vars : List String
deriving DecidableEq, Inhabited

namespace Malformed

/-- The wording of the complaint. -/
def message (m : Malformed) : String :=
  ", ".intercalate m.vars ++ " are not bound by receive"

end Malformed

namespace Contract

/-- The contract with the given sides, in normal form and without constraints. -/
def of (receives yields : Ty) : Contract :=
  { receives := receives.normalize, yields := yields.normalize }

/-- The contract that receives nothing and yields nothing. -/
def identity : Contract :=
  of .void .void

/-- Puts a contract under a condition. Only the clauses about variables of the receiving side are
kept. -/
def withCondition (c : Contract) (condition : Condition) : Contract :=
  { c with condition := condition.restrictTo c.receives.freeVars }

/-- Gives a contract a table of exclusions. -/
def withForbidden (c : Contract) (forbidden : List Exclusion) : Contract :=
  { c with forbidden := forbidden }

/-- Names the source of a contract. -/
def withSource (c : Contract) (source : String) : Contract :=
  { c with source := some source }

/-- Lets a contract start again when it is finished. -/
def restoring (c : Contract) : Contract :=
  { c with restorable := true }

/-- The variables of the yielding side that are neither received nor bound in `known`. -/
def unbound (c : Contract) (known : Bindings) : List String :=
  let received := c.receives.freeVars
  c.yields.freeVars.filter fun x => !received.contains x && !known.contains x

/-- Checks that all yielded variables are bound, by receiving them or in `known`. -/
def check (c : Contract) (known : Bindings) : Except Malformed Unit :=
  match c.unbound known with
  | [] => .ok ()
  | vars => .error ⟨vars⟩

/-- The contract with the given sides, provided that it binds what it yields. -/
def define (receives yields : Ty) : Except Malformed Contract := do
  let c := of receives yields
  c.check ∅
  return c

end Contract

end ContractComposition

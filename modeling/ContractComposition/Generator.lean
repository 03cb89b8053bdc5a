import ContractComposition.Hierarchy
import ContractComposition.Contract.Basic

/-!
# Generators and options

A generator is a named participant of a composition. It starts from its contract, and an infinite
one starts over each time it has finished.
-/

namespace ContractComposition

/-- A named participant of a composition. -/
structure Generator where
  /-- The name, for traces and messages; several generators may share one. -/
  name : String
  /-- The contract that the generator starts from. -/
  contract : Contract
  /-- Whether the generator starts over when it has finished. -/
  infinite : Bool := false
deriving Inhabited

/-- The settings of a composition. -/
structure Options where
  /-- How many steps may be taken, those of nested compositions included. -/
  stepBudget : Nat := 10000
  /-- How many lines of the trace are shown when the budget runs out. -/
  traceLimit : Nat := 8
  /-- The classes that conditions refer to. -/
  hierarchy : Hierarchy := ∅
deriving Inhabited

end ContractComposition

import ContractComposition.Contract.Basic
import ContractComposition.Condition.Holds
import ContractComposition.Ty.Matching

/-!
# What contracts do

A contract first receives, element by element, and then yields, element by element. Receiving may
bind variables; yielding needs all variables of the yielding side bound.

Contracts can be put one after the other, extended by a further value to yield, and copied with
fresh variables.
-/

namespace ContractComposition

/-- The result of receiving a value. -/
structure Received where
  /-- What is left of the contract. -/
  successor : Contract
  /-- The bindings in force from now on. -/
  bindings : Bindings

/-- The result of yielding a value. -/
structure Yielded where
  /-- The value. -/
  value : Ty
  /-- What is left of the contract. -/
  successor : Contract

namespace Contract

/-- Offers a value to the first element of the receiving side, under the bindings `known`. It is
refused if it does not match, if it would bind a variable differently, if a forbidden binding would
arise, or if the condition would fail. -/
def accept? (c : Contract) (offered : Ty) (known : Bindings) (h : Hierarchy) : Option Received := do
  let (head, rest) ← c.receives.pop?
  let found ← (head.subst known).matching? offered
  let bindings ← known.join? found
  if Exclusions.violatedBy c.forbidden bindings then none
  else if c.condition.all fun condition => condition.holds bindings h then
    some ⟨{ c with receives := rest }, bindings⟩
  else none

/-- Yields the first element of the yielding side. This takes a contract that has nothing left to
receive, and bindings under which no variable is left in what it yields. The constraints have done
their work by then and are dropped. -/
def produce? (c : Contract) (b : Bindings) : Option Yielded := do
  if !c.receives.isVoid then none
  else
    let yields := c.yields.subst b
    if !yields.isGround then none
    else
      let (value, rest) ← yields.pop?
      some ⟨value, { of .void rest with source := c.source, restorable := c.restorable }⟩

/-- One contract, then the next: the sides are concatenated and the constraints are those of the
next one. -/
def andThen (c next : Contract) : Contract where
  receives := c.receives.concat next.receives
  yields := c.yields.concat next.yields
  condition := next.condition
  forbidden := next.forbidden
  source := next.source.or c.source
  restorable := false

/-- Puts one more value at the end of the yielding side. -/
def appendYield (c : Contract) (value : Ty) : Contract :=
  { c with yields := c.yields.concat (Ty.sequence [value]) }

/-- The variables of all parts of a contract, ascending and each once. -/
def allVars (c : Contract) : List String :=
  Names.ofList (c.receives.occurrences ++ c.yields.occurrences ++
    Exclusions.occurrences c.forbidden ++
    (c.condition.map Condition.occurrences).getD [])

/-- A copy of a contract in which every variable outside `keep` is renamed to a fresh one that
carries `suffix`. -/
def freshen (c : Contract) (suffix : Nat) (keep : List String) : Contract :=
  c.subst (Bindings.suffixing c.allVars suffix keep)

end Contract

end ContractComposition

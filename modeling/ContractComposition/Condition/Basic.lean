import ContractComposition.Names

/-!
# Conditions

A condition constrains the classes that the variables of a contract may be bound to. It is built
from clauses `x: C`, read as "`x` is unbound, or bound to the class `C` or a class below it", by
conjunction.
-/

namespace ContractComposition

/-- A conjunction of clauses, each bounding one variable by a class. -/
inductive Condition where
  /-- The variable is unbound, or bound to the class or one of its subclasses. -/
  | inherits (var superclass : String)
  /-- Both conditions hold. -/
  | both (left right : Condition)
deriving DecidableEq, Inhabited

namespace Condition

/-- The variables of the clauses, from left to right and with repetitions. -/
def occurrences : Condition → List String
  | .inherits x _ => [x]
  | .both l r => l.occurrences ++ r.occurrences

/-- The variables of the clauses, ascending and each once. -/
def vars (c : Condition) : List String :=
  Names.ofList c.occurrences

/-- The part of a condition whose clauses are about variables in `bound`; `none` when no clause
is left. -/
def restrictTo (bound : List String) : Condition → Option Condition
  | .inherits x cls => if x ∈ bound then some (.inherits x cls) else none
  | .both l r =>
    match l.restrictTo bound, r.restrictTo bound with
    | some l', some r' => some (.both l' r')
    | some l', none => some l'
    | none, some r' => some r'
    | none, none => none

/-- The written form: `x: C` for a clause, joined by `and`. -/
def text : Condition → String
  | .inherits x cls => x ++ ": " ++ cls
  | .both l r => l.text ++ " and " ++ r.text

end Condition

end ContractComposition

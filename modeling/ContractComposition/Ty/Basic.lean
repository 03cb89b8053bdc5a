import ContractComposition.Condition.Basic

/-!
# Symbolic values

Participants of a composition exchange symbolic values of type `Ty`: named constants, variables,
list lengths, sequences, tuples, homogeneous lists, and contracts. A `Contract` says what a
participant receives and what it yields; since a contract may itself travel as a value, the two
types are defined together. An `Exclusion` forbids a tuple of values from becoming equal to any of
a list of other tuples.

The views of this file read a value without changing it: its members as a stream (`items`), its
variables (`occurrences`, `freeVars`), and how deeply contracts are nested in it (`nesting`).
Variables and nesting look at the two sides of a contract only, never at its condition or its
table of exclusions.
-/

namespace ContractComposition

/-- The functions on list lengths. -/
inductive LengthFn where
  /-- The smallest of the arguments. -/
  | min
  /-- One less than the argument, and never below zero. -/
  | dec
deriving DecidableEq, Inhabited

namespace LengthFn

/-- The name under which a length function is written. -/
def name : LengthFn → String
  | .min => "min"
  | .dec => "dec"

end LengthFn

mutual

/-- A symbolic value. -/
inductive Ty where
  /-- Nothing: the empty stream. -/
  | void
  /-- A named constant, such as a class. -/
  | const (name : String)
  /-- A variable, standing for what it gets bound to. -/
  | var (name : String)
  /-- A concrete list length. -/
  | int (n : Int64)
  /-- An unknown and unbounded list length. -/
  | star
  /-- Values that are produced one after another. -/
  | seq (items : List Ty)
  /-- Values that are exchanged together. -/
  | tuple (items : List Ty)
  /-- `length` repetitions of `element`. -/
  | list (element length : Ty)
  /-- A length computed from other lengths. -/
  | func (fn : LengthFn) (args : List Ty)
  /-- A contract that is passed on as a value. -/
  | contract (body : Contract)

/-- What a participant receives, one element after another, and what it yields afterwards.

The remaining fields constrain and describe the contract. They do not take part in comparing
contracts, which looks at the two sides only. -/
structure Contract where
  /-- The values still to be received. -/
  receives : Ty
  /-- The values still to be yielded. -/
  yields : Ty
  /-- A condition on the bindings under which values are received. -/
  condition : Option Condition := none
  /-- Bindings that must not arise. -/
  forbidden : List Exclusion := []
  /-- The name of the binding or operation that the contract comes from. -/
  source : Option String := none
  /-- Whether the contract, once finished, starts again. -/
  restorable : Bool := false

/-- The tuple `key` must not become equal to any of the tuples `values`. -/
structure Exclusion where
  /-- The constrained values. -/
  key : List Ty
  /-- What they must not become. -/
  values : List (List Ty)

end

instance : Inhabited Ty := ⟨.void⟩

instance : Inhabited Contract := ⟨⟨.void, .void, none, [], none, false⟩⟩

instance : Inhabited Exclusion := ⟨⟨[], []⟩⟩

namespace Ty

/-- Whether the value is literally `void`. -/
def isVoid : Ty → Bool
  | .void => true
  | _ => false

/-- Whether the value is the wildcard length. -/
def isStar : Ty → Bool
  | .star => true
  | _ => false

/-- The number behind a concrete length. -/
def int? : Ty → Option Int64
  | .int n => some n
  | _ => none

/-- The contract behind a contract value. -/
def contract? : Ty → Option Contract
  | .contract body => some body
  | _ => none

/-- The members of a sequence; any other value but `void` is its own only member. -/
def items : Ty → List Ty
  | .void => []
  | .seq items => items
  | t => [t]

/-- The contracts of a value that starts new participants: a contract, or a non-empty tuple of
contracts. -/
def contracts? : Ty → Option (List Contract)
  | .contract body => some [body]
  | .tuple [] => none
  | .tuple items => items.mapM contract?
  | _ => none

/-- Whether the value starts new participants when it is yielded. -/
def isContractValue (t : Ty) : Bool :=
  t.contracts?.isSome

/-- Whether the value is a tuple. -/
def isTuple : Ty → Bool
  | .tuple _ => true
  | _ => false

end Ty

mutual

/-- The variables of a value, from left to right and with repetitions. -/
def Ty.occurrences : Ty → List String
  | .var x => [x]
  | .seq items => Ty.occurrencesAll items
  | .tuple items => Ty.occurrencesAll items
  | .list element length => element.occurrences ++ length.occurrences
  | .func _ args => Ty.occurrencesAll args
  | .contract body => body.occurrences
  | .void => []
  | .const _ => []
  | .int _ => []
  | .star => []

/-- The variables of the values of a list, from left to right and with repetitions. -/
def Ty.occurrencesAll : List Ty → List String
  | [] => []
  | t :: ts => t.occurrences ++ Ty.occurrencesAll ts

/-- The variables of the two sides of a contract, with repetitions. -/
def Contract.occurrences : Contract → List String
  | ⟨receives, yields, _, _, _, _⟩ => receives.occurrences ++ yields.occurrences

end

mutual

/-- How many contracts are nested inside each other in a value, at most. -/
def Ty.nesting : Ty → Nat
  | .seq items => Ty.nestingAll items
  | .tuple items => Ty.nestingAll items
  | .list element length => Nat.max element.nesting length.nesting
  | .func _ args => Ty.nestingAll args
  | .contract body => body.nesting
  | .void => 0
  | .const _ => 0
  | .var _ => 0
  | .int _ => 0
  | .star => 0

/-- The deepest nesting of contracts among the values of a list. -/
def Ty.nestingAll : List Ty → Nat
  | [] => 0
  | t :: ts => Nat.max t.nesting (Ty.nestingAll ts)

/-- A contract nests one deeper than its sides. -/
def Contract.nesting : Contract → Nat
  | ⟨receives, yields, _, _, _, _⟩ => Nat.max receives.nesting yields.nesting + 1

end

namespace Ty

/-- The variables of a value, ascending and each once. -/
def freeVars (t : Ty) : List String :=
  Names.ofList t.occurrences

/-- Whether no variable occurs in the value. -/
def isGround (t : Ty) : Bool :=
  t.occurrences.isEmpty

@[simp]
theorem mem_freeVars {x : String} {t : Ty} : x ∈ t.freeVars ↔ x ∈ t.occurrences :=
  Names.mem_ofList

theorem occurrencesAll_eq_flatMap (ts : List Ty) :
    occurrencesAll ts = ts.flatMap occurrences := by
  induction ts with
  | nil => rfl
  | cons t ts ih => simp [occurrencesAll, ih]

end Ty

end ContractComposition

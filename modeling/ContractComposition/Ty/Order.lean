import ContractComposition.Ty.Basic

/-!
# Equality and order of values

Two values are equal (`==`) when they are built alike, where contracts are compared by their two
sides only: condition, exclusions, source and restorability do not distinguish contracts.

`Ty.cmp` is a linear order that is compatible with this equality. Values of different kinds are
ordered by kind, in the order of the constructors; values of one kind are compared part by part;
lists of values are compared lexicographically and names by code points.
-/

namespace ContractComposition

mutual

/-- Equality of values, which looks at the sides of contracts only. -/
def Ty.beq : Ty → Ty → Bool
  | .void, .void => true
  | .const a, .const b => a == b
  | .var a, .var b => a == b
  | .int a, .int b => a == b
  | .star, .star => true
  | .seq as, .seq bs => Ty.beqAll as bs
  | .tuple as, .tuple bs => Ty.beqAll as bs
  | .list e n, .list e' n' => e.beq e' && n.beq n'
  | .func f as, .func g bs => f == g && Ty.beqAll as bs
  | .contract a, .contract b => a.beq b
  | _, _ => false

/-- Equality of lists of values, member by member. -/
def Ty.beqAll : List Ty → List Ty → Bool
  | [], [] => true
  | a :: as, b :: bs => a.beq b && Ty.beqAll as bs
  | _, _ => false

/-- Equality of contracts: both sides agree. -/
def Contract.beq : Contract → Contract → Bool
  | ⟨receives, yields, _, _, _, _⟩, other =>
    receives.beq other.receives && yields.beq other.yields

end

instance : BEq Ty := ⟨Ty.beq⟩

instance : BEq Contract := ⟨Contract.beq⟩

namespace LengthFn

/-- The order of the length functions. -/
def cmp : LengthFn → LengthFn → Ordering
  | .min, .min => .eq
  | .min, .dec => .lt
  | .dec, .min => .gt
  | .dec, .dec => .eq

end LengthFn

/-- The place of a value's kind among the kinds. -/
def Ty.rank : Ty → Nat
  | .void => 0
  | .const _ => 1
  | .var _ => 2
  | .int _ => 3
  | .star => 4
  | .seq _ => 5
  | .tuple _ => 6
  | .list _ _ => 7
  | .func _ _ => 8
  | .contract _ => 9

mutual

/-- The order of values. -/
def Ty.cmp : Ty → Ty → Ordering
  | .const a, .const b => compare a b
  | .var a, .var b => compare a b
  | .int a, .int b => compare a b
  | .seq as, .seq bs => Ty.cmpAll as bs
  | .tuple as, .tuple bs => Ty.cmpAll as bs
  | .list e n, .list e' n' => (e.cmp e').then (n.cmp n')
  | .func f as, .func g bs => (f.cmp g).then (Ty.cmpAll as bs)
  | .contract a, .contract b => a.cmp b
  | a, b => compare a.rank b.rank

/-- The lexicographic order of lists of values; a proper beginning comes first. -/
def Ty.cmpAll : List Ty → List Ty → Ordering
  | [], [] => .eq
  | [], _ :: _ => .lt
  | _ :: _, [] => .gt
  | a :: as, b :: bs => (a.cmp b).then (Ty.cmpAll as bs)

/-- The order of contracts: by what they receive, then by what they yield. -/
def Contract.cmp : Contract → Contract → Ordering
  | ⟨receives, yields, _, _, _, _⟩, other =>
    (receives.cmp other.receives).then (yields.cmp other.yields)

end

instance : Ord Ty := ⟨Ty.cmp⟩

instance : Ord Contract := ⟨Contract.cmp⟩

end ContractComposition

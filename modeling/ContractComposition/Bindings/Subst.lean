import ContractComposition.Bindings.Basic
import ContractComposition.Exclusion

/-!
# Substitution

Substituting bindings into a value replaces its bound variables, then the bound variables of what
came in, and so on, and normalizes the result. A chain of replacements that is longer than the
table has entries runs in a circle; it is cut off and leaves a variable in place. The chain is
counted anew inside each contract.

Inside a contract the condition and the exclusions are substituted as well. A clause of a condition
follows its variable to another variable. Exclusions that have no variable left are dropped, and a
contract with a violated exclusion collapses to the identity contract. The exclusions come first and
one after another: what stands behind a violated one is not looked at, and so a contract that
collapses may well mention the variable that it is bound to.

`Ty.expand` does the structural part and leaves the meaning of a variable to its argument `look`;
`Bindings.look` is that meaning under a table of bindings.
-/

namespace ContractComposition

namespace Condition

/-- Moves the clauses of a condition to other variables: where `value` makes a variable out of the
variable of a clause, the clause is about that variable. -/
def rename (value : String → Ty) : Condition → Condition
  | .inherits x cls =>
    match value x with
    | .var y => .inherits y cls
    | _ => .inherits x cls
  | .both l r => .both (l.rename value) (r.rename value)

end Condition

namespace Contract

/-- What is left of a contract with a violated exclusion: nothing but its source. -/
def collapsed (source : Option String) : Contract :=
  { receives := .void, yields := .void, source := source }

end Contract

mutual

/-- Replaces each variable `x` of a value by `look depth x`. Inside contracts the depth is zero and
all parts are normalized. -/
def Ty.expand (look : Nat → String → Ty) (depth : Nat) : Ty → Ty
  | .var x => look depth x
  | .seq items => .seq (Ty.expandAll look depth items)
  | .tuple items => .tuple (Ty.expandAll look depth items)
  | .list element length => .list (element.expand look depth) (length.expand look depth)
  | .func fn args => .func fn (Ty.expandAll look depth args)
  | .contract body => .contract (body.expand look)
  | .void => .void
  | .const name => .const name
  | .int n => .int n
  | .star => .star

/-- Replaces the variables in each value of a list. -/
def Ty.expandAll (look : Nat → String → Ty) (depth : Nat) : List Ty → List Ty
  | [] => []
  | t :: ts => t.expand look depth :: Ty.expandAll look depth ts

/-- Replaces the variables in each of several tuples and normalizes them. -/
def Ty.expandRows (look : Nat → String → Ty) : List (List Ty) → List (List Ty)
  | [] => []
  | row :: rows => Ty.normalizeAll (Ty.expandAll look 0 row) :: Ty.expandRows look rows

/-- Replaces the variables in the tuples of an exclusion and normalizes them. -/
def Exclusion.expand (look : Nat → String → Ty) : Exclusion → Exclusion
  | ⟨key, values⟩ => ⟨Ty.normalizeAll (Ty.expandAll look 0 key), Ty.expandRows look values⟩

/-- Replaces the variables in exclusions and enters them into a table, one after another; `none` as
soon as one of them is violated. -/
def Exclusions.expandInto? (look : Nat → String → Ty) (table : List Exclusion) :
    List Exclusion → Option (List Exclusion)
  | [] => some table
  | e :: rest =>
    match Exclusions.enter? table (e.expand look) with
    | none => none
    | some table => Exclusions.expandInto? look table rest

/-- Replaces the variables in all parts of a contract, the exclusions first. -/
def Contract.expand (look : Nat → String → Ty) : Contract → Contract
  | ⟨receives, yields, condition, forbidden, source, restorable⟩ =>
    match Exclusions.expandInto? look [] forbidden with
    | none => Contract.collapsed source
    | some table =>
      { receives := (receives.expand look 0).normalize
        yields := (yields.expand look 0).normalize
        condition := condition.map (Condition.rename fun x => (look 0 x).normalize)
        forbidden := table
        source := source
        restorable := restorable }

end

namespace Ty

theorem expandAll_eq_map (look : Nat → String → Ty) (depth : Nat) (ts : List Ty) :
    expandAll look depth ts = ts.map (expand look depth) := by
  induction ts with
  | nil => rfl
  | cons t ts ih => simp [expandAll, ih]

/-- Notes on a contract that came in for a variable, unless it knows its source, that the variable
is its source. -/
def withSource (x : String) : Ty → Ty
  | .contract body =>
    match body.source with
    | none => .contract { body with source := some x }
    | some _ => .contract body
  | t => t

end Ty

namespace Bindings

/-- What a variable stands for after `depth` replacements in a row. The first argument bounds the
number of replacements in a row, those inside contracts included. -/
def lookWithin (b : Bindings) : Nat → Nat → String → Ty
  | 0, _, x => .var x
  | bound + 1, depth, x =>
    match b.find? x with
    | none => .var x
    | some t =>
      if b.size < depth then .var x
      else (t.expand (lookWithin b bound) (depth + 1)).withSource x

/-- A number of replacements in a row that is enough, unless they never end. Between entering one
contract and the next there is at most one more replacement than the table has entries. If more
contracts are entered than the table has entries, two of them are entered through the same variable,
and the replacements go round in a circle for ever. -/
def chainBound (b : Bindings) : Nat :=
  (b.size + 1) * (b.size + 2)

/-- What a variable stands for after `depth` replacements in a row. -/
def look (b : Bindings) (depth : Nat) (x : String) : Ty :=
  b.lookWithin b.chainBound depth x

end Bindings

namespace Ty

/-- Substitutes bindings into a value and normalizes it. -/
def subst (t : Ty) (b : Bindings) : Ty :=
  (t.expand b.look 0).normalize

end Ty

namespace Contract

/-- Substitutes bindings into all parts of a contract. -/
def subst (c : Contract) (b : Bindings) : Contract :=
  c.expand b.look

end Contract

namespace Condition

/-- Follows the variables of a condition to the variables that they are bound to. -/
def subst (c : Condition) (b : Bindings) : Condition :=
  c.rename fun x => (Ty.var x).subst b

end Condition

namespace Exclusion

/-- Whether the bindings make the key equal to one of the tuples that it must not become. -/
def violatedBy (e : Exclusion) (b : Bindings) : Bool :=
  let key := e.key.map fun t => t.subst b
  e.values.any fun row => Ty.beqAll (row.map fun t => t.subst b) key

end Exclusion

namespace Exclusions

/-- Substitutes bindings into a table of exclusions and drops what is settled; `none` if an exclusion
is violated. -/
def subst? (table : List Exclusion) (b : Bindings) : Option (List Exclusion) :=
  expandInto? b.look [] table

/-- Whether the bindings violate an exclusion of a table. -/
def violatedBy (table : List Exclusion) (b : Bindings) : Bool :=
  table.any fun e => e.violatedBy b

/-- Expanding exclusions into a table is expanding them all and then entering them. -/
theorem expandInto?_eq_enterAll? (look : Nat → String → Ty) (table entries : List Exclusion) :
    expandInto? look table entries = enterAll? table (entries.map (Exclusion.expand look)) := by
  induction entries generalizing table with
  | nil => rfl
  | cons e rest ih =>
    rw [expandInto?, List.map_cons, enterAll?]
    cases enter? table (e.expand look) with
    | none => rfl
    | some table => exact ih table

end Exclusions

namespace Ty

/-- Renames every variable of a value outside `keep` to a fresh one that carries `suffix`. -/
def freshen (t : Ty) (suffix : Nat) (keep : List String) : Ty :=
  t.subst (Bindings.suffixing t.freeVars suffix keep)

end Ty

end ContractComposition

import ContractComposition.Ty.Order

/-!
# Tables of exclusions

A table of exclusions lists tuples of values together with the tuples that they must not become.
The keys of a table ascend in the order of values, and so do the forbidden tuples of each key, so
no key and no forbidden tuple is listed twice.

Equal tuples may still differ in the constraints of the contracts inside them. Which of two equal
tuples is kept therefore matters: `Exclusions.forbid` keeps the one that is there, and
`Tuples.ofList` keeps the last.
-/

namespace ContractComposition

namespace Tuples

/-- Adds a tuple to an ascending list of tuples, unless an equal one is there. -/
def insert (row : List Ty) : List (List Ty) → List (List Ty)
  | [] => [row]
  | other :: rest =>
    match Ty.cmpAll row other with
    | .lt => row :: other :: rest
    | .eq => other :: rest
    | .gt => other :: insert row rest

/-- Adds a tuple to an ascending list of tuples, in the place of an equal one. -/
def replace (row : List Ty) : List (List Ty) → List (List Ty)
  | [] => [row]
  | other :: rest =>
    match Ty.cmpAll row other with
    | .lt => row :: other :: rest
    | .eq => row :: rest
    | .gt => other :: replace row rest

/-- Adds several tuples one after another; tuples that are there stay. -/
def insertAll (rows : List (List Ty)) (new : List (List Ty)) : List (List Ty) :=
  new.foldl (fun rows row => insert row rows) rows

/-- The tuples of a list in ascending order; of equal tuples the last one stays. -/
def ofList (rows : List (List Ty)) : List (List Ty) :=
  rows.foldl (fun rows row => replace row rows) []

end Tuples

namespace Exclusion

/-- Whether the key has become one of the tuples that it must not become. -/
def isViolated (e : Exclusion) : Bool :=
  e.values.any fun row => Ty.beqAll row e.key

/-- Whether no variable is left in the exclusion, so that it cannot be violated later unless it is
already. -/
def isSettled (e : Exclusion) : Bool :=
  e.key.all Ty.isGround && e.values.all fun row => row.all Ty.isGround

/-- The variables of an exclusion, with repetitions. -/
def occurrences (e : Exclusion) : List String :=
  Ty.occurrencesAll e.key ++ e.values.flatMap Ty.occurrencesAll

end Exclusion

namespace Exclusions

/-- Forbids `key` to become any of `values`, besides what the table forbids already. -/
def forbid (key : List Ty) (values : List (List Ty)) : List Exclusion → List Exclusion
  | [] => [⟨key, Tuples.insertAll [] values⟩]
  | e :: rest =>
    match Ty.cmpAll key e.key with
    | .lt => ⟨key, Tuples.insertAll [] values⟩ :: e :: rest
    | .eq => ⟨e.key, Tuples.insertAll e.values values⟩ :: rest
    | .gt => e :: forbid key values rest

/-- The table that results from forbidding entry by entry. -/
def ofList (entries : List Exclusion) : List Exclusion :=
  entries.foldl (fun table e => forbid e.key e.values table) []

/-- Enters an exclusion into a table, unless it is settled; `none` if it is violated. -/
def enter? (table : List Exclusion) (e : Exclusion) : Option (List Exclusion) :=
  let e : Exclusion := ⟨e.key, Tuples.ofList e.values⟩
  if e.isViolated then none
  else if e.isSettled then some table
  else some (forbid e.key e.values table)

/-- Enters exclusions into a table one after another; `none` as soon as one of them is violated. -/
def enterAll? (table : List Exclusion) : List Exclusion → Option (List Exclusion)
  | [] => some table
  | e :: rest =>
    match enter? table e with
    | none => none
    | some table => enterAll? table rest

/-- The variables of a table, with repetitions. -/
def occurrences (table : List Exclusion) : List String :=
  table.flatMap Exclusion.occurrences

end Exclusions

end ContractComposition

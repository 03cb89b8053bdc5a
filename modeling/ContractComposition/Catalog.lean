import ContractComposition.Solve

/-!
# Catalogs of operations

A catalog holds operations by name, in the order in which their names were first inserted. Composing
some of them binds each name to its contract and runs a starter that yields all of them as one
tuple; so they are composed with each other first, and the result then meets the operations of low
priority.
-/

namespace ContractComposition

/-- Operations by name. -/
structure Catalog where
  /-- The operations, in the order in which their names were first inserted. -/
  operations : List Generator := []
deriving Inhabited

namespace Catalog

/-- Puts an operation in the place of the one with the same name, or at the end. -/
def insertOperation (operation : Generator) : List Generator → List Generator
  | [] => [operation]
  | known :: rest =>
    if known.name = operation.name then operation :: rest
    else known :: insertOperation operation rest

/-- Enters an operation, in the place of an earlier one with the same name. -/
def insert (catalog : Catalog) (operation : Generator) : Catalog :=
  ⟨insertOperation operation catalog.operations⟩

/-- The catalog that results from inserting operations one after another. -/
def ofList (operations : List Generator) : Catalog :=
  operations.foldl insert {}

/-- The operation with a name. -/
def find? (catalog : Catalog) (name : String) : Option Generator :=
  catalog.operations.find? fun operation => operation.name == name

/-- The names of the operations, in order. -/
def names (catalog : Catalog) : List String :=
  catalog.operations.map Generator.name

/-- The number of operations. -/
def size (catalog : Catalog) : Nat :=
  catalog.operations.length

/-- Whether there are no operations. -/
def isEmpty (catalog : Catalog) : Bool :=
  catalog.operations.isEmpty

/-- The name of the generator that starts a composition. -/
def starterName : String := "start"

/-- The contract of an operation as a value: it knows where it comes from, and it can start again if
the operation is infinite. -/
def contractValue (operation : Generator) : Contract :=
  let contract := operation.contract.withSource operation.name
  if operation.infinite then contract.restoring else contract

/-- The operations with names in a list, in the order of the catalog. -/
def select (catalog : Catalog) (names : List String) : List Generator :=
  catalog.operations.filter fun operation => names.contains operation.name

/-- The bindings of operations to their names. -/
def bindingsOf (operations : List Generator) : Bindings :=
  NameTable.ofList <| operations.map fun operation =>
    (operation.name, .contract (contractValue operation))

/-- The generator that yields operations as one tuple, by name. -/
def starter (operations : List Generator) : Generator where
  name := starterName
  contract := Contract.of .void (.tuple (operations.map fun operation => .var operation.name))

/-- Composes the operations `interested` with each other and runs the result against the operations
`lowPriority`. All names must be known; the first one that is not is reported. -/
def compose (catalog : Catalog) (options : Options) (interested lowPriority : List String) :
    Except SolveError Solution :=
  match (interested ++ lowPriority).find? fun name => (catalog.find? name).isNone with
  | some name => .error (.unknownOperation name)
  | none =>
    let chosen := catalog.select interested
    solve options (starter chosen :: lowPriority.filterMap catalog.find?) (bindingsOf chosen)

end Catalog

end ContractComposition

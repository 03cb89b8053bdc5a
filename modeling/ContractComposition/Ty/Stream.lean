import ContractComposition.Ty.Normal

/-!
# Streams

Each side of a contract is a stream that is consumed from the front. `Ty.pop?` takes off the first
element; `Ty.concat` puts one stream after another.

A list on its own is a stream of its elements. If its length is concrete and at most
`Ty.spreadLimit`, concatenation spreads it into these elements; any other list is an *open stream*,
which is kept whole.
-/

namespace ContractComposition

namespace Ty

/-- The greatest length of a list that is spread into its elements. -/
def spreadLimit : Int64 := 4096

/-- Takes off the first element of a stream and gives it with the remaining stream. There is none
in `void`, in a length, or in a list of concrete length zero or less. A list of unknown length
never gets shorter. -/
def pop? : Ty → Option (Ty × Ty)
  | .void => none
  | .int _ => none
  | .star => none
  | .func _ _ => none
  | .seq [] => none
  | .seq (head :: rest) => some (head, sequence rest)
  | .list element .star => some (element, .list element .star)
  | .list element (.int n) =>
    if n ≤ 0 then none else some (element, listOf element (decOf (.int n)))
  | .list element length => some (element, listOf element (decOf length))
  | .const name => some (.const name, .void)
  | .var name => some (.var name, .void)
  | .tuple items => some (.tuple items, .void)
  | .contract body => some (.contract body, .void)

/-- Whether the value is a list on its own that cannot be spread: its length is not concrete, or
above the limit. -/
def isOpenStream : Ty → Bool
  | .list _ (.int n) => spreadLimit < n
  | .list _ _ => true
  | _ => false

/-- The members that a stream contributes to a concatenation. -/
def streamMembers : Ty → List Ty
  | .list element (.int n) =>
    if n ≤ spreadLimit then List.replicate n.toInt.toNat element else [.list element (.int n)]
  | t => t.items

/-- One stream after another. -/
def concat (left right : Ty) : Ty :=
  match left, right with
  | .void, right => right
  | left, .void => left
  | left, right => sequence (left.streamMembers ++ right.streamMembers)

end Ty

end ContractComposition

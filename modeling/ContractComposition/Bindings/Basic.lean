import ContractComposition.NameTable
import ContractComposition.Ty.Normal
import ContractComposition.Ty.Order
import ContractComposition.Ty.Text

/-!
# Bindings

A table of bindings gives values to variables. Two tables can be joined when they agree, up to
normal form, on the variables that both of them bind.
-/

namespace ContractComposition

/-- The values that variables are bound to, by ascending name. -/
abbrev Bindings := NameTable Ty

namespace Bindings

/-- Binds a variable, over an earlier binding of it. -/
def bind (b : Bindings) (x : String) (t : Ty) : Bindings :=
  b.insert x t

/-- Adds bindings to a table one after another; `none` as soon as one of them contradicts the table.
A variable that is bound already keeps its value. -/
def joinEntries (b : Bindings) : List (String × Ty) → Option Bindings
  | [] => some b
  | (x, t) :: rest =>
    match b.find? x with
    | none => joinEntries (b.bind x t) rest
    | some u => if u.normalize == t.normalize then joinEntries b rest else none

/-- The bindings of both tables, or `none` if some variable is bound in both to values with
different normal forms. -/
def join? (b other : Bindings) : Option Bindings :=
  joinEntries b other.entries

/-- The bindings that rename each of `vars` outside `keep`: `x` becomes `x#suffix`. -/
def suffixing (vars : List String) (suffix : Nat) (keep : List String) : Bindings :=
  NameTable.ofList <|
    (vars.filter fun x => !keep.contains x).map fun x => (x, .var (x ++ "#" ++ toString suffix))

/-- The written form: the bindings in braces. -/
def text (b : Bindings) : String :=
  "\x7b" ++ ", ".intercalate (b.entries.map fun entry => entry.1 ++ " := " ++ entry.2.text)
    ++ "\x7d"

end Bindings

end ContractComposition

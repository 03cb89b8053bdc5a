import ContractComposition.NameTable

/-!
# Class hierarchies

A hierarchy gives each class at most one direct superclass. It may contain circles, so the walk
from a class towards its ancestors takes at most one step more than the table has entries.
-/

namespace ContractComposition

/-- The direct superclass of each class that has one. -/
abbrev Hierarchy := NameTable String

namespace Hierarchy

/-- Makes `superclass` the direct superclass of `cls`, in the place of an earlier one. -/
def register (h : Hierarchy) (cls superclass : String) : Hierarchy :=
  h.insert cls superclass

/-- The direct superclass of a class. -/
def superclass? (h : Hierarchy) (cls : String) : Option String :=
  h.find? cls

/-- Whether `ancestor` is among the first `n` classes on the way up from `cls`. -/
def reachesWithin (h : Hierarchy) (ancestor : String) : Nat → String → Bool
  | 0, _ => false
  | n + 1, cls =>
    cls == ancestor ||
      match h.superclass? cls with
      | some parent => reachesWithin h ancestor n parent
      | none => false

/-- Whether a class is the other one or below it. -/
def isSubclass (h : Hierarchy) (cls ancestor : String) : Bool :=
  h.reachesWithin ancestor (h.size + 1) cls

end Hierarchy

end ContractComposition

import ContractComposition.Ty.Basic

/-!
# The written form of values

Sequences are written in round brackets, tuples in angle brackets, lists and length functions like
applications, and a contract as `[receives; yields]`. A contract with constraints is followed by
`where` and its clauses: the condition first, then one clause for each exclusion.
-/

namespace ContractComposition

namespace Contract

/-- The clauses of a contract behind its two sides, or nothing if there are none. -/
def whereText (clauses : List String) : String :=
  if clauses.isEmpty then "" else " where " ++ ", ".intercalate clauses

end Contract

mutual

/-- The written form of a value. -/
def Ty.text : Ty → String
  | .void => "Void"
  | .const name => name
  | .var name => name
  | .int n => toString n.toInt
  | .star => "*"
  | .seq items => "(" ++ ", ".intercalate (Ty.texts items) ++ ")"
  | .tuple items => "<" ++ ", ".intercalate (Ty.texts items) ++ ">"
  | .list element length => "List(" ++ element.text ++ ", " ++ length.text ++ ")"
  | .func fn args => fn.name ++ "(" ++ ", ".intercalate (Ty.texts args) ++ ")"
  | .contract body => body.text

/-- The written forms of the values of a list. -/
def Ty.texts : List Ty → List String
  | [] => []
  | t :: ts => t.text :: Ty.texts ts

/-- The written forms of several tuples, each in round brackets. -/
def Ty.rowTexts : List (List Ty) → List String
  | [] => []
  | row :: rows => ("(" ++ ", ".intercalate (Ty.texts row) ++ ")") :: Ty.rowTexts rows

/-- The written form of an exclusion. -/
def Exclusion.text : Exclusion → String
  | ⟨key, values⟩ =>
    "(" ++ ", ".intercalate (Ty.texts key) ++ ") not in \x7b" ++
      ", ".intercalate (Ty.rowTexts values) ++ "\x7d"

/-- The written forms of several exclusions. -/
def Exclusion.texts : List Exclusion → List String
  | [] => []
  | e :: es => e.text :: Exclusion.texts es

/-- The written form of a contract. -/
def Contract.text : Contract → String
  | ⟨receives, yields, condition, forbidden, _, _⟩ =>
    "[" ++ receives.text ++ "; " ++ yields.text ++ "]" ++
      Contract.whereText
        ((condition.map Condition.text).toList ++ Exclusion.texts forbidden)

end

namespace Ty

/-- The written forms of several values, separated by commas. -/
def listText (ts : List Ty) : String :=
  ", ".intercalate (texts ts)

end Ty

end ContractComposition

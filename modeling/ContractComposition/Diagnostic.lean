/-!
# Diagnostics

A diagnostic tells a user what went wrong: a stable code, a message, the generator that it is
about, supporting notes and a suggested fix. It is written on several lines, the message first.
-/

namespace ContractComposition

/-- How severe a diagnostic is. -/
inductive Severity where
  /-- The composition failed. -/
  | error
  /-- The composition goes on. -/
  | warning
deriving DecidableEq, Inhabited

namespace Severity

/-- The word that opens a diagnostic. -/
def text : Severity → String
  | .error => "error"
  | .warning => "warning"

end Severity

/-- What kind of problem a diagnostic is about. -/
inductive Category where
  /-- A contract yields variables that it does not bind. -/
  | malformedContract
  /-- Several generators are left and none can go on. -/
  | deadlock
  /-- The step budget ran out. -/
  | stepLimit
  /-- An operation was named that does not exist. -/
  | unknownOperation
deriving DecidableEq, Inhabited

namespace Category

/-- The stable code of a kind of problem. -/
def code : Category → String
  | .malformedContract => "E0101"
  | .deadlock => "E0102"
  | .stepLimit => "E0103"
  | .unknownOperation => "E0104"

/-- What a user may try first. -/
def exampleFix : Category → String
  | .malformedContract => "Receive the variable before yielding it, or bind it before solving."
  | .deadlock => "Add a generator that consumes the unmatched values, or drop the blocked one."
  | .stepLimit => "Raise the step budget, or make restorable generators finite."
  | .unknownOperation => "Check the spelling or register the operation."

end Category

/-- A message to the user. -/
structure Diagnostic where
  /-- The stable code. -/
  code : Option String
  /-- How severe the problem is. -/
  severity : Severity
  /-- What kind of problem it is. -/
  category : Category
  /-- What went wrong. -/
  message : String
  /-- The generator that the message is about. -/
  generator : Option String := none
  /-- Supporting facts. -/
  notes : List String := []
  /-- A suggested fix. -/
  help : Option String := none
deriving DecidableEq, Inhabited

namespace Diagnostic

/-- A diagnostic with the code of its category. -/
def of (severity : Severity) (category : Category) (message : String) : Diagnostic :=
  { code := some category.code, severity := severity, category := category, message := message }

/-- An error. -/
def error : Category → String → Diagnostic :=
  of .error

/-- A warning. -/
def warning : Category → String → Diagnostic :=
  of .warning

/-- Names the generator that a diagnostic is about. -/
def forGenerator (d : Diagnostic) (name : String) : Diagnostic :=
  { d with generator := some name }

/-- Adds a note after the others. -/
def withNote (d : Diagnostic) (note : String) : Diagnostic :=
  { d with notes := d.notes ++ [note] }

/-- Suggests a fix, in the place of an earlier suggestion. -/
def withHelp (d : Diagnostic) (help : String) : Diagnostic :=
  { d with help := some help }

/-- The first line: severity, code and message. -/
def headline (d : Diagnostic) : String :=
  match d.code with
  | some code => d.severity.text ++ "[" ++ code ++ "]: " ++ d.message
  | none => d.severity.text ++ ": " ++ d.message

/-- The lines of a diagnostic. -/
def lines (d : Diagnostic) : List String :=
  d.headline ::
    ((d.generator.map fun name => "  --> generator `" ++ name ++ "`").toList ++
      d.notes.map (fun note => "  note: " ++ note) ++
      (d.help.map fun help => "  help: " ++ help).toList)

/-- The written form of a diagnostic. -/
def text (d : Diagnostic) : String :=
  "\n".intercalate d.lines

/-- What is shown of several diagnostics: the first one. -/
def firstText (ds : List Diagnostic) : String :=
  (ds.head?.map text).getD ""

end Diagnostic

end ContractComposition

import ContractComposition.Contract.Basic
import ContractComposition.Diagnostic

/-!
# Why a composition fails

Each way in which a composition can fail is a constructor of `SolveError`, together with what is
known about the failure. `SolveError.message` gives its wording in one line, and
`SolveError.toDiagnostic` the full diagnostic.
-/

namespace ContractComposition

/-- Why a composition failed. -/
inductive SolveError where
  /-- The contract of a generator yields variables that nothing binds. -/
  | malformed (generator : String) (cause : Malformed)
  /-- Several generators are left, none of which can go on; `unmatched` are the values that were
  handed out before. -/
  | deadlock (unmatched : List Ty) (blocked : List String)
  /-- The step budget ran out; `recent` are the last lines of the trace, the newest last. -/
  | stepLimit (budget : Nat) (recent : List String)
  /-- An operation was named that does not exist. -/
  | unknownOperation (name : String)
deriving Inhabited

namespace SolveError

/-- The kind of problem. -/
def category : SolveError → Category
  | .malformed _ _ => .malformedContract
  | .deadlock _ _ => .deadlock
  | .stepLimit _ _ => .stepLimit
  | .unknownOperation _ => .unknownOperation

/-- The wording of an error in one line. -/
def message : SolveError → String
  | .malformed generator cause =>
    "generator `" ++ generator ++ "` is malformed: " ++ cause.message
  | .deadlock unmatched blocked =>
    "deadlock: " ++ ", ".intercalate blocked ++ " cannot proceed; unmatched yields: [" ++
      Ty.listText unmatched ++ "]"
  | .stepLimit budget _ => "composition exceeded the step budget of " ++ toString budget
  | .unknownOperation name => "unknown operation `" ++ name ++ "`"

/-- The last steps before the budget ran out, one on a line. -/
def recentText (recent : List String) : String :=
  if recent.isEmpty then "no recent steps captured"
  else "recent steps:\n- " ++ "\n- ".intercalate recent

/-- What was handed out before a deadlock. -/
def unmatchedText (unmatched : List Ty) : String :=
  if unmatched.isEmpty then "no value was left unmatched"
  else "unmatched: " ++ Ty.listText unmatched

/-- The diagnostic for an error. -/
def toDiagnostic (e : SolveError) : Diagnostic :=
  let d := Diagnostic.error e.category e.message
  match e with
  | .malformed generator cause =>
    (d.forGenerator generator).withHelp
      ("receive " ++ ", ".intercalate cause.vars ++
        " before yielding, or bind it before solving")
  | .deadlock unmatched blocked =>
    ((blocked.foldl (fun d name => d.withNote ("blocked: `" ++ name ++ "`")) d).withNote
      (unmatchedText unmatched)).withHelp e.category.exampleFix
  | .stepLimit _ recent => d.withHelp (recentText recent ++ "\n" ++ e.category.exampleFix)
  | .unknownOperation name => (d.forGenerator name).withHelp e.category.exampleFix

end SolveError

end ContractComposition

import ContractComposition.Ty.Text

/-!
# Traces

A trace records a composition step by step. Each step begins with the contract that yielded a
value; the contracts that it resumed follow. A value that is handed to the outside resumes a
contract without a generator, which receives just this value.
-/

namespace ContractComposition

/-- What a contract did in a step. -/
inductive EventKind where
  /-- It produced a value. -/
  | yield
  /-- It received or absorbed a value, or was started. -/
  | resume
deriving DecidableEq, Inhabited

namespace EventKind

/-- The name of a kind of event. -/
def text : EventKind → String
  | .yield => "yield"
  | .resume => "resume"

end EventKind

/-- One entry of a trace. -/
structure Event where
  /-- The step that the event belongs to; the first step is 1. -/
  step : Nat
  /-- What the contract did. -/
  kind : EventKind
  /-- The generator that the contract belongs to; `none` for the outside. -/
  generator : Option String
  /-- The contract as it was before the step. -/
  contract : Contract
deriving Inhabited

namespace Event

/-- The name of an event for the reader: its generator, else the source of its contract, else the
contract itself. Empty names do not count. -/
def label (e : Event) : String :=
  let named := fun name : String => !name.isEmpty
  ((e.generator.filter named).or (e.contract.source.filter named)).getD e.contract.text

/-- The line that describes an event. -/
def line (e : Event) : String :=
  "#" ++ toString e.step ++ " " ++ e.kind.text ++ " " ++ e.label ++ ": " ++ e.contract.text

end Event

namespace Trace

/-- The labels of a trace in order, joined by arrows. -/
def order (trace : List Event) : String :=
  " ---->\n".intercalate (trace.map Event.label)

/-- The named generators of a trace, each once, in the order of their first appearance. -/
def operations (trace : List Event) : List String :=
  (trace.filterMap Event.generator).foldl
    (fun seen name => if name.isEmpty || seen.contains name then seen else seen ++ [name]) []

end Trace

end ContractComposition

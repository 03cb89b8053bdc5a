import ContractComposition.Run.Settle
import ContractComposition.SolveError

/-!
# Composing generators

`solve` checks the contracts of some generators, runs them against each other until nothing is left
to be done, and reports the contract that the whole set amounts to.
-/

namespace ContractComposition

/-- A successful composition. -/
structure Solution where
  /-- What the generators together still receive and yield. -/
  contract : Contract
  /-- What happened, in order. -/
  trace : List Event
  /-- The bindings at the end, those given at the start included. -/
  bindings : Bindings
  /-- The number of steps. -/
  steps : Nat
  /-- Problems that did not stop the composition. -/
  warnings : List Diagnostic

/-- Checks the contract of each generator, where the variables of `bindings` count as bound. -/
def checkGenerators (bindings : Bindings) : List Generator → Except SolveError Unit
  | [] => .ok ()
  | g :: rest =>
    match g.contract.check bindings with
    | .error cause => .error (.malformed g.name cause)
    | .ok () => checkGenerators bindings rest

namespace Run

/-- The outcome of a run that has come to its end. -/
def result (run : Run) : Except SolveError Solution :=
  match run.ending with
  | .composed contract =>
    .ok {
      contract := contract
      trace := run.trace.toList
      bindings := run.bindings
      steps := run.steps
      warnings := run.warnings.toList }
  | .deadlocked unmatched blocked => .error (.deadlock unmatched blocked)

end Run

namespace Halt

/-- The error that a stopped run is reported as. -/
def toError (options : Options) : Halt → SolveError
  | .outOfSteps recent => .stepLimit options.stepBudget recent
  | .outOfFuel => .stepLimit options.stepBudget []

end Halt

/-- Composes generators under some bindings. -/
def solve (options : Options) (generators : List Generator) (bindings : Bindings) :
    Except SolveError Solution :=
  match checkGenerators bindings generators with
  | .error e => .error e
  | .ok () =>
    match (Run.start generators bindings).settle options with
    | .error halt => .error (halt.toError options)
    | .ok run => run.result

end ContractComposition

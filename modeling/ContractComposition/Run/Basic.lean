import ContractComposition.Contract.Exchange
import ContractComposition.Diagnostic
import ContractComposition.Generator
import ContractComposition.Trace

/-!
# Runs

A run is the state of a composition. Each generator that takes part has a seat, which holds what is
left of its contract. Seats are numbered in the order in which generators join, and the live seats
are listed in this order.

All seats share one table of bindings, which only grows. When a generator has finished, its seat is
*retired*: a finite generator leaves, an infinite one starts over from a copy of its contract with
fresh variables.

A run ends when no seat can act. With at most one live seat left the generators are composed into
one contract: what was emitted to the outside, followed by what remains. Otherwise the run is
deadlocked.
-/

namespace ContractComposition

/-- A generator that takes part in a run. -/
structure Seat where
  /-- The number of the seat, which no other seat of the run has. -/
  number : Nat
  /-- The generator. -/
  generator : Generator
  /-- What is left of the contract. -/
  current : Contract
deriving Inhabited

/-- The state of a composition. -/
structure Run where
  /-- The seats that still take part, in the order in which they joined. -/
  live : List Seat := []
  /-- The number of the next seat. -/
  nextNumber : Nat := 0
  /-- The bindings that all seats share. -/
  bindings : Bindings := ∅
  /-- The variables that were bound from the start; a generator that starts over keeps them. -/
  external : List String := []
  /-- The values that were handed to the outside, in order. -/
  emitted : Array Ty := #[]
  /-- The number of steps taken. -/
  steps : Nat := 0
  /-- How often a generator has started over. -/
  restarts : Nat := 0
  /-- What happened so far. -/
  trace : Array Event := #[]
  /-- Problems that did not stop the run. -/
  warnings : Array Diagnostic := #[]
deriving Inhabited

/-- Why a run was stopped before its end. -/
inductive Halt where
  /-- The step budget ran out; `recent` are the last lines of the trace. -/
  | outOfSteps (recent : List String)
  /-- The bound on the recursion of runs was too small. -/
  | outOfFuel
deriving DecidableEq, Inhabited

/-- How a run ended. -/
inductive Ending where
  /-- The generators are composed into one contract. -/
  | composed (contract : Contract)
  /-- The generators `blocked` are left and cannot go on; `unmatched` was emitted before. -/
  | deadlocked (unmatched : List Ty) (blocked : List String)
deriving Inhabited

namespace Run

/-! ### Seats -/

/-- Gives a generator a seat of its own, behind the others. -/
def join (run : Run) (generator : Generator) : Run :=
  { run with
    live := run.live ++ [⟨run.nextNumber, generator, generator.contract⟩]
    nextNumber := run.nextNumber + 1 }

/-- Seats the generators of a list, except those that have nothing to do. -/
def joinAll (run : Run) (generators : List Generator) : Run :=
  (generators.filter fun g => !g.contract.isTerminal).foldl join run

/-- The live seat with a number. -/
def seat? (run : Run) (number : Nat) : Option Seat :=
  run.live.find? fun seat => seat.number == number

/-- Puts a contract on the seat with a number. -/
def put (run : Run) (number : Nat) (contract : Contract) : Run :=
  { run with
    live := run.live.map fun seat =>
      if seat.number == number then { seat with current := contract } else seat }

/-- Takes the seat with a number out of the run. -/
def leave (run : Run) (number : Nat) : Run :=
  { run with live := run.live.filter fun seat => seat.number != number }

/-- Lets the generator of a seat start over from a fresh copy of its contract. -/
def restart (run : Run) (seat : Seat) : Run :=
  { run.put seat.number (seat.generator.contract.freshen (run.restarts + 1) run.external) with
    restarts := run.restarts + 1 }

/-- Retires the seat with a number if its contract is finished. -/
def retire (run : Run) (number : Nat) : Run :=
  match run.seat? number with
  | none => run
  | some seat =>
    if seat.current.isTerminal then
      if seat.generator.infinite then run.restart seat else run.leave number
    else run

/-- Retires the seats with the given numbers, one after another. -/
def retireAll (run : Run) (numbers : List Nat) : Run :=
  numbers.foldl retire run

/-- Substitutes the bindings into the contract of every live seat, and retires those that are
finished afterwards. -/
def propagate (run : Run) : Run :=
  let live := run.live.map fun seat => { seat with current := seat.current.subst run.bindings }
  { run with live := live }.retireAll (live.map Seat.number)

/-! ### Records -/

/-- Records an event of the step under way. -/
def record (run : Run) (kind : EventKind) (generator : Option String) (contract : Contract) : Run :=
  { run with trace := run.trace.push ⟨run.steps + 1, kind, generator, contract⟩ }

/-- Records what a seat did, with its contract before the step. -/
def recordSeat (run : Run) (kind : EventKind) (seat : Seat) : Run :=
  run.record kind (some seat.generator.name) seat.current

/-- The last lines of the trace, at most `limit` of them. -/
def recentLines (run : Run) (limit : Nat) : List String :=
  (run.trace.toList.drop (run.trace.size - limit)).map Event.line

/-- Counts a step, or stops the run if the budget does not allow it. -/
def tick (run : Run) (options : Options) : Except Halt Run :=
  if options.stepBudget < run.steps + 1 then
    .error (.outOfSteps (run.recentLines options.traceLimit))
  else .ok { run with steps := run.steps + 1 }

/-! ### Beginning and end -/

/-- The run of some generators under some bindings; bound variables count as external. -/
def start (generators : List Generator) (bindings : Bindings) : Run :=
  ({ bindings := bindings, external := bindings.names } : Run).joinAll generators

/-- The run of some generators inside another run. It begins with the bindings and the counters of
the other run. -/
def nest (run : Run) (generators : List Generator) : Run :=
  ({ bindings := run.bindings, external := run.external, steps := run.steps,
     restarts := run.restarts } : Run).joinAll generators

/-- What was handed to the outside, as a contract. -/
def output (run : Run) : Contract :=
  Contract.of .void (Ty.sequence run.emitted.toList)

/-- How a run ends in which no seat can act. -/
def ending (run : Run) : Ending :=
  match run.live with
  | [] => .composed run.output
  | [seat] => .composed (run.output.andThen (seat.current.subst run.bindings))
  | seats => .deadlocked run.output.yields.items (seats.map fun seat => seat.generator.name)

end Run

end ContractComposition

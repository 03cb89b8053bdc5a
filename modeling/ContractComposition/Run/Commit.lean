import ContractComposition.Run.Action

/-!
# Carrying out an action

Every action is one step: it is recorded in the trace, counted, and followed by the retirement of
the seats that it may have finished. New bindings are propagated to all seats.

A tuple of contracts is composed first, in a run of its own that is nested in the present one. If
this succeeds, the composite joins as a single generator and the nested run's steps, bindings,
trace and warnings become part of the present run. If it ends in a deadlock, all this is forgotten
but the count of restarts, so that fresh variables stay fresh; a warning is left and the contracts
join one by one. How a nested run is driven to its end is left to the argument `compose`.
-/

namespace ContractComposition

namespace Run

/-- One seat receives what another one yields. -/
def exchange (run : Run) (options : Options) (offer : Offer) (receiver : Seat)
    (received : Received) : Except Halt Run := do
  let resumed := received.successor.subst received.bindings
  let moved := { run with bindings := received.bindings }
    |>.put offer.seat.number offer.yielded.successor
    |>.put receiver.number resumed
    |>.recordSeat .yield offer.seat
    |>.recordSeat .resume receiver
  let ticked ← moved.tick options
  let retired := ticked.retireAll [offer.seat.number, receiver.number]
  return if run.bindings.size < received.bindings.size then retired.propagate else retired

/-- The generators for contracts that a generator has yielded: each is named for its source, else
for its parent and its place. -/
def members (parent : String) (contracts : List Contract) : List Generator :=
  contracts.zipIdx.map fun (contract, i) =>
    { name := contract.source.getD (parent ++ "/" ++ toString i)
      contract := contract
      infinite := contract.restorable }

/-- The name of a composite generator. -/
def compositeName (generators : List Generator) : String :=
  "(" ++ ", ".intercalate (generators.map Generator.name) ++ ")"

/-- The warning that the contracts of a tuple were not composed. -/
def separationWarning (parent : String) (generators : List Generator) (blocked : List String) :
    Diagnostic :=
  (Diagnostic.warning .deadlock
      (compositeName generators ++ " could not be composed; members started separately")
    |>.forGenerator parent).withNote ("blocked: " ++ ", ".intercalate blocked)

/-- Takes over the result of a nested run, and gives the generators that are to join. -/
def adopt (run : Run) (parent : String) (generators : List Generator) (nested : Run) :
    Run × List Generator :=
  match nested.ending with
  | .composed contract =>
    ({ run with
        steps := nested.steps
        restarts := nested.restarts
        bindings := nested.bindings
        trace := run.trace ++ nested.trace
        warnings := run.warnings ++ nested.warnings },
      [{ name := compositeName generators, contract := contract }])
  | .deadlocked _ blocked =>
    ({ run with
        restarts := nested.restarts
        warnings := run.warnings.push (separationWarning parent generators blocked) },
      generators)

/-- The generators that a yielded value starts: those of a tuple are composed first. -/
def prepare (run : Run) (compose : Run → Except Halt Run) (parent : String) (value : Ty)
    (generators : List Generator) : Except Halt (Run × List Generator) :=
  if value.isTuple then do
    let nested ← compose (run.nest generators)
    return run.adopt parent generators nested
  else return (run, generators)

/-- Seats a generator that was started, and records it. -/
def seatStarted (run : Run) (generator : Generator) : Run :=
  (run.join generator).record .resume (some generator.name) generator.contract

/-- The contracts that a seat yields start running. -/
def spawn (run : Run) (options : Options) (compose : Ty → Run → Except Halt Run) (offer : Offer)
    (contracts : List Contract) : Except Halt Run := do
  let parent := offer.seat.generator.name
  let (prepared, started) ←
    run.prepare (compose offer.value) parent offer.value (members parent contracts)
  let yielded := prepared
    |>.put offer.seat.number offer.yielded.successor
    |>.recordSeat .yield offer.seat
  let joined := started.foldl seatStarted yielded
  let ticked ← joined.tick options
  let numbers := (List.range started.length).map fun i => yielded.nextNumber + i
  let retired := ticked.retireAll (offer.seat.number :: numbers)
  return if run.bindings.size < prepared.bindings.size then retired.propagate else retired

/-- One seat takes over what another one yields. -/
def absorb (run : Run) (options : Options) (offer : Offer) (absorber : Seat) :
    Except Halt Run := do
  let moved := run
    |>.put offer.seat.number offer.yielded.successor
    |>.put absorber.number (absorber.current.appendYield offer.value)
    |>.recordSeat .yield offer.seat
    |>.recordSeat .resume absorber
  let ticked ← moved.tick options
  return ticked.retire offer.seat.number

/-- A value is handed to the outside. -/
def emit (run : Run) (options : Options) (offer : Offer) : Except Halt Run := do
  let moved := { run with emitted := run.emitted.push offer.value }
    |>.put offer.seat.number offer.yielded.successor
    |>.recordSeat .yield offer.seat
    |>.record .resume none (Contract.of offer.value .void)
  let ticked ← moved.tick options
  return ticked.retire offer.seat.number

/-- Carries out an action. -/
def commit (run : Run) (options : Options) (compose : Ty → Run → Except Halt Run) :
    Action → Except Halt Run
  | .exchange offer receiver received => run.exchange options offer receiver received
  | .spawn offer contracts => run.spawn options compose offer contracts
  | .absorb offer absorber => run.absorb options offer absorber
  | .emit offer => run.emit options offer

end Run

end ContractComposition

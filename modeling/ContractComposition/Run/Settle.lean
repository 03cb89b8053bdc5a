import ContractComposition.Run.Commit

/-!
# Driving a run to its end

A run takes steps until no seat can act. Every step is counted against the budget, so one round more
than the budget leaves is enough: each round but the last takes a step. Nested runs are bounded by
how deeply contracts are nested in the tuple that starts them: the tuples that can be yielded inside
are nested less deeply.
-/

namespace ContractComposition

namespace Run

/-- One step of a run: the next action is carried out. The result is `none` if no seat can act. -/
def step (run : Run) (options : Options) (compose : Ty → Run → Except Halt Run) :
    Except Halt (Option Run) :=
  match run.nextAction? options.hierarchy with
  | none => .ok none
  | some action => (run.commit options compose action).map some

/-- Takes steps until no seat can act, for at most `fuel` rounds. -/
def drive (options : Options) (compose : Ty → Run → Except Halt Run) : Nat → Run → Except Halt Run
  | 0, _ => .error .outOfFuel
  | fuel + 1, run =>
    match run.step options compose with
    | .error halt => .error halt
    | .ok none => .ok run
    | .ok (some next) => drive options compose fuel next

/-- The number of rounds that the budget leaves to a run. -/
def rounds (run : Run) (options : Options) : Nat :=
  options.stepBudget + 1 - run.steps

/-- Drives a nested run to its end, with at most `depth - 1` further runs nested in each other. -/
def settleWithin (options : Options) : Nat → Run → Except Halt Run
  | 0, _ => .error .outOfFuel
  | depth + 1, run =>
    run.drive options (fun _ => settleWithin options depth) (run.rounds options)

/-- Drives a run to its end. -/
def settle (options : Options) (run : Run) : Except Halt Run :=
  run.drive options (fun value => settleWithin options value.nesting) (run.rounds options)

end Run

end ContractComposition

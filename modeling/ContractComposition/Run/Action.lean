import ContractComposition.Run.Basic

/-!
# Choosing an action

In each step one seat yields a value. There are four things that can be done with it, tried in this
order:

1. *exchange*: another seat receives it;
2. *spawn*: it is a contract, or a tuple of contracts, and starts running;
3. *absorb*: a seat with nothing left to receive puts it at the end of what it yields;
4. *emit*: it is handed to the outside.

For each of these the yielding seats are tried in order, and for each of them the other seats in
order, so a run is determined by its beginning. A seat that yields an open stream only takes part
in exchanges and in spawning; whatever is left of the stream remains.
-/

namespace ContractComposition

/-- A seat together with the value that it can yield next. -/
structure Offer where
  /-- The yielding seat. -/
  seat : Seat
  /-- The value, and what is left of the seat's contract afterwards. -/
  yielded : Yielded

namespace Offer

/-- The offered value. -/
def value (offer : Offer) : Ty :=
  offer.yielded.value

end Offer

/-- What is done in a step. -/
inductive Action where
  /-- Another seat receives the value. -/
  | exchange (offer : Offer) (receiver : Seat) (received : Received)
  /-- The value's contracts start running. -/
  | spawn (offer : Offer) (contracts : List Contract)
  /-- Another seat will yield the value. -/
  | absorb (offer : Offer) (absorber : Seat)
  /-- The value is handed to the outside. -/
  | emit (offer : Offer)

namespace Run

/-- The offer of each live seat that can yield, in order. -/
def offers (run : Run) : List Offer :=
  run.live.filterMap fun seat => (seat.current.produce? run.bindings).map (Offer.mk seat)

/-- Whether a seat yields an open stream. -/
def isUnbounded (run : Run) (seat : Seat) : Bool :=
  (seat.current.yields.subst run.bindings).isOpenStream

/-- The live seats that have something left to receive, in order. -/
def receivers (run : Run) : List Seat :=
  run.live.filter fun seat => !seat.current.receives.isVoid

/-- The first exchange among the given offers. -/
def findExchange? (run : Run) (h : Hierarchy) (offers : List Offer) : Option Action :=
  let receivers := run.receivers
  offers.findSome? fun offer =>
    receivers.findSome? fun seat =>
      if seat.number == offer.seat.number then none
      else (seat.current.accept? offer.value run.bindings h).map (Action.exchange offer seat)

/-- The first offer of contracts. -/
def findSpawn? (offers : List Offer) : Option Action :=
  offers.findSome? fun offer => offer.value.contracts?.map (Action.spawn offer)

/-- Whether a seat can absorb a value of the seat with the given number. -/
def canAbsorb (run : Run) (number : Nat) (seat : Seat) : Bool :=
  seat.number != number && seat.current.receives.isVoid && !seat.generator.infinite &&
    !run.isUnbounded seat

/-- The first absorption among the given offers. -/
def findAbsorb? (run : Run) (offers : List Offer) : Option Action :=
  offers.findSome? fun offer =>
    if run.isUnbounded offer.seat then none
    else (run.live.find? (run.canAbsorb offer.seat.number)).map (Action.absorb offer)

/-- The first offer that can be emitted. -/
def findEmit? (run : Run) (offers : List Offer) : Option Action :=
  (offers.find? fun offer => !run.isUnbounded offer.seat).map Action.emit

/-- What is to be done next, or `none` if no seat can act. -/
def nextAction? (run : Run) (h : Hierarchy) : Option Action :=
  let offers := run.offers
  (run.findExchange? h offers).or <|
    (findSpawn? offers).or <| (run.findAbsorb? offers).or <| run.findEmit? offers

end Run

end ContractComposition

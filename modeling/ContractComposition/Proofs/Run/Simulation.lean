import Mathlib.Data.List.Forall2
import ContractComposition.Solve

/-!
# Runs that go alike

Two runs are compared step by step. What counts as alike is left open: a `Likeness` relates
contracts, values, tables of bindings and names, and collects what has to hold of these relations,
operation by operation. As long as it holds, neither the choice of actions nor the bookkeeping of
seats can tell the two runs apart: they choose the same actions, and carry them out alike
(`Likeness.nextAction?`, `Likeness.commit`).

So two runs that begin alike come to their end alike, or are both stopped before
(`Likeness.settle`). This includes the runs that are nested in them.
-/

namespace ContractComposition

/-! ### Searching related lists -/

section Search

variable {α β γ δ : Type} {R : α → β → Prop} {S : γ → δ → Prop}

/-- Related results are both missing or both there. -/
lemma rel_option_cases {o : Option α} {o' : Option β} (h : Option.Rel R o o') :
    o = none ∧ o' = none ∨ ∃ a b, o = some a ∧ o' = some b ∧ R a b := by
  cases h with
  | none => exact .inl ⟨rfl, rfl⟩
  | some hab => exact .inr ⟨_, _, rfl, rfl, hab⟩

/-- Results that a function does not tell apart. -/
lemma rel_of_map_eq {f : α → γ} {g : β → γ} {o : Option α} {o' : Option β}
    (h : o.map f = o'.map g) : Option.Rel (fun a b => f a = g b) o o' := by
  cases o with
  | none =>
    cases o' with
    | none => exact .none
    | some => cases h
  | some a =>
    cases o' with
    | none => cases h
    | some b => exact .some (Option.some.inj h)

lemma rel_option_imp {T : α → β → Prop} {o : Option α} {o' : Option β} (h : Option.Rel R o o')
    (himp : ∀ a b, R a b → T a b) : Option.Rel T o o' := by
  cases h with
  | none => exact .none
  | some hab => exact .some (himp _ _ hab)

/-- The first members of related lists with related properties. -/
lemma rel_find? {l : List α} {l' : List β} {p : α → Bool} {q : β → Bool} (h : List.Forall₂ R l l')
    (hpq : ∀ a b, R a b → p a = q b) : Option.Rel R (l.find? p) (l'.find? q) := by
  induction h with
  | nil => exact .none
  | cons hab _ ih =>
    rw [List.find?_cons, List.find?_cons, hpq _ _ hab]
    split
    · exact .some hab
    · exact ih

/-- The first results that are found in related lists. -/
lemma rel_findSome? {l : List α} {l' : List β} {f : α → Option γ} {g : β → Option δ}
    (h : List.Forall₂ R l l') (hfg : ∀ a b, R a b → Option.Rel S (f a) (g b)) :
    Option.Rel S (l.findSome? f) (l'.findSome? g) := by
  induction h with
  | nil => exact .none
  | cons hab _ ih =>
    rw [List.findSome?_cons, List.findSome?_cons]
    rcases rel_option_cases (hfg _ _ hab) with ⟨hnone, hnone'⟩ | ⟨c, d, hsome, hsome', hcd⟩
    · rw [hnone, hnone']
      exact ih
    · rw [hsome, hsome']
      exact .some hcd

lemma rel_option_map {f : α → γ} {g : β → δ} {o : Option α} {o' : Option β} (h : Option.Rel R o o')
    (hfg : ∀ a b, R a b → S (f a) (g b)) : Option.Rel S (o.map f) (o'.map g) := by
  cases h with
  | none => exact .none
  | some hab => exact .some (hfg _ _ hab)

lemma rel_option_bind {f : α → Option γ} {g : β → Option δ} {o : Option α} {o' : Option β}
    (h : Option.Rel R o o') (hfg : ∀ a b, R a b → Option.Rel S (f a) (g b)) :
    Option.Rel S (o.bind f) (o'.bind g) := by
  cases h with
  | none => exact .none
  | some hab => exact hfg _ _ hab

lemma rel_option_or {o p : Option α} {o' p' : Option β} (h : Option.Rel R o o')
    (hp : Option.Rel R p p') : Option.Rel R (o.or p) (o'.or p') := by
  cases h with
  | none => exact hp
  | some hab => exact .some hab

end Search

/-- What two runs have in common while they go alike. The relations compare the contracts, the
values, the bindings and the names of the two runs, which keep the variables `keep` and `keep'` when
they start over. -/
structure Likeness where
  contract : Contract → Contract → Prop
  value : Ty → Ty → Prop
  bindings : Bindings → Bindings → Prop
  name : String → String → Prop
  keep : List String
  keep' : List String
  /-- One table grows exactly if the other one does. -/
  size_lt_iff : ∀ {b b' d d'}, bindings b b' → bindings d d' → (b.size < d.size ↔ b'.size < d'.size)
  /-- Substituting bindings. -/
  subst : ∀ {b b' c c'}, bindings b b' → contract c c' → contract (c.subst b) (c'.subst b')
  /-- Renaming variables. -/
  freshen : ∀ {c c'}, contract c c' → ∀ k, contract (c.freshen k keep) (c'.freshen k keep')
  /-- Having finished. -/
  isTerminal_eq : ∀ {c c'}, contract c c' → c.isTerminal = c'.isTerminal
  /-- Having nothing left to receive. -/
  isVoid_eq : ∀ {c c'}, contract c c' → c.receives.isVoid = c'.receives.isVoid
  /-- Yielding an open stream. -/
  isOpenStream_eq : ∀ {b b' c c'}, bindings b b' → contract c c' →
    (c.yields.subst b).isOpenStream = (c'.yields.subst b').isOpenStream
  /-- Yielding a value. -/
  produce : ∀ {b b' c c'}, bindings b b' → contract c c' →
    Option.Rel (fun y y' => value y.value y'.value ∧ contract y.successor y'.successor)
      (c.produce? b) (c'.produce? b')
  /-- Receiving a value. -/
  accept : ∀ {b b' c c' v v'}, bindings b b' → contract c c' → value v v' → ∀ h,
    Option.Rel (fun r r' => contract r.successor r'.successor ∧ bindings r.bindings r'.bindings)
      (c.accept? v b h) (c'.accept? v' b' h)
  /-- Taking over a value. -/
  append : ∀ {c c' v v'}, contract c c' → value v v' →
    contract (c.appendYield v) (c'.appendYield v')
  /-- Starting the contracts of a value. -/
  contracts : ∀ {v v'}, value v v' →
    Option.Rel (List.Forall₂ fun c c' => contract c c' ∧ c.restorable = c'.restorable)
      v.contracts? v'.contracts?
  /-- Where contracts are started, they are nested in a run alike, and names do not matter. -/
  started : ∀ {v v'}, value v v' → v.isContractValue = true →
    v.isTuple = v'.isTuple ∧ v.nesting = v'.nesting ∧ ∀ x y, name x y
  /-- Handing out one value. -/
  single : ∀ {v v'}, value v v' → contract (Contract.of v .void) (Contract.of v' .void)
  /-- Handing out values. -/
  output : ∀ {vs vs'}, List.Forall₂ value vs vs' →
    contract (Contract.of .void (Ty.sequence vs)) (Contract.of .void (Ty.sequence vs'))
  /-- Putting one contract after another. -/
  andThen : ∀ {c c' d d'}, contract c c' → contract d d' → contract (c.andThen d) (c'.andThen d')

namespace Likeness

variable (L : Likeness)

/-! ### The relations between runs -/

/-- The generators are alike. -/
structure GeneratorAlike (g g' : Generator) : Prop where
  name : L.name g.name g'.name
  contract : L.contract g.contract g'.contract
  infinite : g.infinite = g'.infinite

/-- The seats have the same number, and generators and contracts that are alike. -/
structure SeatAlike (seat seat' : Seat) : Prop where
  number : seat.number = seat'.number
  generator : L.GeneratorAlike seat.generator seat'.generator
  current : L.contract seat.current seat'.current

/-- The events happen in the same step, to contracts that are alike. -/
structure EventAlike (e e' : Event) : Prop where
  step : e.step = e'.step
  kind : e.kind = e'.kind
  generator : Option.Rel L.name e.generator e'.generator
  contract : L.contract e.contract e'.contract

/-- The states of two runs are alike. -/
structure RunAlike (run run' : Run) : Prop where
  live : List.Forall₂ L.SeatAlike run.live run'.live
  nextNumber : run.nextNumber = run'.nextNumber
  bindings : L.bindings run.bindings run'.bindings
  external : run.external = L.keep ∧ run'.external = L.keep'
  emitted : List.Forall₂ L.value run.emitted.toList run'.emitted.toList
  steps : run.steps = run'.steps
  restarts : run.restarts = run'.restarts
  trace : List.Forall₂ L.EventAlike run.trace.toList run'.trace.toList
  warnings : run.warnings.size = run'.warnings.size

/-- The offers are alike. -/
structure OfferAlike (offer offer' : Offer) : Prop where
  seat : L.SeatAlike offer.seat offer'.seat
  value : L.value offer.value offer'.value
  successor : L.contract offer.yielded.successor offer'.yielded.successor

/-- The actions are of the same kind, and between seats that are alike. -/
inductive ActionAlike : Action → Action → Prop
  | exchange {offer offer' : Offer} {receiver receiver' : Seat} {received received' : Received}
      (hoffer : L.OfferAlike offer offer') (hreceiver : L.SeatAlike receiver receiver')
      (hsuccessor : L.contract received.successor received'.successor)
      (hbindings : L.bindings received.bindings received'.bindings) :
      ActionAlike (.exchange offer receiver received) (.exchange offer' receiver' received')
  | spawn {offer offer' : Offer} {contracts contracts' : List Contract}
      (hoffer : L.OfferAlike offer offer') (hvalue : offer.value.contracts? = some contracts)
      (hcontracts : List.Forall₂ (fun c c' => L.contract c c' ∧ c.restorable = c'.restorable)
        contracts contracts') :
      ActionAlike (.spawn offer contracts) (.spawn offer' contracts')
  | absorb {offer offer' : Offer} {absorber absorber' : Seat}
      (hoffer : L.OfferAlike offer offer') (habsorber : L.SeatAlike absorber absorber') :
      ActionAlike (.absorb offer absorber) (.absorb offer' absorber')
  | emit {offer offer' : Offer} (hoffer : L.OfferAlike offer offer') :
      ActionAlike (.emit offer) (.emit offer')

/-- Both computations give results that are alike, or both are stopped. -/
def EndAlike {α β : Type} (R : α → β → Prop) : Except Halt α → Except Halt β → Prop
  | .ok a, .ok b => R a b
  | .error _, .error _ => True
  | .ok _, .error _ => False
  | .error _, .ok _ => False

variable {L}

lemma EndAlike.bind {α β γ δ : Type} {R : α → β → Prop} {S : γ → δ → Prop} {x : Except Halt α}
    {x' : Except Halt β} {f : α → Except Halt γ} {f' : β → Except Halt δ} (h : EndAlike R x x')
    (hf : ∀ a b, R a b → EndAlike S (f a) (f' b)) : EndAlike S (x >>= f) (x' >>= f') := by
  cases x <;> cases x' <;> first | exact h.elim | trivial | exact hf _ _ h

variable {run run' : Run}

/-! ### The choice of an action -/

section Choice

variable (h : L.RunAlike run run')

include h

lemma offers : List.Forall₂ L.OfferAlike run.offers run'.offers := by
  refine List.rel_filterMap (fun seat seat' hseat => ?_) h.live
  refine rel_option_map (L.produce h.bindings hseat.current) fun y y' hy => ?_
  exact ⟨hseat, hy.1, hy.2⟩

lemma isUnbounded_eq {seat seat' : Seat} (hseat : L.SeatAlike seat seat') :
    run.isUnbounded seat = run'.isUnbounded seat' :=
  L.isOpenStream_eq h.bindings hseat.current

lemma receivers : List.Forall₂ L.SeatAlike run.receivers run'.receivers := by
  refine List.rel_filter (fun seat seat' hseat => ?_) h.live
  dsimp only
  rw [L.isVoid_eq hseat.current]

lemma findExchange? (hierarchy : Hierarchy) {offers offers' : List Offer}
    (hoffers : List.Forall₂ L.OfferAlike offers offers') :
    Option.Rel L.ActionAlike (run.findExchange? hierarchy offers)
      (run'.findExchange? hierarchy offers') := by
  refine rel_findSome? hoffers fun offer offer' hoffer => ?_
  refine rel_findSome? (receivers h) fun seat seat' hseat => ?_
  rw [hseat.number, hoffer.seat.number]
  split
  · exact .none
  · refine rel_option_map (L.accept h.bindings hseat.current hoffer.value hierarchy) ?_
    exact fun r r' hr => .exchange hoffer hseat hr.1 hr.2

omit h in
lemma findSpawn? {offers offers' : List Offer}
    (hoffers : List.Forall₂ L.OfferAlike offers offers') :
    Option.Rel L.ActionAlike (Run.findSpawn? offers) (Run.findSpawn? offers') := by
  refine rel_findSome? hoffers fun offer offer' hoffer => ?_
  rcases rel_option_cases (L.contracts hoffer.value) with
    ⟨hnone, hnone'⟩ | ⟨contracts, contracts', hsome, hsome', hcontracts⟩
  · rw [hnone, hnone']
    exact .none
  · rw [hsome, hsome']
    exact .some (.spawn hoffer hsome hcontracts)

lemma canAbsorb_eq {number : Nat} {seat seat' : Seat} (hseat : L.SeatAlike seat seat') :
    run.canAbsorb number seat = run'.canAbsorb number seat' := by
  rw [Run.canAbsorb, Run.canAbsorb, hseat.number, L.isVoid_eq hseat.current,
    hseat.generator.infinite, isUnbounded_eq h hseat]

lemma findAbsorb? {offers offers' : List Offer}
    (hoffers : List.Forall₂ L.OfferAlike offers offers') :
    Option.Rel L.ActionAlike (run.findAbsorb? offers) (run'.findAbsorb? offers') := by
  refine rel_findSome? hoffers fun offer offer' hoffer => ?_
  rw [isUnbounded_eq h hoffer.seat, hoffer.seat.number]
  split
  · exact .none
  · refine rel_option_map (rel_find? h.live fun seat seat' hseat => canAbsorb_eq h hseat) ?_
    exact fun seat seat' hseat => .absorb hoffer hseat

lemma findEmit? {offers offers' : List Offer}
    (hoffers : List.Forall₂ L.OfferAlike offers offers') :
    Option.Rel L.ActionAlike (run.findEmit? offers) (run'.findEmit? offers') := by
  refine rel_option_map (rel_find? hoffers fun offer offer' hoffer => ?_) fun _ _ => .emit
  rw [isUnbounded_eq h hoffer.seat]

/-- The actions that are chosen are alike. -/
theorem nextAction? (hierarchy : Hierarchy) :
    Option.Rel L.ActionAlike (run.nextAction? hierarchy) (run'.nextAction? hierarchy) := by
  have hoffers := offers h
  refine rel_option_or (findExchange? h hierarchy hoffers) (rel_option_or (findSpawn? hoffers) ?_)
  exact rel_option_or (findAbsorb? h hoffers) (findEmit? h hoffers)

end Choice

/-! ### Seats -/

/-- Runs that are alike stay so with other seats that are alike. -/
lemma RunAlike.withLive (h : L.RunAlike run run') {live live' : List Seat}
    (hlive : List.Forall₂ L.SeatAlike live live') :
    L.RunAlike { run with live := live } { run' with live := live' } :=
  { h with live := hlive }

lemma put (h : L.RunAlike run run') (number : Nat) {c c' : Contract} (hc : L.contract c c') :
    L.RunAlike (run.put number c) (run'.put number c') := by
  refine h.withLive (List.rel_map (fun seat seat' hseat => ?_) h.live)
  rw [hseat.number]
  split
  · exact ⟨rfl, hseat.generator, hc⟩
  · exact hseat

lemma leave (h : L.RunAlike run run') (number : Nat) :
    L.RunAlike (run.leave number) (run'.leave number) := by
  refine h.withLive (List.rel_filter (fun seat seat' hseat => ?_) h.live)
  dsimp only
  rw [hseat.number]

lemma retire (h : L.RunAlike run run') (number : Nat) :
    L.RunAlike (run.retire number) (run'.retire number) := by
  have hseat : Option.Rel L.SeatAlike (run.seat? number) (run'.seat? number) :=
    rel_find? h.live fun seat seat' hseat => by rw [hseat.number]
  rw [Run.retire, Run.retire]
  rcases rel_option_cases hseat with ⟨hnone, hnone'⟩ | ⟨seat, seat', hsome, hsome', hseat⟩
  · rw [hnone, hnone']
    exact h
  · rw [hsome, hsome']
    dsimp only
    rw [L.isTerminal_eq hseat.current, hseat.generator.infinite]
    split
    · split
      · have hfresh : L.contract
            (seat.generator.contract.freshen (run.restarts + 1) run.external)
            (seat'.generator.contract.freshen (run'.restarts + 1) run'.external) := by
          rw [h.external.1, h.external.2, h.restarts]
          exact L.freshen hseat.generator.contract _
        rw [Run.restart, Run.restart, hseat.number]
        exact { put h seat'.number hfresh with restarts := congrArg (· + 1) h.restarts }
      · exact leave h number
    · exact h

lemma retireAll (h : L.RunAlike run run') (numbers : List Nat) :
    L.RunAlike (run.retireAll numbers) (run'.retireAll numbers) := by
  induction numbers generalizing run run' with
  | nil => exact h
  | cons number numbers ih => exact ih (retire h number)

lemma numbers_eq {live live' : List Seat} (h : List.Forall₂ L.SeatAlike live live') :
    live.map Seat.number = live'.map Seat.number := by
  induction h with
  | nil => rfl
  | cons hseat _ ih => rw [List.map_cons, List.map_cons, hseat.number, ih]

lemma propagate (h : L.RunAlike run run') : L.RunAlike run.propagate run'.propagate := by
  have hlive : List.Forall₂ L.SeatAlike
      (run.live.map fun seat => { seat with current := seat.current.subst run.bindings })
      (run'.live.map fun seat => { seat with current := seat.current.subst run'.bindings }) :=
    List.rel_map (fun seat seat' hseat =>
      ⟨hseat.number, hseat.generator, L.subst h.bindings hseat.current⟩) h.live
  rw [Run.propagate, Run.propagate, numbers_eq hlive]
  exact retireAll (h.withLive hlive) _

/-- The end of a step: bindings are propagated if there are new ones. -/
lemma wrapUp (h : L.RunAlike run run') {p p' : Prop} [Decidable p] [Decidable p'] (hp : p ↔ p') :
    EndAlike L.RunAlike (pure (if p then run.propagate else run))
      (pure (if p' then run'.propagate else run')) := by
  by_cases hgrows : p
  · rw [if_pos hgrows, if_pos (hp.1 hgrows)]
    exact propagate h
  · rw [if_neg hgrows, if_neg (mt hp.2 hgrows)]
    exact h

lemma join (h : L.RunAlike run run') {g g' : Generator} (hg : L.GeneratorAlike g g') :
    L.RunAlike (run.join g) (run'.join g') where
  live := List.rel_append h.live (.cons ⟨h.nextNumber, hg, hg.contract⟩ .nil)
  nextNumber := congrArg (· + 1) h.nextNumber
  bindings := h.bindings
  external := h.external
  emitted := h.emitted
  steps := h.steps
  restarts := h.restarts
  trace := h.trace
  warnings := h.warnings

lemma joinAll (h : L.RunAlike run run') {generators generators' : List Generator}
    (hgenerators : List.Forall₂ L.GeneratorAlike generators generators') :
    L.RunAlike (run.joinAll generators) (run'.joinAll generators') := by
  have hseated : List.Forall₂ L.GeneratorAlike
      (generators.filter fun g => !g.contract.isTerminal)
      (generators'.filter fun g => !g.contract.isTerminal) := by
    refine List.rel_filter (fun g g' hg => ?_) hgenerators
    dsimp only
    rw [L.isTerminal_eq hg.contract]
  exact List.rel_foldl (P := L.RunAlike) (R := L.GeneratorAlike)
    (fun _ _ hrun _ _ hg => join hrun hg) h hseated

/-! ### Records -/

lemma record (h : L.RunAlike run run') (kind : EventKind) {name name' : Option String}
    (hname : Option.Rel L.name name name') {c c' : Contract} (hc : L.contract c c') :
    L.RunAlike (run.record kind name c) (run'.record kind name' c') := by
  refine { h with trace := ?_ }
  rw [Run.record, Run.record, Array.toList_push, Array.toList_push]
  exact List.rel_append h.trace (.cons ⟨congrArg (· + 1) h.steps, rfl, hname, hc⟩ .nil)

lemma recordSeat (h : L.RunAlike run run') (kind : EventKind) {seat seat' : Seat}
    (hseat : L.SeatAlike seat seat') :
    L.RunAlike (run.recordSeat kind seat) (run'.recordSeat kind seat') :=
  record h kind (.some hseat.generator.name) hseat.current

lemma tick (h : L.RunAlike run run') (options : Options) :
    EndAlike L.RunAlike (run.tick options) (run'.tick options) := by
  rw [Run.tick, Run.tick, h.steps]
  split
  · trivial
  · exact { h with steps := rfl }

/-! ### Actions -/

lemma exchange (h : L.RunAlike run run') (options : Options) {offer offer' : Offer}
    {receiver receiver' : Seat} {received received' : Received}
    (hoffer : L.OfferAlike offer offer') (hreceiver : L.SeatAlike receiver receiver')
    (hsuccessor : L.contract received.successor received'.successor)
    (hbindings : L.bindings received.bindings received'.bindings) :
    EndAlike L.RunAlike (run.exchange options offer receiver received)
      (run'.exchange options offer' receiver' received') := by
  have hbound : L.RunAlike { run with bindings := received.bindings }
      { run' with bindings := received'.bindings } := { h with bindings := hbindings }
  have hput := put (put hbound offer'.seat.number hoffer.successor) receiver'.number
    (L.subst hbindings hsuccessor)
  have hmoved := recordSeat (recordSeat hput .yield hoffer.seat) .resume hreceiver
  have hgrows := L.size_lt_iff h.bindings hbindings
  rw [Run.exchange, Run.exchange, hoffer.seat.number, hreceiver.number]
  exact (tick hmoved options).bind fun _ _ hticked => wrapUp (retireAll hticked _) hgrows

lemma absorb (h : L.RunAlike run run') (options : Options) {offer offer' : Offer}
    {absorber absorber' : Seat} (hoffer : L.OfferAlike offer offer')
    (habsorber : L.SeatAlike absorber absorber') :
    EndAlike L.RunAlike (run.absorb options offer absorber)
      (run'.absorb options offer' absorber') := by
  have hput := put (put h offer'.seat.number hoffer.successor) absorber'.number
    (L.append habsorber.current hoffer.value)
  have hmoved := recordSeat (recordSeat hput .yield hoffer.seat) .resume habsorber
  rw [Run.absorb, Run.absorb, hoffer.seat.number, habsorber.number]
  exact (tick hmoved options).bind fun _ _ hticked => retire hticked offer'.seat.number

lemma emit (h : L.RunAlike run run') (options : Options) {offer offer' : Offer}
    (hoffer : L.OfferAlike offer offer') :
    EndAlike L.RunAlike (run.emit options offer) (run'.emit options offer') := by
  have hemitted : L.RunAlike { run with emitted := run.emitted.push offer.value }
      { run' with emitted := run'.emitted.push offer'.value } := by
    refine { h with emitted := ?_ }
    rw [Array.toList_push, Array.toList_push]
    exact List.rel_append h.emitted (.cons hoffer.value .nil)
  have hput := put hemitted offer'.seat.number hoffer.successor
  have hmoved := record (recordSeat hput .yield hoffer.seat) .resume .none (L.single hoffer.value)
  rw [Run.emit, Run.emit, hoffer.seat.number]
  exact (tick hmoved options).bind fun _ _ hticked => retire hticked offer'.seat.number

/-! ### Nested runs -/

/-- The contracts into which runs are composed are alike, or both runs are stuck. -/
inductive EndingAlike (L : Likeness) : Ending → Ending → Prop
  | composed {c c' : Contract} (hc : L.contract c c') : EndingAlike L (.composed c) (.composed c')
  | deadlocked {unmatched unmatched' : List Ty} {blocked blocked' : List String}
      (hunmatched : ∃ c c', L.contract c c' ∧ unmatched = c.yields.items ∧
        unmatched' = c'.yields.items)
      (hblocked : List.Forall₂ L.name blocked blocked') :
      EndingAlike L (.deadlocked unmatched blocked) (.deadlocked unmatched' blocked')

lemma ending (h : L.RunAlike run run') : EndingAlike L run.ending run'.ending := by
  have houtput : L.contract run.output run'.output := L.output h.emitted
  have hlive := h.live
  unfold Run.ending
  cases hlive' : run.live with
  | nil =>
    rw [hlive'] at hlive
    rw [List.forall₂_nil_left_iff.1 hlive]
    exact .composed houtput
  | cons seat seats =>
    rw [hlive'] at hlive
    obtain ⟨seat', seats', hseat, hseats, heq⟩ := List.forall₂_cons_left_iff.1 hlive
    rw [heq]
    cases hseats with
    | nil => exact .composed (L.andThen houtput (L.subst h.bindings hseat.current))
    | cons hsecond hrest =>
      refine .deadlocked ⟨_, _, houtput, rfl, rfl⟩ ?_
      exact List.rel_map (fun _ _ hseat => hseat.generator.name)
        (.cons hseat (.cons hsecond hrest))

lemma nest (h : L.RunAlike run run') {generators generators' : List Generator}
    (hgenerators : List.Forall₂ L.GeneratorAlike generators generators') :
    L.RunAlike (run.nest generators) (run'.nest generators') := by
  refine joinAll ?_ hgenerators
  exact ⟨.nil, rfl, h.bindings, h.external, .nil, h.steps, h.restarts, .nil, rfl⟩

/-- Where names do not matter, the results of nested runs are taken over alike. -/
lemma adopt (h : L.RunAlike run run') (hnames : ∀ x y, L.name x y) {parent parent' : String}
    {generators generators' : List Generator}
    (hgenerators : List.Forall₂ L.GeneratorAlike generators generators') {nested nested' : Run}
    (hnested : L.RunAlike nested nested') :
    L.RunAlike (run.adopt parent generators nested).1 (run'.adopt parent' generators' nested').1 ∧
      List.Forall₂ L.GeneratorAlike (run.adopt parent generators nested).2
        (run'.adopt parent' generators' nested').2 := by
  unfold Run.adopt
  cases hending : nested.ending with
  | composed c =>
    have hboth := hending ▸ ending hnested
    cases hending' : nested'.ending with
    | deadlocked => rw [hending'] at hboth; cases hboth
    | composed c' =>
      rw [hending'] at hboth
      cases hboth with
      | composed hc =>
        refine ⟨?_, .cons ⟨hnames _ _, hc, rfl⟩ .nil⟩
        refine ⟨h.live, h.nextNumber, hnested.bindings, h.external, h.emitted, hnested.steps,
          hnested.restarts, ?_, ?_⟩
        · rw [Array.toList_append, Array.toList_append]
          exact List.rel_append h.trace hnested.trace
        · rw [Array.size_append, Array.size_append, h.warnings, hnested.warnings]
  | deadlocked unmatched blocked =>
    have hboth := hending ▸ ending hnested
    cases hending' : nested'.ending with
    | composed => rw [hending'] at hboth; cases hboth
    | deadlocked unmatched' blocked' =>
      refine ⟨?_, hgenerators⟩
      refine ⟨h.live, h.nextNumber, h.bindings, h.external, h.emitted, h.steps,
        hnested.restarts, h.trace, ?_⟩
      rw [Array.size_push, Array.size_push, h.warnings]

lemma members (hnames : ∀ x y, L.name x y) {parent parent' : String}
    {contracts contracts' : List Contract}
    (hcontracts : List.Forall₂ (fun c c' => L.contract c c' ∧ c.restorable = c'.restorable)
      contracts contracts') :
    List.Forall₂ L.GeneratorAlike (Run.members parent contracts)
      (Run.members parent' contracts') := by
  have hindexed : ∀ n, List.Forall₂
      (fun p q => L.contract p.1 q.1 ∧ p.1.restorable = q.1.restorable)
      (contracts.zipIdx n) (contracts'.zipIdx n) := by
    induction hcontracts with
    | nil => exact fun _ => .nil
    | cons hc _ ih => exact fun n => .cons hc (ih (n + 1))
  exact List.rel_map (fun p q hpq => ⟨hnames _ _, hpq.1, hpq.2⟩) (hindexed 0)

/-- Two ways of driving nested runs treat runs alike that values which are alike start. -/
def ComposesAlike (L : Likeness) (compose compose' : Ty → Run → Except Halt Run) : Prop :=
  ∀ ⦃v v' : Ty⦄, L.value v v' → v.isContractValue = true → ∀ ⦃nested nested' : Run⦄,
    L.RunAlike nested nested' → EndAlike L.RunAlike (compose v nested) (compose' v' nested')

lemma prepare (h : L.RunAlike run run') {compose compose' : Ty → Run → Except Halt Run}
    (hcompose : L.ComposesAlike compose compose') {parent parent' : String} {v v' : Ty}
    (hv : L.value v v') (hstarts : v.isContractValue = true)
    {generators generators' : List Generator}
    (hgenerators : List.Forall₂ L.GeneratorAlike generators generators') :
    EndAlike (fun p p' => L.RunAlike p.1 p'.1 ∧ List.Forall₂ L.GeneratorAlike p.2 p'.2)
      (run.prepare (compose v) parent v generators)
      (run'.prepare (compose' v') parent' v' generators') := by
  obtain ⟨htuple, -, hnames⟩ := L.started hv hstarts
  rw [Run.prepare, Run.prepare, htuple]
  split
  · refine (hcompose hv hstarts (nest h hgenerators)).bind fun nested nested' hnested => ?_
    exact adopt h hnames hgenerators hnested
  · exact ⟨h, hgenerators⟩

lemma seatStarted (h : L.RunAlike run run') {generators generators' : List Generator}
    (hgenerators : List.Forall₂ L.GeneratorAlike generators generators') :
    L.RunAlike (generators.foldl Run.seatStarted run) (generators'.foldl Run.seatStarted run') := by
  refine List.rel_foldl (P := L.RunAlike) (fun _ _ hrun _ _ hg => ?_) h hgenerators
  exact record (join hrun hg) .resume (.some hg.name) hg.contract

lemma spawn (h : L.RunAlike run run') (options : Options)
    {compose compose' : Ty → Run → Except Halt Run} (hcompose : L.ComposesAlike compose compose')
    {offer offer' : Offer} {contracts contracts' : List Contract}
    (hoffer : L.OfferAlike offer offer') (hvalue : offer.value.contracts? = some contracts)
    (hcontracts : List.Forall₂ (fun c c' => L.contract c c' ∧ c.restorable = c'.restorable)
      contracts contracts') :
    EndAlike L.RunAlike (run.spawn options compose offer contracts)
      (run'.spawn options compose' offer' contracts') := by
  have hstarts : offer.value.isContractValue = true := by
    rw [Ty.isContractValue, hvalue]
    rfl
  have hmembers : List.Forall₂ L.GeneratorAlike
      (Run.members offer.seat.generator.name contracts)
      (Run.members offer'.seat.generator.name contracts') :=
    members (L.started hoffer.value hstarts).2.2 hcontracts
  rw [Run.spawn, Run.spawn, hoffer.seat.number]
  refine (prepare h hcompose hoffer.value hstarts hmembers).bind ?_
  rintro ⟨prepared, started⟩ ⟨prepared', started'⟩ ⟨hprepared, hstarted⟩
  have hyielded := recordSeat (put hprepared offer'.seat.number hoffer.successor) .yield hoffer.seat
  have hgrows := L.size_lt_iff h.bindings hprepared.bindings
  dsimp only
  rw [hstarted.length_eq, hyielded.nextNumber]
  exact (tick (seatStarted hyielded hstarted) options).bind fun _ _ hticked =>
    wrapUp (retireAll hticked _) hgrows

/-! ### Whole runs -/

/-- Actions that are alike are carried out alike. -/
theorem commit (h : L.RunAlike run run') (options : Options)
    {compose compose' : Ty → Run → Except Halt Run} (hcompose : L.ComposesAlike compose compose')
    {action action' : Action} (haction : L.ActionAlike action action') :
    EndAlike L.RunAlike (run.commit options compose action)
      (run'.commit options compose' action') := by
  cases haction with
  | exchange hoffer hreceiver hsuccessor hbindings =>
    exact exchange h options hoffer hreceiver hsuccessor hbindings
  | spawn hoffer hvalue hcontracts => exact spawn h options hcompose hoffer hvalue hcontracts
  | absorb hoffer habsorber => exact absorb h options hoffer habsorber
  | emit hoffer => exact emit h options hoffer

/-- Runs that are alike are driven alike. -/
lemma drive (h : L.RunAlike run run') (options : Options)
    {compose compose' : Ty → Run → Except Halt Run} (hcompose : L.ComposesAlike compose compose')
    (fuel : Nat) :
    EndAlike L.RunAlike (run.drive options compose fuel) (run'.drive options compose' fuel) := by
  induction fuel generalizing run run' with
  | zero => trivial
  | succ fuel ih =>
    rw [Run.drive, Run.drive, Run.step, Run.step]
    rcases rel_option_cases (nextAction? h options.hierarchy) with
      ⟨hnone, hnone'⟩ | ⟨action, action', hsome, hsome', haction⟩
    · rw [hnone, hnone']
      exact h
    · rw [hsome, hsome']
      have hcommit := commit h options hcompose haction
      dsimp only
      cases hnext : run.commit options compose action with
      | error halt =>
        cases hnext' : run'.commit options compose' action' with
        | error halt' => trivial
        | ok next' => rw [hnext, hnext'] at hcommit; exact hcommit.elim
      | ok next =>
        cases hnext' : run'.commit options compose' action' with
        | error halt' => rw [hnext, hnext'] at hcommit; exact hcommit.elim
        | ok next' =>
          rw [hnext, hnext'] at hcommit
          exact ih hcommit

lemma rounds_eq (h : L.RunAlike run run') (options : Options) :
    run.rounds options = run'.rounds options := by
  rw [Run.rounds, Run.rounds, h.steps]

/-- Nested runs that are alike come to their end alike. -/
theorem settleWithin (h : L.RunAlike run run') (options : Options) (depth : Nat) :
    EndAlike L.RunAlike (run.settleWithin options depth) (run'.settleWithin options depth) := by
  induction depth generalizing run run' with
  | zero => trivial
  | succ depth ih =>
    rw [Run.settleWithin, Run.settleWithin, rounds_eq h]
    exact drive h options (fun _ _ _ _ _ _ hnested => ih hnested) _

/-- Runs that are alike come to their end alike. -/
theorem settle (h : L.RunAlike run run') (options : Options) :
    EndAlike L.RunAlike (run.settle options) (run'.settle options) := by
  rw [Run.settle, Run.settle, rounds_eq h]
  refine drive h options (fun v v' hv hstarts nested nested' hnested => ?_) _
  rw [(L.started hv hstarts).2.1]
  exact settleWithin hnested options _

end Likeness

end ContractComposition

import ContractComposition.Proofs.Budget
import ContractComposition.Proofs.Elementary
import ContractComposition.Proofs.FirstOrder
import ContractComposition.Proofs.StepBound

/-!
# Deliveries

Let each generator of a composition await some constants and then hand on a single one. Such a
composition is a *delivery* if it can be carried through from the front: the first generator has
nothing to await, the next one that awaits something awaits just what the first one hands on, and so
on until there is one generator left (`Delivers`).

The run does exactly this. Each step takes the first seat away and leaves the others where they are
(`Run.Line.exists_exchange`), and the last seat hands its constant to the outside
(`Run.Line.exists_emit`). So a delivery takes as many steps as there are generators, whatever the
bindings are, be it in a run of its own or in a nested one (`Run.Line.exists_drive`). With a smaller
step budget, the budget runs out (`SettlesIn`).
-/

namespace ContractComposition

/-- A generator of a delivery: the constants that it awaits, and the one that it hands on
afterwards. -/
structure Station where
  /-- What is still to come in, in this order. -/
  awaits : List String
  /-- What is handed on. -/
  gives : String

/-- What the first station hands on gets through to the last one, which hands on `value`. -/
inductive Delivers : List Station → String → Prop
  | last (value : String) : Delivers [⟨[], value⟩] value
  | pass {a value : String} {front behind : List Station} {station : Station}
      (hfront : ∀ s ∈ front, s.awaits = [])
      (hrest : Delivers (front ++ station :: behind) value) :
      Delivers (⟨[], a⟩ :: (front ++ ⟨a :: station.awaits, station.gives⟩ :: behind)) value

/-! ### Lists that correspond to each other -/

/-- What corresponds to two lists put together is two lists put together. -/
lemma exists_append_of_forall₂ {α β : Type} {R : α → β → Prop} {l₁ l₂ : List α} {u : List β}
    (h : List.Forall₂ R (l₁ ++ l₂) u) :
    ∃ u₁ u₂, u = u₁ ++ u₂ ∧ List.Forall₂ R l₁ u₁ ∧ List.Forall₂ R l₂ u₂ := by
  induction l₁ generalizing u with
  | nil => exact ⟨[], u, rfl, .nil, h⟩
  | cons x xs ih =>
    obtain ⟨y, ys, hxy, hrest, rfl⟩ := List.forall₂_cons_left_iff.1 h
    obtain ⟨u₁, u₂, rfl, h₁, h₂⟩ := ih hrest
    exact ⟨y :: u₁, u₂, rfl, .cons hxy h₁, h₂⟩

/-- What holds of everything that corresponds to something holds of a whole list. -/
lemma forall_mem_of_forall₂ {α β : Type} {R : α → β → Prop} {p : β → Prop} {l : List α}
    {u : List β} (h : List.Forall₂ R l u) (hp : ∀ {x y}, R x y → p y) : ∀ y ∈ u, p y := by
  induction h with
  | nil => exact List.forall_mem_nil _
  | cons hxy _ ih => exact List.forall_mem_cons.2 ⟨hp hxy, ih⟩

/-! ### What a station does -/

namespace Contract

/-- The contract receives what the station awaits and yields what it hands on, without
constraints. -/
structure Serves (station : Station) (c : Contract) : Prop where
  receives : c.receives = Ty.sequence (station.awaits.map .const)
  yields : c.yields = .const station.gives
  condition : c.condition = none
  forbidden : c.forbidden = []

namespace Serves

variable {station : Station} {c : Contract}

lemma firstOrder_consts (names : List String) : ∀ v ∈ names.map Ty.const, v.FirstOrder :=
  List.forall_mem_map.2 fun name _ => .const name

lemma elementary (h : c.Serves station) : c.Elementary where
  plain := by
    have hconst : ∀ name, (Ty.const name).PlainWithin 0 := fun name => ⟨trivial, Nat.le_refl 0⟩
    refine ⟨?_, h.yields ▸ hconst _⟩
    rw [h.receives]
    exact .sequence (List.forall_mem_map.2 fun name _ => hconst name)
  normal := by
    rw [h.receives]
    exact Ty.isNormal_sequence fun v hv => (firstOrder_consts _ v hv).isNormal
  condition := h.condition
  forbidden := h.forbidden

lemma isVoid_receives_iff (h : c.Serves station) :
    c.receives.isVoid = true ↔ station.awaits = [] := by
  rw [h.receives, Ty.sequence_eq_ofMembers (firstOrder_consts _),
    Ty.isVoid_ofMembers_iff (firstOrder_consts _), List.map_eq_nil_iff]

/-- There is something left to be handed on. -/
lemma isTerminal_eq_false (h : c.Serves station) : c.isTerminal = false := by
  rw [isTerminal, h.yields]
  exact Bool.and_false _

lemma subst (h : c.Serves station) (b : Bindings) : (c.subst b).Serves station := by
  rw [h.elementary.subst_eq, h.elementary.normal.normalize_eq]
  refine ⟨h.receives, ?_, h.condition, h.forbidden⟩
  rw [h.yields]
  rfl

lemma check_eq_ok (h : c.Serves station) (b : Bindings) : c.check b = .ok () := by
  rw [check, unbound, h.yields]
  rfl

/-- A station that awaits nothing hands on its constant and is finished. -/
lemma exists_produce? (h : c.Serves station) (hawaits : station.awaits = []) (b : Bindings) :
    ∃ successor, c.produce? b = some ⟨.const station.gives, successor⟩ ∧
      successor.isTerminal = true := by
  refine ⟨{ of .void .void with source := c.source, restorable := c.restorable }, ?_, rfl⟩
  rw [h.elementary.produce?_eq, if_pos (h.isVoid_receives_iff.2 hawaits), h.yields]
  rfl

/-- A station receives the first constant that it awaits, and awaits the others. -/
lemma exists_accept? {a : String} (h : c.Serves ⟨a :: station.awaits, station.gives⟩) (b : Bindings)
    (hierarchy : Hierarchy) :
    ∃ successor, c.accept? (.const a) b hierarchy = some ⟨successor, b⟩ ∧
      successor.Serves station := by
  have hpop : c.receives.pop? =
      some (.const a, Ty.sequence (station.awaits.map .const)) := by
    rw [h.receives, Ty.sequence_eq_ofMembers (firstOrder_consts _),
      Ty.sequence_eq_ofMembers (firstOrder_consts _)]
    exact Ty.pop?_ofMembers_cons_of_firstOrder (firstOrder_consts (a :: station.awaits))
  have hmatch : ((Ty.const a).normalize.matching? (.const a)).isSome = true := by
    rw [Ty.normalize, Ty.matching?, if_pos rfl]
    rfl
  refine ⟨{ c with receives := Ty.sequence (station.awaits.map .const) }, ?_, rfl, h.yields,
    h.condition, h.forbidden⟩
  rw [h.elementary.accept?_eq, hpop, Option.bind_some, if_pos hmatch]

end Serves

end Contract

/-- The generator is finite, and its contract serves the station. -/
def Generator.Serves (station : Station) (g : Generator) : Prop :=
  g.infinite = false ∧ g.contract.Serves station

namespace Run

variable {run moved nested : Run} {options : Options} {b : Bindings} {emitted : Array Ty} {n : Nat}
  {stations front behind : List Station} {station : Station} {a value : String}

/-! ### The records of a delivery -/

/-- The seats are in order and the bindings are `b`. So far `emitted` was handed to the outside, and
there were `n` steps with two records each and no warnings. -/
structure Tally (b : Bindings) (emitted : Array Ty) (n : Nat) (run : Run) : Prop where
  numbered : Numbered run
  bindings : run.bindings = b
  emitted_eq : run.emitted = emitted
  steps : run.steps = n
  trace : run.trace.size = 2 * n
  warnings : run.warnings = #[]

namespace Tally

lemma wrapUp (h : run.Tally b emitted n) (before : Bindings) (numbers : List Nat) :
    (run.wrapUp before numbers).Tally b emitted n := by
  have hframe := run.reseats_wrapUp before numbers
  exact {
    numbered := h.numbered.wrapUp _ _
    bindings := hframe.bindings.trans h.bindings
    emitted_eq := hframe.emitted.trans h.emitted_eq
    steps := hframe.steps.trans h.steps
    trace := by rw [hframe.trace, h.trace]
    warnings := hframe.warnings.trans h.warnings }

lemma exchanged (h : run.Tally b emitted n) (offer : Offer) (receiver : Seat)
    (successor : Contract) :
    (run.exchanged offer receiver ⟨successor, run.bindings⟩).Tally b emitted (n + 1) where
  numbered := h.numbered.exchanged _ _ _
  bindings := h.bindings
  emitted_eq := h.emitted_eq
  steps := congrArg (· + 1) h.steps
  trace := by
    simp only [Run.exchanged, recordSeat, record, put, Array.size_push, h.trace]
    omega
  warnings := h.warnings

lemma handedOut (h : run.Tally b emitted n) (offer : Offer) :
    (run.handedOut offer).Tally b (emitted.push offer.value) (n + 1) where
  numbered := h.numbered.handedOut _
  bindings := h.bindings
  emitted_eq := congrArg (Array.push · offer.value) h.emitted_eq
  steps := congrArg (· + 1) h.steps
  trace := by
    simp only [Run.handedOut, recordSeat, record, put, Array.size_push, h.trace]
    omega
  warnings := h.warnings

/-- One generator is started. -/
lemma seated (h : run.Tally b emitted n) (offer : Offer) (g : Generator) :
    (run.seated offer [g]).Tally b emitted (n + 1) where
  numbered := (h.numbered.seated offer [g]).1
  bindings := h.bindings
  emitted_eq := h.emitted_eq
  steps := congrArg (· + 1) h.steps
  trace := by
    simp only [Run.seated, List.foldl_cons, List.foldl_nil, seatStarted, recordSeat, record, join,
      put, Array.size_push, h.trace]
    omega
  warnings := h.warnings

end Tally

/-! ### The seats of a delivery -/

/-- The generator on the seat is finite, and its contract serves the station. -/
def Mans (station : Station) (seat : Seat) : Prop :=
  seat.generator.infinite = false ∧ seat.current.Serves station

/-- The seats serve the stations one by one. -/
structure Line (b : Bindings) (stations : List Station) (emitted : Array Ty) (n : Nat) (run : Run) :
    Prop extends run.Tally b emitted n where
  seats : List.Forall₂ Mans stations run.live

namespace Line

/-- The first seat has finished and leaves, and the others serve the stations. -/
lemma of_moved {first : Seat} {others : List Seat} (hmoved : moved.Tally b emitted n)
    (hlive : moved.live = first :: others) (hfinite : first.generator.infinite = false)
    (hdone : first.current.isTerminal = true) (hothers : List.Forall₂ Mans stations others)
    (numbers : List Nat) :
    (moved.wrapUp b (first.number :: numbers)).Line b stations emitted n where
  toTally := hmoved.wrapUp _ _
  seats := by
    rw [live_wrapUp_cons hmoved.numbered (by rw [hmoved.bindings]) hlive hfinite hdone
      (forall_mem_of_forall₂ hothers fun h => h.2.isTerminal_eq_false)]
    exact hothers

/-- The seats that await nothing are passed over. -/
lemma receivers_eq {ready later : List Seat} {receiver : Seat}
    (hfront : ∀ s ∈ front, s.awaits = []) (hready : List.Forall₂ Mans front ready)
    (hreceiver : Mans ⟨a :: station.awaits, station.gives⟩ receiver)
    (hlive : run.live = ready ++ receiver :: later) :
    ∃ receivers, run.receivers = receiver :: receivers := by
  have hvoid : ∀ seat ∈ ready, seat.current.receives.isVoid = true :=
    forall_mem_of_forall₂ ((List.forall₂_and_left _ _).2 ⟨hfront, hready⟩)
      fun h => h.2.2.isVoid_receives_iff.2 h.1
  have hwaits : receiver.current.receives.isVoid = false := by
    rw [Bool.eq_false_iff, Ne, hreceiver.2.isVoid_receives_iff]
    exact List.cons_ne_nil _ _
  have hnone : (ready.filter fun seat => !seat.current.receives.isVoid) = [] := by
    refine List.filter_eq_nil_iff.2 fun seat hseat => ?_
    rw [hvoid seat hseat]
    exact Bool.false_ne_true
  refine ⟨later.filter fun seat => !seat.current.receives.isVoid, ?_⟩
  rw [receivers, hlive, List.filter_append, hnone, List.nil_append,
    List.filter_cons_of_pos (by rw [hwaits]; rfl)]

/-! ### One step -/

/-- The first seat hands its constant to the next one that awaits something. -/
theorem exists_exchange (hfront : ∀ s ∈ front, s.awaits = [])
    (h : run.Line b (⟨[], a⟩ :: (front ++ ⟨a :: station.awaits, station.gives⟩ :: behind))
      emitted n) (compose : Ty → Run → Except Halt Run)
    (hbudget : n + 1 ≤ options.stepBudget) :
    ∃ action next, run.nextAction? options.hierarchy = some action ∧
      run.commit options compose action = .ok next ∧
      next.Line b (front ++ station :: behind) emitted (n + 1) := by
  obtain ⟨first, others, hfirst, hothers, hlive⟩ := List.forall₂_cons_left_iff.1 h.seats
  obtain ⟨ready, rest, rfl, hready, hrest⟩ := exists_append_of_forall₂ hothers
  obtain ⟨receiver, later, hreceiver, hlater, rfl⟩ := List.forall₂_cons_left_iff.1 hrest
  obtain ⟨done, hproduce, hdone⟩ := hfirst.2.exists_produce? rfl run.bindings
  obtain ⟨successor, haccept, hsuccessor⟩ :=
    hreceiver.2.exists_accept? run.bindings options.hierarchy
  have hnumber : receiver.number ≠ first.number := by
    have hascending := h.numbered.ascending
    rw [hlive, List.map_cons, List.pairwise_cons] at hascending
    refine Nat.ne_of_gt (hascending.1 _ (List.mem_map_of_mem ?_))
    exact List.mem_append_right _ List.mem_cons_self
  obtain ⟨receivers, hreceivers⟩ := receivers_eq
    (List.forall_mem_cons.2 ⟨rfl, hfront⟩) (.cons hfirst hready) hreceiver hlive
  have haction := nextAction?_of_accept? hlive hproduce hreceivers hnumber haccept
  -- The first seat is finished now, and the receiver has one constant less to await.
  have hmoved := h.toTally.exchanged ⟨first, ⟨.const a, done⟩⟩ receiver successor
  have hseats : (run.exchanged ⟨first, ⟨.const a, done⟩⟩ receiver ⟨successor, run.bindings⟩).live =
      { first with current := done } ::
        (ready ++ { receiver with current := successor.subst run.bindings } :: later) :=
    live_put (h.numbered.put _ _) ({ first with current := done } :: ready)
      (live_put h.numbered [] hlive done) _
  have hresumed : Mans station { receiver with current := successor.subst run.bindings } :=
    ⟨hreceiver.1, hsuccessor.subst run.bindings⟩
  have hnext := of_moved hmoved hseats hfirst.1 hdone
    (List.rel_append hready (.cons hresumed hlater)) [receiver.number]
  refine ⟨_, _, haction, commit_eq_ok_iff.2 ⟨_, _, ⟨rfl, rfl⟩, ?_, rfl⟩, h.bindings ▸ hnext⟩
  rw [hmoved.steps]
  exact hbudget

/-- The last seat hands its constant to the outside. -/
theorem exists_emit (h : run.Line b [⟨[], value⟩] #[] n) (compose : Ty → Run → Except Halt Run)
    (hbudget : n + 1 ≤ options.stepBudget) :
    ∃ action next, run.nextAction? options.hierarchy = some action ∧
      run.commit options compose action = .ok next ∧
      next.Line b [] #[.const value] (n + 1) := by
  obtain ⟨seat, others, hseat, hothers, hlive⟩ := List.forall₂_cons_left_iff.1 h.seats
  obtain rfl := List.forall₂_nil_left_iff.1 hothers
  obtain ⟨done, hproduce, hdone⟩ := hseat.2.exists_produce? rfl run.bindings
  have hbounded : run.isUnbounded seat = false := by
    rw [isUnbounded, hseat.2.yields]
    rfl
  have haction := nextAction?_singleton hlive hproduce rfl hbounded options.hierarchy
  have hmoved := h.toTally.handedOut ⟨seat, ⟨.const value, done⟩⟩
  have hseats : (run.handedOut ⟨seat, ⟨.const value, done⟩⟩).live =
      [{ seat with current := done }] := live_put h.numbered [] hlive done
  have hnext := of_moved hmoved hseats hseat.1 hdone .nil []
  refine ⟨_, _, haction, commit_eq_ok_iff.2 ⟨_, _, ⟨rfl, rfl⟩, ?_, rfl⟩, h.bindings ▸ hnext⟩
  rw [hmoved.steps]
  exact hbudget

/-! ### The whole run -/

/-- A delivery is carried through in as many steps as there are stations. -/
theorem exists_drive (hdelivers : Delivers stations value) (h : run.Line b stations #[] n)
    (compose : Ty → Run → Except Halt Run) {fuel : Nat} (hfuel : stations.length < fuel)
    (hbudget : n + stations.length ≤ options.stepBudget) :
    ∃ final, run.drive options compose fuel = .ok final ∧
      final.Line b [] #[.const value] (n + stations.length) := by
  induction hdelivers generalizing run n fuel with
  | last value =>
    obtain ⟨fuel, rfl⟩ := Nat.exists_eq_add_of_le' (Nat.succ_le_of_lt hfuel)
    obtain ⟨action, next, haction, hcommit, hnext⟩ := h.exists_emit compose hbudget
    have hend : next.nextAction? options.hierarchy = none :=
      nextAction?_nil (List.forall₂_nil_left_iff.1 hnext.seats) _
    exact ⟨next, drive_succ_eq_ok_iff.2 (.inr ⟨action, next, haction, hcommit,
      drive_succ_eq_ok_iff.2 (.inl ⟨hend, rfl⟩)⟩), hnext⟩
  | @pass a value front behind station hfront _ ih =>
    have hlength : (⟨[], a⟩ :: (front ++ ⟨a :: station.awaits, station.gives⟩ :: behind) :
        List Station).length = (front ++ station :: behind).length + 1 := by
      simp only [List.length_cons, List.length_append]
    rw [hlength] at hfuel hbudget
    obtain ⟨fuel, rfl⟩ := Nat.exists_eq_add_of_le' (Nat.succ_le_of_lt hfuel)
    have hfits : n + 1 ≤ options.stepBudget := by omega
    obtain ⟨action, next, haction, hcommit, hnext⟩ := h.exists_exchange hfront compose hfits
    obtain ⟨final, hfinal, hline⟩ := ih hnext (Nat.lt_of_succ_lt_succ hfuel) (by omega)
    refine ⟨final, drive_succ_eq_ok_iff.2 (.inr ⟨action, next, haction, hcommit, hfinal⟩), ?_⟩
    rw [hlength, Nat.add_comm _ 1, ← Nat.add_assoc]
    exact hline

/-- A run in which a delivery has come to its end is composed into what was delivered. -/
lemma ending_eq (h : run.Line b [] #[.const value] n) :
    run.ending = .composed (Contract.of .void (.const value)) := by
  rw [ending, List.forall₂_nil_left_iff.1 h.seats, output, h.emitted_eq]
  rfl

lemma exists_result (h : run.Line b [] #[.const value] n) :
    ∃ s, run.result = .ok s ∧ s.contract = Contract.of .void (.const value) ∧ s.steps = n ∧
      s.trace.length = 2 * n ∧ s.warnings = [] := by
  refine ⟨_, by rw [result, h.ending_eq], rfl, h.steps, h.trace, ?_⟩
  rw [h.warnings]

/-- A run that has not taken a step yet takes over the records of a nested delivery. -/
lemma exists_adopt (h : nested.Line b [] #[.const value] n) (hrun : run.Tally b #[] 0)
    (parent : String) (generators : List Generator) :
    ∃ prepared, run.adopt parent generators nested = (prepared, [{
        name := compositeName generators
        contract := Contract.of .void (.const value) }]) ∧
      prepared.Tally b #[] n ∧ prepared.live = run.live := by
  rw [adopt, h.ending_eq]
  refine ⟨_, rfl, ?_, rfl⟩
  exact {
    numbered := hrun.numbered.of_sublist rfl (List.Sublist.refl _)
    bindings := h.bindings
    emitted_eq := hrun.emitted_eq
    steps := h.steps
    trace := by rw [Array.size_append, hrun.trace, h.trace, Nat.mul_zero, Nat.zero_add]
    warnings := by rw [hrun.warnings, h.warnings, Array.append_empty] }

end Line

/-! ### Beginnings -/

lemma Begins.tally {first : Run} {generators : List Generator} (hbegins : first.Begins generators b)
    (hrecords : first.steps = 0 ∧ first.trace = #[]) : first.Tally b #[] 0 where
  numbered := hbegins.numbered
  bindings := hbegins.bindings
  emitted_eq := hbegins.emitted
  steps := hrecords.1
  trace := congrArg Array.size hrecords.2
  warnings := hbegins.warnings

/-- Generators that serve stations line up when a run begins. -/
lemma Begins.line {first : Run} {generators : List Generator} (hbegins : first.Begins generators b)
    (hrecords : first.steps = 0 ∧ first.trace = #[])
    (hgenerators : List.Forall₂ Generator.Serves stations generators) :
    first.Line b stations #[] 0 where
  toTally := hbegins.tally hrecords
  seats := by
    have hseated : (first.live.map fun seat => (seat.generator, seat.current)) =
        generators.map fun g => (g, g.contract) := by
      obtain ⟨external, steps, restarts, rfl⟩ := hbegins
      exact map_live_joinAll _ (forall_mem_of_forall₂ hgenerators fun h => h.2.isTerminal_eq_false)
    have hpairs : List.Forall₂ (fun station (p : Generator × Contract) =>
        p.1.infinite = false ∧ p.2.Serves station) stations
          (generators.map fun g => (g, g.contract)) := List.forall₂_map_right_iff.2 hgenerators
    rw [← hseated, List.forall₂_map_right_iff] at hpairs
    exact hpairs

end Run

/-! ### Outcomes -/

/-- The outcome of a composition that takes just so many steps: if they are within the budget, the
composition receives nothing and yields `value`, with two records a step and without warnings, and
otherwise the budget runs out. -/
structure SettlesIn (budget steps : Nat) (value : Ty) (outcome : Except SolveError Solution) :
    Prop where
  ok_iff : (∃ s, outcome = .ok s) ↔ steps ≤ budget
  of_ok : ∀ s, outcome = .ok s → s.contract = Contract.of .void value ∧ s.steps = steps ∧
    s.trace.length = 2 * steps ∧ s.warnings = []
  of_lt : budget < steps → ∃ recent, outcome = .error (.stepLimit budget recent)

/-- A run that is settled has not taken more steps than the budget allows. -/
lemma Run.steps_le_of_settle {options : Options} {generators : List Generator}
    {bindings : Bindings} {final : Run}
    (h : (start generators bindings).settle options = .ok final) :
    final.steps ≤ options.stepBudget := by
  obtain ⟨⟨actions, hpath⟩, -⟩ := exists_path_of_settle h
  refine hpath.steps_le ?_
  rw [(start_records generators bindings).1]
  exact Nat.zero_le _

/-- A composition that takes more steps than the budget allows is stopped. -/
lemma solve_eq_stepLimit {options : Options} {budget : Nat} {generators : List Generator}
    {bindings : Bindings} {s : Solution}
    (hs : solve { options with stepBudget := budget } generators bindings = .ok s)
    (hless : options.stepBudget < s.steps) : ∃ recent,
      solve options generators bindings = .error (.stepLimit options.stepBudget recent) := by
  obtain ⟨final, hfinal, -, -, -, hsteps⟩ := Run.exists_settle_of_solve_eq_ok hs
  have hbudget : final.steps ≤ budget := Run.steps_le_of_settle hfinal
  have hoptions : options.RelaxedBy { options with stepBudget := budget } := by
    exact ⟨by dsimp only; omega, rfl⟩
  unfold solve at hs ⊢
  cases hcheck : checkGenerators bindings generators with
  | error e =>
    rw [hcheck] at hs
    cases hs
  | ok _ =>
    cases hsettle : (Run.start generators bindings).settle options with
    | error halt =>
      cases halt with
      | outOfSteps recent => exact ⟨recent, rfl⟩
      | outOfFuel => exact ⟨[], rfl⟩
    | ok final' =>
      -- It would come to the same end under the larger budget, after more steps than it can take.
      have hsame := Run.settle_of_relaxedBy hoptions hsettle
      rw [hfinal] at hsame
      obtain rfl := Except.ok.inj hsame
      have hcount := Run.steps_le_of_settle hsettle
      omega

/-- It is enough to know how a run ends under budgets that allow the steps of a delivery. -/
lemma settlesIn_of_line {generators : List Generator} {bindings b : Bindings} {steps : Nat}
    {value : String} (hcheck : checkGenerators bindings generators = .ok ())
    (hsettle : ∀ options : Options, steps ≤ options.stepBudget →
      ∃ final, (Run.start generators bindings).settle options = .ok final ∧
        final.Line b [] #[.const value] steps) (options : Options) :
    SettlesIn options.stepBudget steps (.const value) (solve options generators bindings) := by
  have hsolve : ∀ options : Options, steps ≤ options.stepBudget →
      ∃ s, solve options generators bindings = .ok s ∧
        s.contract = Contract.of .void (.const value) ∧ s.steps = steps ∧
        s.trace.length = 2 * steps ∧ s.warnings = [] := by
    intro options hbudget
    obtain ⟨final, hfinal, hline⟩ := hsettle options hbudget
    rw [solve, hcheck, hfinal]
    exact hline.exists_result
  rcases Nat.lt_or_ge options.stepBudget steps with hless | hbudget
  · obtain ⟨s, hs, -, hsteps, -⟩ := hsolve { options with stepBudget := steps } (Nat.le_refl steps)
    obtain ⟨recent, hstopped⟩ := solve_eq_stepLimit hs (hsteps.symm ▸ hless)
    rw [hstopped]
    refine ⟨iff_of_false ?_ (Nat.not_le.2 hless), fun s' hs' => ?_, fun _ => ⟨recent, rfl⟩⟩
    · rintro ⟨s', hs'⟩
      cases hs'
    · cases hs'
  · obtain ⟨s, hs, hfacts⟩ := hsolve options hbudget
    rw [hs]
    refine ⟨iff_of_true ⟨s, rfl⟩ hbudget, fun s' hs' => ?_, fun hless => ?_⟩
    · exact Except.ok.inj hs' ▸ hfacts
    · exact absurd hbudget (Nat.not_le.2 hless)

/-- A delivery takes as many steps as there are generators. -/
theorem settlesIn_of_delivers {stations : List Station} {value : String}
    (hdelivers : Delivers stations value) {generators : List Generator}
    (hgenerators : List.Forall₂ Generator.Serves stations generators) (bindings : Bindings)
    (options : Options) :
    SettlesIn options.stepBudget generators.length (.const value)
      (solve options generators bindings) := by
  have hcheck : checkGenerators bindings generators = .ok () :=
    checkGenerators_eq_ok (forall_mem_of_forall₂ hgenerators fun h => h.2.check_eq_ok bindings)
  refine settlesIn_of_line (b := bindings) hcheck (fun options hbudget => ?_) options
  have hline := (Run.begins_start generators bindings).line
    (Run.start_records generators bindings) hgenerators
  rw [← hgenerators.length_eq] at hbudget ⊢
  rw [Run.settle, Run.rounds_start]
  have hfits : 0 + stations.length ≤ options.stepBudget := by rwa [Nat.zero_add]
  have hfinal := hline.exists_drive hdelivers
    (fun value => Run.settleWithin options value.nesting) (Nat.lt_succ_of_le hbudget) hfits
  rwa [Nat.zero_add] at hfinal

end ContractComposition

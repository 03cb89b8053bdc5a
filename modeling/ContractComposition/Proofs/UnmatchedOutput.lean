import Mathlib.Algebra.BigOperators.Fin
import Mathlib.Tactic.Ring
import ContractComposition.Proofs.StepBound

/-!
# Unmatched output

Finite generators that receive nothing and yield data have nothing to match. What becomes of their
output is known exactly (`unmatched_output_is_reversed`). The first seat yields, and the second one
absorbs what it yields, value by value, until the first one has finished and leaves. So everything
moves on from seat to seat, each time behind what is there already, and in the end the last seat
emits it all: the output of the last generator comes first and that of the first one last.

Two quantities do not change on the way (`Run.Pouring`). One is the list of the values that were
emitted, followed by those that are left on the seats, from the last seat to the first. The other
one is the number of steps taken and yet to be taken (`Run.pouringCost`): a value that is left on a
seat is moved once for this seat and once for each seat behind it.
-/

namespace ContractComposition

namespace Ty

variable {t v : Ty} {vs : List Ty}

/-- A value made of first-order members, in normal form. -/
lemma normalize_of_items (h : ∀ v ∈ t.items, v.FirstOrder) : t.normalize = ofMembers t.items := by
  cases t with
  | void => rfl
  | seq items =>
    have hitems : items.map normalize = items :=
      map_normalize_eq_self fun v hv => (h v hv).normalize_eq
    rw [normalize, normalizeAll_eq_map, hitems]
    exact sequence_eq_ofMembers h
  | const | var | int | star | tuple | list | func | contract =>
    have hself := h _ List.mem_cons_self
    exact hself.normalize_eq.trans (ofMembers_singleton hself).symm

lemma isPlain_of_items (h : ∀ v ∈ t.items, v.IsPlain) : t.IsPlain := by
  cases t with
  | void => trivial
  | seq items => exact within_seq.2 h
  | const | var | int | star | tuple | list | func | contract => exact h _ List.mem_cons_self

/-- Bindings make nothing of data but their normal form. -/
lemma subst_of_items (h : ∀ v ∈ t.items, v.Datum) (b : Bindings) :
    t.subst b = ofMembers t.items := by
  rw [(isPlain_of_items fun v hv => (h v hv).isPlain).subst_eq,
    normalize_of_items fun v hv => (h v hv).firstOrder]

/-- A datum that is put behind data becomes their last member. -/
lemma items_concat_of_items (h : ∀ v ∈ t.items, v.Datum) (hv : v.Datum) :
    (t.concat (sequence [v])).items = t.items ++ [v] := by
  have hitems : v.items = [v] := by
    cases hv.firstOrder <;> rfl
  have hall : ∀ u ∈ t.items ++ [v], u.FirstOrder :=
    List.forall_mem_append.2 ⟨fun u hu => (h u hu).firstOrder,
      List.forall_mem_singleton.2 hv.firstOrder⟩
  rw [sequence_singleton hv.firstOrder]
  by_cases hvoid : t = .void
  · rw [hvoid]
    exact hitems
  have hlist : ∀ element length, t ≠ .list element length := by
    rintro element length rfl
    cases (h _ List.mem_cons_self).firstOrder
  have hvlist : ∀ element length, v ≠ .list element length := by
    rintro element length rfl
    cases hv.firstOrder
  have hvvoid : v ≠ .void := by
    rintro rfl
    cases hv.firstOrder
  rw [concat_of_ne_void hvoid hvvoid, streamMembers_of_ne_list hlist,
    streamMembers_of_ne_list hvlist, hitems, sequence_eq_ofMembers hall, items_ofMembers hall]

end Ty

namespace Contract

/-! ### Contracts that yield data -/

/-- It does not matter for a contract whether the members of its sides are put together before. -/
lemma of_sequence_of_firstOrder {vs : List Ty} (h : ∀ v ∈ vs, v.FirstOrder) :
    Contract.of .void (Ty.sequence vs) = Contract.of .void (.seq vs) := by
  have hseq : (Ty.seq vs).normalize = .ofMembers vs := Ty.normalize_of_items h
  rw [Contract.of, Contract.of, Ty.sequence_eq_ofMembers h, Ty.normalize_ofMembers h, hseq]

/-- The contract has nothing left to receive, and what it yields are data. -/
structure Pours (c : Contract) : Prop where
  receives : c.receives = .void
  data : ∀ v ∈ c.yields.items, v.Datum

namespace Pours

variable {c : Contract} {v : Ty} {vs : List Ty}

lemma isTerminal_iff (h : c.Pours) : c.isTerminal = true ↔ c.yields.items = [] := by
  have hdata : ∀ v ∈ c.yields.items, v.FirstOrder := fun v hv => (h.data v hv).firstOrder
  rw [isTerminal, h.receives, Ty.normalize_of_items hdata, Bool.and_eq_true,
    Ty.isVoid_ofMembers_iff hdata]
  exact and_iff_right rfl

lemma isOpenStream_eq_false (h : c.Pours) (b : Bindings) :
    (c.yields.subst b).isOpenStream = false := by
  rw [Ty.subst_of_items h.data]
  exact (Ty.side_ofMembers fun v hv => (h.data v hv).firstOrder).isOpenStream_eq_false

lemma isPlain (h : c.Pours) : c.yields.IsPlain :=
  Ty.isPlain_of_items fun v hv => (h.data v hv).isPlain

/-- Whatever the bindings are, the first datum is yielded and the others are left. -/
lemma exists_produce? (h : c.Pours) (hitems : c.yields.items = v :: vs) (b : Bindings) :
    ∃ successor, c.produce? b = some ⟨v, successor⟩ ∧ successor.Pours ∧
      successor.yields.items = vs := by
  have hdata : ∀ u ∈ v :: vs, u.Datum := hitems ▸ h.data
  have hrest : ∀ u ∈ vs, u.FirstOrder :=
    fun u hu => (hdata u (List.mem_cons_of_mem v hu)).firstOrder
  have hground : (c.yields.subst b).isGround = true := by
    rw [h.isPlain.subst_eq]
    exact (Ty.Within.normalize h.isPlain).isGround
  have hpop : (c.yields.subst b).pop? = some (v, .ofMembers vs) := by
    rw [Ty.subst_of_items h.data, hitems]
    exact Ty.pop?_ofMembers_cons_of_firstOrder fun u hu => (hdata u hu).firstOrder
  have hproduce : c.produce? b = some ⟨v, _⟩ :=
    produce?_eq_some_iff.2 ⟨Ty.isVoid_iff.2 h.receives, hground, _, hpop, rfl⟩
  rw [Ty.normalize_ofMembers hrest] at hproduce
  refine ⟨_, hproduce, ⟨rfl, ?_⟩, Ty.items_ofMembers hrest⟩
  rw [Ty.items_ofMembers hrest]
  exact (List.forall_mem_cons.1 hdata).2

lemma items_appendYield (h : c.Pours) (hv : v.Datum) :
    (c.appendYield v).yields.items = c.yields.items ++ [v] :=
  Ty.items_concat_of_items h.data hv

lemma appendYield (h : c.Pours) (hv : v.Datum) : (c.appendYield v).Pours := by
  refine ⟨h.receives, ?_⟩
  rw [h.items_appendYield hv]
  exact List.forall_mem_append.2 ⟨h.data, List.forall_mem_singleton.2 hv⟩

lemma check_eq_ok (h : c.Pours) (b : Bindings) : c.check b = .ok () :=
  check_eq_ok_iff.2 fun x hx => absurd hx (Ty.isGround_iff.1 h.isPlain.isGround x)

end Pours

end Contract

namespace Run

variable {run next : Run} {options : Options} {hierarchy : Hierarchy} {values : List Ty}
  {total : Nat} {seat absorber : Seat} {others : List Seat}

/-! ### What does not change -/

/-- What is left to be yielded, seat by seat. -/
def streams (run : Run) : List (List Ty) :=
  run.live.map fun seat => seat.current.yields.items

lemma streams_of_live (hlive : run.live = seat :: others) :
    run.streams = seat.current.yields.items :: others.map fun other =>
      other.current.yields.items := by
  rw [streams, hlive, List.map_cons]

/-- The number of steps in which some streams are poured out: each value of a stream is moved once
for this stream and once for each stream behind it. -/
def pouringCost : List (List Ty) → Nat
  | [] => 0
  | stream :: rest => stream.length * (rest.length + 1) + pouringCost rest

/-- The generator on a seat is finite and yields data, of which some are left. -/
def Filled (g : Generator) (c : Contract) : Prop :=
  g.infinite = false ∧ c.Pours ∧ c.yields.items ≠ []

/-- All that the seats do is to yield data. What was emitted and what is left to be emitted are the
values `values`, and the steps that were taken and those that are left are `total` steps. -/
structure Pouring (values : List Ty) (total : Nat) (run : Run) : Prop where
  numbered : Numbered run
  filled : ForallSeats (fun _ => Filled) run
  values_eq : run.emitted.toList ++ run.streams.reverse.flatten = values
  total_eq : run.steps + pouringCost run.streams = total

namespace Pouring

/-! ### The choice of an action -/

lemma exists_produce? (h : run.Pouring values total) (hseat : seat ∈ run.live) :
    ∃ v successor, v.Datum ∧ seat.current.produce? run.bindings = some ⟨v, successor⟩ ∧
      successor.Pours ∧ seat.current.yields.items = v :: successor.yields.items := by
  obtain ⟨-, hpours, hne⟩ := h.filled seat hseat
  obtain ⟨v, vs, hitems⟩ := List.exists_cons_of_ne_nil hne
  obtain ⟨successor, hproduce, hsuccessor, rfl⟩ := hpours.exists_produce? hitems run.bindings
  have hv : v.Datum := hpours.data v (hitems ▸ List.mem_cons_self)
  exact ⟨v, successor, hv, hproduce, hsuccessor, hitems⟩

lemma isUnbounded_eq_false (h : run.Pouring values total) (hseat : seat ∈ run.live) :
    run.isUnbounded seat = false :=
  (h.filled seat hseat).2.1.isOpenStream_eq_false run.bindings

/-- Nobody receives anything. -/
lemma findExchange?_eq_none (h : run.Pouring values total) (offers : List Offer) :
    run.findExchange? hierarchy offers = none := by
  have hreceivers : run.receivers = [] := by
    refine List.filter_eq_nil_iff.2 fun seat hseat => ?_
    rw [(h.filled seat hseat).2.1.receives]
    decide
  rw [findExchange?, hreceivers]
  exact List.findSome?_eq_none_iff.2 fun _ _ => rfl

/-- No contract is yielded. -/
lemma findSpawn?_eq_none (h : run.Pouring values total) : findSpawn? run.offers = none := by
  refine List.findSome?_eq_none_iff.2 fun offer hoffer => ?_
  obtain ⟨hseat, hyielded⟩ := mem_offers.1 hoffer
  obtain ⟨v, successor, hv, hproduce, -⟩ := h.exists_produce? hseat
  rw [hproduce] at hyielded
  rw [Offer.value, ← Option.some.inj hyielded, hv.firstOrder.contracts?_eq_none]
  rfl

/-- The second seat absorbs what the first one yields. -/
lemma nextAction?_eq_absorb (h : run.Pouring values total)
    (hlive : run.live = seat :: absorber :: others) {yielded : Yielded}
    (hyielded : seat.current.produce? run.bindings = some yielded) :
    run.nextAction? hierarchy = some (.absorb ⟨seat, yielded⟩ absorber) := by
  have hseat : seat ∈ run.live := hlive ▸ List.mem_cons_self
  have habsorber : absorber ∈ run.live := hlive ▸ List.mem_cons_of_mem _ List.mem_cons_self
  obtain ⟨hfinite, hpours, -⟩ := h.filled absorber habsorber
  have hne : absorber.number ≠ seat.number := by
    have hascending := h.numbered.ascending
    rw [hlive, List.map_cons, List.map_cons, List.pairwise_cons] at hascending
    exact Nat.ne_of_gt (hascending.1 _ List.mem_cons_self)
  have hcan : run.canAbsorb seat.number absorber = true := by
    rw [canAbsorb, bne_iff_ne.2 hne, hpours.receives, hfinite, h.isUnbounded_eq_false habsorber]
    rfl
  have hfind : run.live.find? (run.canAbsorb seat.number) = some absorber := by
    rw [hlive, List.find?_cons_of_neg (by simp [canAbsorb]), List.find?_cons_of_pos hcan]
  rw [nextAction?, h.findExchange?_eq_none, h.findSpawn?_eq_none, findAbsorb?,
    offers_cons hlive hyielded, List.findSome?_cons, h.isUnbounded_eq_false hseat, hfind]
  rfl

/-- The last seat emits what it yields. -/
lemma nextAction?_eq_emit (h : run.Pouring values total) (hlive : run.live = [seat])
    {yielded : Yielded} (hyielded : seat.current.produce? run.bindings = some yielded) :
    run.nextAction? hierarchy = some (.emit ⟨seat, yielded⟩) := by
  have hseat : seat ∈ run.live := hlive ▸ List.mem_cons_self
  obtain ⟨v, successor, hv, hproduce, -⟩ := h.exists_produce? hseat
  rw [hproduce] at hyielded
  obtain rfl := Option.some.inj hyielded
  exact nextAction?_singleton hlive hproduce hv.firstOrder.contracts?_eq_none
    (h.isUnbounded_eq_false hseat) hierarchy

/-! ### One step -/

/-- When the first seat has yielded, it leaves if nothing is left on it. This changes neither what
is left to be emitted nor the steps that it takes. -/
lemma of_retire (hrun : Numbered run) (hlive : run.live = seat :: others)
    (hfinite : seat.generator.infinite = false) (hpours : seat.current.Pours)
    (hothers : ∀ other ∈ others, Filled other.generator other.current)
    (hvalues : run.emitted.toList ++ run.streams.reverse.flatten = values)
    (htotal : run.steps + pouringCost run.streams = total) :
    (run.retire seat.number).Pouring values total := by
  have hframe := run.reseats_retire seat.number
  have hretired := live_retire hrun hlive hfinite
  have hstreams := streams_of_live hlive
  rw [← hframe.emitted] at hvalues
  rw [← hframe.steps] at htotal
  by_cases hterminal : seat.current.isTerminal = true
  · rw [if_pos hterminal] at hretired
    rw [hstreams, hpours.isTerminal_iff.1 hterminal] at hvalues htotal
    refine ⟨hrun.retire _, fun other hother => hothers other (hretired ▸ hother), ?_, ?_⟩
    · rw [streams, hretired]
      simpa using hvalues
    · rw [streams, hretired]
      simpa [pouringCost] using htotal
  · rw [if_neg hterminal, ← hlive] at hretired
    have hfilled : ∀ other ∈ run.live, Filled other.generator other.current := by
      have hleft : seat.current.yields.items ≠ [] := mt hpours.isTerminal_iff.2 hterminal
      rw [hlive]
      exact List.forall_mem_cons.2 ⟨⟨hfinite, hpours, hleft⟩, hothers⟩
    refine ⟨hrun.retire _, fun other hother => hfilled other (hretired ▸ hother), ?_, ?_⟩
    · rwa [streams, hretired]
    · rwa [streams, hretired]

/-- A value that is moved to the next stream keeps its place in the order of what is emitted. -/
lemma flatten_reverse_pass (v : Ty) (vs ws : List Ty) (rest : List (List Ty)) :
    (vs :: (ws ++ [v]) :: rest).reverse.flatten = ((v :: vs) :: ws :: rest).reverse.flatten := by
  simp

lemma pouringCost_pass (v : Ty) (vs ws : List Ty) (rest : List (List Ty)) :
    pouringCost (vs :: (ws ++ [v]) :: rest) + 1 = pouringCost ((v :: vs) :: ws :: rest) := by
  simp only [pouringCost, List.length_cons, List.length_append, List.length_nil]
  ring

/-- The second seat has absorbed a value of the first one. -/
lemma absorbed (h : run.Pouring values total) (hlive : run.live = seat :: absorber :: others)
    {v : Ty} (hv : v.Datum) {successor : Contract} (hsuccessor : successor.Pours)
    (hitems : seat.current.yields.items = v :: successor.yields.items) :
    ((run.absorbed ⟨seat, ⟨v, successor⟩⟩ absorber).wrapUp run.bindings
      [seat.number]).Pouring values total := by
  have hsame : (run.absorbed ⟨seat, ⟨v, successor⟩⟩ absorber).bindings.size ≤
      run.bindings.size := Nat.le_refl _
  have hmoved : (run.absorbed ⟨seat, ⟨v, successor⟩⟩ absorber).live =
      { seat with current := successor } ::
        { absorber with current := absorber.current.appendYield v } :: others :=
    live_put (h.numbered.put _ _) [{ seat with current := successor }]
      (live_put h.numbered [] hlive successor) _
  have hfilled : ∀ other ∈ seat :: absorber :: others, Filled other.generator other.current :=
    hlive ▸ h.filled
  obtain ⟨⟨hfinite, -, -⟩, ⟨hfinite', hpours, -⟩, hothers⟩ :=
    (List.forall_mem_cons.1 hfilled).imp_right List.forall_mem_cons.1
  have habsorbed : (absorber.current.appendYield v).yields.items =
      absorber.current.yields.items ++ [v] := hpours.items_appendYield hv
  have hstreams : (run.absorbed ⟨seat, ⟨v, successor⟩⟩ absorber).streams =
      successor.yields.items :: (absorber.current.yields.items ++ [v]) ::
        others.map fun other => other.current.yields.items := by
    rw [streams_of_live hmoved, List.map_cons, habsorbed]
  have hbefore : run.streams = (v :: successor.yields.items) :: absorber.current.yields.items ::
      others.map fun other => other.current.yields.items := by
    rw [streams_of_live hlive, List.map_cons, hitems]
  have hvalues : (run.absorbed ⟨seat, ⟨v, successor⟩⟩ absorber).emitted.toList ++
      (run.absorbed ⟨seat, ⟨v, successor⟩⟩ absorber).streams.reverse.flatten = values := by
    rw [hstreams, flatten_reverse_pass, ← hbefore]
    exact h.values_eq
  have htotal : (run.absorbed ⟨seat, ⟨v, successor⟩⟩ absorber).steps +
      pouringCost (run.absorbed ⟨seat, ⟨v, successor⟩⟩ absorber).streams = total := by
    have hsteps : (run.absorbed ⟨seat, ⟨v, successor⟩⟩ absorber).steps = run.steps + 1 := rfl
    rw [hsteps, hstreams, ← h.total_eq, hbefore, ← pouringCost_pass]
    omega
  have hpouring := of_retire (h.numbered.absorbed _ _) hmoved hfinite hsuccessor
    (List.forall_mem_cons.2 ⟨⟨hfinite', hpours.appendYield hv, by simp [habsorbed]⟩, hothers⟩)
    hvalues htotal
  rw [wrapUp_of_le hsame]
  exact hpouring

/-- The last seat has emitted a value. -/
lemma handedOut (h : run.Pouring values total) (hlive : run.live = [seat])
    {v : Ty} {successor : Contract} (hsuccessor : successor.Pours)
    (hitems : seat.current.yields.items = v :: successor.yields.items) :
    ((run.handedOut ⟨seat, ⟨v, successor⟩⟩).wrapUp run.bindings
      [seat.number]).Pouring values total := by
  have hsame : (run.handedOut ⟨seat, ⟨v, successor⟩⟩).bindings.size ≤ run.bindings.size :=
    Nat.le_refl _
  have hmoved : (run.handedOut ⟨seat, ⟨v, successor⟩⟩).live =
      [{ seat with current := successor }] := live_put h.numbered [] hlive successor
  have hstreams : (run.handedOut ⟨seat, ⟨v, successor⟩⟩).streams = [successor.yields.items] := by
    exact streams_of_live hmoved
  have hbefore : run.streams = [v :: successor.yields.items] := by
    rw [streams_of_live hlive, List.map_nil, hitems]
  have hemitted : (run.handedOut ⟨seat, ⟨v, successor⟩⟩).emitted.toList =
      run.emitted.toList ++ [v] := Array.toList_push
  have hvalues : (run.handedOut ⟨seat, ⟨v, successor⟩⟩).emitted.toList ++
      (run.handedOut ⟨seat, ⟨v, successor⟩⟩).streams.reverse.flatten = values := by
    rw [hemitted, hstreams, ← h.values_eq, hbefore]
    simp
  have htotal : (run.handedOut ⟨seat, ⟨v, successor⟩⟩).steps +
      pouringCost (run.handedOut ⟨seat, ⟨v, successor⟩⟩).streams = total := by
    have hsteps : (run.handedOut ⟨seat, ⟨v, successor⟩⟩).steps = run.steps + 1 := rfl
    rw [hsteps, hstreams, ← h.total_eq, hbefore]
    simp only [pouringCost, List.length_cons, List.length_nil]
    omega
  have hpouring := of_retire (h.numbered.handedOut _) hmoved
    (h.filled seat (hlive ▸ List.mem_cons_self)).1 hsuccessor (List.forall_mem_nil _) hvalues htotal
  rw [wrapUp_of_le hsame]
  exact hpouring

/-- As long as there is a seat, there is a step to be taken. -/
theorem exists_moves (h : run.Pouring values total) (hlive : run.live ≠ []) (hierarchy : Hierarchy)
    (compose : Ty → Run → Except Halt Run) :
    ∃ action moved numbers, run.nextAction? hierarchy = some action ∧
      run.Moves compose moved numbers action ∧ moved.steps = run.steps + 1 ∧
      (moved.wrapUp run.bindings numbers).Pouring values total := by
  obtain ⟨seat, others, hlive⟩ := List.exists_cons_of_ne_nil hlive
  obtain ⟨v, successor, hv, hproduce, hsuccessor, hitems⟩ :=
    h.exists_produce? (hlive ▸ List.mem_cons_self)
  cases others with
  | cons absorber others =>
    exact ⟨_, _, _, h.nextAction?_eq_absorb hlive hproduce, ⟨rfl, rfl⟩, rfl,
      h.absorbed hlive hv hsuccessor hitems⟩
  | nil =>
    exact ⟨_, _, _, h.nextAction?_eq_emit hlive hproduce, ⟨rfl, rfl⟩, rfl,
      h.handedOut hlive hsuccessor hitems⟩

/-! ### The whole run -/

lemma nextAction?_eq_none_iff (h : run.Pouring values total) (hierarchy : Hierarchy) :
    run.nextAction? hierarchy = none ↔ run.live = [] := by
  constructor
  · intro hnone
    by_contra hlive
    obtain ⟨action, -, -, haction, -⟩ := h.exists_moves hlive hierarchy fun _ => .ok
    rw [hnone] at haction
    cases haction
  · intro hlive
    exact nextAction?_nil hlive hierarchy

/-- The action that is chosen can be carried out as one step, and the run goes on pouring. -/
lemma moves_of_nextAction? (h : run.Pouring values total) {action : Action}
    (haction : run.nextAction? hierarchy = some action)
    (compose : Ty → Run → Except Halt Run) :
    ∃ moved numbers, run.Moves compose moved numbers action ∧ moved.steps = run.steps + 1 ∧
      (moved.wrapUp run.bindings numbers).Pouring values total := by
  have hlive : run.live ≠ [] := by
    rw [Ne, ← h.nextAction?_eq_none_iff hierarchy, haction]
    exact Option.some_ne_none action
  obtain ⟨action', moved, numbers, haction', hmoves⟩ := h.exists_moves hlive hierarchy compose
  rw [haction] at haction'
  obtain rfl := Option.some.inj haction'
  exact ⟨moved, numbers, hmoves⟩

lemma of_commit (h : run.Pouring values total) {compose : Ty → Run → Except Halt Run}
    {action : Action} (haction : run.nextAction? options.hierarchy = some action)
    (hcommit : run.commit options compose action = .ok next) : next.Pouring values total := by
  obtain ⟨moved', numbers', hmoves', -, hnext⟩ := h.moves_of_nextAction? haction compose
  obtain ⟨moved, numbers, hmoves, -, rfl⟩ := commit_eq_ok_iff.1 hcommit
  obtain ⟨rfl, rfl⟩ := hmoves.unique hmoves'
  exact hnext

/-- A run whose steps are within the budget comes to its end. -/
theorem exists_drive (h : run.Pouring values total) {compose : Ty → Run → Except Halt Run}
    {fuel : Nat} (hfuel : total < run.steps + fuel) (hbudget : total ≤ options.stepBudget) :
    ∃ final, run.drive options compose fuel = .ok final := by
  have htotal := h.total_eq
  refine exists_drive_of_moves (p := Pouring values total) (μ := fun current =>
    pouringCost current.streams) (fun {current action} hcurrent haction => ?_) h (by omega)
    (by omega)
  obtain ⟨moved, numbers, hmoves, hsteps, hnext⟩ := hcurrent.moves_of_nextAction? haction compose
  have hcount := (moved.reseats_wrapUp current.bindings numbers).steps
  have hbefore := hcurrent.total_eq
  have hafter := hnext.total_eq
  exact ⟨moved, numbers, hmoves, hsteps, by omega, fun _ => hnext⟩

/-- In the end everything has been emitted, and all steps have been taken, within the budget. -/
theorem of_drive (h : run.Pouring values total) (hsteps : run.steps ≤ options.stepBudget)
    {compose : Ty → Run → Except Halt Run} {fuel : Nat} {final : Run}
    (hfinal : run.drive options compose fuel = .ok final) :
    final.live = [] ∧ final.emitted.toList = values ∧ final.steps = total ∧
      total ≤ options.stepBudget := by
  obtain ⟨⟨hpouring, hbudget⟩, hnone⟩ := drive_induction
    (p := fun current => current.Pouring values total ∧ current.steps ≤ options.stepBudget)
    (fun hcurrent haction hcommit =>
      ⟨hcurrent.1.of_commit haction hcommit, steps_le_of_commit hcommit⟩) fuel ⟨h, hsteps⟩ hfinal
  have hlive : final.live = [] := (hpouring.nextAction?_eq_none_iff _).1 hnone
  have hvalues := hpouring.values_eq
  have htotal := hpouring.total_eq
  rw [streams, hlive] at hvalues htotal
  have hend : final.steps = total := htotal
  refine ⟨hlive, ?_, hend, hend ▸ hbudget⟩
  rw [← hvalues]
  exact (List.append_nil _).symm

end Pouring

/-! ### Beginnings -/

variable {generators : List Generator} {given : Bindings}

lemma streams_joinAll (run : Run) (hne : ∀ g ∈ generators, g.contract.isTerminal = false) :
    (run.joinAll generators).streams =
      run.streams ++ generators.map fun g => g.contract.yields.items := by
  have hseated := congrArg (List.map fun p => p.2.yields.items) (run.map_live_joinAll hne)
  rwa [List.map_append, List.map_map, List.map_map, List.map_map] at hseated

lemma pouring_start (hgenerators : ∀ g ∈ generators, Filled g g.contract) (given : Bindings) :
    (start generators given).Pouring
      (generators.reverse.flatMap fun g => g.contract.yields.items)
      (pouringCost (generators.map fun g => g.contract.yields.items)) := by
  have hbegins := begins_start generators given
  have hstreams : (start generators given).streams =
      generators.map fun g => g.contract.yields.items := by
    refine streams_joinAll _ fun g hg => ?_
    obtain ⟨-, hpours, hne⟩ := hgenerators g hg
    exact Bool.eq_false_iff.2 (mt hpours.isTerminal_iff.1 hne)
  refine ⟨hbegins.numbered, hbegins.forallSeats fun g hg _ _ => hgenerators g hg, ?_, ?_⟩
  · rw [hbegins.emitted, hstreams, ← List.map_reverse, List.flatMap]
    rfl
  · rw [(start_records generators given).1, hstreams, Nat.zero_add]

end Run

/-! ### Main result -/

/-- The number of steps in which generators hand their output to the outside: with `n` generators, a
value of the one in place `i`, counted from zero, takes `n - i` steps. -/
def unmatchedCost (generators : List Generator) : Nat :=
  ∑ i : Fin generators.length,
    (generators.get i).contract.yields.items.length * (generators.length - i)

lemma unmatchedCost_eq (generators : List Generator) : unmatchedCost generators =
    Run.pouringCost (generators.map fun g => g.contract.yields.items) := by
  induction generators with
  | nil => rfl
  | cons g gs ih =>
    rw [List.map_cons, Run.pouringCost, ← ih, unmatchedCost, unmatchedCost, List.length_map]
    refine (Fin.sum_univ_succ _).trans (congrArg _ (Finset.sum_congr rfl fun i _ => ?_))
    have hplace : (g :: gs).length - i.succ = gs.length - i := Nat.add_sub_add_right _ 1 _
    rw [hplace]
    rfl

/-- Unmatched output is reversed, at a known cost. Let finite generators receive nothing and yield
ground first-order values, at least one each; conditions, exclusions and bindings do not matter.
They are composed exactly if the step budget allows the cost of their output, and then in exactly as
many steps. The contract that they amount to receives nothing and yields the output of the last
generator, followed by that of the one before it, and so on. Otherwise the step budget runs out. -/
theorem unmatched_output_is_reversed (options : Options) (generators : List Generator)
    (bindings : Bindings) (hfinite : ∀ g ∈ generators, g.infinite = false)
    (hreceives : ∀ g ∈ generators, g.contract.receives = .void)
    (hyields : ∀ g ∈ generators, g.contract.yields.items ≠ [] ∧
      ∀ v ∈ g.contract.yields.items, v.FirstOrder ∧ v.isGround = true) :
    ((∃ s, solve options generators bindings = .ok s) ↔
        unmatchedCost generators ≤ options.stepBudget) ∧
      (∀ s, solve options generators bindings = .ok s →
        s.contract = Contract.of .void
            (.seq (generators.reverse.flatMap fun g => g.contract.yields.items)) ∧
          s.steps = unmatchedCost generators) ∧
      (options.stepBudget < unmatchedCost generators → ∃ recent,
        solve options generators bindings = .error (.stepLimit options.stepBudget recent)) := by
  have hfilled : ∀ g ∈ generators, Run.Filled g g.contract := by
    intro g hg
    obtain ⟨hne, hdata⟩ := hyields g hg
    exact ⟨hfinite g hg, ⟨hreceives g hg, fun v hv => ⟨(hdata v hv).1, (hdata v hv).2⟩⟩, hne⟩
  have hcheck : checkGenerators bindings generators = .ok () :=
    checkGenerators_eq_ok fun g hg => (hfilled g hg).2.1.check_eq_ok bindings
  have hpouring := Run.pouring_start hfilled bindings
  have hzero : (Run.start generators bindings).steps = 0 :=
    (Run.start_records generators bindings).1
  rw [← unmatchedCost_eq] at hpouring
  cases hsettle : (Run.start generators bindings).settle options with
  | ok final =>
    obtain ⟨hlive, hemitted, hsteps, hbudget⟩ := hpouring.of_drive (by omega) hsettle
    have houtput : final.output = Contract.of .void
        (.seq (generators.reverse.flatMap fun g => g.contract.yields.items)) := by
      rw [Run.output, hemitted]
      refine Contract.of_sequence_of_firstOrder fun v hv => ?_
      obtain ⟨g, hg, hvg⟩ := List.mem_flatMap.1 hv
      exact ((hyields g (List.mem_reverse.1 hg)).2 v hvg).1
    have hsolve : solve options generators bindings = .ok ⟨final.output, final.trace.toList,
        final.bindings, final.steps, final.warnings.toList⟩ := by
      rw [solve, hcheck, hsettle]
      dsimp only
      rw [Run.result, Run.ending, hlive]
    refine ⟨iff_of_true ⟨_, hsolve⟩ hbudget, fun s hs => ?_, fun hless => ?_⟩
    · rw [hsolve] at hs
      cases hs
      exact ⟨houtput, hsteps⟩
    · exact absurd hbudget (Nat.not_le.2 hless)
  | error halt =>
    have hsolve : solve options generators bindings = .error (halt.toError options) := by
      rw [solve, hcheck, hsettle]
    have hless : options.stepBudget < unmatchedCost generators := by
      by_contra hnot
      have hends : ∃ final, (Run.start generators bindings).settle options = .ok final := by
        rw [Run.settle, Run.rounds_start]
        exact hpouring.exists_drive (by omega) (Nat.le_of_not_lt hnot)
      obtain ⟨final, hfinal⟩ := hends
      rw [hsettle] at hfinal
      cases hfinal
    have hfails : ∀ s, solve options generators bindings ≠ .ok s := by
      intro s hs
      rw [hsolve] at hs
      cases hs
    refine ⟨iff_of_false ?_ (Nat.not_le.2 hless), fun s hs => absurd hs (hfails s), fun _ => ?_⟩
    · rintro ⟨s, hs⟩
      exact hfails s hs
    · rw [hsolve]
      cases halt with
      | outOfSteps recent => exact ⟨recent, rfl⟩
      | outOfFuel => exact ⟨[], rfl⟩

/-- Three generators yield five values, which takes ten steps, and no budget below is enough. -/
theorem unmatched_output_is_reversed_five :
    let generators : List Generator :=
      [{ name := "first"
         contract := Contract.of .void (.seq [.const "A", .tuple [.const "B", .const "C"]]) },
        { name := "second", contract := Contract.of .void (.const "D") },
        { name := "third", contract := Contract.of .void (.seq [.const "E", .const "F"]) }]
    (∃ s, solve { stepBudget := 10 } generators ∅ = .ok s ∧ s.steps = 10 ∧
      s.contract = Contract.of .void (.seq [.const "E", .const "F", .const "D", .const "A",
        .tuple [.const "B", .const "C"]])) ∧
    ∃ recent, solve { stepBudget := 9 } generators ∅ = .error (.stepLimit 9 recent) := by
  intro generators
  have hfinite : ∀ g ∈ generators, g.infinite = false := by decide
  have hreceives : ∀ g ∈ generators, g.contract.receives = .void :=
    List.forall_mem_cons.2 ⟨rfl, List.forall_mem_cons.2 ⟨rfl, List.forall_mem_singleton.2 rfl⟩⟩
  have hconst : ∀ name, (Ty.const name).FirstOrder ∧ (Ty.const name).isGround = true :=
    fun name => ⟨.const name, rfl⟩
  have hpair : (Ty.tuple [.const "B", .const "C"]).FirstOrder :=
    .tuple (List.forall_mem_cons.2 ⟨.const "B", List.forall_mem_singleton.2 (.const "C")⟩)
  have hyields : ∀ g ∈ generators, g.contract.yields.items ≠ [] ∧
      ∀ v ∈ g.contract.yields.items, v.FirstOrder ∧ v.isGround = true := by
    refine List.forall_mem_cons.2 ⟨⟨List.cons_ne_nil _ _, ?_⟩, List.forall_mem_cons.2
      ⟨⟨List.cons_ne_nil _ _, ?_⟩, List.forall_mem_singleton.2 ⟨List.cons_ne_nil _ _, ?_⟩⟩⟩
    · exact List.forall_mem_cons.2 ⟨hconst "A", List.forall_mem_singleton.2 ⟨hpair, rfl⟩⟩
    · exact List.forall_mem_singleton.2 (hconst "D")
    · exact List.forall_mem_cons.2 ⟨hconst "E", List.forall_mem_singleton.2 (hconst "F")⟩
  have hcost : unmatchedCost generators = 10 := by decide
  obtain ⟨hsucceeds, hsolution, -⟩ := unmatched_output_is_reversed { stepBudget := 10 } generators ∅
    hfinite hreceives hyields
  obtain ⟨-, -, hfails⟩ := unmatched_output_is_reversed { stepBudget := 9 } generators ∅
    hfinite hreceives hyields
  obtain ⟨s, hs⟩ := hsucceeds.2 (Nat.le_of_eq hcost)
  obtain ⟨hcontract, hsteps⟩ := hsolution s hs
  refine ⟨⟨s, hs, hsteps.trans hcost, hcontract⟩, hfails ?_⟩
  rw [hcost]
  decide

end ContractComposition

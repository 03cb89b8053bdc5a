import ContractComposition.Proofs.InsertionOrder
import ContractComposition.Proofs.Unwinding

/-!
# Composing the operations of a catalog

The operations of a catalog can be composed in two ways: directly as generators, or by name. In the
second case each name is bound to its operation's contract, and a starter yields all the names as
one tuple. This takes three stages. The starter yields the tuple, with the contracts in the place of
the names. These are composed in a nested run, which goes as the direct one, since elementary
contracts do not care about bindings. The result then takes part in the outer run, and is handed
out.

So composing by name gives what composing directly gives, and its trace begins with the trace of the
direct run (`compose_agrees_with_solve`).
-/

namespace ContractComposition

/-! ### Operations as values -/

/-- The contract is in normal form and has something to do. No variables and no contracts occur in
its sides, nothing constrains it, and it does not start again by itself. -/
structure Contract.SelfContained (c : Contract) : Prop where
  receives_normal : c.receives.normalize = c.receives
  yields_normal : c.yields.normalize = c.yields
  receives_ground : c.receives.isGround = true
  yields_ground : c.yields.isGround = true
  receives_nesting : c.receives.nesting = 0
  yields_nesting : c.yields.nesting = 0
  unfinished : c.isTerminal = false
  condition : c.condition = none
  forbidden : c.forbidden = []
  restorable : c.restorable = false

namespace Catalog

variable {operations : List Generator}

section Values

variable {operation : Generator} (h : operation.contract.SelfContained)

include h

lemma elementary_of_selfContained : operation.contract.Elementary where
  plain := ⟨Ty.plainWithin_zero h.receives_ground h.receives_nesting,
    Ty.plainWithin_zero h.yields_ground h.yields_nesting⟩
  normal := h.receives_normal ▸ Ty.isNormal_normalize _
  condition := h.condition
  forbidden := h.forbidden

lemma contractValue_eq : contractValue operation =
    { operation.contract with
      source := some operation.name
      restorable := operation.infinite } := by
  rw [contractValue]
  cases hinfinite : operation.infinite with
  | true => rfl
  | false =>
    dsimp only [Contract.withSource, Bool.false_eq_true, if_false]
    rw [if_neg Bool.false_ne_true, h.restorable]

lemma sameSides_contractValue : operation.contract.SameSides (contractValue operation) := by
  have helementary := elementary_of_selfContained h
  rw [contractValue_eq h]
  refine ⟨helementary, ?_, rfl, rfl⟩
  exact ⟨⟨helementary.plain.receives, helementary.plain.yields⟩, helementary.normal, h.condition,
    h.forbidden⟩

lemma isNormal_contractValue : (Ty.contract (contractValue operation)).IsNormal := by
  have hsides : ¬(operation.contract.receives = .void ∧ operation.contract.yields = .void) := by
    intro hvoid
    have hunfinished := h.unfinished
    rw [Contract.isTerminal, hvoid.1, hvoid.2] at hunfinished
    cases hunfinished
  rw [contractValue_eq h]
  refine Ty.isNormal_contract.2 ⟨hsides, ?_, ?_⟩
  · exact h.receives_normal ▸ Ty.isNormal_normalize _
  · exact h.yields_normal ▸ Ty.isNormal_normalize _

/-- A name that is bound to an operation stands for it. -/
lemma subst_var_eq {b : Bindings}
    (hfound : b.find? operation.name = some (.contract (contractValue operation))) :
    (Ty.var operation.name).subst b = .contract (contractValue operation) := by
  have hsource : (contractValue operation).source = some operation.name := by
    rw [contractValue_eq h]
  exact (sameSides_contractValue h).right.subst_var_eq (isNormal_contractValue h) hsource hfound

end Values

/-- The operations as a tuple of contracts. -/
def tupleOf (operations : List Generator) : Ty :=
  .tuple (operations.map fun operation => .contract (contractValue operation))

variable (hnodup : (operations.map Generator.name).Nodup)
  (hoperations : ∀ operation ∈ operations, operation.contract.SelfContained)

/-- Every name is bound to an operation with this name. -/
lemma exists_find?_bindingsOf {operation : Generator} (hmem : operation ∈ operations) :
    ∃ other ∈ operations, other.name = operation.name ∧
      (bindingsOf operations).find? operation.name = some (.contract (contractValue other)) := by
  obtain ⟨found, hfound⟩ := NameTable.exists_find?_ofList <| List.mem_map_of_mem
    (f := fun operation : Generator => (operation.name, Ty.contract (contractValue operation))) hmem
  obtain ⟨other, hother, heq⟩ := List.mem_map.1 (NameTable.mem_of_find?_ofList hfound)
  obtain ⟨hname, rfl⟩ := Prod.mk.inj heq
  exact ⟨other, hother, hname, hfound⟩

include hnodup in
lemma find?_bindingsOf {operation : Generator} (hmem : operation ∈ operations) :
    (bindingsOf operations).find? operation.name = some (.contract (contractValue operation)) := by
  obtain ⟨other, hother, hname, hfound⟩ := exists_find?_bindingsOf hmem
  rw [List.inj_on_of_nodup_map hnodup hother hmem hname] at hfound
  exact hfound

include hoperations in
lemma isPlain_tupleOf : (tupleOf operations).IsPlain := by
  refine Ty.within_tuple.2 (List.forall_mem_map.2 fun operation hmem => ?_)
  have helementary := (sameSides_contractValue (hoperations operation hmem)).right
  exact Ty.within_contract.2 ⟨.inr ⟨helementary.condition, helementary.forbidden⟩,
    helementary.plain.receives.plain, helementary.plain.yields.plain⟩

lemma contracts?_tupleOf (hne : operations ≠ []) :
    (tupleOf operations).contracts? = some (operations.map contractValue) := by
  have hmapM : ∀ cs : List Contract, (cs.map Ty.contract).mapM Ty.contract? = some cs := by
    intro cs
    induction cs with
    | nil => rfl
    | cons c cs ih =>
      rw [List.map_cons, List.mapM_cons, ih]
      rfl
  have hitems : operations.map (fun operation => Ty.contract (contractValue operation)) =
      (operations.map contractValue).map Ty.contract := (List.map_map ..).symm
  cases operations with
  | nil => exact absurd rfl hne
  | cons first rest =>
    rw [tupleOf, hitems]
    exact hmapM (contractValue first :: rest.map contractValue)

lemma starter_yields (operations : List Generator) : (starter operations).contract.yields =
    .tuple (operations.map fun operation => .var operation.name) := by
  rw [starter, Contract.of]
  dsimp only
  rw [Ty.normalize, Ty.normalizeAll_eq_map, List.map_map]
  rfl

include hnodup hoperations in
/-- The starter yields all operations at once, and is finished then. -/
lemma produce?_starter :
    (starter operations).contract.produce? (bindingsOf operations) =
      some ⟨tupleOf operations, Contract.of .void .void⟩ := by
  have hyields : (starter operations).contract.yields.subst (bindingsOf operations) =
      tupleOf operations := by
    rw [starter_yields, Ty.subst_tuple, List.map_map]
    refine congrArg Ty.tuple (List.map_congr_left fun operation hmem => ?_)
    exact subst_var_eq (hoperations operation hmem) (find?_bindingsOf hnodup hmem)
  have hground : (tupleOf operations).isGround = true :=
    (Ty.isPlain_iff.1 (isPlain_tupleOf hoperations)).1
  rw [← hyields] at hground
  exact Contract.produce?_eq_some_iff.2 ⟨rfl, hground, .void, by rw [hyields]; rfl, rfl⟩

/-! ### The outer run -/

/-- The seat of the starter. -/
def starterSeat (operations : List Generator) : Seat :=
  ⟨0, starter operations, (starter operations).contract⟩

/-- What the starter offers. -/
def starterOffer (operations : List Generator) : Offer :=
  ⟨starterSeat operations, ⟨tupleOf operations, Contract.of .void .void⟩⟩

/-- The outer run begins with the starter alone. -/
lemma start_starter (operations : List Generator) (b : Bindings) :
    Run.start [starter operations] b =
      { live := [starterSeat operations]
        nextNumber := 1
        bindings := b
        external := b.names } := by
  have hunfinished : (starter operations).contract.isTerminal = false := by
    rw [Contract.isTerminal, starter_yields]
    rfl
  rw [Run.start, Run.joinAll, List.filter_cons_of_pos (by rw [hunfinished]; rfl), List.filter_nil]
  rfl

include hnodup hoperations in
/-- The first thing that happens is that the operations start running. -/
lemma nextAction?_start (hne : operations ≠ []) (hierarchy : Hierarchy) :
    (Run.start [starter operations] (bindingsOf operations)).nextAction? hierarchy =
      some (.spawn (starterOffer operations) (operations.map contractValue)) := by
  have hoffers : (Run.start [starter operations] (bindingsOf operations)).offers =
      [starterOffer operations] := by
    rw [start_starter, Run.offers, List.filterMap_cons]
    have hproduce : (starterSeat operations).current.produce? (bindingsOf operations) =
        some ⟨tupleOf operations, Contract.of .void .void⟩ := produce?_starter hnodup hoperations
    rw [hproduce]
    rfl
  have hexchange : ∀ offers,
      (Run.start [starter operations] (bindingsOf operations)).findExchange? hierarchy offers =
        none := by
    intro offers
    rw [start_starter]
    exact List.findSome?_eq_none_iff.2 fun _ _ => rfl
  rw [Run.nextAction?, hoffers, hexchange, Option.none_or]
  rw [Run.findSpawn?, List.findSome?_cons]
  have hcontracts : (starterOffer operations).value.contracts? = _ := contracts?_tupleOf hne
  rw [hcontracts]
  rfl

/-! ### The nested run -/

/-- The operations as they take part in the nested run. -/
def startedBy (operations : List Generator) : List Generator :=
  Run.members starterName (operations.map contractValue)

include hoperations in
/-- The operations take part in the nested run under their own names and with their own sides. -/
lemma startedBy_alike (b b' : Bindings) (keep keep' : List String) :
    List.Forall₂ (Likeness.elementary b b' keep keep').GeneratorAlike operations
      (startedBy operations) := by
  have hindexed : ∀ n, List.Forall₂ (fun operation p => operation.contract.SelfContained ∧
      p.1 = contractValue operation) operations ((operations.map contractValue).zipIdx n) := by
    induction operations with
    | nil => exact fun _ => .nil
    | cons operation rest ih =>
      obtain ⟨hoperation, hrest⟩ := List.forall_mem_cons.1 hoperations
      exact fun n => .cons ⟨hoperation, rfl⟩ (ih hrest (n + 1))
  refine List.forall₂_map_right_iff.2 ((hindexed 0).imp ?_)
  rintro operation ⟨contract, i⟩ ⟨hoperation, rfl⟩
  refine ⟨?_, sameSides_contractValue hoperation, ?_⟩
  · dsimp only
    rw [contractValue_eq hoperation]
    rfl
  · dsimp only
    rw [contractValue_eq hoperation]

include hoperations in
/-- Where the operations are composed directly, they are composed in the nested run as well. -/
lemma exists_nested {options : Options} {s : Solution} (hs : solve options operations ∅ = .ok s)
    (b : Bindings) (depth : Nat) :
    ∃ nested c,
      ((Run.start [starter operations] b).nest (startedBy operations)).settleWithin options
        (depth + 1) = .ok nested ∧
      nested.ending = .composed c ∧ c.Unwinds ∧ s.contract.SameSides c ∧ nested.bindings = b ∧
      nested.warnings = #[] ∧
      List.Forall₂ (Likeness.elementary ∅ b [] b.names).EventAlike s.trace nested.trace.toList := by
  have hstart : (Likeness.elementary ∅ b [] b.names).RunAlike (Run.start operations ∅)
      ((Run.start [starter operations] b).nest (startedBy operations)) := by
    rw [start_starter]
    refine Likeness.joinAll ?_ (startedBy_alike hoperations _ _ _ _)
    exact ⟨.nil, rfl, ⟨rfl, rfl⟩, ⟨rfl, rfl⟩, .nil, rfl, rfl, .nil, rfl⟩
  have hcompose : (Likeness.elementary ∅ b [] b.names).ComposesAlike
      (fun value => Run.settleWithin options value.nesting)
      (fun _ => Run.settleWithin options depth) := by
    rintro v _ ⟨rfl, hv⟩ hstarts
    rw [Ty.isContractValue, hv.contracts?_eq_none] at hstarts
    cases hstarts
  obtain ⟨final, hfinal, hending, htrace, -⟩ := Run.exists_settle_of_solve_eq_ok hs
  have hsettle := Likeness.drive hstart options hcompose ((Run.start operations ∅).rounds options)
  rw [Run.settle] at hfinal
  rw [hfinal, Likeness.rounds_eq hstart] at hsettle
  have helementary :
      ((Run.start [starter operations] b).nest (startedBy operations)).Elementary := by
    refine Run.Obeys.of_begins (Run.begins_nest _ _) trivial fun g hmem => ?_
    obtain ⟨operation, hoperation, heq⟩ :=
      List.mem_map.1 (Run.contract_mem_of_mem_members hmem)
    exact heq ▸ (sameSides_contractValue (hoperations operation hoperation)).right
  cases hnested : ((Run.start [starter operations] b).nest (startedBy operations)).settleWithin
      options (depth + 1) with
  | error halt =>
    rw [Run.settleWithin] at hnested
    rw [hnested] at hsettle
    exact hsettle.elim
  | ok nested =>
    rw [Run.settleWithin] at hnested
    rw [hnested] at hsettle
    obtain ⟨⟨actions, hpath⟩, hstop⟩ := Run.path_of_drive _ hnested
    have hboth := hending ▸ Likeness.ending hsettle
    cases hcomposed : nested.ending with
    | deadlocked => rw [hcomposed] at hboth; cases hboth
    | composed c =>
      rw [hcomposed] at hboth
      cases hboth with
      | composed hsides =>
        refine ⟨nested, c, rfl, hcomposed, ?_, hsides, hsettle.bindings.2, ?_, ?_⟩
        · exact Contract.unwinds_of_ending
            (helementary.of_reachable Contract.law_elementary hpath.reachable) hstop hcomposed
        · rw [Run.warnings_of_path helementary hpath]
          exact (Run.begins_nest _ _).warnings
        · rw [htrace]
          exact hsettle.trace

/-! ### The result in the outer run -/

/-- Once the operations are composed, the starter leaves and their composite is handed out. -/
lemma unwinding_of_spawn {options : Options} {compose : Ty → Run → Except Halt Run} {b : Bindings}
    {nested next : Run} {c : Contract}
    (hnested : compose (tupleOf operations)
      ((Run.start [starter operations] b).nest (startedBy operations)) = .ok nested)
    (hending : nested.ending = .composed c) (hunwinds : c.Unwinds) (hbindings : nested.bindings = b)
    (hwarnings : nested.warnings = #[])
    (hcommit : (Run.start [starter operations] b).commit options compose
      (.spawn (starterOffer operations) (operations.map contractValue)) = .ok next) :
    next.Unwinding c nested.trace.toList := by
  obtain ⟨moved, numbers, ⟨prepared, started, hprepare, rfl, rfl⟩, -, rfl⟩ :=
    Run.commit_eq_ok_iff.1 hcommit
  have hadopt : (Run.start [starter operations] b).adopt starterName (startedBy operations) nested =
      (prepared, started) :=
    Except.ok.inj ((Run.prepare_of_isTuple rfl hnested).symm.trans hprepare)
  rw [Run.adopt, hending, start_starter] at hadopt
  obtain ⟨hprepared, rfl⟩ := Prod.mk.inj hadopt
  have hwarnings' : prepared.warnings = #[] := by
    rw [← hprepared, hwarnings]
    rfl
  have htrace : prepared.trace = nested.trace := by
    rw [← hprepared]
    exact Array.empty_append
  have hsize : ∀ started, (prepared.seated (starterOffer operations) started).bindings.size ≤
      (Run.start [starter operations] b).bindings.size := by
    intro started
    rw [Run.seated_bindings, ← hprepared, start_starter, hbindings]
  rw [Run.wrapUp_of_le (hsize _), ← htrace]
  refine Run.Unwinding.retire (Run.Unwinding.retire_seated
    (g := { name := Run.compositeName (startedBy operations), contract := c })
    ?_ ?_ rfl rfl ?_ hwarnings' rfl hunwinds) _
  · rw [← hprepared]
    rfl
  · rw [← hprepared]
    exact Nat.zero_lt_one
  · rw [← hprepared]

/-- All names that the starter yields are bound. -/
lemma check_starter (operations : List Generator) :
    (starter operations).contract.check (bindingsOf operations) = .ok () := by
  have hunbound : (starter operations).contract.unbound (bindingsOf operations) = [] := by
    rw [Contract.unbound, List.filter_eq_nil_iff]
    intro x hx
    rw [Ty.mem_freeVars, starter_yields, Ty.occurrences, Ty.occurrencesAll_eq_flatMap,
      List.mem_flatMap] at hx
    obtain ⟨t, ht, hx⟩ := hx
    obtain ⟨operation, hmem, rfl⟩ := List.mem_map.1 ht
    rw [Ty.occurrences, List.mem_singleton] at hx
    obtain ⟨other, -, -, hfound⟩ := exists_find?_bindingsOf hmem
    have hbound : (bindingsOf operations).contains x = true :=
      NameTable.contains_iff.2 ⟨_, hx ▸ hfound⟩
    simp [hbound]
  rw [Contract.check, hunbound]

include hnodup hoperations in
/-- The starter's run succeeds with the solution of the direct run, unless it is stopped. -/
lemma exists_solution {options : Options} (hne : operations ≠ []) {s : Solution}
    (hs : solve options operations ∅ = .ok s)
    (hlimit : ∀ budget recent, solve options [starter operations] (bindingsOf operations) ≠
      .error (.stepLimit budget recent)) :
    ∃ s', solve options [starter operations] (bindingsOf operations) = .ok s' ∧
      s.contract.receives = s'.contract.receives ∧ s.contract.yields = s'.contract.yields ∧
      s'.warnings = [] ∧ ∃ front rest, s'.trace = front ++ rest ∧
        List.Forall₂ (Likeness.elementary ∅ (bindingsOf operations) []
          (bindingsOf operations).names).EventAlike s.trace front := by
  unfold solve at hlimit ⊢
  rw [checkGenerators, check_starter, checkGenerators] at hlimit ⊢
  dsimp only at hlimit ⊢
  cases hsettle : (Run.start [starter operations] (bindingsOf operations)).settle options with
  | error halt =>
    rw [hsettle] at hlimit
    cases halt <;> exact absurd rfl (hlimit _ _)
  | ok final =>
    obtain ⟨depth, hdepth, -⟩ :=
      (isPlain_tupleOf hoperations).exists_nesting_eq_succ (contracts?_tupleOf hne)
    obtain ⟨nested, c, hnested, hending, hunwinds, hsides, hbindings, hwarnings, htrace⟩ :=
      exists_nested hoperations hs (bindingsOf operations) depth
    rw [← hdepth] at hnested
    rw [Run.settle, Run.rounds_start] at hsettle
    rcases Run.drive_succ_eq_ok_iff.1 hsettle with
      ⟨hstop, -⟩ | ⟨action, next, haction, hcommit, hrest⟩
    · rw [nextAction?_start hnodup hoperations hne] at hstop
      cases hstop
    rw [nextAction?_start hnodup hoperations hne] at haction
    cases haction
    have hfirst := unwinding_of_spawn hnested hending hunwinds hbindings hwarnings hcommit
    obtain ⟨hunwinding, -⟩ := Run.drive_induction (fun h => h.of_commit) _ hfirst hrest
    obtain ⟨s', hs', hreceives, hyields, hnone, rest, hfront⟩ := hunwinding.exists_result
    exact ⟨s', hs', hsides.receives.trans hreceives.symm, hsides.yields.trans hyields.symm, hnone,
      _, rest, hfront, htrace⟩

end Catalog

/-- Composing operations of a catalog by name agrees with composing them directly. Let the
operations be self-contained and all names known. If they are composed directly into some contract,
then composing them by name gives an equal contract, unless the step budget runs out. There are no
warnings, and the trace begins with the trace of the direct run. -/
theorem compose_agrees_with_solve (options : Options) (inserted : List Generator)
    (interested : List String) (hinterested : interested ≠ [])
    (hknown : ∀ name ∈ interested, ((Catalog.ofList inserted).find? name).isSome = true)
    (hoperations : ∀ operation ∈ (Catalog.ofList inserted).select interested,
      operation.contract.SelfContained)
    (s : Solution) (hs : solve options ((Catalog.ofList inserted).select interested) ∅ = .ok s)
    (hlimit : ∀ budget recent, (Catalog.ofList inserted).compose options interested [] ≠
      .error (.stepLimit budget recent)) :
    ∃ s', (Catalog.ofList inserted).compose options interested [] = .ok s' ∧
      (s'.contract == s.contract) = true ∧ s'.warnings = [] ∧
      ∃ front rest, s'.trace = front ++ rest ∧
        List.Forall₂ (fun e e' => e.step = e'.step ∧ e.kind = e'.kind ∧
          e.generator = e'.generator ∧ (e.contract == e'.contract) = true) s.trace front := by
  have hnodup := Catalog.nodup_select (Catalog.nodup_names_ofList inserted) interested
  have hne := Catalog.select_ne_nil hinterested hknown
  have hcompose : (Catalog.ofList inserted).compose options interested [] =
      solve options [Catalog.starter ((Catalog.ofList inserted).select interested)]
        (Catalog.bindingsOf ((Catalog.ofList inserted).select interested)) := by
    have hall : (interested ++ []).find?
        (fun name => ((Catalog.ofList inserted).find? name).isNone) = none := by
      rw [List.append_nil, List.find?_eq_none]
      intro name hname hnone
      have hsome := hknown name hname
      rw [Option.isNone_iff_eq_none.1 hnone] at hsome
      cases hsome
    rw [Catalog.compose, hall]
    rfl
  rw [hcompose] at hlimit ⊢
  obtain ⟨s', hs', hreceives, hyields, hwarnings, front, rest, htrace, hfront⟩ :=
    Catalog.exists_solution hnodup hoperations hne hs hlimit
  refine ⟨s', hs', Contract.beq_of_sides hreceives.symm hyields.symm, hwarnings, front, rest,
    htrace, hfront.imp fun e e' he => ?_⟩
  refine ⟨he.step, he.kind, ?_, Contract.beq_of_sides he.contract.receives he.contract.yields⟩
  rcases rel_option_cases he.generator with ⟨hnone, hnone'⟩ | ⟨x, y, hsome, hsome', hxy⟩
  · rw [hnone, hnone']
  · rw [hsome, hsome']
    exact congrArg some hxy

/-- One operation replaces another one of the same name, and one is not interesting. What is
composed ends in an open stream, which is handed out as one value. -/
theorem compose_agrees_with_solve_stream :
    let give : Generator := ⟨"give", Contract.of .void (.list (.const "A") (.int 2)), false⟩
    let take : Generator :=
      ⟨"take", Contract.of (.seq [.const "A", .const "A"]) (.const "B"), false⟩
    let stream : Generator := ⟨"stream", Contract.of .void (.list (.const "C") .star), false⟩
    let inserted : List Generator :=
      [⟨"give", Contract.of .void (.const "Z"), false⟩,
        ⟨"drop", Contract.of (.const "B") .void, true⟩, take, give, stream]
    let interested : List String := ["stream", "take", "give"]
    ∃ s s', solve {} ((Catalog.ofList inserted).select interested) ∅ = .ok s ∧
      (Catalog.ofList inserted).compose {} interested [] = .ok s' ∧
      (s'.contract == s.contract) = true ∧ s.contract.text = "[Void; (B, List(C, *))]" ∧
      s.trace.filterMap Event.generator = ["give", "take", "give", "take", "take"] ∧
      s'.trace.length = 12 ∧ s'.warnings = [] ∧
      ∃ front rest, s'.trace = front ++ rest ∧
        List.Forall₂ (fun e e' => e.step = e'.step ∧ e.kind = e'.kind ∧
          e.generator = e'.generator ∧ (e.contract == e'.contract) = true) s.trace front := by
  intro give take stream inserted interested
  have hselected : (Catalog.ofList inserted).select interested = [give, take, stream] := rfl
  have hknown : ∀ name ∈ interested,
      ((Catalog.ofList inserted).find? name).isSome = true := by decide +kernel
  have hoperations : ∀ operation ∈ (Catalog.ofList inserted).select interested,
      operation.contract.SelfContained := by
    have hgive : give.contract.SelfContained := by constructor <;> rfl
    have htake : take.contract.SelfContained := by constructor <;> rfl
    have hstream : stream.contract.SelfContained := by constructor <;> rfl
    rw [hselected]
    simpa using ⟨hgive, htake, hstream⟩
  have hdirect : (solve {} ((Catalog.ofList inserted).select interested) ∅).toOption.map
      (fun s => (s.contract.text, s.trace.filterMap Event.generator)) =
        some ("[Void; (B, List(C, *))]", ["give", "take", "give", "take", "take"]) := by
    decide +kernel
  have hnamed : ((Catalog.ofList inserted).compose {} interested []).toOption.map
      (fun s => s.trace.length) = some 12 := by decide +kernel
  obtain ⟨s, hs, hfacts⟩ := exists_of_toOption_eq_some hdirect
  obtain ⟨hcontract, hgenerators⟩ := Prod.mk.inj hfacts
  obtain ⟨s', hs', hlength⟩ := exists_of_toOption_eq_some hnamed
  obtain ⟨s'', hs'', hagrees, hwarnings, hfront⟩ :=
    compose_agrees_with_solve {} inserted interested (List.cons_ne_nil _ _) hknown hoperations s hs
      (by rw [hs']; exact fun _ _ => nofun)
  obtain rfl := Except.ok.inj (hs'.symm.trans hs'')
  exact ⟨s, s', hs, hs', hagrees, hcontract, hgenerators, hlength, hwarnings, hfront⟩

end ContractComposition

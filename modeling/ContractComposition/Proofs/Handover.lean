import ContractComposition.Proofs.CatalogComposition
import ContractComposition.Proofs.Growth
import ContractComposition.Proofs.Run.Occupancy

/-!
# Handing over the operations of a catalog

A catalog is composed by a starter, which yields its operations as one tuple. It can do so once no
variable is left in the tuple. Operations that receive variables are a problem then: what is nothing
special where they are composed directly keeps the starter waiting here. If nobody else binds these
variables, the run ends with the starter as its remainder. This counts as a success, though no
operation has been started (`Catalog.compose_of_waiting`).

There is no other reason for the starter not to yield (`compose_hands_over_operations`). It keeps
its seat as long as it does not yield (`Run.Path.occupies_or_yields`), and what is left of its
contract begins with the tuple all the time, also after the starter has absorbed other values. The
variables in it are names of operations or variables that operations receive. As all bindings but
those of the operations are ground, two replacements in a row lead from a name to a ground value if
all received variables are bound. Then the starter can yield, and the run does not stop.
-/

namespace ContractComposition

/-! ### Streams that begin with a tuple -/

namespace Ty

variable {n : Nat} {t : Ty}

/-- The first member of the stream is a tuple of `n` values. -/
def LeadsWith (n : Nat) (t : Ty) : Prop :=
  ∃ items rest, t.items = .tuple items :: rest ∧ items.length = n

lemma leadsWith_sequence (items rest : List Ty) :
    (sequence (.tuple items :: rest)).LeadsWith items.length := by
  refine ⟨items, flattenAll rest, ?_, rfl⟩
  exact items_ofMembers_of_isMember (forall_isMember_flattenAll _)

namespace LeadsWith

/-- Such a stream is the tuple on its own or a sequence. -/
lemma exists_eq (h : t.LeadsWith n) : ∃ items, items.length = n ∧
    (t = .tuple items ∨ ∃ rest, t = .seq (.tuple items :: rest)) := by
  obtain ⟨items, rest, hitems, hlength⟩ := h
  refine ⟨items, hlength, ?_⟩
  cases t with
  | seq members => exact .inr ⟨rest, congrArg Ty.seq hitems⟩
  | tuple => cases hitems; exact .inl rfl
  | void | const | var | int | star | list | func | contract => cases hitems

lemma exists_pop? (h : t.LeadsWith n) : ∃ popped, t.pop? = some popped := by
  obtain ⟨items, -, rfl | ⟨rest, rfl⟩⟩ := h.exists_eq
  · exact ⟨_, rfl⟩
  · exact ⟨_, rfl⟩

lemma isOpenStream_eq_false (h : t.LeadsWith n) : t.isOpenStream = false := by
  obtain ⟨items, -, rfl | ⟨rest, rfl⟩⟩ := h.exists_eq
  · rfl
  · rfl

lemma ne_void (h : t.LeadsWith n) : t ≠ .void := by
  obtain ⟨items, -, rfl | ⟨rest, rfl⟩⟩ := h.exists_eq
  · exact nofun
  · exact nofun

lemma normalize (h : t.LeadsWith n) : t.normalize.LeadsWith n := by
  obtain ⟨items, rfl, rfl | ⟨rest, rfl⟩⟩ := h.exists_eq
  · refine ⟨normalizeAll items, [], rfl, ?_⟩
    rw [normalizeAll_eq_map, List.length_map]
  · have hsequence := leadsWith_sequence (normalizeAll items) (normalizeAll rest)
    rw [normalizeAll_eq_map, List.length_map, ← normalizeAll_eq_map] at hsequence
    exact hsequence

lemma subst (h : t.LeadsWith n) (b : Bindings) : (t.subst b).LeadsWith n := by
  apply LeadsWith.normalize
  obtain ⟨items, rfl, rfl | ⟨rest, rfl⟩⟩ := h.exists_eq
  · refine ⟨expandAll b.look 0 items, [], rfl, ?_⟩
    rw [expandAll_eq_map, List.length_map]
  · refine ⟨expandAll b.look 0 items, expandAll b.look 0 rest, rfl, ?_⟩
    rw [expandAll_eq_map, List.length_map]

/-- What is put behind the tuple does not matter. -/
lemma concat (h : t.LeadsWith n) (u : Ty) : (t.concat u).LeadsWith n := by
  by_cases hu : u = .void
  · rwa [hu, concat_void]
  rw [concat_of_ne_void h.ne_void hu]
  obtain ⟨items, rfl, rfl | ⟨rest, rfl⟩⟩ := h.exists_eq
  · exact leadsWith_sequence items _
  · exact leadsWith_sequence items _

end LeadsWith

/-! ### Replacing variables twice -/

/-- A variable that is bound to a ground value stands for a value without variables. -/
lemma within_lookWithin_of_isGround {b : Bindings} {x : String} {u : Ty}
    (hu : b.find? x = some u) (hground : u.isGround = true) (bound : Nat) {depth : Nat}
    (hdepth : depth ≤ b.size) :
    (b.lookWithin (bound + 1) depth x).Within (.vars fun _ => False) := by
  rw [Bindings.lookWithin, hu]
  dsimp only
  rw [if_neg (Nat.not_lt.2 hdepth)]
  have hplain : u.Within (.vars fun _ => False) := within_vars_of_isGround hground
  refine Within.withSource (Within.expand ?_ ?_ ?_ ?_ hplain) x
  · exact fun _ ha => ha
  · exact fun hc => hc
  · exact fun _ => False.elim
  · exact fun _ => False.elim

/-- If all variables are bound, and those of the values that come in are bound to ground values, no
variable is left. -/
lemma isGround_subst_of_bound {b : Bindings}
    (h : ∀ x ∈ t.occurrences, ∃ u, b.find? x = some u ∧
      ∀ y ∈ u.occurrences, ∃ v, b.find? y = some v ∧ v.isGround = true) :
    (t.subst b).isGround = true := by
  have hlook : ∀ x ∈ t.occurrences, (b.look 0 x).Within (.vars fun _ => False) := by
    intro x hx
    obtain ⟨u, hu, hinner⟩ := h x hx
    obtain ⟨bound, hbound⟩ : ∃ bound, b.chainBound = bound + 2 := by
      refine Nat.exists_eq_add_of_le' ?_
      calc 2 ≤ b.size + 2 := Nat.le_add_left 2 _
        _ ≤ (b.size + 1) * (b.size + 2) := Nat.le_mul_of_pos_left _ (Nat.succ_pos _)
    -- The table is not empty, so two replacements in a row are not too many.
    have hsize : 1 ≤ b.size := List.length_pos_of_mem (NameTable.find?_eq_some_iff.1 hu)
    have hsecond : ∀ depth ≤ 1, ∀ y ∈ u.occurrences,
        (b.lookWithin (bound + 1) depth y).Within (.vars fun _ => False) := by
      intro depth hdepth y hy
      obtain ⟨v, hv, hground⟩ := hinner y hy
      exact within_lookWithin_of_isGround hv hground bound (Nat.le_trans hdepth hsize)
    have hu' : u.Within (.vars (· ∈ u.occurrences)) := within_vars_iff.2 fun _ hy => hy
    rw [Bindings.look, hbound, Bindings.lookWithin, hu]
    dsimp only
    rw [if_neg (Nat.not_lt_zero _)]
    refine Within.withSource (Within.expand ?_ ?_ ?_ ?_ hu') x
    · exact fun _ ha => ha
    · exact fun hc => hc
    · exact hsecond 1 (Nat.le_refl 1)
    · exact hsecond 0 (Nat.zero_le 1)
  have hsubst : (t.subst b).Within (Parts.vars fun _ => False).ground :=
    within_vars_expand hlook (within_vars_iff.2 fun _ hx => hx)
  exact hsubst.isGround

end Ty

/-! ### Bindings that come in during a run -/

/-- Every binding of the table is a given one or binds a ground value. -/
def Bindings.GroundBesides (given b : Bindings) : Prop :=
  ∀ x t, b.find? x = some t → given.find? x = some t ∨ t.isGround = true

/-- Only ground values are yielded, so only these are bound, whatever the contracts are. -/
theorem Contract.law_groundBesides (given : Bindings) :
    Contract.Law (fun _ => True) (fun v => v.isGround = true) given.GroundBesides where
  subst _ _ := trivial
  freshen _ _ _ := trivial
  produce {c b y} _ _ hyielded :=
    ⟨(OnlyMentions.produce? (p := fun _ => True) hyielded).1, trivial⟩
  accept {c v b h r} hb _ hv hreceived := by
    obtain ⟨head, rest, found, -, hfound, hjoin, -⟩ := accept?_eq_some_iff.1 hreceived
    refine ⟨trivial, fun x t hx => ?_⟩
    rcases Bindings.find?_of_join? hjoin hx with hx | hx
    · exact hb x t hx
    · have hground : t.Within (Parts.vars fun _ => False).ground :=
        Ty.within_matching? (Ty.within_vars_of_isGround hv) hfound x t hx
      exact .inr hground.isGround
  append _ _ := trivial
  contracts _ _ _ _ := trivial
  output _ := trivial
  andThen _ _ := trivial

lemma Run.groundBesides_of_reachable {options : Options} {generators : List Generator}
    {given : Bindings} {run : Run} (h : Reachable options (start generators given) run) :
    given.GroundBesides run.bindings := by
  have hstart : (start generators given).Obeys (fun _ => True) (fun v => v.isGround = true)
      given.GroundBesides := Obeys.start (fun _ _ hfound => .inl hfound) fun _ _ => trivial
  exact (hstart.of_reachable (Contract.law_groundBesides given) h).bindings

/-! ### The starter -/

namespace Catalog

variable {operations : List Generator} {c : Contract}

/-- The variable is the name of an operation or a variable that an operation receives. -/
def Mentions (operations : List Generator) (x : String) : Prop :=
  ∃ operation ∈ operations, x = operation.name ∨ x ∈ operation.contract.receives.occurrences

/-- What is left of the starter's contract as long as it has not yielded: the tuple of the
operations is to be yielded first. -/
structure Waits (operations : List Generator) (c : Contract) : Prop where
  receives : c.receives = .void
  yields : c.yields.LeadsWith operations.length
  vars : c.yields.Within (.vars (Mentions operations))
  forbidden : c.forbidden = []

namespace Waits

lemma isTerminal_eq_false (h : Waits operations c) : c.isTerminal = false := by
  rw [Contract.isTerminal, Bool.and_eq_false_iff]
  right
  rw [Bool.eq_false_iff, Ne, Ty.isVoid_iff]
  exact h.yields.normalize.ne_void

lemma appendYield (h : Waits operations c) {value : Ty} (hvalue : value.isGround = true) :
    Waits operations (c.appendYield value) where
  receives := h.receives
  yields := h.yields.concat _
  vars := h.vars.concat
    (Ty.within_sequence (List.forall_mem_singleton.2 (Ty.within_vars_of_isGround hvalue)))
  forbidden := h.forbidden

lemma subst {b : Bindings} (hb : b.Within (.vars (Mentions operations)))
    (h : Waits operations c) : Waits operations (c.subst b) := by
  obtain ⟨hreceives, hyields, hforbidden⟩ := Contract.subst_of_forbidden_eq_nil h.forbidden b
  refine ⟨?_, ?_, ?_, hforbidden⟩
  · rw [hreceives, h.receives]
    rfl
  · rw [hyields]
    exact h.yields.subst b
  · rw [hyields]
    exact h.vars.subst hb

end Waits

/-- At the beginning the starter yields the names of all operations. -/
lemma waits_starter (operations : List Generator) :
    Waits operations (starter operations).contract := by
  refine ⟨rfl, ?_, ?_, rfl⟩
  · rw [starter_yields]
    exact ⟨_, [], rfl, List.length_map ..⟩
  · rw [starter_yields]
    refine Ty.within_tuple.2 (List.forall_mem_map.2 fun operation hmem => ?_)
    exact ⟨operation, hmem, .inl rfl⟩

/-- As a value, an operation has the variables of its two sides. -/
lemma occurrences_contractValue (operation : Generator) :
    (Ty.contract (contractValue operation)).occurrences =
      operation.contract.receives.occurrences ++ operation.contract.yields.occurrences := by
  rw [Ty.occurrences_contract, contractValue]
  cases operation.infinite with
  | false => rfl
  | true => rfl

section Checked

variable (hcheck : ∀ operation ∈ operations, operation.contract.check ∅ = .ok ())

include hcheck

/-- An operation that passes its check has no variables but those that it receives. -/
lemma mem_receives_of_mem_occurrences {operation : Generator} (hmem : operation ∈ operations)
    {x : String} (hx : x ∈ (Ty.contract (contractValue operation)).occurrences) :
    x ∈ operation.contract.receives.occurrences := by
  rw [occurrences_contractValue, List.mem_append] at hx
  rcases hx with hx | hx
  · exact hx
  · rcases Contract.check_eq_ok_iff.1 (hcheck operation hmem) x hx with hreceived | hbound
    · exact hreceived
    · simp [NameTable.contains] at hbound

lemma within_of_groundBesides {b : Bindings} (hb : (bindingsOf operations).GroundBesides b) :
    b.Within (.vars (Mentions operations)) := by
  intro x t ht
  rcases hb x t ht with hgiven | hground
  · obtain ⟨operation, hmem, heq⟩ := List.mem_map.1 (NameTable.mem_of_find?_ofList hgiven)
    obtain ⟨rfl, rfl⟩ := Prod.mk.inj heq
    refine Ty.within_vars_iff.2 fun y hy => ?_
    exact ⟨operation, hmem, .inr (mem_receives_of_mem_occurrences hcheck hmem hy)⟩
  · exact Ty.within_vars_of_isGround hground

/-- If all variables that operations receive are bound, the starter can yield. -/
lemma Waits.isGround_subst {b : Bindings} (h : Waits operations c)
    (hnames : ∀ operation ∈ operations, ∀ x ∈ operation.contract.receives.occurrences,
      ∀ other ∈ operations, other.name ≠ x)
    (hb : (bindingsOf operations).GroundBesides b) (hext : (bindingsOf operations).ExtendedBy b)
    (hbound : ∀ operation ∈ operations, ∀ x ∈ operation.contract.receives.occurrences,
      b.contains x = true) :
    (c.yields.subst b).isGround = true := by
  -- A received variable is not the name of an operation, so its value came in during the run.
  have hreceived : ∀ operation ∈ operations, ∀ x ∈ operation.contract.receives.occurrences,
      ∃ v, b.find? x = some v ∧ v.isGround = true := by
    intro operation hmem x hx
    obtain ⟨v, hv⟩ := NameTable.contains_iff.1 (hbound operation hmem x hx)
    refine ⟨v, hv, (hb x v hv).resolve_left fun hgiven => ?_⟩
    obtain ⟨other, hother, heq⟩ := List.mem_map.1 (NameTable.mem_of_find?_ofList hgiven)
    exact hnames operation hmem x hx other hother (Prod.mk.inj heq).1
  refine Ty.isGround_subst_of_bound fun x hx => ?_
  obtain ⟨operation, hmem, rfl | hx⟩ := Ty.within_vars_iff.1 h.vars x hx
  · obtain ⟨other, hother, -, hfound⟩ := exists_find?_bindingsOf hmem
    refine ⟨_, hext _ _ hfound, fun y hy => ?_⟩
    exact hreceived other hother y (mem_receives_of_mem_occurrences hcheck hother hy)
  · obtain ⟨v, hv, hground⟩ := hreceived operation hmem x hx
    refine ⟨v, hv, fun y hy => ?_⟩
    exact absurd hy (Ty.isGround_iff.1 hground y)

end Checked

/-- A run does not stop if a seat has the starter's contract and no variable is left in it. -/
lemma Waits.nextAction?_ne_none {run : Run} {seat : Seat} (hseat : seat ∈ run.live)
    (h : Waits operations seat.current)
    (hground : (seat.current.yields.subst run.bindings).isGround = true) (hierarchy : Hierarchy) :
    run.nextAction? hierarchy ≠ none := by
  have hyields := h.yields.subst run.bindings
  obtain ⟨⟨value, rest⟩, hpop⟩ := hyields.exists_pop?
  have hvoid : seat.current.receives.isVoid = true := Ty.isVoid_iff.2 h.receives
  have hproduce : seat.current.produce? run.bindings = some ⟨value, _⟩ :=
    Contract.produce?_eq_some_iff.2 ⟨hvoid, hground, rest, hpop, rfl⟩
  have hoffer : ⟨seat, ⟨value, _⟩⟩ ∈ run.offers := Run.mem_offers.2 ⟨hseat, hproduce⟩
  exact Run.nextAction?_ne_none hoffer hyields.isOpenStream_eq_false

/-- On its own, the starter does nothing while a variable is left in the tuple of operations. -/
lemma settle_starter {b : Bindings}
    (hwaiting : ((starter operations).contract.yields.subst b).isGround = false)
    (options : Options) :
    (Run.start [starter operations] b).settle options = .ok (Run.start [starter operations] b) := by
  have hproduce : (starterSeat operations).current.produce? b = none := by
    refine Option.eq_none_iff_forall_ne_some.2 fun yielded hyielded => ?_
    obtain ⟨-, hground, -⟩ := Contract.produce?_eq_some_iff.1 hyielded
    exact absurd (hground.symm.trans hwaiting) Bool.noConfusion
  have hoffers : (Run.start [starter operations] b).offers = [] := by
    rw [start_starter, Run.offers, List.filterMap_cons, hproduce]
    rfl
  have hstop : (Run.start [starter operations] b).nextAction? options.hierarchy = none := by
    rw [Run.nextAction?, hoffers]
    rfl
  rw [Run.settle, Run.rounds_start]
  exact Run.drive_succ_eq_ok_iff.2 (.inl ⟨hstop, rfl⟩)

/-- If the operations are composed with nobody else and a variable is left in their tuple, nothing
happens. This counts as a success: what remains is the starter. -/
theorem compose_of_waiting {catalog : Catalog} {interested : List String}
    (hknown : ∀ name ∈ interested, (catalog.find? name).isSome = true)
    (hwaiting : ((starter (catalog.select interested)).contract.yields.subst
      (bindingsOf (catalog.select interested))).isGround = false) (options : Options) :
    ∃ s, catalog.compose options interested [] = .ok s ∧ s.trace = [] ∧ s.steps = 0 ∧
      s.contract.receives = .void ∧ s.contract.yields =
        (starter (catalog.select interested)).contract.yields.subst
          (bindingsOf (catalog.select interested)) := by
  rw [← List.append_nil interested] at hknown
  have hsolve : solve options [starter (catalog.select interested)]
      (bindingsOf (catalog.select interested)) =
        (Run.start [starter (catalog.select interested)]
          (bindingsOf (catalog.select interested))).result := by
    rw [solve, checkGenerators, check_starter, checkGenerators]
    dsimp only
    rw [settle_starter hwaiting]
  rw [Run.result, start_starter] at hsolve
  exact ⟨_, compose_eq_ok_iff.2 ⟨hknown, hsolve⟩, rfl, rfl, rfl, rfl⟩

-- An operation that hands on whatever it receives is not started.
example : ((ofList [⟨"id", Contract.of (.var "x") (.var "x"), false⟩]).compose {} ["id"]
    []).toOption.map (fun s => (s.contract.text, s.trace.length)) =
      some ("[Void; <[x; x]>]", 0) := by decide +kernel

end Catalog

/-- The operations of a catalog are handed over, unless a variable is left in them. If the
operations pass their check and receive no variables with the names of operations, a solution comes
from a run in which the starter has yielded all operations as one tuple, or it leaves a variable
unbound that an operation receives. The operations of low priority do not matter. -/
theorem compose_hands_over_operations (catalog : Catalog) (options : Options)
    (interested lowPriority : List String)
    (hcheck : ∀ operation ∈ catalog.select interested, operation.contract.check ∅ = .ok ())
    (hnames : ∀ operation ∈ catalog.select interested,
      ∀ x ∈ operation.contract.receives.freeVars, ∀ other ∈ catalog.select interested,
        other.name ≠ x)
    (s : Solution) (hs : catalog.compose options interested lowPriority = .ok s) :
    (∃ e ∈ s.trace, e.kind = .yield ∧ e.generator = some Catalog.starterName ∧
        e.contract.receives = .void ∧
        e.contract.yields.LeadsWith (catalog.select interested).length) ∨
      ∃ operation ∈ catalog.select interested, ∃ x ∈ operation.contract.receives.freeVars,
        s.bindings.contains x = false := by
  obtain ⟨-, hsolve⟩ := Catalog.compose_eq_ok_iff.1 hs
  generalize catalog.select interested = operations at hcheck hnames hsolve ⊢
  simp only [Ty.mem_freeVars] at hnames ⊢
  obtain ⟨final, hsettle, -, htrace, hbindings, -⟩ := Run.exists_settle_of_solve_eq_ok hsolve
  obtain ⟨⟨actions, hpath⟩, hstop⟩ := Run.exists_path_of_settle hsettle
  have hbegins := Run.begins_start (Catalog.starter operations ::
    lowPriority.filterMap catalog.find?) (Catalog.bindingsOf operations)
  have hwaits := Catalog.waits_starter operations
  obtain ⟨-, ⟨c, hseat, hc⟩ | ⟨e, he, hkind, hgenerator, hc⟩⟩ :=
    Run.Path.occupies_or_yields hbegins.numbered (fun _ hc => hc.receives)
      (fun _ hc => hc.isTerminal_eq_false) (fun _ _ hc hv => hc.appendYield hv)
      (fun _ hstate _ hc => hc.subst (Catalog.within_of_groundBesides hcheck
        (Run.groundBesides_of_reachable hstate)))
      (Run.occupies_start hwaits.isTerminal_eq_false hwaits) hpath
  · right
    by_contra hnone
    simp only [not_exists, not_and, Bool.not_eq_false] at hnone
    have hext := hpath.extendedBy
    rw [hbegins.bindings] at hext
    rw [hbindings] at hnone
    have hground := hc.isGround_subst hcheck hnames
      (Run.groundBesides_of_reachable hpath.reachable) hext hnone
    exact hc.nextAction?_ne_none hseat hground options.hierarchy hstop
  · left
    rw [htrace]
    exact ⟨e, he, hkind, hgenerator, hc.receives, hc.yields⟩

/-- An operation hands on whatever it receives. The starter has to wait until the operations of low
priority have bound the variable; then it yields. -/
theorem compose_hands_over_operations_late :
    let catalog := Catalog.ofList
      [⟨"id", Contract.of (.var "x") (.var "x"), false⟩,
        ⟨"feed", Contract.of .void (.const "A"), false⟩,
        ⟨"probe", Contract.of (.var "x") (.const "B"), false⟩]
    ∃ s, catalog.compose {} ["id"] ["feed", "probe"] = .ok s ∧ s.contract.text = "[A; (B, A)]" ∧
      ∃ e ∈ s.trace, e.kind = .yield ∧ e.generator = some "start" ∧ e.contract.receives = .void ∧
        e.contract.yields.LeadsWith 1 := by
  intro catalog
  have hcheck : ∀ operation ∈ catalog.select ["id"], operation.contract.check ∅ = .ok () := by
    decide +kernel
  have hnames : ∀ operation ∈ catalog.select ["id"],
      ∀ x ∈ operation.contract.receives.freeVars, ∀ other ∈ catalog.select ["id"],
        other.name ≠ x := by
    decide +kernel
  have hcomputed : (catalog.compose {} ["id"] ["feed", "probe"]).toOption.map
      (fun s => (s.contract.text, decide (∀ operation ∈ catalog.select ["id"],
        ∀ x ∈ operation.contract.receives.freeVars, s.bindings.contains x = true))) =
        some ("[A; (B, A)]", true) := by
    decide +kernel
  obtain ⟨s, hs, hfacts⟩ := exists_of_toOption_eq_some hcomputed
  obtain ⟨htext, hbound⟩ := Prod.mk.inj hfacts
  rcases compose_hands_over_operations catalog {} ["id"] ["feed", "probe"] hcheck hnames s hs with
    hyields | ⟨operation, hmem, x, hx, hunbound⟩
  · exact ⟨s, hs, htext, hyields⟩
  · rw [of_decide_eq_true hbound operation hmem x hx] at hunbound
    cases hunbound

end ContractComposition

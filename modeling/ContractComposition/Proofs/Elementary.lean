import ContractComposition.Proofs.Matching
import ContractComposition.Proofs.Nesting
import ContractComposition.Proofs.Streams
import ContractComposition.Proofs.Run.Moves
import ContractComposition.Proofs.Run.Simulation

/-!
# Elementary contracts

A contract is *elementary* if no variables and no contracts occur in its sides and nothing
constrains it. What such a contract does is decided by its two sides alone: bindings play no part in
yielding (`Contract.Elementary.produce?_eq`) or receiving (`Contract.Elementary.accept?_eq`), and
none are made.

So elementary contracts stay elementary (`Contract.law_elementary`), their runs start no further
contracts and leave no warnings (`Run.warnings_of_path`), and runs of contracts with the same sides
go alike under different bindings (`Likeness.elementary`).
-/

namespace ContractComposition

namespace Ty

variable {t : Ty}

/-- A value without variables and without contracts in it. -/
lemma plainWithin_zero (hground : t.isGround = true) (hnesting : t.nesting = 0) :
    t.PlainWithin 0 := by
  refine ⟨isPlain_iff.2 ⟨hground, ?_⟩, Nat.le_of_eq hnesting⟩
  have hle : t.nesting ≤ 0 := Nat.le_of_eq hnesting
  clear hground hnesting
  induction t with
  | void | const | var | int | star => trivial
  | seq items ih => exact within_seq.2 fun t ht => ih t ht (nesting_seq_le_iff.1 hle t ht)
  | tuple items ih => exact within_tuple.2 fun t ht => ih t ht (nesting_tuple_le_iff.1 hle t ht)
  | func fn args ih => exact within_func.2 fun t ht => ih t ht (nesting_func_le_iff.1 hle t ht)
  | list element length ihe ihl =>
    obtain ⟨helement, hlength⟩ := nesting_list_le_iff.1 hle
    exact ⟨ihe helement, ihl hlength⟩
  | contract body => exact absurd (nesting_contract_pos body) (Nat.not_lt.2 hle)

/-- Values without contracts start nothing. -/
lemma PlainWithin.contracts?_eq_none (h : t.PlainWithin 0) : t.contracts? = none := by
  cases hcontracts : t.contracts? with
  | none => rfl
  | some contracts =>
    obtain ⟨n, hn, -⟩ := h.plain.exists_nesting_eq_succ hcontracts
    have hzero := h.nesting
    omega

/-- A pattern without variables describes a value, or it does not; either way nothing is bound. -/
lemma IsPlain.matching?_eq (h : t.IsPlain) {offered : Ty} {found : Bindings}
    (hfound : t.matching? offered = some found) : found = ∅ := by
  have hnone : ∀ x, x ∉ t.occurrences := by
    intro x hx
    have hground : t.occurrences = [] := List.isEmpty_iff.1 (isPlain_iff.1 h).1
    rw [hground] at hx
    cases hx
  have hcontains := contains_matching?_iff (fun x hx => absurd hx (hnone x)) hfound
  refine NameTable.ext (List.eq_nil_iff_forall_not_mem.2 ?_)
  rintro ⟨x, u⟩ hentry
  exact hnone x ((hcontains x).1
    (NameTable.contains_iff.2 ⟨u, NameTable.find?_eq_some_iff.2 hentry⟩))

end Ty

/-! ### What elementary contracts do -/

/-- No variables and no contracts occur in the sides, and nothing constrains the contract. -/
structure Contract.Elementary (c : Contract) : Prop where
  plain : c.PlainWithin 0
  normal : c.receives.IsNormal
  condition : c.condition = none
  forbidden : c.forbidden = []

namespace Contract

variable {c c' : Contract}

lemma elementary_of_sides {receives yields : Ty} (hr : receives.PlainWithin 0)
    (hnormal : receives.IsNormal) (hy : yields.PlainWithin 0) (source : Option String)
    (restorable : Bool) :
    Contract.Elementary ⟨receives, yields, none, [], source, restorable⟩ :=
  ⟨⟨hr, hy⟩, hnormal, rfl, rfl⟩

namespace Elementary

/-- Substituting bindings just normalizes the sides. -/
lemma subst_eq (h : c.Elementary) (b : Bindings) :
    c.subst b = { c with receives := c.receives.normalize, yields := c.yields.normalize } := by
  have hvalue : (Ty.contract c).expand b.look 0 = .contract _ :=
    Ty.expand_contract_of_unconstrained h.condition h.forbidden
  rw [h.plain.receives.plain.normalize_expand, h.plain.yields.plain.normalize_expand] at hvalue
  exact Ty.contract.inj hvalue

/-- A variable that is bound to an elementary contract with a source stands for it. -/
lemma subst_var_eq (h : c.Elementary) (hnormal : (Ty.contract c).IsNormal) {source x : String}
    (hsource : c.source = some source) {b : Bindings} (hfound : b.find? x = some (.contract c)) :
    (Ty.var x).subst b = .contract c := by
  obtain ⟨receives, yields, condition, forbidden, source', restorable⟩ := c
  cases hsource
  obtain ⟨-, hreceives, hyields⟩ := Ty.isNormal_contract.1 hnormal
  obtain ⟨bound, hlook⟩ := Bindings.look_zero_of_find?_eq_some hfound
  rw [Ty.expand_contract_of_unconstrained h.condition h.forbidden,
    h.plain.receives.plain.normalize_expand, h.plain.yields.plain.normalize_expand,
    hreceives.normalize_eq, hyields.normalize_eq] at hlook
  rw [Ty.subst, Ty.expand, hlook]
  exact hnormal.normalize_eq

/-- What an elementary contract yields is decided by its sides. -/
lemma produce?_eq (h : c.Elementary) (b : Bindings) :
    c.produce? b = if c.receives.isVoid then
        c.yields.normalize.pop?.map fun p =>
          ⟨p.1, { of .void p.2 with source := c.source, restorable := c.restorable }⟩
      else none := by
  have hground : c.yields.normalize.isGround = true :=
    (Ty.isPlain_iff.1 h.plain.yields.normalize.plain).1
  rw [produce?, h.plain.yields.plain.subst_eq]
  cases c.receives.isVoid with
  | false => rfl
  | true =>
    simp only [hground, Bool.not_true, Bool.false_eq_true, if_false, if_true, Option.bind_eq_bind]
    cases c.yields.normalize.pop? <;> rfl

/-- What an elementary contract receives is decided by its sides. -/
lemma accept?_eq (h : c.Elementary) (v : Ty) (b : Bindings) (hierarchy : Hierarchy) :
    c.accept? v b hierarchy = c.receives.pop?.bind fun p =>
      if (p.1.normalize.matching? v).isSome then some ⟨{ c with receives := p.2 }, b⟩
      else none := by
  rw [accept?]
  cases hpop : c.receives.pop? with
  | none => rfl
  | some p =>
    have hhead := (h.plain.receives.pop? hpop).1
    simp only [Option.bind_eq_bind, Option.bind_some, hhead.plain.subst_eq]
    cases hfound : p.1.normalize.matching? v with
    | none => rfl
    | some found =>
      have hempty : b.join? found = some b := by
        rw [hhead.normalize.plain.matching?_eq hfound]
        rfl
      simp only [Option.bind_some, hempty, h.forbidden, h.condition, Option.isSome_some, if_true]
      rfl

lemma andThen {next : Contract} (h : c.Elementary) (hnext : next.Elementary) :
    (c.andThen next).Elementary :=
  ⟨⟨h.plain.receives.concat hnext.plain.receives, h.plain.yields.concat hnext.plain.yields⟩,
    h.normal.concat hnext.normal, hnext.condition, hnext.forbidden⟩

end Elementary

/-- Elementary contracts stay elementary. -/
theorem law_elementary :
    Contract.Law Contract.Elementary (Ty.PlainWithin 0) (fun _ => True) where
  subst _ h := by
    rw [h.subst_eq]
    exact ⟨⟨h.plain.receives.normalize, h.plain.yields.normalize⟩, Ty.isNormal_normalize _,
      h.condition, h.forbidden⟩
  freshen _ _ h := by
    rw [freshen, h.subst_eq]
    exact ⟨⟨h.plain.receives.normalize, h.plain.yields.normalize⟩, Ty.isNormal_normalize _,
      h.condition, h.forbidden⟩
  produce hb h hyielded := by
    obtain ⟨hvalue, hplain⟩ := (law_plainWithin 0).produce hb h.plain hyielded
    obtain ⟨-, -, rest, -, hsuccessor⟩ := produce?_eq_some_iff.1 hyielded
    rw [hsuccessor] at hplain ⊢
    exact ⟨hvalue, hplain, trivial, rfl, rfl⟩
  accept hb h hvalue hreceived := by
    obtain ⟨hplain, -⟩ := (law_plainWithin 0).accept hb h.plain hvalue hreceived
    obtain ⟨head, rest, found, hpop, -, -, -, -, hsuccessor⟩ := accept?_eq_some_iff.1 hreceived
    rw [hsuccessor] at hplain ⊢
    exact ⟨⟨hplain, (h.normal.pop? hpop).2, h.condition, h.forbidden⟩, trivial⟩
  append h hvalue :=
    ⟨(law_plainWithin 0).append h.plain hvalue, h.normal, h.condition, h.forbidden⟩
  contracts hvalue hcontracts := by
    rw [hvalue.contracts?_eq_none] at hcontracts
    cases hcontracts
  output h := ⟨PlainWithin.output h, trivial, rfl, rfl⟩
  andThen h hc := Elementary.andThen ⟨PlainWithin.output h, trivial, rfl, rfl⟩ hc

end Contract

/-! ### Runs -/

namespace Run

/-- All contracts in the run are elementary. -/
def Elementary (run : Run) : Prop :=
  run.Obeys Contract.Elementary (Ty.PlainWithin 0) fun _ => True

variable {options : Options} {run next first : Run}

/-- Nothing is started in a run of elementary contracts. -/
lemma Elementary.not_spawn (h : run.Elementary) {hierarchy : Hierarchy} {offer : Offer}
    {contracts : List Contract} : ¬run.Allows hierarchy (.spawn offer contracts) := by
  rintro ⟨hoffer, hcontracts⟩
  rw [(h.of_mem_offers Contract.law_elementary hoffer).1.contracts?_eq_none] at hcontracts
  cases hcontracts

lemma warnings_of_steps (h : run.Elementary) {action : Action}
    (hstep : run.Steps options action next) : next.warnings = run.warnings := by
  obtain ⟨haction, depth, hcommit⟩ := hstep
  obtain ⟨moved, numbers, hmoves, -, rfl⟩ := commit_eq_ok_iff.1 hcommit
  rw [(moved.reseats_wrapUp _ _).warnings]
  cases action with
  | exchange | absorb | emit =>
    rw [hmoves.1]
    rfl
  | spawn offer contracts => exact absurd (allows_of_nextAction? haction) h.not_spawn

/-- A run of elementary contracts leaves no warnings. -/
theorem warnings_of_path (h : first.Elementary) {actions : List Action}
    (hpath : Path options first actions run) : run.warnings = first.warnings := by
  induction hpath with
  | start => rfl
  | step hpath hstep ih =>
    rw [warnings_of_steps (h.of_reachable Contract.law_elementary hpath.reachable) hstep, ih]

end Run

/-! ### Runs under different bindings -/

/-- Elementary contracts with the same sides. -/
structure Contract.SameSides (c c' : Contract) : Prop where
  left : c.Elementary
  right : c'.Elementary
  receives : c.receives = c'.receives
  yields : c.yields = c'.yields

namespace Contract.SameSides

variable {c c' : Contract} (h : c.SameSides c')

include h

lemma subst (b b' : Bindings) : (c.subst b).SameSides (c'.subst b') := by
  have hlaw := Contract.law_elementary
  refine ⟨hlaw.subst trivial h.left, hlaw.subst trivial h.right, ?_, ?_⟩
  · rw [h.left.subst_eq, h.right.subst_eq, h.receives]
  · rw [h.left.subst_eq, h.right.subst_eq, h.yields]

lemma isTerminal_eq : c.isTerminal = c'.isTerminal := by
  rw [Contract.isTerminal, Contract.isTerminal, h.receives, h.yields]

lemma produce (b b' : Bindings) :
    Option.Rel (fun y y' => (y.value = y'.value ∧ y.value.PlainWithin 0) ∧
      y.successor.SameSides y'.successor) (c.produce? b) (c'.produce? b') := by
  rw [h.left.produce?_eq, h.right.produce?_eq, h.receives, h.yields]
  split
  · cases hpop : c'.yields.normalize.pop? with
    | none => exact .none
    | some p =>
      obtain ⟨hvalue, hrest⟩ := h.right.plain.yields.normalize.pop? hpop
      have hsuccessor : ∀ source restorable, Contract.Elementary
          { Contract.of .void p.2 with source := source, restorable := restorable } :=
        Contract.elementary_of_sides Ty.plainWithin_void trivial hrest.normalize
      exact .some ⟨⟨rfl, hvalue⟩, hsuccessor _ _, hsuccessor _ _, rfl, rfl⟩
  · exact .none

lemma accept (v : Ty) (b b' : Bindings) (hierarchy : Hierarchy) :
    Option.Rel (fun r r' => r.successor.SameSides r'.successor ∧ r.bindings = b ∧ r'.bindings = b')
      (c.accept? v b hierarchy) (c'.accept? v b' hierarchy) := by
  rw [h.left.accept?_eq, h.right.accept?_eq, h.receives]
  cases hpop : c'.receives.pop? with
  | none => exact .none
  | some p =>
    obtain ⟨-, hrest⟩ := h.right.plain.receives.pop? hpop
    have hnormal := (h.right.normal.pop? hpop).2
    dsimp only [Option.bind_some]
    split
    · refine .some ⟨⟨?_, ?_, rfl, h.yields⟩, rfl, rfl⟩
      · exact ⟨⟨hrest, h.left.plain.yields⟩, hnormal, h.left.condition, h.left.forbidden⟩
      · exact ⟨⟨hrest, h.right.plain.yields⟩, hnormal, h.right.condition, h.right.forbidden⟩
    · exact .none

end Contract.SameSides

/-- Runs of elementary contracts with the same sides and the same names, each of which has bindings
of its own. -/
def Likeness.elementary (b b' : Bindings) (keep keep' : List String) : Likeness where
  contract := Contract.SameSides
  value v v' := v = v' ∧ v.PlainWithin 0
  bindings d d' := d = b ∧ d' = b'
  name := Eq
  keep := keep
  keep' := keep'
  size_lt_iff := by
    rintro _ _ _ _ ⟨rfl, rfl⟩ ⟨rfl, rfl⟩
    exact ⟨fun hlt => absurd hlt (Nat.lt_irrefl _), fun hlt => absurd hlt (Nat.lt_irrefl _)⟩
  subst _ hc := hc.subst _ _
  freshen hc _ := hc.subst _ _
  isTerminal_eq hc := hc.isTerminal_eq
  isVoid_eq hc := by rw [hc.receives]
  isOpenStream_eq _ hc := by
    rw [hc.left.plain.yields.plain.subst_eq, hc.right.plain.yields.plain.subst_eq, hc.yields]
  produce _ hc := hc.produce _ _
  accept := by
    rintro _ _ c c' v _ ⟨rfl, rfl⟩ hc ⟨rfl, -⟩ hierarchy
    exact hc.accept v _ _ hierarchy
  append := by
    rintro c c' v _ hc ⟨rfl, hv⟩
    have hlaw := Contract.law_elementary
    refine ⟨hlaw.append hc.left hv, hlaw.append hc.right hv, hc.receives, ?_⟩
    rw [Contract.appendYield, Contract.appendYield, hc.yields]
  contracts := by
    rintro v _ ⟨rfl, hv⟩
    rw [hv.contracts?_eq_none]
    exact .none
  started := by
    rintro v _ ⟨rfl, hv⟩ hstarts
    rw [Ty.isContractValue, hv.contracts?_eq_none] at hstarts
    cases hstarts
  single := by
    rintro v _ ⟨rfl, hv⟩
    have hsingle : (Contract.of v .void).Elementary :=
      Contract.elementary_of_sides hv.normalize (Ty.isNormal_normalize v) Ty.plainWithin_void _ _
    exact ⟨hsingle, hsingle, rfl, rfl⟩
  output := by
    intro vs vs' hvs
    obtain ⟨hplain, hsame⟩ := (List.forall₂_and_left vs vs').1 (hvs.imp fun _ _ => And.symm)
    rw [List.forall₂_eq_eq_eq] at hsame
    have houtput := Contract.law_elementary.output hplain
    rw [← hsame]
    exact ⟨houtput, houtput, rfl, rfl⟩
  andThen := by
    intro c c' d d' hc hd
    refine ⟨hc.left.andThen hd.left, hc.right.andThen hd.right, ?_, ?_⟩
    · rw [Contract.andThen, Contract.andThen, hc.receives, hd.receives]
    · rw [Contract.andThen, Contract.andThen, hc.yields, hd.yields]

end ContractComposition

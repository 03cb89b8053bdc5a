import ContractComposition.Proofs.Equality
import ContractComposition.Proofs.Exclusions
import ContractComposition.Proofs.Run.Simulation

/-!
# Sameness up to labels

Generators have names, and contracts carry the name of their source. Both are for traces and
messages only. `Ty.unlabel` drops the sources from all contracts in a value, however deeply they are
nested, those in exclusions included. Two values are the same up to labels if they agree without
them, and likewise for contracts and bindings.

Substitution is where labels are made: a contract that comes in for a variable is given the name of
the variable as its source. Nothing reads the source back, so what is the same up to labels stays so
(`Bindings.SameUnlabeled.unlabel_subst`, `Contract.SameUnlabeled.subst`). All other operations
commute with dropping the sources.
-/

namespace ContractComposition

/-! ### Dropping labels -/

mutual

/-- The value without the sources of contracts. -/
def Ty.unlabel : Ty → Ty
  | .seq items => .seq (Ty.unlabelAll items)
  | .tuple items => .tuple (Ty.unlabelAll items)
  | .list element length => .list element.unlabel length.unlabel
  | .func fn args => .func fn (Ty.unlabelAll args)
  | .contract body => .contract body.unlabel
  | .void => .void
  | .const name => .const name
  | .var name => .var name
  | .int n => .int n
  | .star => .star

/-- The values of a list without the sources of contracts. -/
def Ty.unlabelAll : List Ty → List Ty
  | [] => []
  | t :: ts => t.unlabel :: Ty.unlabelAll ts

/-- The tuples of a list without the sources of contracts. -/
def Ty.unlabelRows : List (List Ty) → List (List Ty)
  | [] => []
  | row :: rows => Ty.unlabelAll row :: Ty.unlabelRows rows

/-- The contract without its source and the sources of the contracts in it. -/
def Contract.unlabel : Contract → Contract
  | ⟨receives, yields, condition, forbidden, _, restorable⟩ =>
    ⟨receives.unlabel, yields.unlabel, condition, Exclusion.unlabelAll forbidden, none, restorable⟩

/-- The exclusion without the sources of contracts. -/
def Exclusion.unlabel : Exclusion → Exclusion
  | ⟨key, values⟩ => ⟨Ty.unlabelAll key, Ty.unlabelRows values⟩

/-- The exclusions of a list without the sources of contracts. -/
def Exclusion.unlabelAll : List Exclusion → List Exclusion
  | [] => []
  | e :: rest => e.unlabel :: Exclusion.unlabelAll rest

end

namespace Ty

lemma unlabelAll_eq_map (ts : List Ty) : unlabelAll ts = ts.map unlabel := by
  induction ts with
  | nil => rfl
  | cons t ts ih => rw [unlabelAll, ih, List.map_cons]

lemma unlabelRows_eq_map (rows : List (List Ty)) :
    unlabelRows rows = rows.map (List.map unlabel) := by
  induction rows with
  | nil => rfl
  | cons row rows ih => rw [unlabelRows, ih, unlabelAll_eq_map, List.map_cons]

end Ty

lemma Exclusion.unlabelAll_eq_map (table : List Exclusion) :
    Exclusion.unlabelAll table = table.map (Exclusion.map Ty.unlabel) := by
  induction table with
  | nil => rfl
  | cons e rest ih =>
    obtain ⟨key, values⟩ := e
    rw [unlabelAll, ih, unlabel, Ty.unlabelAll_eq_map, Ty.unlabelRows_eq_map, List.map_cons]
    rfl

lemma Contract.unlabel_eq (c : Contract) : c.unlabel =
    { receives := c.receives.unlabel
      yields := c.yields.unlabel
      condition := c.condition
      forbidden := c.forbidden.map (Exclusion.map Ty.unlabel)
      restorable := c.restorable } := by
  obtain ⟨receives, yields, condition, forbidden, source, restorable⟩ := c
  rw [unlabel, Exclusion.unlabelAll_eq_map]

namespace Ty

/-- Dropping sources changes nothing but annotations. -/
lemma redecorates_unlabel : Redecorates unlabel Contract.unlabel where
  void := rfl
  const _ := rfl
  var _ := rfl
  int _ := rfl
  star := rfl
  seq items := by rw [unlabel, unlabelAll_eq_map]
  tuple items := by rw [unlabel, unlabelAll_eq_map]
  list _ _ := rfl
  func fn args := by rw [unlabel, unlabelAll_eq_map]
  contract body := by
    rw [unlabel, Contract.redecorate, Contract.unlabel_eq]
  annotate body receives yields := by
    simp only [Contract.redecorate, Contract.unlabel_eq]

lemma redecorate_eq_unlabel :
    Contract.redecorate unlabel Contract.unlabel = Contract.unlabel := by
  funext c
  rw [Contract.redecorate, Contract.unlabel_eq]

lemma unlabel_normalize (t : Ty) : t.normalize.unlabel = t.unlabel.normalize :=
  (redecorates_unlabel.normalize_eq t).symm

/-- What does not depend on labels is the same for values that are the same up to labels. -/
lemma congr_of_unlabel_eq {α : Type} {f : Ty → α} (hf : ∀ t : Ty, f t.unlabel = f t)
    {t t' : Ty} (h : t.unlabel = t'.unlabel) : f t = f t' := by
  rw [← hf t, h, hf]

@[simp]
lemma unlabel_withSource (x : String) (t : Ty) : (t.withSource x).unlabel = t.unlabel := by
  unfold withSource
  split
  · split
    · rw [unlabel, unlabel, Contract.unlabel_eq, Contract.unlabel_eq]
    · rfl
  · rfl

/-- The streams have the same first elements and remainders up to labels. -/
lemma rel_pop? {t t' : Ty} (h : t.unlabel = t'.unlabel) :
    Option.Rel (fun p p' => p.1.unlabel = p'.1.unlabel ∧ p.2.unlabel = p'.2.unlabel)
      t.pop? t'.pop? := by
  have hmap : t.pop?.map (Prod.map Ty.unlabel Ty.unlabel) =
      t'.pop?.map (Prod.map Ty.unlabel Ty.unlabel) := by
    rw [← Ty.redecorates_unlabel.pop?_eq, h, Ty.redecorates_unlabel.pop?_eq]
  exact rel_option_imp (rel_of_map_eq hmap) fun p p' hp => Prod.mk.inj hp

end Ty

/-! ### Substitution -/

namespace Condition

/-- Following variables depends on what they stand for up to labels only. -/
lemma rename_unlabel (value : String → Ty) (c : Condition) :
    c.rename (fun x => (value x).unlabel) = c.rename value := by
  induction c with
  | inherits x cls =>
    rw [rename, rename]
    cases value x <;> rfl
  | both l r ihl ihr => rw [rename, rename, ihl, ihr]

end Condition

namespace Ty

/-- What replacing variables makes of an exclusion up to labels. -/
lemma unlabel_expand_exclusion {look : Nat → String → Ty} {e : Exclusion}
    (ih : e.Forall fun t => (t.expand look 0).unlabel =
      t.unlabel.expand (fun d x => (look d x).unlabel) 0) :
    (e.expand look).map unlabel =
      (e.map unlabel).expand fun d x => (look d x).unlabel := by
  have hrow : ∀ row : List Ty, (∀ t ∈ row, (t.expand look 0).unlabel =
      t.unlabel.expand (fun d x => (look d x).unlabel) 0) →
      (row.map fun t => (t.expand look 0).normalize).map unlabel =
        (row.map unlabel).map fun t =>
          (t.expand (fun d x => (look d x).unlabel) 0).normalize := by
    intro row hrow
    rw [List.map_map, List.map_map]
    refine List.map_congr_left fun t ht => ?_
    rw [Function.comp_apply, Function.comp_apply, unlabel_normalize, hrow t ht]
  rw [Exclusion.expand_eq_map, Exclusion.expand_eq_map]
  refine congrArg₂ Exclusion.mk (hrow _ ih.key) ?_
  rw [Exclusion.map, List.map_map, List.map_map]
  exact List.map_congr_left fun row hmem => hrow row (ih.values row hmem)

/-- What replacing variables makes of a contract up to labels. -/
lemma unlabel_expand_contract {look : Nat → String → Ty} {body : Contract}
    (hreceives : (body.receives.expand look 0).unlabel =
      body.receives.unlabel.expand (fun d x => (look d x).unlabel) 0)
    (hyields : (body.yields.expand look 0).unlabel =
      body.yields.unlabel.expand (fun d x => (look d x).unlabel) 0)
    (hforbidden : ∀ e ∈ body.forbidden, (e.expand look).map unlabel =
      (e.map unlabel).expand fun d x => (look d x).unlabel) :
    (body.expand look).unlabel = body.unlabel.expand fun d x => (look d x).unlabel := by
  have htable : Exclusions.expandInto? (fun d x => (look d x).unlabel) []
      (body.forbidden.map (Exclusion.map unlabel)) =
        (Exclusions.expandInto? look [] body.forbidden).map (List.map (Exclusion.map unlabel)) := by
    rw [Exclusions.expandInto?_eq_enterAll?, Exclusions.expandInto?_eq_enterAll?,
      ← redecorates_unlabel.enterAll?_eq, List.map_map, List.map_map]
    exact congrArg _ (List.map_congr_left fun e he => (hforbidden e he).symm)
  have hcondition : (fun x => ((look 0 x).unlabel).normalize) =
      fun x => ((look 0 x).normalize).unlabel := funext fun x => (unlabel_normalize _).symm
  obtain ⟨receives, yields, condition, forbidden, source, restorable⟩ := body
  rw [Contract.unlabel_eq ⟨receives, yields, condition, forbidden, source, restorable⟩,
    Contract.expand, Contract.expand, htable]
  cases Exclusions.expandInto? look [] forbidden with
  | none => rfl
  | some table =>
    dsimp only [Option.map_some]
    rw [Contract.unlabel_eq, hcondition, ← hreceives, ← hyields, unlabel_normalize,
      unlabel_normalize]
    congr 1
    cases condition with
    | none => rfl
    | some condition => exact congrArg some (Condition.rename_unlabel _ condition).symm

/-- What replacing variables makes of a value up to labels. -/
theorem unlabel_expand (look : Nat → String → Ty) (depth : Nat) (t : Ty) :
    (t.expand look depth).unlabel =
      t.unlabel.expand (fun d x => (look d x).unlabel) depth := by
  induction t using deepInduction generalizing depth with
  | void | const | var | int | star => rfl
  | seq items ih | tuple items ih | func fn items ih =>
    simp only [expand, unlabel, expandAll_eq_map, unlabelAll_eq_map, List.map_map]
    exact congrArg _ (List.map_congr_left fun t ht => ih t ht depth)
  | list element length ihe ihl => rw [expand, unlabel, unlabel, expand, ihe, ihl]
  | contract body ihr ihy ihf =>
    have hforbidden : ∀ e ∈ body.forbidden, (e.expand look).map unlabel =
        (e.map unlabel).expand fun d x => (look d x).unlabel := by
      intro e he
      have hvalues := ihf e he
      exact unlabel_expand_exclusion ⟨fun t ht => hvalues.key t ht 0,
        fun row hrow t ht => hvalues.values row hrow t ht 0⟩
    rw [expand, unlabel, unlabel, expand, unlabel_expand_contract (ihr 0) (ihy 0) hforbidden]

end Ty

/-- The same bindings up to labels. -/
def Bindings.SameUnlabeled (b b' : Bindings) : Prop :=
  b.mapValues Ty.unlabel = b'.mapValues Ty.unlabel

namespace Bindings.SameUnlabeled

variable {b b' : Bindings} (h : b.SameUnlabeled b')

include h

lemma size_eq : b.size = b'.size := by
  rw [← NameTable.size_mapValues Ty.unlabel b, h, NameTable.size_mapValues]

lemma names_eq : b.names = b'.names := by
  rw [← NameTable.names_mapValues Ty.unlabel b, h, NameTable.names_mapValues]

/-- The same variables are bound, to the same values up to labels. -/
lemma rel_find? (x : String) :
    Option.Rel (fun t t' => t.unlabel = t'.unlabel) (b.find? x) (b'.find? x) := by
  have hmap : (b.find? x).map Ty.unlabel = (b'.find? x).map Ty.unlabel := by
    rw [← NameTable.find?_mapValues, h, NameTable.find?_mapValues]
  exact rel_of_map_eq hmap

/-- A variable stands for the same up to labels. -/
lemma look_eq (depth : Nat) (x : String) :
    (b.look depth x).unlabel = (b'.look depth x).unlabel := by
  have hwithin : ∀ bound depth x,
      (b.lookWithin bound depth x).unlabel = (b'.lookWithin bound depth x).unlabel := by
    intro bound
    induction bound with
    | zero => exact fun _ _ => rfl
    | succ bound ih =>
      intro depth x
      have hlook : (fun d y => (b.lookWithin bound d y).unlabel) =
          fun d y => (b'.lookWithin bound d y).unlabel := funext fun d => funext fun y => ih d y
      rw [Bindings.lookWithin, Bindings.lookWithin, h.size_eq]
      rcases rel_option_cases (h.rel_find? x) with ⟨hnone, hnone'⟩ | ⟨t, t', hsome, hsome', ht⟩
      · rw [hnone, hnone']
      · rw [hsome, hsome']
        dsimp only
        split
        · rfl
        · rw [Ty.unlabel_withSource, Ty.unlabel_withSource, Ty.unlabel_expand, Ty.unlabel_expand,
            hlook, ht]
  rw [Bindings.look, Bindings.look, Bindings.chainBound, Bindings.chainBound, h.size_eq]
  exact hwithin _ _ _

lemma unlabel_look_eq :
    (fun d x => (b.look d x).unlabel) = fun d x => (b'.look d x).unlabel :=
  funext fun d => funext fun x => h.look_eq d x

/-- Values that are the same up to labels stay so. -/
theorem unlabel_subst {t t' : Ty} (ht : t.unlabel = t'.unlabel) :
    (t.subst b).unlabel = (t'.subst b').unlabel := by
  rw [Ty.subst, Ty.subst, Ty.unlabel_normalize, Ty.unlabel_normalize, Ty.unlabel_expand,
    Ty.unlabel_expand, h.unlabel_look_eq, ht]

/-- The same exclusions up to labels are violated alike. -/
lemma violatedBy_eq {table table' : List Exclusion}
    (htable : table.map (Exclusion.map Ty.unlabel) = table'.map (Exclusion.map Ty.unlabel)) :
    Exclusions.violatedBy table b = Exclusions.violatedBy table' b' := by
  have hentry : ∀ (b : Bindings) (e : Exclusion), e.violatedBy b =
      ((e.map Ty.unlabel).expand fun d x => (b.look d x).unlabel).isViolated := by
    intro b e
    have hvalue : e.Forall fun t => (t.expand b.look 0).unlabel =
        t.unlabel.expand (fun d x => (b.look d x).unlabel) 0 :=
      ⟨fun t _ => Ty.unlabel_expand _ _ t, fun _ _ t _ => Ty.unlabel_expand _ _ t⟩
    rw [← Ty.unlabel_expand_exclusion hvalue, Ty.redecorates_unlabel.isViolated_eq,
      Exclusion.isViolated_expand]
  have hany : ∀ (b : Bindings) (table : List Exclusion), Exclusions.violatedBy table b =
      (table.map (Exclusion.map Ty.unlabel)).any fun e =>
        (e.expand fun d x => (b.look d x).unlabel).isViolated := by
    intro b table
    rw [Exclusions.violatedBy, List.any_map]
    exact congrArg table.any (funext (hentry b))
  rw [hany, hany, htable, h.unlabel_look_eq]

/-- A condition holds alike. -/
lemma holds_eq (condition : Condition) (hierarchy : Hierarchy) :
    condition.holds b hierarchy = condition.holds b' hierarchy := by
  induction condition with
  | both l r ihl ihr => rw [Condition.holds, Condition.holds, ihl, ihr]
  | inherits x cls =>
    rw [Condition.holds, Condition.holds]
    have hvalue : ((Ty.var x).subst b).unlabel = ((Ty.var x).subst b').unlabel :=
      h.unlabel_subst rfl
    generalize (Ty.var x).subst b = t at hvalue ⊢
    generalize (Ty.var x).subst b' = t' at hvalue ⊢
    -- Labels change neither the kind of a value nor the name of a constant.
    cases t <;> cases t' <;> first | rfl | cases hvalue <;> rfl

end Bindings.SameUnlabeled

/-! ### Contracts -/

/-- The same contract up to labels. -/
def Contract.SameUnlabeled (c c' : Contract) : Prop :=
  c.unlabel = c'.unlabel

namespace Contract.SameUnlabeled

variable {b b' : Bindings} {c c' : Contract} (h : c.SameUnlabeled c')

include h

lemma parts : c.receives.unlabel = c'.receives.unlabel ∧ c.yields.unlabel = c'.yields.unlabel ∧
    c.condition = c'.condition ∧
    c.forbidden.map (Exclusion.map Ty.unlabel) = c'.forbidden.map (Exclusion.map Ty.unlabel) ∧
    c.restorable = c'.restorable := by
  rw [SameUnlabeled, unlabel_eq, unlabel_eq] at h
  injection h with hreceives hyields hcondition hforbidden _ hrestorable
  exact ⟨hreceives, hyields, hcondition, hforbidden, hrestorable⟩

lemma subst (hb : b.SameUnlabeled b') : (c.subst b).SameUnlabeled (c'.subst b') := by
  have hexpand : ∀ (c : Contract) (b : Bindings),
      (c.subst b).unlabel = c.unlabel.expand fun d x => (b.look d x).unlabel := by
    intro c b
    have hvalue := Ty.unlabel_expand b.look 0 (.contract c)
    rw [Ty.expand, Ty.unlabel, Ty.unlabel, Ty.expand] at hvalue
    exact Ty.contract.inj hvalue
  rw [SameUnlabeled, hexpand, hexpand, hb.unlabel_look_eq, h]

lemma allVars_eq : c.allVars = c'.allVars := by
  obtain ⟨hreceives, hyields, hcondition, hforbidden, -⟩ := h.parts
  rw [allVars, allVars, Ty.congr_of_unlabel_eq Ty.redecorates_unlabel.occurrences_eq hreceives,
    Ty.congr_of_unlabel_eq Ty.redecorates_unlabel.occurrences_eq hyields, hcondition,
    ← Ty.redecorates_unlabel.occurrences_exclusions_eq, hforbidden,
    Ty.redecorates_unlabel.occurrences_exclusions_eq]

lemma freshen (k : Nat) (keep : List String) :
    (c.freshen k keep).SameUnlabeled (c'.freshen k keep) := by
  rw [Contract.freshen, Contract.freshen, h.allVars_eq]
  exact h.subst rfl

lemma isVoid_eq : c.receives.isVoid = c'.receives.isVoid :=
  Ty.congr_of_unlabel_eq Ty.redecorates_unlabel.isVoid_eq h.parts.1

lemma isTerminal_eq : c.isTerminal = c'.isTerminal := by
  have hside : ∀ {t t' : Ty}, t.unlabel = t'.unlabel →
      t.normalize.isVoid = t'.normalize.isVoid := by
    intro t t' ht
    refine Ty.congr_of_unlabel_eq Ty.redecorates_unlabel.isVoid_eq ?_
    rw [Ty.unlabel_normalize, Ty.unlabel_normalize, ht]
  rw [isTerminal, isTerminal, hside h.parts.1, hside h.parts.2.1]

end Contract.SameUnlabeled

/-- Contracts with sides that are the same up to labels, and without constraints. -/
lemma Contract.sameUnlabeled_of_sides {receives receives' yields yields' : Ty}
    (hreceives : receives.unlabel = receives'.unlabel) (hyields : yields.unlabel = yields'.unlabel)
    (source source' : Option String) (restorable : Bool) :
    Contract.SameUnlabeled ⟨receives, yields, none, [], source, restorable⟩
      ⟨receives', yields', none, [], source', restorable⟩ := by
  rw [SameUnlabeled, unlabel_eq, unlabel_eq, hreceives, hyields]

namespace Contract.SameUnlabeled

variable {b b' : Bindings} {c c' : Contract} {v v' : Ty}

/-! ### Yielding and receiving -/

lemma produce (h : c.SameUnlabeled c') (hb : b.SameUnlabeled b') :
    Option.Rel (fun y y' => y.value.unlabel = y'.value.unlabel ∧
      y.successor.SameUnlabeled y'.successor) (c.produce? b) (c'.produce? b') := by
  obtain ⟨-, hyields, -, -, hrestorable⟩ := h.parts
  have hsubst := hb.unlabel_subst hyields
  rw [produce?, produce?, h.isVoid_eq]
  split
  · exact .none
  · dsimp only
    rw [Ty.congr_of_unlabel_eq Ty.redecorates_unlabel.isGround_eq hsubst]
    split
    · exact .none
    · refine rel_option_bind (Ty.rel_pop? hsubst) fun p p' hp => ?_
      refine .some ⟨hp.1, ?_⟩
      rw [hrestorable]
      refine sameUnlabeled_of_sides rfl ?_ _ _ _
      dsimp only [Contract.of]
      rw [Ty.unlabel_normalize, Ty.unlabel_normalize, hp.2]

lemma accept (h : c.SameUnlabeled c') (hb : b.SameUnlabeled b') (hv : v.unlabel = v'.unlabel)
    (hierarchy : Hierarchy) :
    Option.Rel (fun r r' => r.successor.SameUnlabeled r'.successor ∧
      r.bindings.SameUnlabeled r'.bindings) (c.accept? v b hierarchy)
      (c'.accept? v' b' hierarchy) := by
  obtain ⟨hreceives, hyields, hcondition, hforbidden, hrestorable⟩ := h.parts
  rw [accept?, accept?]
  refine rel_option_bind (Ty.rel_pop? hreceives) fun p p' hp => ?_
  have hmatching : Option.Rel Bindings.SameUnlabeled ((p.1.subst b).matching? v)
      ((p'.1.subst b').matching? v') := by
    refine rel_of_map_eq ?_
    rw [← Ty.redecorates_unlabel.matching?_eq, hb.unlabel_subst hp.1, hv,
      Ty.redecorates_unlabel.matching?_eq]
  refine rel_option_bind hmatching fun found found' hfound => ?_
  have hjoin : Option.Rel Bindings.SameUnlabeled (b.join? found) (b'.join? found') := by
    refine rel_of_map_eq ?_
    rw [← Ty.redecorates_unlabel.join?_eq, hb, hfound, Ty.redecorates_unlabel.join?_eq]
  refine rel_option_bind hjoin fun joined joined' hjoined => ?_
  rw [hjoined.violatedBy_eq hforbidden, hcondition]
  split
  · exact .none
  · have hholds : (c'.condition.all fun condition => condition.holds joined hierarchy) =
        c'.condition.all fun condition => condition.holds joined' hierarchy :=
      congrArg c'.condition.all (funext fun condition => hjoined.holds_eq condition hierarchy)
    rw [hholds]
    split
    · refine .some ⟨?_, hjoined⟩
      rw [SameUnlabeled, unlabel_eq, unlabel_eq, hp.2, hyields, hforbidden, hrestorable]
    · exact .none

lemma append (h : c.SameUnlabeled c') (hv : v.unlabel = v'.unlabel) :
    (c.appendYield v).SameUnlabeled (c'.appendYield v') := by
  obtain ⟨hreceives, hyields, hcondition, hforbidden, hrestorable⟩ := h.parts
  have hvalue : (Ty.sequence [v]).unlabel = (Ty.sequence [v']).unlabel := by
    rw [← Ty.redecorates_unlabel.sequence_eq, ← Ty.redecorates_unlabel.sequence_eq, List.map_cons,
      List.map_cons, hv]
  rw [SameUnlabeled, unlabel_eq, unlabel_eq, appendYield, appendYield, hreceives,
    ← Ty.redecorates_unlabel.concat_eq, ← Ty.redecorates_unlabel.concat_eq, hyields, hvalue,
    hcondition, hforbidden, hrestorable]

lemma andThen {d d' : Contract} (h : c.SameUnlabeled c') (hd : d.SameUnlabeled d') :
    (c.andThen d).SameUnlabeled (c'.andThen d') := by
  obtain ⟨hreceives, hyields, -⟩ := h.parts
  obtain ⟨hreceives', hyields', hcondition, hforbidden, -⟩ := hd.parts
  rw [SameUnlabeled, unlabel_eq, unlabel_eq, Contract.andThen, Contract.andThen, hcondition,
    hforbidden, ← Ty.redecorates_unlabel.concat_eq, ← Ty.redecorates_unlabel.concat_eq,
    ← Ty.redecorates_unlabel.concat_eq, ← Ty.redecorates_unlabel.concat_eq, hreceives, hyields,
    hreceives', hyields']

lemma of_sides {receives receives' yields yields' : Ty}
    (hreceives : receives.unlabel = receives'.unlabel)
    (hyields : yields.unlabel = yields'.unlabel) :
    (Contract.of receives yields).SameUnlabeled (Contract.of receives' yields') := by
  refine sameUnlabeled_of_sides ?_ ?_ _ _ _
  · rw [Ty.unlabel_normalize, Ty.unlabel_normalize, hreceives]
  · rw [Ty.unlabel_normalize, Ty.unlabel_normalize, hyields]

lemma contracts (hv : v.unlabel = v'.unlabel) :
    Option.Rel (List.Forall₂ fun c c' => c.SameUnlabeled c' ∧ c.restorable = c'.restorable)
      v.contracts? v'.contracts? := by
  have hmap : v.contracts?.map (List.map Contract.unlabel) =
      v'.contracts?.map (List.map Contract.unlabel) := by
    rw [← Ty.redecorate_eq_unlabel, ← Ty.redecorates_unlabel.contracts?_eq, hv,
      Ty.redecorates_unlabel.contracts?_eq]
  refine rel_option_imp (rel_of_map_eq hmap) fun cs cs' hcs => ?_
  have hboth : List.Forall₂ (fun c c' : Contract => c.SameUnlabeled c') cs cs' := by
    rw [← List.forall₂_eq_eq_eq, List.forall₂_map_left_iff, List.forall₂_map_right_iff] at hcs
    exact hcs
  exact hboth.imp fun c c' hc => ⟨hc, hc.parts.2.2.2.2⟩

end Contract.SameUnlabeled

end ContractComposition

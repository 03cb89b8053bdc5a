import Mathlib.Data.List.TakeWhile
import ContractComposition.Proofs.Binding
import ContractComposition.Proofs.Variables

/-!
# Clauses that are dropped

A contract that is put under a condition keeps only the clauses about variables of its receiving
side. The idea is that the others can never fail, because the contract does not bind their variables.
This is not so. A clause looks at all bindings that are in force, and these may come from elsewhere,
or lead from a variable of the receiving side to another variable that is then bound in its place.

The condition is the last thing that is looked at (`Contract.accept?_condition`). So the contract
under the restricted condition receives whatever it would receive under the whole condition, with the
same bindings, but it may go on where a dropped clause fails for the first time
(`Contract.acceptances_eq_takeWhile`). Both go on alike if the variables of the dropped clauses come
up nowhere: neither are they bound at the beginning, nor do they occur in bound or offered values
(`restriction_keeps_acceptance_unless_bound`). Then they stay unbound all the way.
-/

namespace ContractComposition

namespace Condition

variable {b : Bindings} {h : Hierarchy}

/-- The clauses of a condition from left to right, each as its variable and its class. -/
def clauses : Condition → List (String × String)
  | .inherits x cls => [(x, cls)]
  | .both l r => l.clauses ++ r.clauses

/-- The clauses about variables outside `bound` hold: those that are dropped when the condition is
restricted. -/
def droppedHold (bound : List String) (c : Condition) (b : Bindings) (h : Hierarchy) : Bool :=
  c.clauses.all fun clause =>
    bound.contains clause.1 || (Condition.inherits clause.1 clause.2).holds b h

lemma occurrences_eq_map (c : Condition) : c.occurrences = c.clauses.map Prod.fst := by
  induction c with
  | inherits x cls => rfl
  | both l r ihl ihr => rw [occurrences, ihl, ihr, clauses, List.map_append]

/-- A condition holds exactly if its clauses do. -/
lemma holds_iff {c : Condition} : c.holds b h = true ↔
    ∀ clause ∈ c.clauses, (Condition.inherits clause.1 clause.2).holds b h = true := by
  induction c with
  | inherits x cls => simp [clauses]
  | both l r ihl ihr => rw [holds, Bool.and_eq_true, ihl, ihr, clauses, List.forall_mem_append]

/-- What is left of a condition holds exactly if the clauses about the given variables do. -/
lemma all_restrictTo_iff {bound : List String} {c : Condition} :
    ((c.restrictTo bound).all fun left => left.holds b h) = true ↔
      ∀ clause ∈ c.clauses, clause.1 ∈ bound →
        (Condition.inherits clause.1 clause.2).holds b h = true := by
  induction c with
  | inherits x cls =>
    rw [restrictTo]
    by_cases hx : x ∈ bound <;> simp [clauses, hx]
  | both l r ihl ihr =>
    rw [clauses, List.forall_mem_append, ← ihl, ← ihr, restrictTo]
    cases l.restrictTo bound <;> cases r.restrictTo bound <;> simp [holds]

lemma droppedHold_iff {bound : List String} {c : Condition} : c.droppedHold bound b h = true ↔
    ∀ clause ∈ c.clauses, clause.1 ∉ bound →
      (Condition.inherits clause.1 clause.2).holds b h = true := by
  simp only [droppedHold, List.all_eq_true, Bool.or_eq_true, List.contains_iff_mem,
    or_iff_not_imp_left]

/-- A condition holds exactly if what is left of it holds and what is dropped does. -/
lemma holds_iff_restrictTo (bound : List String) {c : Condition} : c.holds b h = true ↔
    ((c.restrictTo bound).all fun left => left.holds b h) = true ∧
      c.droppedHold bound b h = true := by
  rw [holds_iff, all_restrictTo_iff, droppedHold_iff, ← forall₂_and]
  refine forall₂_congr fun clause _ => ⟨fun hclause => ⟨fun _ => hclause, fun _ => hclause⟩, ?_⟩
  rintro ⟨hleft, hdropped⟩
  exact (Decidable.em (clause.1 ∈ bound)).elim hleft hdropped

/-- Clauses hold whose variables are not bound. -/
lemma droppedHold_of_unbound {bound : List String} {c : Condition}
    (hunbound : ∀ x ∈ c.occurrences, x ∉ bound → b.find? x = none) :
    c.droppedHold bound b h = true := by
  have hvars : ∀ clause ∈ c.clauses, clause.1 ∈ c.occurrences := by
    intro clause hclause
    rw [occurrences_eq_map]
    exact List.mem_map_of_mem hclause
  refine droppedHold_iff.2 fun clause hclause hdropped => ?_
  rw [holds, Ty.subst_var_of_find?_eq_none (hunbound _ (hvars clause hclause) hdropped)]

end Condition

namespace Contract

/-- The bindings in force after each value that is received, when values are offered one after
another, up to the first one that is refused. -/
def acceptances (c : Contract) (known : Bindings) (h : Hierarchy) : List Ty → List Bindings
  | [] => []
  | offered :: rest =>
    match c.accept? offered known h with
    | none => []
    | some received => received.bindings :: received.successor.acceptances received.bindings h rest

/-- The condition is looked at last, and it stays what it is. -/
lemma accept?_condition (c : Contract) (condition : Option Condition) (offered : Ty)
    (known : Bindings) (h : Hierarchy) :
    ({ c with condition := condition } : Contract).accept? offered known h =
      (({ c with condition := none } : Contract).accept? offered known h).bind fun received =>
        if condition.all fun condition => condition.holds received.bindings h then
          some ⟨{ received.successor with condition := condition }, received.bindings⟩
        else none := by
  rw [accept?, accept?]
  cases c.receives.pop? with
  | none => rfl
  | some popped =>
    obtain ⟨head, rest⟩ := popped
    simp only [Option.bind_eq_bind, Option.bind_some]
    cases (head.subst known).matching? offered with
    | none => rfl
    | some found =>
      simp only [Option.bind_some]
      cases known.join? found with
      | none => rfl
      | some bindings =>
        simp only [Option.bind_some]
        split
        · rfl
        · rfl

/-- Under the whole condition a contract receives what it receives under the restricted one, up to
where a dropped clause fails. -/
theorem acceptances_eq_takeWhile (c : Contract) (condition : Condition) (bound : List String)
    (known : Bindings) (h : Hierarchy) (offers : List Ty) :
    ({ c with condition := some condition } : Contract).acceptances known h offers =
      (({ c with condition := condition.restrictTo bound } : Contract).acceptances known h
        offers).takeWhile fun b => condition.droppedHold bound b h := by
  induction offers generalizing c known with
  | nil => rfl
  | cons offered rest ih =>
    rw [acceptances, acceptances, accept?_condition, accept?_condition c (condition.restrictTo bound)]
    cases ({ c with condition := none } : Contract).accept? offered known h with
    | none => rfl
    | some received =>
      have hholds := @Condition.holds_iff_restrictTo received.bindings h bound condition
      simp only [Option.bind_some, Option.all_some]
      by_cases hleft :
        ((condition.restrictTo bound).all fun left => left.holds received.bindings h) = true
      · rw [if_pos hleft]
        by_cases hdropped : condition.droppedHold bound received.bindings h = true
        · rw [if_pos (hholds.2 ⟨hleft, hdropped⟩)]
          dsimp only
          rw [List.takeWhile_cons, if_pos hdropped, ih]
        · rw [if_neg fun hall => hdropped (hholds.1 hall).2]
          dsimp only
          rw [List.takeWhile_cons, if_neg hdropped]
      · rw [if_neg hleft, if_neg fun hall => hleft (hholds.1 hall).1]
        rfl

/-- Values over variables with a property are received with bindings of this kind only. -/
lemma within_vars_acceptances {p : String → Prop} {c : Contract} {known : Bindings} {h : Hierarchy}
    {offers : List Ty} (hreceives : c.receives.Within (.vars p))
    (hknown : ∀ x t, known.find? x = some t → p x ∧ t.Within (.vars p))
    (hoffers : ∀ offered ∈ offers, offered.Within (.vars p)) :
    ∀ b ∈ c.acceptances known h offers, ∀ x t, b.find? x = some t → p x ∧ t.Within (.vars p) := by
  induction offers generalizing c known with
  | nil => exact List.forall_mem_nil _
  | cons offered rest ih =>
    obtain ⟨hoffered, hrest⟩ := List.forall_mem_cons.1 hoffers
    rw [acceptances]
    split
    · exact List.forall_mem_nil _
    · rename_i received hreceived
      obtain ⟨hsuccessor, hbindings⟩ := within_vars_accept? hknown hreceives hoffered hreceived
      exact List.forall_mem_cons.2 ⟨hbindings, ih hsuccessor hbindings hrest⟩

end Contract

/-- Dropping the clauses about variables outside the receiving side changes what a contract accepts
only where such a clause fails. For every contract, condition, hierarchy, initial bindings and
sequence of offered values, the contract that carries the whole condition receives the values that it
receives under the restricted condition, with the same bindings, up to the first one after which a
dropped clause does not hold. So the two accept the same values with the same bindings if the
variables of the dropped clauses are not bound at the beginning and occur neither in the values that
are bound then nor in the offered ones. -/
theorem restriction_keeps_acceptance_unless_bound (c : Contract) (condition : Condition)
    (known : Bindings) (h : Hierarchy) (offers : List Ty) :
    ({ c with condition := some condition } : Contract).acceptances known h offers =
        ((c.withCondition condition).acceptances known h offers).takeWhile
          (fun b => condition.droppedHold c.receives.freeVars b h) ∧
      ((∀ x ∈ condition.vars, x ∉ c.receives.freeVars →
          known.contains x = false ∧ (∀ y t, known.find? y = some t → x ∉ t.freeVars) ∧
            ∀ offered ∈ offers, x ∉ offered.freeVars) →
        (c.withCondition condition).acceptances known h offers =
          ({ c with condition := some condition } : Contract).acceptances known h offers) := by
  have hwhole := c.acceptances_eq_takeWhile condition c.receives.freeVars known h offers
  refine ⟨hwhole, fun hfree => ?_⟩
  -- The variables of the dropped clauses stay unbound, because they come up nowhere.
  have hstay : ∀ b ∈ (c.withCondition condition).acceptances known h offers, ∀ x t,
      b.find? x = some t → ¬(x ∈ condition.vars ∧ x ∉ c.receives.freeVars) ∧
        t.Within (.vars fun x => ¬(x ∈ condition.vars ∧ x ∉ c.receives.freeVars)) := by
    refine Contract.within_vars_acceptances ?_ (fun x t hx => ⟨?_, ?_⟩) fun offered hoffered => ?_
    · exact Ty.within_vars_iff.2 fun x hx hdropped => hdropped.2 (Ty.mem_freeVars.2 hx)
    · rintro ⟨hvar, hdropped⟩
      have hunbound := NameTable.contains_eq_false_iff.1 (hfree x hvar hdropped).1
      rw [hx] at hunbound
      cases hunbound
    · refine Ty.within_vars_iff.2 fun y hy hdropped => ?_
      exact (hfree y hdropped.1 hdropped.2).2.1 x t hx (Ty.mem_freeVars.2 hy)
    · refine Ty.within_vars_iff.2 fun y hy hdropped => ?_
      exact (hfree y hdropped.1 hdropped.2).2.2 offered hoffered (Ty.mem_freeVars.2 hy)
  rw [hwhole]
  refine (List.takeWhile_eq_self_iff.2 fun b hb => ?_).symm
  refine Condition.droppedHold_of_unbound fun x hx hdropped => ?_
  refine Option.eq_none_iff_forall_ne_some.2 fun t ht => (hstay b hb x t ht).1 ⟨?_, hdropped⟩
  exact Names.mem_ofList.2 hx

/-- Two clauses are dropped, and the values that are offered are all received under the clause that
is left. -/
theorem restriction_keeps_acceptance_unless_bound_chain :
    let c : Contract := { receives := .seq [.var "x", .var "y", .var "x"], yields := .var "x" }
    let condition : Condition :=
      .both (.both (.inherits "z" "Mineral") (.inherits "x" "Animal")) (.inherits "w" "Animal")
    let known : Bindings := NameTable.ofList [("y", .var "v")]
    let h : Hierarchy := NameTable.ofList [("Dog", "Animal")]
    let offers : List Ty := [.const "Dog", .const "Rock", .const "Dog", .const "Dog"]
    (c.withCondition condition).condition = some (.inherits "x" "Animal") ∧
      ((c.withCondition condition).acceptances known h offers).length = 3 ∧
      (c.withCondition condition).acceptances known h offers =
        ({ c with condition := some condition } : Contract).acceptances known h offers := by
  intro c condition known h offers
  refine ⟨by decide, by decide, ?_⟩
  refine (restriction_keeps_acceptance_unless_bound c condition known h offers).2 ?_
  have hknown : ∀ x ∈ condition.vars, x ∉ c.receives.freeVars →
      ∀ y t, known.find? y = some t → x ∉ t.freeVars := by
    intro x hx hdropped
    refine NameTable.forall_find?_ofList (List.forall_mem_singleton.2 ?_)
    revert x
    decide
  intro x hx hdropped
  refine ⟨?_, hknown x hx hdropped, ?_⟩
  · revert x
    decide
  · revert x
    decide

-- A clause about a variable that is bound in the place of a variable of the receiving side fails, but
-- it has been dropped.
example :
    let c : Contract := { receives := .var "x", yields := .void }
    let condition : Condition := .inherits "z" "Animal"
    let known : Bindings := NameTable.ofList [("x", .var "z")]
    (c.withCondition condition).condition = none ∧
      ((c.withCondition condition).acceptances known ∅ [.const "Rock"]).length = 1 ∧
      ({ c with condition := some condition } : Contract).acceptances known ∅ [.const "Rock"] =
        [] := by
  decide +kernel

end ContractComposition

import ContractComposition.Proofs.Run.Law

/-!
# Constants are not invented

Composing generators moves values around, binds variables to parts of values and substitutes
bindings, but it never makes a constant. The two directions of a contract differ here. What comes
out of a composition, in its yielding side, in its bindings or in front of a deadlock, consists of
constants that some generator yields or that the bindings brought in. What a composition still
receives may in addition contain the constants of the receiving sides, but these go nowhere else: a
value is received because it matches a constant, and the constant itself is dropped.
-/

namespace ContractComposition

mutual

/-- The constants of a value, from left to right and with repetitions. -/
def Ty.constants : Ty → List String
  | .const name => [name]
  | .seq items => Ty.constantsAll items
  | .tuple items => Ty.constantsAll items
  | .list element length => element.constants ++ length.constants
  | .func _ args => Ty.constantsAll args
  | .contract body => body.constants
  | .void => []
  | .var _ => []
  | .int _ => []
  | .star => []

/-- The constants of the values of a list, from left to right and with repetitions. -/
def Ty.constantsAll : List Ty → List String
  | [] => []
  | t :: ts => t.constants ++ Ty.constantsAll ts

/-- The constants of the two sides of a contract, with repetitions. -/
def Contract.constants : Contract → List String
  | ⟨receives, yields, _, _, _, _⟩ => receives.constants ++ yields.constants

end

namespace Parts

/-- Any parts, but only constants of a list. -/
def constantsIn (names : List String) : Parts where
  const name := name ∈ names

lemma constantsIn_le {names names' : List String} (h : names ⊆ names') :
    (constantsIn names).Le (constantsIn names') where
  const _ ha := h ha
  var _ _ := trivial
  constraints _ := trivial

end Parts

namespace Ty

lemma constantsAll_eq_flatMap (ts : List Ty) : constantsAll ts = ts.flatMap constants := by
  induction ts with
  | nil => rfl
  | cons t ts ih => simp [constantsAll, ih]

lemma constants_contract (body : Contract) : (Ty.contract body).constants =
    body.receives.constants ++ body.yields.constants := by
  cases body
  rfl

/-- A value is made of the constants of a list exactly if its constants are in the list. -/
lemma within_constantsIn_iff {names : List String} {t : Ty} :
    t.Within (.constantsIn names) ↔ t.constants ⊆ names := by
  induction t with
  | void | var | int | star => simp [constants, Parts.constantsIn]
  | const a => simp [constants, Parts.constantsIn]
  | seq items ih | tuple items ih | func fn items ih =>
    simp only [within_seq, within_tuple, within_func, constants, constantsAll_eq_flatMap]
    constructor
    · intro h a ha
      obtain ⟨t, ht, ha⟩ := List.mem_flatMap.1 ha
      exact (ih t ht).1 (h t ht) ha
    · intro h t ht
      exact (ih t ht).2 fun a ha => h (List.mem_flatMap.2 ⟨t, ht, ha⟩)
  | list element length ihe ihl => rw [within_list, ihe, ihl, constants, List.append_subset]
  | contract body ihr ihy =>
    rw [within_contract, ihr, ihy, constants_contract, List.append_subset]
    simp [Parts.constantsIn]

end Ty

/-! ### Solutions and deadlocks -/

/-- The constants that the generators yield or that the bindings bring in. -/
def sourceConstants (generators : List Generator) (bindings : Bindings) : List String :=
  generators.flatMap (fun g => g.contract.yields.constants) ++
    bindings.entries.flatMap fun entry => entry.2.constants

/-- The constants that the generators wait for. -/
def receivedConstants (generators : List Generator) : List String :=
  generators.flatMap fun g => g.contract.receives.constants

section

variable (generators : List Generator) (bindings : Bindings)

/-- The law behind this file: everything but the receiving sides is made of the constants of the
sources, and the receiving sides are made of these and of what is waited for. -/
lemma law_constants : Contract.Law
    (Contract.SidesWithin (.constantsIn (sourceConstants generators bindings))
      (.constantsIn (sourceConstants generators bindings ++ receivedConstants generators)))
    (Ty.Within (Parts.constantsIn (sourceConstants generators bindings)).ground)
    (Bindings.Within (.constantsIn (sourceConstants generators bindings))) :=
  Contract.law_sidesWithin (fun _ => trivial)
    (Parts.constantsIn_le (List.subset_append_left _ _)) (Parts.ground_le _) (Parts.Le.refl _)

/-- The run of some generators begins with the constants of its sources. -/
lemma obeys_constants_start : Run.Obeys
    (Contract.SidesWithin (.constantsIn (sourceConstants generators bindings))
      (.constantsIn (sourceConstants generators bindings ++ receivedConstants generators)))
    (Ty.Within (Parts.constantsIn (sourceConstants generators bindings)).ground)
    (Bindings.Within (.constantsIn (sourceConstants generators bindings)))
    (Run.start generators bindings) := by
  refine Run.Obeys.start (fun x t ht => ?_) fun g hg => ⟨?_, ?_⟩
  · refine Ty.within_constantsIn_iff.2 fun a ha => List.mem_append_right _ ?_
    exact List.mem_flatMap.2 ⟨(x, t), NameTable.find?_eq_some_iff.1 ht, ha⟩
  · refine Ty.within_constantsIn_iff.2 fun a ha => List.mem_append_right _ ?_
    exact List.mem_flatMap.2 ⟨g, hg, ha⟩
  · refine Ty.within_constantsIn_iff.2 fun a ha => List.mem_append_left _ ?_
    exact List.mem_flatMap.2 ⟨g, hg, ha⟩

end

/-- No constant is invented. In a solution, the constants of the yielding side and of the bindings
are constants that the generators yield or that the given bindings bring in; those of the receiving
side are among these or among the constants that the generators receive. The values that were
handed out before a deadlock consist of constants that are yielded or brought in as well. -/
theorem solve_invents_no_constants (options : Options) (generators : List Generator)
    (bindings : Bindings) :
    (∀ solution, solve options generators bindings = .ok solution →
      solution.contract.yields.constants ⊆ sourceConstants generators bindings ∧
      (∀ x t, solution.bindings.find? x = some t →
        t.constants ⊆ sourceConstants generators bindings) ∧
      solution.contract.receives.constants ⊆
        sourceConstants generators bindings ++ receivedConstants generators) ∧
    ∀ unmatched blocked, solve options generators bindings = .error (.deadlock unmatched blocked) →
      ∀ t ∈ unmatched, t.constants ⊆ sourceConstants generators bindings := by
  have hlaw := law_constants generators bindings
  have hstart := obeys_constants_start generators bindings
  constructor
  · intro solution hsolution
    obtain ⟨actions, final, hpath, -, hending, hbindings⟩ :=
      Run.exists_path_of_solve_eq_ok hsolution
    have hfinal := hstart.of_reachable hlaw hpath.reachable
    have hcontract := hfinal.ending hlaw hending
    refine ⟨Ty.within_constantsIn_iff.1 hcontract.yields, fun x t ht => ?_,
      Ty.within_constantsIn_iff.1 hcontract.receives⟩
    rw [hbindings] at ht
    exact Ty.within_constantsIn_iff.1 (hfinal.bindings x t ht)
  · intro unmatched blocked hdeadlock t ht
    obtain ⟨actions, final, hpath, -, hending⟩ := Run.exists_path_of_solve_eq_deadlock hdeadlock
    have hfinal := hstart.of_reachable hlaw hpath.reachable
    obtain rfl := Run.unmatched_of_ending hending
    have houtput := (hlaw.output hfinal.emitted).yields
    exact Ty.within_constantsIn_iff.1 (houtput.items t ht)

end ContractComposition

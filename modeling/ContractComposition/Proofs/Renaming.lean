import ContractComposition.Proofs.MatchCompleteness
import ContractComposition.Proofs.Stages

/-!
# Making variables fresh is a renaming

A copy of a value with fresh variables is made by substituting the variable `x#n` for each variable
`x` that is not to be kept. The bindings for this send variables to variables, and names get longer
by them, so they never run in a circle. If the contracts in the value carry no constraints, the copy
is the normal form with its variables renamed, and nothing else about it is different
(`freshen_renames_variables`).

But substitution goes on to replace what came in. If both `x` and `x#n` are to be renamed, then `x`
ends up where `x#n` does, and the two of them cannot be told apart any more. A variable is renamed
to exactly `x#n` if this is not a variable that is renamed in turn, and the number of variables
stays the same if none of the new names was there before.
-/

namespace ContractComposition

/-! ### Renaming -/

mutual

/-- Renames the variables of a value. The contracts in it are taken to be without constraints: only
their sides are looked at. -/
def Ty.rename (f : String → String) : Ty → Ty
  | .var x => .var (f x)
  | .seq items => .seq (Ty.renameAll f items)
  | .tuple items => .tuple (Ty.renameAll f items)
  | .list element length => .list (element.rename f) (length.rename f)
  | .func fn args => .func fn (Ty.renameAll f args)
  | .contract body => .contract (body.rename f)
  | .void => .void
  | .const name => .const name
  | .int n => .int n
  | .star => .star

/-- Renames the variables in each value of a list. -/
def Ty.renameAll (f : String → String) : List Ty → List Ty
  | [] => []
  | t :: ts => t.rename f :: Ty.renameAll f ts

/-- Renames the variables on both sides of a contract. -/
def Contract.rename (f : String → String) : Contract → Contract
  | ⟨receives, yields, condition, forbidden, source, restorable⟩ =>
    ⟨receives.rename f, yields.rename f, condition, forbidden, source, restorable⟩

end

namespace Ty

variable {f : String → String}

lemma renameAll_eq_map (ts : List Ty) : renameAll f ts = ts.map (rename f) := by
  induction ts with
  | nil => rfl
  | cons t ts ih => rw [renameAll, ih, List.map_cons]

/-- The variables of the renamed value are the new names, in the same places. -/
lemma occurrences_rename (t : Ty) : (t.rename f).occurrences = t.occurrences.map f := by
  induction t with
  | void | const | int | star | var => rfl
  | seq items ih | tuple items ih | func fn items ih =>
    simp only [rename, renameAll_eq_map, occurrences, occurrencesAll_eq_flatMap, List.flatMap_map,
      List.map_flatMap]
    exact List.flatMap_congr ih
  | list element length ihe ihl => rw [rename, occurrences, occurrences, ihe, ihl, List.map_append]
  | contract body ihr ihy =>
    obtain ⟨receives, yields, condition, forbidden, source, restorable⟩ := body
    rw [rename, occurrences_contract, occurrences_contract, List.map_append]
    exact congrArg₂ _ ihr ihy

/-- Renaming keeps the number of variables if it keeps them apart. -/
lemma length_freeVars_rename {t : Ty} (h : Set.InjOn f {x | x ∈ t.freeVars}) :
    (t.rename f).freeVars.length = t.freeVars.length := by
  have hcount : ∀ u : Ty, u.freeVars.length = u.occurrences.toFinset.card := by
    intro u
    have hnodup : u.freeVars.Nodup := (Names.pairwise_ofList u.occurrences).imp String.ne_of_lt
    rw [← List.toFinset_card_of_nodup hnodup]
    congr 1
    ext x
    rw [List.mem_toFinset, List.mem_toFinset, mem_freeVars]
  have himage : (t.occurrences.map f).toFinset = t.occurrences.toFinset.image f := by
    ext x
    simp only [List.mem_toFinset, List.mem_map, Finset.mem_image]
  rw [hcount, hcount, occurrences_rename, himage]
  refine Finset.card_image_of_injOn fun x hx y hy heq => h ?_ ?_ heq
  · exact mem_freeVars.2 (List.mem_toFinset.1 hx)
  · exact mem_freeVars.2 (List.mem_toFinset.1 hy)

/-- Replacing the variables of a normal form by variables is renaming them. -/
lemma IsNormal.expand_eq_rename {look : Nat → String → Ty} {t : Ty} (hnormal : t.IsNormal)
    (h : t.Within .unconstrained) (hneutral : ∀ x depth, (look depth x).Neutral)
    (hlook : ∀ x, look 0 x = .var (f x)) : t.expand look 0 = t.rename f := by
  induction t with
  | void | const | int | star => rfl
  | var x => exact hlook x
  | seq items ih =>
    rw [Ty.expand, rename, expandAll_eq_map, renameAll_eq_map]
    exact congrArg _ (List.map_congr_left fun t ht =>
      ih t ht (allNormal_iff.1 hnormal.2.2 t ht) (within_seq.1 h t ht))
  | tuple items ih =>
    rw [Ty.expand, rename, expandAll_eq_map, renameAll_eq_map]
    exact congrArg _ (List.map_congr_left fun t ht =>
      ih t ht (allNormal_iff.1 hnormal t ht) (within_tuple.1 h t ht))
  | func fn args ih =>
    rw [Ty.expand, rename, expandAll_eq_map, renameAll_eq_map]
    exact congrArg _ (List.map_congr_left fun t ht =>
      ih t ht (allNormal_iff.1 hnormal.2 t ht) (within_func.1 h t ht))
  | list element length ihe ihl =>
    rw [Ty.expand, rename, ihe hnormal.2.1 h.1, ihl hnormal.2.2 h.2]
  | contract body ihr ihy =>
    obtain ⟨-, hr, hy⟩ := isNormal_contract.1 hnormal
    obtain ⟨hc, hpartsr, hpartsy⟩ := within_contract.1 h
    obtain ⟨hcondition, hforbidden⟩ := hc.resolve_left id
    rw [expand_contract_of_unconstrained hcondition hforbidden,
      hr.normalize_expand_eq hpartsr hneutral, hy.normalize_expand_eq hpartsy hneutral,
      ihr hr hpartsr, ihy hy hpartsy]
    obtain ⟨receives, yields, condition, forbidden, source, restorable⟩ := body
    rfl

end Ty

/-! ### Where the new names lead -/

lemma length_lt_length_freshName (x : String) (n : Nat) : x.length < (freshName x n).length := by
  rw [freshName, String.length_append, String.length_append]
  have hmark : "#".length = 1 := rfl
  omega

/-- The number at the end being given, the new name tells the old one. -/
lemma freshName_left_injective (n : Nat) : Function.Injective (freshName · n) := by
  intro x y h
  have hchars : x.toList ++ '#' :: (toString n).toList =
      y.toList ++ '#' :: (toString n).toList := by
    rw [← toList_freshName, ← toList_freshName]
    exact congrArg String.toList h
  exact String.toList_inj.1 (List.append_cancel_right hchars)

namespace Bindings

variable {vars keep : List String} {n : Nat}

/-- Names only get longer, so no variable is renamed to itself in the end. -/
lemma acyclic_suffixing : (suffixing vars n keep).Acyclic := by
  have hstep : ∀ {x y}, (suffixing vars n keep).Mentions x y → x.length < y.length := by
    rintro x y ⟨t, ht, hy⟩
    rw [eq_var_of_find?_suffixing ht] at hy
    rw [List.mem_singleton.1 hy]
    exact length_lt_length_freshName x n
  have hpath : ∀ {x y}, Relation.TransGen (suffixing vars n keep).Mentions x y →
      x.length < y.length := by
    intro x y hxy
    induction hxy with
    | single h => exact hstep h
    | tail _ h ih => exact Nat.lt_trans ih (hstep h)
  intro x hx
  exact Nat.lt_irrefl _ (hpath hx)

/-- Under a renaming every variable stands for a variable. -/
lemma exists_look_suffixing_eq_var (vars : List String) (n : Nat) (keep : List String)
    (depth : Nat) (x : String) : ∃ y, (suffixing vars n keep).look depth x = .var y := by
  refine lookWithin_induction (q := fun _ => True) (p := fun t => ∃ y, t = .var y)
    (fun x _ => ⟨x, rfl⟩) ?_ trivial _ depth
  intro x t look depth ht hlook
  obtain ⟨y, hy⟩ := hlook depth (x ++ "#" ++ toString n) trivial
  refine ⟨y, ?_⟩
  rw [eq_var_of_find?_suffixing ht, Ty.expand, hy]
  rfl

/-- A variable that is renamed ends up where its new name does. -/
lemma look_suffixing_of_not_mem {x : String} (hx : x ∈ vars) (hkeep : x ∉ keep) :
    (suffixing vars n keep).look 0 x = (suffixing vars n keep).look 0 (freshName x n) := by
  obtain ⟨y, hy⟩ := exists_look_suffixing_eq_var vars n keep 0 (freshName x n)
  rw [acyclic_suffixing.look_eq (find?_suffixing_of_not_mem hx hkeep n), Ty.expand, ← freshName, hy]
  rfl

end Bindings

namespace Ty

variable {t : Ty} {f : String → String} {n : Nat} {keep : List String}

/-- A copy is the normal form with its variables renamed to what they stand for. -/
lemma freshen_eq_rename (ht : t.Within .unconstrained)
    (hf : ∀ x, (Bindings.suffixing t.freeVars n keep).look 0 x = .var (f x)) :
    t.freshen n keep = t.normalize.rename f := by
  have hneutral : ∀ x depth, ((Bindings.suffixing t.freeVars n keep).look depth x).Neutral := by
    intro x depth
    obtain ⟨y, hy⟩ := Bindings.exists_look_suffixing_eq_var t.freeVars n keep depth x
    rw [hy]
    exact neutral_var y
  have hlist : ∀ x, ((Bindings.suffixing t.freeVars n keep).look 0 x).normalize.NotList := by
    intro x
    rw [hf x]
    exact nofun
  have hform : t.normalize.IsNormal := t.isNormal_normalize
  rw [freshen, subst, ← ht.tableFree.normalize_expand_normalize hlist,
    hform.normalize_expand_eq ht.normalize hneutral,
    hform.expand_eq_rename ht.normalize hneutral hf]

/-- A renaming keeps variables apart if none of the new names was there before. -/
lemma injOn_of_new (hkept : ∀ v ∈ t.freeVars, v ∈ keep → f v = v)
    (hrenamed : ∀ v ∈ t.freeVars, v ∉ keep → f v = freshName v n)
    (hnew : ∀ v ∈ t.freeVars, v ∉ keep → freshName v n ∉ t.freeVars) :
    Set.InjOn f {x | x ∈ t.freeVars} := by
  intro v hv w hw heq
  by_cases hkeepv : v ∈ keep <;> by_cases hkeepw : w ∈ keep
  · rwa [hkept v hv hkeepv, hkept w hw hkeepw] at heq
  · rw [hkept v hv hkeepv, hrenamed w hw hkeepw] at heq
    exact absurd (heq ▸ hv) (hnew w hw hkeepw)
  · rw [hrenamed v hv hkeepv, hkept w hw hkeepw] at heq
    exact absurd (heq ▸ hw) (hnew v hv hkeepv)
  · rw [hrenamed v hv hkeepv, hrenamed w hw hkeepw] at heq
    exact freshName_left_injective n heq

end Ty

/-- A copy with fresh variables is the normal form with its variables renamed, if the contracts in
the value carry no constraints. Variables that are kept stay as they are. Every other variable gets
the number appended to its name; if the new name is itself a variable that is not kept, it goes on
from there. So if none of the new names occurs in the value before, each variable is renamed to just
its new name, and the copy has as many variables as the normal form. -/
theorem freshen_renames_variables {t : Ty} (ht : t.Within .unconstrained) (n : Nat)
    (keep : List String) :
    ∃ f : String → String, t.freshen n keep = t.normalize.rename f ∧
      (∀ v ∈ t.freeVars, v ∈ keep → f v = v) ∧
      (∀ v ∈ t.freeVars, v ∉ keep →
        f v = if freshName v n ∈ t.freeVars ∧ freshName v n ∉ keep then f (freshName v n)
          else freshName v n) ∧
      ((∀ v ∈ t.freeVars, v ∉ keep → freshName v n ∉ t.freeVars) →
        (t.freshen n keep).freeVars.length = t.normalize.freeVars.length) := by
  choose f hf using Bindings.exists_look_suffixing_eq_var t.freeVars n keep 0
  have hstay : ∀ v, (Bindings.suffixing t.freeVars n keep).find? v = none → f v = v := by
    intro v hv
    have hlook := hf v
    rw [Bindings.look_of_find?_eq_none hv] at hlook
    exact (Ty.var.inj hlook).symm
  have hkept : ∀ v ∈ t.freeVars, v ∈ keep → f v = v :=
    fun v _ hkeep => hstay v (Bindings.find?_suffixing_of_mem hkeep)
  have hrenamed : ∀ v ∈ t.freeVars, v ∉ keep →
      f v = if freshName v n ∈ t.freeVars ∧ freshName v n ∉ keep then f (freshName v n)
        else freshName v n := by
    intro v hv hkeep
    have hnext : f v = f (freshName v n) := by
      rw [← Ty.var.injEq, ← hf, ← hf, Bindings.look_suffixing_of_not_mem hv hkeep]
    split
    · exact hnext
    · rename_i hlast
      rw [hnext]
      refine hstay _ ?_
      by_cases hmem : freshName v n ∈ t.freeVars
      · exact Bindings.find?_suffixing_of_mem (not_not.1 fun hout => hlast ⟨hmem, hout⟩)
      · exact Bindings.find?_suffixing_of_not_mem_vars hmem
  have hcopy : t.freshen n keep = t.normalize.rename f := Ty.freshen_eq_rename ht hf
  refine ⟨f, hcopy, hkept, hrenamed, fun hnew => ?_⟩
  have hinj : Set.InjOn f {x | x ∈ t.freeVars} := by
    refine Ty.injOn_of_new hkept (fun v hv hkeep => ?_) hnew
    rw [hrenamed v hv hkeep, if_neg fun h => hnew v hv hkeep h.1]
  -- Normalizing may drop variables, but it brings no new ones.
  have hnormal : t.normalize.Within (.vars (· ∈ t.freeVars)) :=
    (Ty.within_vars_iff.2 fun _ hx => Ty.mem_freeVars.2 hx).normalize
  rw [hcopy, Ty.length_freeVars_rename (hinj.mono fun x hx =>
    Ty.within_vars_iff.1 hnormal x (Ty.mem_freeVars.1 hx))]

/-- One variable is kept, one occurs on its own and in a contract, and one is lost with the empty
list that it stands in. -/
theorem freshen_renames_variables_mixed :
    ∃ (copy : Ty) (f : String → String),
      (Ty.tuple [.var "x", .var "k", .list (.var "z") (.int 0),
        .contract { receives := .var "x", yields := .var "y" }]).freshen 3 ["k"] = copy ∧
      copy = .tuple [.var (f "x"), .var (f "k"), .void,
        .contract { receives := .var (f "x"), yields := .var (f "y") }] ∧
      f "k" = "k" ∧ f "x" = "x#3" ∧ f "y" = "y#3" ∧ copy.freeVars.length = 3 := by
  have hparts : (Ty.tuple [.var "x", .var "k", .list (.var "z") (.int 0),
      .contract { receives := .var "x", yields := .var "y" }]).Within .unconstrained := by
    simp [Parts.unconstrained]
  obtain ⟨f, hcopy, hkept, hrenamed, hcount⟩ := freshen_renames_variables hparts 3 ["k"]
  refine ⟨_, f, rfl, hcopy, hkept "k" (by decide) (by decide), ?_, ?_, hcount (by decide +kernel)⟩
  · rw [hrenamed "x" (by decide) (by decide), if_neg (by decide +kernel)]
    decide +kernel
  · rw [hrenamed "y" (by decide) (by decide), if_neg (by decide +kernel)]
    decide +kernel

-- The first variable takes on the name of the second one and is renamed along with it.
example : ((Ty.tuple [.var "x", .var "x#3"]).freshen 3 []).text = "<x#3#3, x#3#3>" := by
  decide +kernel

end ContractComposition

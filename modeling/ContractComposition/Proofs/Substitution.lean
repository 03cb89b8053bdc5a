import ContractComposition.Proofs.NormalForm

/-!
# Substituting plain bindings

A value is *plain* if no variable occurs in it and no contract in it carries a condition or
exclusions. Bindings are plain if all their values are. Then a variable is replaced in one go:
nothing is left to be replaced in what comes in, so no bound variable survives
(`Ty.find?_eq_none_of_mem_subst`).

Under plain bindings a value can be substituted in stages. This takes a *steady* value, in which
sequences and contracts occur in plain parts only. Elsewhere normalizing too early may change the
result: a sequence of a variable alone is the variable, which may become a list on its own, while a
list inside a sequence stays inside. For a steady value, substituting bindings and later an
extension of them is the same as substituting the extension at once (`Ty.IsSteady.subst_subst`).
-/

namespace ContractComposition

namespace Parts

/-- Any constants and variables, but no conditions and exclusions inside contracts. -/
def unconstrained : Parts where
  constraints := False

end Parts

namespace Ty

/-- No variable occurs in the value, and no contract in it carries constraints. -/
def IsPlain (t : Ty) : Prop :=
  t.Within Parts.unconstrained.ground

end Ty

namespace Bindings

/-- All values of the table are plain. -/
def IsPlain (b : Bindings) : Prop :=
  b.Within Parts.unconstrained.ground

/-! ### Looking up variables -/

lemma chainBound_eq_succ (b : Bindings) : ∃ bound, b.chainBound = bound + 1 := by
  refine Nat.exists_eq_succ_of_ne_zero ?_
  exact Nat.mul_ne_zero (Nat.succ_ne_zero _) (Nat.succ_ne_zero _)

/-- A variable that is not bound stands for itself. -/
lemma lookWithin_of_find?_eq_none {b : Bindings} {x : String} (h : b.find? x = none)
    (bound depth : Nat) : b.lookWithin bound depth x = .var x := by
  cases bound with
  | zero => rfl
  | succ bound => rw [lookWithin, h]

lemma look_of_find?_eq_none {b : Bindings} {x : String} (h : b.find? x = none) (depth : Nat) :
    b.look depth x = .var x :=
  lookWithin_of_find?_eq_none h _ depth

/-- A bound variable stands for what becomes of its value. -/
lemma look_zero_of_find?_eq_some {b : Bindings} {x : String} {t : Ty} (h : b.find? x = some t) :
    ∃ bound, b.look 0 x = (t.expand (b.lookWithin bound) 1).withSource x := by
  obtain ⟨bound, hbound⟩ := b.chainBound_eq_succ
  refine ⟨bound, ?_⟩
  rw [look, hbound, lookWithin, h]
  exact if_neg (Nat.not_lt_zero _)

end Bindings

namespace Ty

variable {b b' : Bindings}

lemma IsPlain.unconstrained {t : Ty} (h : t.IsPlain) : t.Within Parts.unconstrained :=
  h.mono (Parts.ground_le _)

lemma isPlain_iff {t : Ty} : t.IsPlain ↔ t.isGround = true ∧ t.Within Parts.unconstrained :=
  ⟨fun h => ⟨h.isGround, h.unconstrained⟩, fun h => h.2.ground_of_isGround h.1⟩

/-- A plain value stays plain whatever variables are replaced by, since it has none. -/
lemma IsPlain.expand {t : Ty} (h : t.IsPlain) (look : Nat → String → Ty) (depth : Nat) :
    (t.expand look depth).IsPlain :=
  Within.expand (fun _ ha => ha) (fun hc => hc) (fun _ => False.elim) (fun _ => False.elim) h

/-- What a bound variable stands for is plain. -/
lemma isPlain_look (hb : b.IsPlain) {x : String} {t : Ty} (h : b.find? x = some t) :
    (b.look 0 x).IsPlain := by
  obtain ⟨bound, hlook⟩ := Bindings.look_zero_of_find?_eq_some h
  rw [hlook]
  have ht : t.IsPlain := hb x t h
  exact (ht.expand _ _).withSource x

/-- Plain bindings leave no variable that they bind. -/
lemma find?_eq_none_of_mem_subst (hb : b.IsPlain) {t : Ty} (ht : t.Within Parts.unconstrained)
    {x : String} (hx : x ∈ (t.subst b).occurrences) : b.find? x = none := by
  have hlook : ∀ y, Parts.unconstrained.var y →
      (b.look 0 y).Within (Parts.unconstrained.withVars fun z => b.find? z = none) := by
    intro y _
    cases hy : b.find? y with
    | none =>
      rw [Bindings.look_of_find?_eq_none hy]
      exact hy
    | some u => exact Within.mono (Parts.ground_le_withVars _ _) (isPlain_look hb hy)
  have hexpand : (t.expand b.look 0).Within
      (Parts.unconstrained.withVars fun z => b.find? z = none) := by
    refine Within.expand ?_ ?_ hlook hlook ht
    · exact fun _ ha => ha
    · exact fun hc => hc
  have hsubst : (t.subst b).Within (Parts.unconstrained.withVars fun z => b.find? z = none) :=
    hexpand.normalize
  exact (within_withVars_iff.1 hsubst).2 x hx

/-! ### Plain values -/

/-- Without exclusions both sides of a contract are replaced and normalized. -/
lemma expand_contract_of_forbidden_eq_nil {body : Contract} {look : Nat → String → Ty} {depth : Nat}
    (h : body.forbidden = []) : (Ty.contract body).expand look depth = .contract
      { body with
        receives := (body.receives.expand look 0).normalize
        yields := (body.yields.expand look 0).normalize
        condition := body.condition.map (Condition.rename fun x => (look 0 x).normalize) } := by
  obtain ⟨receives, yields, condition, forbidden, source, restorable⟩ := body
  cases h
  rfl

/-- Without constraints nothing else happens to a contract. -/
lemma expand_contract_of_unconstrained {body : Contract} {look : Nat → String → Ty} {depth : Nat}
    (hcondition : body.condition = none) (hforbidden : body.forbidden = []) :
    (Ty.contract body).expand look depth = .contract
      { body with
        receives := (body.receives.expand look 0).normalize
        yields := (body.yields.expand look 0).normalize } := by
  rw [expand_contract_of_forbidden_eq_nil hforbidden, hcondition, Option.map_none]

/-- What becomes of a plain value does not depend on the meaning of variables. -/
lemma IsPlain.expand_congr {t : Ty} (h : t.IsPlain) (look look' : Nat → String → Ty)
    (depth depth' : Nat) : t.expand look depth = t.expand look' depth' := by
  induction t generalizing depth depth' with
  | void | const | int | star => rfl
  | var x => cases h
  | seq items ih =>
    rw [Ty.expand, Ty.expand, expandAll_eq_map, expandAll_eq_map]
    exact congrArg _ (List.map_congr_left fun t ht => ih t ht (within_seq.1 h t ht) _ _)
  | tuple items ih =>
    rw [Ty.expand, Ty.expand, expandAll_eq_map, expandAll_eq_map]
    exact congrArg _ (List.map_congr_left fun t ht => ih t ht (within_tuple.1 h t ht) _ _)
  | func fn args ih =>
    rw [Ty.expand, Ty.expand, expandAll_eq_map, expandAll_eq_map]
    exact congrArg _ (List.map_congr_left fun t ht => ih t ht (within_func.1 h t ht) _ _)
  | list element length ihe ihl =>
    rw [Ty.expand, Ty.expand, ihe h.1 depth depth', ihl h.2 depth depth']
  | contract body ihr ihy =>
    obtain ⟨hc, hr, hy⟩ := within_contract.1 h
    obtain ⟨hcondition, hforbidden⟩ := hc.resolve_left id
    rw [expand_contract_of_unconstrained hcondition hforbidden,
      expand_contract_of_unconstrained hcondition hforbidden, ihr hr 0 0, ihy hy 0 0]

/-- Replacing variables that all stand for themselves does not change a normal form, as long as no
contract carries constraints. -/
lemma Within.normalize_expand {look : Nat → String → Ty} {t : Ty}
    (h : t.Within (Parts.unconstrained.withVars fun x => ∀ depth, look depth x = .var x))
    (depth : Nat) : (t.expand look depth).normalize = t.normalize := by
  induction t generalizing depth with
  | void | const | int | star => rfl
  | var x => exact congrArg Ty.normalize (h depth)
  | seq items ih =>
    rw [Ty.expand, Ty.normalize, Ty.normalize, expandAll_eq_map, normalizeAll_eq_map,
      normalizeAll_eq_map, List.map_map]
    exact congrArg _ (List.map_congr_left fun t ht => ih t ht (within_seq.1 h t ht) _)
  | tuple items ih =>
    rw [Ty.expand, Ty.normalize, Ty.normalize, expandAll_eq_map, normalizeAll_eq_map,
      normalizeAll_eq_map, List.map_map]
    exact congrArg _ (List.map_congr_left fun t ht => ih t ht (within_tuple.1 h t ht) _)
  | func fn args ih =>
    rw [Ty.expand, Ty.normalize, Ty.normalize, expandAll_eq_map, normalizeAll_eq_map,
      normalizeAll_eq_map, List.map_map]
    exact congrArg _ (List.map_congr_left fun t ht => ih t ht (within_func.1 h t ht) _)
  | list element length ihe ihl =>
    rw [Ty.expand, Ty.normalize, Ty.normalize, ihe h.1, ihl h.2]
  | contract body ihr ihy =>
    obtain ⟨hc, hr, hy⟩ := within_contract.1 h
    obtain ⟨hcondition, hforbidden⟩ := hc.resolve_left id
    rw [expand_contract_of_unconstrained hcondition hforbidden, normalize_contract,
      normalize_contract, normalize_normalize, normalize_normalize, ihr hr, ihy hy]
    rfl

/-- Substituting bindings into a value without bound variables just normalizes it. -/
lemma Within.subst_eq_normalize {t : Ty} (h : t.Within Parts.unconstrained)
    (hfree : ∀ x ∈ t.occurrences, b.find? x = none) : t.subst b = t.normalize := by
  refine Within.normalize_expand (within_withVars_iff.2 ⟨h, fun x hx depth => ?_⟩) 0
  exact Bindings.look_of_find?_eq_none (hfree x hx) depth

/-- Replacing variables in a plain value does not change its normal form. -/
lemma IsPlain.normalize_expand {t : Ty} (h : t.IsPlain) (look : Nat → String → Ty) (depth : Nat) :
    (t.expand look depth).normalize = t.normalize :=
  Within.normalize_expand (h.mono (Parts.ground_le_withVars _ _)) depth

/-- Substituting bindings into a plain value just normalizes it. -/
lemma IsPlain.subst_eq {t : Ty} (h : t.IsPlain) (b : Bindings) : t.subst b = t.normalize :=
  h.normalize_expand _ _

end Ty

/-! ### Steady values -/

mutual

/-- Sequences and contracts occur in plain parts of the value only. -/
def Ty.IsSteady : Ty → Prop
  | .seq items => (Ty.seq items).IsPlain
  | .tuple items => Ty.AllSteady items
  | .list element length => element.IsSteady ∧ length.IsSteady
  | .func _ args => Ty.AllSteady args
  | .contract body => (Ty.contract body).IsPlain
  | .void => True
  | .const _ => True
  | .var _ => True
  | .int _ => True
  | .star => True

/-- The values of a list are steady. -/
def Ty.AllSteady : List Ty → Prop
  | [] => True
  | t :: ts => t.IsSteady ∧ Ty.AllSteady ts

end

namespace Ty

variable {b b' : Bindings}

lemma allSteady_iff {ts : List Ty} : AllSteady ts ↔ ∀ t ∈ ts, t.IsSteady := by
  induction ts with
  | nil => simp [AllSteady]
  | cons t ts ih => simp [AllSteady, ih]

lemma isSteady_tuple {items : List Ty} : (Ty.tuple items).IsSteady ↔ ∀ t ∈ items, t.IsSteady :=
  allSteady_iff

lemma isSteady_func {fn : LengthFn} {args : List Ty} :
    (Ty.func fn args).IsSteady ↔ ∀ t ∈ args, t.IsSteady :=
  allSteady_iff

/-- Plain values are steady. -/
lemma IsPlain.isSteady {t : Ty} (h : t.IsPlain) : t.IsSteady := by
  induction t with
  | void | const | var | int | star => trivial
  | seq | contract => exact h
  | tuple items ih => exact isSteady_tuple.2 fun t ht => ih t ht (within_tuple.1 h t ht)
  | func fn args ih => exact isSteady_func.2 fun t ht => ih t ht (within_func.1 h t ht)
  | list element length ihe ihl => exact ⟨ihe h.1, ihl h.2⟩

/-- The contracts in a steady value carry no constraints. -/
lemma IsSteady.unconstrained {t : Ty} (h : t.IsSteady) : t.Within Parts.unconstrained := by
  induction t with
  | void | const | var | int | star => trivial
  | seq | contract => exact IsPlain.unconstrained h
  | tuple items ih => exact within_tuple.2 fun t ht => ih t ht (isSteady_tuple.1 h t ht)
  | func fn args ih => exact within_func.2 fun t ht => ih t ht (isSteady_func.1 h t ht)
  | list element length ihe ihl => exact ⟨ihe h.1, ihl h.2⟩

/-- What becomes of a variable under plain bindings is steady. -/
lemma isSteady_look (hb : b.IsPlain) (x : String) : (b.look 0 x).IsSteady := by
  cases hx : b.find? x with
  | none =>
    rw [Bindings.look_of_find?_eq_none hx]
    trivial
  | some t => exact (isPlain_look hb hx).isSteady

/-- Replacing variables by plain values leaves a value steady. -/
lemma IsSteady.expand (hb : b.IsPlain) {t : Ty} (h : t.IsSteady) :
    (t.expand b.look 0).IsSteady := by
  induction t with
  | void | const | int | star => trivial
  | var x => exact isSteady_look hb x
  | seq | contract =>
    have hplain : IsPlain _ := h
    exact (hplain.expand _ _).isSteady
  | tuple items ih =>
    rw [Ty.expand, expandAll_eq_map, isSteady_tuple, List.forall_mem_map]
    intro t ht
    exact ih t ht (isSteady_tuple.1 h t ht)
  | func fn args ih =>
    rw [Ty.expand, expandAll_eq_map, isSteady_func, List.forall_mem_map]
    intro t ht
    exact ih t ht (isSteady_func.1 h t ht)
  | list element length ihe ihl => exact ⟨ihe h.1, ihl h.2⟩

lemma isSteady_listOf {element length : Ty} (he : element.IsSteady) (hl : length.IsSteady) :
    (listOf element length).IsSteady := by
  unfold listOf
  split
  · split
    · trivial
    · exact ⟨he, trivial⟩
  · exact ⟨he, hl⟩

lemma isSteady_eval {fn : LengthFn} {args : List Ty} (h : ∀ t ∈ args, t.IsSteady) :
    (fn.eval args).IsSteady := by
  rcases fn.eval_cases args with heq | ⟨n, heq⟩ | hstuck
  · rw [heq]
    trivial
  · rw [heq]
    trivial
  · rw [hstuck.eval_eq]
    exact isSteady_func.2 h

/-- The normal form of a steady value is steady. -/
lemma IsSteady.normalize {t : Ty} (h : t.IsSteady) : t.normalize.IsSteady := by
  induction t with
  | void | const | var | int | star => trivial
  | seq | contract =>
    have hplain : IsPlain _ := h
    exact IsPlain.isSteady (Within.normalize hplain)
  | tuple items ih =>
    rw [Ty.normalize, normalizeAll_eq_map, isSteady_tuple, List.forall_mem_map]
    intro t ht
    exact ih t ht (isSteady_tuple.1 h t ht)
  | func fn args ih =>
    rw [Ty.normalize, normalizeAll_eq_map]
    exact isSteady_eval (List.forall_mem_map.2 fun t ht => ih t ht (isSteady_func.1 h t ht))
  | list element length ihe ihl => exact isSteady_listOf (ihe h.1) (ihl h.2)

lemma IsSteady.subst (hb : b.IsPlain) {t : Ty} (h : t.IsSteady) : (t.subst b).IsSteady :=
  (h.expand hb).normalize

/-! ### Substituting in stages -/

/-- Replacing variables in a length function and normalizing can be done before it is evaluated. -/
lemma normalize_expand_eval (fn : LengthFn) (args : List Ty) (look : Nat → String → Ty)
    (depth : Nat) : ((fn.eval args).expand look depth).normalize =
      fn.eval (args.map fun t => (t.expand look depth).normalize) := by
  by_cases hstuck : fn.Stuck args
  · rw [hstuck.eval_eq, Ty.expand, Ty.normalize, expandAll_eq_map, normalizeAll_eq_map,
      List.map_map]
    rfl
  · rw [LengthFn.eval_map_of_not_stuck rfl (fun _ => rfl) hstuck]
    rcases fn.eval_cases args with heq | ⟨n, heq⟩ | h
    · rw [heq]
      rfl
    · rw [heq]
      rfl
    · exact absurd h hstuck

/-- Replacing variables in a list and normalizing can be done before it is looked at whether the
list is empty. -/
lemma normalize_expand_listOf (element length : Ty) (look : Nat → String → Ty) (depth : Nat) :
    ((listOf element length).expand look depth).normalize =
      listOf (element.expand look depth).normalize (length.expand look depth).normalize := by
  cases length with
  | int n =>
    by_cases hn : n ≤ 0
    · simp [listOf, hn, Ty.expand, Ty.normalize]
    · simp [listOf, hn, Ty.expand, Ty.normalize]
  | _ => rfl

/-- Normalizing a steady value before its variables are replaced makes no difference. -/
lemma IsSteady.normalize_expand_normalize {t : Ty} (h : t.IsSteady) (look : Nat → String → Ty)
    (depth : Nat) :
    (t.normalize.expand look depth).normalize = (t.expand look depth).normalize := by
  induction t with
  | void | const | var | int | star => rfl
  | seq | contract =>
    have hplain : IsPlain _ := h
    have hnormal : IsPlain _ := Within.normalize hplain
    rw [hplain.normalize_expand, hnormal.normalize_expand, normalize_normalize]
  | tuple items ih =>
    have hitems := fun t ht => ih t ht (isSteady_tuple.1 h t ht)
    simp only [Ty.normalize, Ty.expand, normalizeAll_eq_map, expandAll_eq_map, List.map_map]
    exact congrArg _ (List.map_congr_left hitems)
  | func fn args ih =>
    have hargs := fun t ht => ih t ht (isSteady_func.1 h t ht)
    rw [Ty.normalize, normalize_expand_eval, Ty.expand, Ty.normalize]
    simp only [normalizeAll_eq_map, expandAll_eq_map, List.map_map]
    exact congrArg _ (List.map_congr_left hargs)
  | list element length ihe ihl =>
    rw [Ty.normalize, normalize_expand_listOf, ihe h.1, ihl h.2]
    rfl

/-- A variable that is bound to a plain value stands for the same under more bindings. -/
lemma look_eq_of_extendedBy (hb : b.IsPlain) (hbb' : b.ExtendedBy b') {x : String} {t : Ty}
    (hx : b.find? x = some t) : b'.look 0 x = b.look 0 x := by
  obtain ⟨bound, hlook⟩ := Bindings.look_zero_of_find?_eq_some hx
  obtain ⟨bound', hlook'⟩ := Bindings.look_zero_of_find?_eq_some (hbb' x t hx)
  have ht : t.IsPlain := hb x t hx
  rw [hlook, hlook']
  exact congrArg _ (ht.expand_congr _ _ 1 1)

/-- Replacing the variables of a steady value under some bindings and then under more bindings is
replacing them under the latter. -/
lemma IsSteady.normalize_expand_expand (hb : b.IsPlain) (hbb' : b.ExtendedBy b') {t : Ty}
    (h : t.IsSteady) :
    ((t.expand b.look 0).expand b'.look 0).normalize = (t.expand b'.look 0).normalize := by
  induction t with
  | void | const | int | star => rfl
  | var x =>
    cases hx : b.find? x with
    | none => rw [Ty.expand, Bindings.look_of_find?_eq_none hx]
    | some t =>
      rw [Ty.expand, Ty.expand, (isPlain_look hb hx).normalize_expand,
        look_eq_of_extendedBy hb hbb' hx]
  | seq | contract =>
    have hplain : IsPlain _ := h
    rw [(hplain.expand _ _).normalize_expand, hplain.normalize_expand, hplain.normalize_expand]
  | tuple items ih =>
    have hitems := fun t ht => ih t ht (isSteady_tuple.1 h t ht)
    simp only [Ty.normalize, Ty.expand, normalizeAll_eq_map, expandAll_eq_map, List.map_map]
    exact congrArg _ (List.map_congr_left hitems)
  | func fn args ih =>
    have hargs := fun t ht => ih t ht (isSteady_func.1 h t ht)
    simp only [Ty.normalize, Ty.expand, normalizeAll_eq_map, expandAll_eq_map, List.map_map]
    exact congrArg _ (List.map_congr_left hargs)
  | list element length ihe ihl =>
    simp only [Ty.normalize, Ty.expand, ihe h.1, ihl h.2]

/-- Substituting plain bindings into a steady value and later more bindings is substituting the
latter at once. -/
theorem IsSteady.subst_subst (hb : b.IsPlain) (hbb' : b.ExtendedBy b') {t : Ty}
    (h : t.IsSteady) : (t.subst b).subst b' = t.subst b' := by
  rw [Ty.subst, Ty.subst, (h.expand hb).normalize_expand_normalize,
    h.normalize_expand_expand hb hbb']
  rfl

end Ty

end ContractComposition

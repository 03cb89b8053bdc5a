import ContractComposition.Proofs.Annotations
import ContractComposition.Proofs.Substitution

/-!
# Equality up to annotations

Equality of values and their order look at the two sides of a contract only. `Ty.bare` drops all the
rest from every contract in a value, so that values are equal exactly if they are the same once
they are bare (`Ty.beq_iff_bare_eq`), and values that the order does not tell apart are equal
(`Ty.bare_eq_of_cmp_eq`).

Normalizing commutes with this (`Ty.bare_normalize`), so that values can be compared up to both
normal form and annotations: they then have the same `Ty.core`. Substituting bindings commutes with
dropping annotations as well, as long as no contract in the value carries constraints, which may
make it collapse; then equal values stay equal (`Ty.bare_subst_congr`).
-/

namespace ContractComposition

mutual

/-- The value without the annotations of the contracts in it. -/
def Ty.bare : Ty → Ty
  | .seq items => .seq (Ty.bareAll items)
  | .tuple items => .tuple (Ty.bareAll items)
  | .list element length => .list element.bare length.bare
  | .func fn args => .func fn (Ty.bareAll args)
  | .contract body => .contract body.bare
  | .void => .void
  | .const name => .const name
  | .var name => .var name
  | .int n => .int n
  | .star => .star

/-- The values of a list without annotations. -/
def Ty.bareAll : List Ty → List Ty
  | [] => []
  | t :: ts => t.bare :: Ty.bareAll ts

/-- A contract with nothing but its two sides. -/
def Contract.bare : Contract → Contract
  | ⟨receives, yields, _, _, _, _⟩ => ⟨receives.bare, yields.bare, none, [], none, false⟩

end

namespace Ty

lemma bareAll_eq_map (ts : List Ty) : bareAll ts = ts.map bare := by
  induction ts with
  | nil => rfl
  | cons t ts ih => simp [bareAll, ih]

/-- Lists that agree in one respect agree in another one, if this holds of values in the same
place. -/
lemma map_eq_map_of_zip {α : Type} {f : Ty → Ty} {g : Ty → α} {ts us : List Ty}
    (h : ts.map f = us.map f) (hzip : ∀ p ∈ ts.zip us, f p.1 = f p.2 → g p.1 = g p.2) :
    ts.map g = us.map g := by
  induction ts generalizing us with
  | nil =>
    cases us with
    | nil => rfl
    | cons => cases h
  | cons t ts ih =>
    cases us with
    | nil => cases h
    | cons u us =>
      obtain ⟨hfirst, hrest⟩ := List.cons.inj h
      obtain ⟨hzip, hzips⟩ := List.forall_mem_cons.1 hzip
      rw [List.map_cons, List.map_cons, hzip hfirst, ih hrest hzips]

lemma bare_contract (body : Contract) : (Ty.contract body).bare =
    .contract { receives := body.receives.bare, yields := body.yields.bare } := by
  cases body
  rfl

/-! ### Equality -/

lemma beqAll_iff_of_forall {as bs : List Ty}
    (ih : ∀ a ∈ as, ∀ b, a.beq b = true ↔ a.bare = b.bare) :
    beqAll as bs = true ↔ as.map bare = bs.map bare := by
  induction as generalizing bs with
  | nil => cases bs <;> simp [beqAll]
  | cons a as ihas =>
    have hall := List.forall_mem_cons.1 ih
    cases bs with
    | nil => simp [beqAll]
    | cons b bs => simp [beqAll, hall.1 b, ihas hall.2]

/-- Two values are equal exactly if they agree without annotations. -/
theorem beq_iff_bare_eq {a b : Ty} : a.beq b = true ↔ a.bare = b.bare := by
  induction a generalizing b with
  | void | star => cases b <;> simp [beq, bare]
  | const x | var x | int x => cases b <;> simp [beq, bare]
  | seq as ih | tuple as ih =>
    cases b with
    | seq bs | tuple bs =>
      simp [beq, bare, bareAll_eq_map, beqAll_iff_of_forall fun a ha b => ih a ha]
    | _ => simp [beq, bare]
  | func fn as ih =>
    cases b with
    | func fn' bs =>
      simp [beq, bare, bareAll_eq_map, beqAll_iff_of_forall fun a ha b => ih a ha]
    | _ => simp [beq, bare]
  | list element length ihe ihl => cases b <;> simp [beq, bare, ihe, ihl]
  | contract body ihr ihy =>
    cases b with
    | contract other =>
      obtain ⟨receives, yields, condition, forbidden, source, restorable⟩ := body
      simp [beq, Contract.beq, bare_contract, ihr, ihy]
    | _ => simp [beq, bare]

lemma beqAll_iff_bare_eq {as bs : List Ty} :
    beqAll as bs = true ↔ as.map bare = bs.map bare :=
  beqAll_iff_of_forall fun _ _ _ => beq_iff_bare_eq

/-! ### Order -/

lemma bareAll_eq_of_cmpAll_eq_of_forall {as bs : List Ty}
    (ih : ∀ a ∈ as, ∀ b, a.cmp b = .eq → a.bare = b.bare) (h : cmpAll as bs = .eq) :
    as.map bare = bs.map bare := by
  induction as generalizing bs with
  | nil =>
    cases bs with
    | nil => rfl
    | cons => cases h
  | cons a as ihas =>
    have hall := List.forall_mem_cons.1 ih
    cases bs with
    | nil => cases h
    | cons b bs =>
      rw [cmpAll, Ordering.then_eq_eq] at h
      rw [List.map_cons, List.map_cons, hall.1 b h.1, ihas hall.2 h.2]

/-- Values that the order does not tell apart agree without annotations. -/
theorem bare_eq_of_cmp_eq {a b : Ty} (h : a.cmp b = .eq) : a.bare = b.bare := by
  induction a generalizing b with
  | void | star => cases b <;> first | rfl | cases h
  | const x =>
    cases b with
    | const y =>
      have hxy : compare x y = .eq := h
      rw [Std.LawfulEqOrd.eq_of_compare hxy]
    | _ => cases h
  | var x =>
    cases b with
    | var y =>
      have hxy : compare x y = .eq := h
      rw [Std.LawfulEqOrd.eq_of_compare hxy]
    | _ => cases h
  | int x =>
    cases b with
    | int y =>
      have hxy : compare x y = .eq := h
      rw [Std.LawfulEqOrd.eq_of_compare hxy]
    | _ => cases h
  | seq as ih =>
    cases b with
    | seq bs =>
      rw [bare, bare, bareAll_eq_map, bareAll_eq_map,
        bareAll_eq_of_cmpAll_eq_of_forall (fun a ha b => ih a ha) h]
    | _ => cases h
  | tuple as ih =>
    cases b with
    | tuple bs =>
      rw [bare, bare, bareAll_eq_map, bareAll_eq_map,
        bareAll_eq_of_cmpAll_eq_of_forall (fun a ha b => ih a ha) h]
    | _ => cases h
  | func fn as ih =>
    cases b with
    | func fn' bs =>
      rw [cmp, Ordering.then_eq_eq] at h
      have hfn : fn = fn' := by
        cases fn <;> cases fn' <;> first | rfl | cases h.1
      rw [bare, bare, bareAll_eq_map, bareAll_eq_map, hfn,
        bareAll_eq_of_cmpAll_eq_of_forall (fun a ha b => ih a ha) h.2]
    | _ => cases h
  | list element length ihe ihl =>
    cases b with
    | list element' length' =>
      rw [cmp, Ordering.then_eq_eq] at h
      rw [bare, bare, ihe h.1, ihl h.2]
    | _ => cases h
  | contract body ihr ihy =>
    cases b with
    | contract other =>
      obtain ⟨receives, yields, condition, forbidden, source, restorable⟩ := body
      rw [cmp, Contract.cmp, Ordering.then_eq_eq] at h
      rw [bare_contract, bare_contract, ihr h.1, ihy h.2]
    | _ => cases h

lemma map_bare_eq_of_cmpAll_eq {as bs : List Ty} (h : cmpAll as bs = .eq) :
    as.map bare = bs.map bare :=
  bareAll_eq_of_cmpAll_eq_of_forall (fun _ _ _ => bare_eq_of_cmp_eq) h

/-! ### Normal forms -/

/-- Dropping all annotations changes nothing but annotations. -/
lemma redecorates_bare : Redecorates bare fun _ => { receives := .void, yields := .void } where
  void := rfl
  const _ := rfl
  var _ := rfl
  int _ := rfl
  star := rfl
  seq items := by rw [bare, bareAll_eq_map]
  tuple items := by rw [bare, bareAll_eq_map]
  list _ _ := rfl
  func fn args := by rw [bare, bareAll_eq_map]
  contract := bare_contract
  annotate _ _ _ := rfl

/-- Annotations play no part in normalizing. -/
theorem bare_normalize (t : Ty) : t.normalize.bare = t.bare.normalize :=
  (redecorates_bare.normalize_eq t).symm

/-! ### Normal forms up to annotations -/

/-- What a value is up to normal form and annotations. -/
def core (t : Ty) : Ty :=
  t.normalize.bare

lemma beq_normalize_iff {t u : Ty} : (t.normalize == u.normalize) = true ↔ t.core = u.core :=
  beq_iff_bare_eq

lemma core_seq (items : List Ty) : (Ty.seq items).core = sequence (items.map core) := by
  rw [core, normalize, normalizeAll_eq_map, ← redecorates_bare.sequence_eq, List.map_map]
  rfl

lemma core_tuple (items : List Ty) : (Ty.tuple items).core = .tuple (items.map core) := by
  rw [core, normalize, normalizeAll_eq_map, bare, bareAll_eq_map, List.map_map]
  rfl

lemma core_list (element length : Ty) :
    (Ty.list element length).core = listOf element.core length.core := by
  rw [core, normalize, ← redecorates_bare.listOf_eq]
  rfl

lemma core_func (fn : LengthFn) (args : List Ty) :
    (Ty.func fn args).core = fn.eval (args.map core) := by
  rw [core, normalize, normalizeAll_eq_map, ← redecorates_bare.eval_eq, List.map_map]
  rfl

/-- Contracts agree if their sides do. -/
lemma core_contract_congr {body body' : Contract} (hr : body.receives.core = body'.receives.core)
    (hy : body.yields.core = body'.yields.core) :
    (Ty.contract body).core = (Ty.contract body').core := by
  have hbare : ∀ c : Contract, (Ty.contract c).core =
      (Ty.contract { receives := c.receives.core, yields := c.yields.core }).normalize := by
    intro c
    rw [core, bare_normalize, bare_contract, normalize_contract, normalize_contract, core, core,
      ← bare_normalize, ← bare_normalize]
    dsimp only
    rw [← bare_normalize, ← bare_normalize, normalize_normalize, normalize_normalize]
    rfl
  rw [hbare body, hbare body', hr, hy]

lemma core_normalize (t : Ty) : t.normalize.core = t.core := by
  rw [core, normalize_normalize, core]

/-- The source of a contract is an annotation. -/
lemma bare_withSource (x : String) (t : Ty) : (t.withSource x).bare = t.bare := by
  unfold withSource
  split
  · split
    · rw [bare_contract, bare_contract]
    · rfl
  · rfl

lemma core_withSource (x : String) (t : Ty) : (t.withSource x).core = t.core := by
  rw [core, core, bare_normalize, bare_normalize, bare_withSource]

/-! ### Substitution -/

/-- Where contracts carry no constraints, annotations play no part in replacing variables. -/
lemma bare_expand {t : Ty} (h : t.Within .unconstrained) (look : Nat → String → Ty) (depth : Nat) :
    (t.bare.expand look depth).bare = (t.expand look depth).bare := by
  induction t generalizing depth with
  | void | const | var | int | star => rfl
  | seq items ih =>
    simp only [bare, expand, bareAll_eq_map, expandAll_eq_map, List.map_map]
    exact congrArg _ (List.map_congr_left fun t ht => ih t ht (within_seq.1 h t ht) depth)
  | tuple items ih =>
    simp only [bare, expand, bareAll_eq_map, expandAll_eq_map, List.map_map]
    exact congrArg _ (List.map_congr_left fun t ht => ih t ht (within_tuple.1 h t ht) depth)
  | func fn args ih =>
    simp only [bare, expand, bareAll_eq_map, expandAll_eq_map, List.map_map]
    exact congrArg _ (List.map_congr_left fun t ht => ih t ht (within_func.1 h t ht) depth)
  | list element length ihe ihl => simp only [bare, expand, ihe h.1, ihl h.2]
  | contract body ihr ihy =>
    obtain ⟨hc, hr, hy⟩ := within_contract.1 h
    obtain ⟨hcondition, hforbidden⟩ := hc.resolve_left id
    rw [expand_contract_of_unconstrained hcondition hforbidden, bare_contract, bare_contract,
      expand_contract_of_unconstrained rfl rfl, bare_contract]
    simp only [bare_normalize, ihr hr 0, ihy hy 0]

/-- Values that agree without annotations, and in which contracts carry no constraints, still agree
after substituting bindings. -/
theorem bare_subst_congr {t u : Ty} (ht : t.Within .unconstrained) (hu : u.Within .unconstrained)
    (h : t.bare = u.bare) (b : Bindings) : (t.subst b).bare = (u.subst b).bare := by
  rw [subst, subst, bare_normalize, bare_normalize, ← bare_expand ht, ← bare_expand hu, h]

end Ty

/-- Contracts with the same sides are equal. -/
lemma Contract.beq_of_sides {c c' : Contract} (hreceives : c.receives = c'.receives)
    (hyields : c.yields = c'.yields) : (c == c') = true := by
  have hvalue : (Ty.contract c).bare = (Ty.contract c').bare := by
    rw [Ty.bare_contract, Ty.bare_contract, hreceives, hyields]
  exact Ty.beq_iff_bare_eq.2 hvalue

end ContractComposition

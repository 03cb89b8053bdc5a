import ContractComposition.Bindings.Subst
import ContractComposition.Ty.Matching
import ContractComposition.Ty.Stream
import ContractComposition.Proofs.Tables

/-!
# What a value is made of

Much of what is true of a composition is about what its values are made of: which constants and
which variables occur in them, and whether the contracts inside carry constraints. `Parts` says
what is allowed, and `Ty.Within` that a value is made of nothing else. Like the variables of a
value, its parts are looked for in the sides of contracts and never in their exclusions.

Every operation on values makes its result out of the parts of its arguments. There is one lemma
for each of them: normalizing, taking the first element of a stream, concatenating,
substituting and matching.
-/

namespace ContractComposition

namespace Ty

/-- Induction over a value and the sides of the contracts in it. The exclusions of contracts are
left out: no function that looks at the parts of a value enters them. -/
@[elab_as_elim, induction_eliminator]
theorem sidesInduction {motive : Ty → Prop} (void : motive .void)
    (const : ∀ name, motive (.const name)) (var : ∀ name, motive (.var name))
    (int : ∀ n, motive (.int n)) (star : motive .star)
    (seq : ∀ items, (∀ t ∈ items, motive t) → motive (.seq items))
    (tuple : ∀ items, (∀ t ∈ items, motive t) → motive (.tuple items))
    (list : ∀ element length, motive element → motive length → motive (.list element length))
    (func : ∀ fn args, (∀ t ∈ args, motive t) → motive (.func fn args))
    (contract : ∀ body : Contract, motive body.receives → motive body.yields →
      motive (.contract body)) (t : Ty) : motive t :=
  @Ty.rec motive (fun body => motive body.receives ∧ motive body.yields) (fun _ => True)
    (fun items => ∀ t ∈ items, motive t) (fun _ => True) (fun _ => True)
    void const var int star seq tuple list func (fun body ih => contract body ih.1 ih.2)
    (fun _ _ _ _ _ _ hreceives hyields _ => ⟨hreceives, hyields⟩)
    (fun _ _ _ _ => trivial) (fun _ h => nomatch h)
    (fun _ _ hhead htail => List.forall_mem_cons.2 ⟨hhead, htail⟩)
    trivial (fun _ _ _ _ => trivial) trivial (fun _ _ _ _ => trivial) t

end Ty

/-- What a value may be made of. -/
structure Parts where
  /-- The constants that may occur. -/
  const : String → Prop := fun _ => True
  /-- The variables that may occur. -/
  var : String → Prop := fun _ => True
  /-- Whether the contracts inside may carry conditions and exclusions. -/
  constraints : Prop := True

namespace Parts

/-- Everything that the one allows is allowed by the other. -/
structure Le (P Q : Parts) : Prop where
  const : ∀ a, P.const a → Q.const a
  var : ∀ x, P.var x → Q.var x
  constraints : P.constraints → Q.constraints

lemma Le.refl (P : Parts) : P.Le P := ⟨fun _ => id, fun _ => id, id⟩

/-- The same parts, but other variables. -/
def withVars (P : Parts) (var : String → Prop) : Parts :=
  { P with var := var }

lemma le_withVars {P : Parts} {var : String → Prop} (h : ∀ x, P.var x → var x) :
    P.Le (P.withVars var) := ⟨fun _ ha => ha, h, fun hc => hc⟩

/-- The same parts, but no variables. -/
def ground (P : Parts) : Parts :=
  P.withVars fun _ => False

lemma ground_le (P : Parts) : P.ground.Le P := ⟨fun _ ha => ha, fun _ => False.elim, fun hc => hc⟩

lemma ground_le_withVars (P : Parts) (var : String → Prop) : P.ground.Le (P.withVars var) :=
  ⟨fun _ ha => ha, fun _ => False.elim, fun hc => hc⟩

end Parts

mutual

/-- The value is made of the given parts. -/
def Ty.Within (P : Parts) : Ty → Prop
  | .const name => P.const name
  | .var name => P.var name
  | .seq items => Ty.WithinAll P items
  | .tuple items => Ty.WithinAll P items
  | .list element length => element.Within P ∧ length.Within P
  | .func _ args => Ty.WithinAll P args
  | .contract body => body.Within P
  | .void => True
  | .int _ => True
  | .star => True

/-- The values of a list are made of the given parts. -/
def Ty.WithinAll (P : Parts) : List Ty → Prop
  | [] => True
  | t :: ts => t.Within P ∧ Ty.WithinAll P ts

/-- A contract inside a value is made of the given parts: so are its two sides, and it carries
constraints only if these are allowed. -/
def Contract.Within (P : Parts) : Contract → Prop
  | ⟨receives, yields, condition, forbidden, _, _⟩ =>
    (P.constraints ∨ condition = none ∧ forbidden = []) ∧ receives.Within P ∧ yields.Within P

end

namespace Ty

variable {P Q : Parts}

/-! ### The definition, constructor by constructor -/

lemma withinAll_iff {ts : List Ty} : WithinAll P ts ↔ ∀ t ∈ ts, t.Within P := by
  induction ts with
  | nil => simp [WithinAll]
  | cons t ts ih => simp [WithinAll, ih]

@[simp] lemma within_void : (Ty.void).Within P := trivial

@[simp] lemma within_int {n : Int64} : (Ty.int n).Within P := trivial

@[simp] lemma within_star : (Ty.star).Within P := trivial

@[simp] lemma within_const {a : String} : (Ty.const a).Within P ↔ P.const a := Iff.rfl

@[simp] lemma within_var {x : String} : (Ty.var x).Within P ↔ P.var x := Iff.rfl

@[simp]
lemma within_seq {items : List Ty} : (Ty.seq items).Within P ↔ ∀ t ∈ items, t.Within P :=
  withinAll_iff

@[simp]
lemma within_tuple {items : List Ty} : (Ty.tuple items).Within P ↔ ∀ t ∈ items, t.Within P :=
  withinAll_iff

@[simp]
lemma within_list {element length : Ty} :
    (Ty.list element length).Within P ↔ element.Within P ∧ length.Within P := Iff.rfl

@[simp]
lemma within_func {fn : LengthFn} {args : List Ty} :
    (Ty.func fn args).Within P ↔ ∀ t ∈ args, t.Within P :=
  withinAll_iff

@[simp]
lemma within_contract {body : Contract} :
    (Ty.contract body).Within P ↔
      (P.constraints ∨ body.condition = none ∧ body.forbidden = []) ∧
        body.receives.Within P ∧ body.yields.Within P := by
  cases body
  exact Iff.rfl

/-- More parts allow more values. -/
lemma Within.mono (hPQ : P.Le Q) {t : Ty} (h : t.Within P) : t.Within Q := by
  induction t with
  | void | int | star => trivial
  | const a => exact hPQ.const a h
  | var x => exact hPQ.var x h
  | seq items ih | tuple items ih | func fn items ih =>
    simp only [within_seq, within_tuple, within_func] at h ⊢
    intro t ht
    exact ih t ht (h t ht)
  | list element length ihe ihl => exact ⟨ihe h.1, ihl h.2⟩
  | contract body ihr ihy =>
    obtain ⟨hc, hr, hy⟩ := within_contract.1 h
    exact within_contract.2 ⟨hc.imp hPQ.constraints id, ihr hr, ihy hy⟩

lemma occurrences_contract (body : Contract) : (Ty.contract body).occurrences =
    body.receives.occurrences ++ body.yields.occurrences := by
  cases body
  rfl

/-- What is said of the variables among the parts is said of the variables that occur. -/
lemma within_withVars_iff {p : String → Prop} {t : Ty} :
    t.Within (P.withVars p) ↔ t.Within (P.withVars fun _ => True) ∧ ∀ x ∈ t.occurrences, p x := by
  induction t with
  | void | int | star | const => simp [occurrences, Parts.withVars]
  | var x => simp [occurrences, Parts.withVars]
  | seq items ih | tuple items ih | func fn items ih =>
    simp only [within_seq, within_tuple, within_func, occurrences, occurrencesAll_eq_flatMap,
      List.mem_flatMap]
    constructor
    · intro h
      refine ⟨fun t ht => ((ih t ht).1 (h t ht)).1, ?_⟩
      rintro x ⟨t, ht, hx⟩
      exact ((ih t ht).1 (h t ht)).2 x hx
    · rintro ⟨hall, hvars⟩ t ht
      exact (ih t ht).2 ⟨hall t ht, fun x hx => hvars x ⟨t, ht, hx⟩⟩
  | list element length ihe ihl =>
    simp only [within_list, ihe, ihl, occurrences, List.mem_append, or_imp, forall_and]
    tauto
  | contract body ihr ihy =>
    simp only [within_contract, ihr, ihy, occurrences_contract, List.mem_append, or_imp, forall_and]
    simp only [Parts.withVars]
    tauto

/-- A value without variables is made of the same parts less the variables. -/
lemma Within.ground_of_isGround {t : Ty} (h : t.Within P) (hground : t.isGround = true) :
    t.Within P.ground := by
  rw [isGround, List.isEmpty_iff] at hground
  refine within_withVars_iff.2 ⟨h.mono (Parts.le_withVars fun _ _ => trivial), ?_⟩
  rw [hground]
  intro x hx
  cases hx

/-- A value that is made of parts without variables has no variables. -/
lemma Within.isGround {t : Ty} (h : t.Within P.ground) : t.isGround = true := by
  rw [Ty.isGround, List.isEmpty_iff, List.eq_nil_iff_forall_not_mem]
  exact (within_withVars_iff.1 h).2

end Ty

/-! ### Normal forms and streams -/

/-- A property that a compound value has exactly if its parts have it. Of a contract it may demand
something else besides, whatever the sides are. -/
structure Ty.Hereditary (q : Ty → Prop) (annotated : Contract → Prop) : Prop where
  void : q .void
  int : ∀ n, q (.int n)
  star : q .star
  seq : ∀ {items}, q (.seq items) ↔ ∀ t ∈ items, q t
  tuple : ∀ {items}, q (.tuple items) ↔ ∀ t ∈ items, q t
  list : ∀ {element length}, q (.list element length) ↔ q element ∧ q length
  func : ∀ {fn args}, q (.func fn args) ↔ ∀ t ∈ args, q t
  contract : ∀ {body}, q (.contract body) ↔ annotated body ∧ q body.receives ∧ q body.yields
  annotated : ∀ {body : Contract} (receives yields : Ty), annotated body →
    annotated { body with receives := receives, yields := yields }

namespace Ty

/-- The normal form of a contract has the normal forms of its sides. -/
lemma normalize_contract (body : Contract) : (Ty.contract body).normalize =
    body.withSides body.receives.normalize body.yields.normalize := by
  cases body
  rfl

namespace Hereditary

variable {q : Ty → Prop} {annotated : Contract → Prop} (hq : Hereditary q annotated)

include hq

/-- Opening nested sequences gives nothing new. -/
lemma of_mem_flatten {t : Ty} (h : q t) : ∀ u ∈ t.flatten, q u := by
  induction t with
  | seq items ih =>
    intro u hu
    rw [Ty.flatten, flattenAll_eq_flatMap, List.mem_flatMap] at hu
    obtain ⟨t, ht, hu⟩ := hu
    exact ih t ht (hq.seq.1 h t ht) u hu
  | void =>
    intro u hu
    cases hu
  | const | var | int | star | tuple | list | func | contract =>
    intro u hu
    rw [List.mem_singleton.1 hu]
    exact h

lemma ofMembers {ts : List Ty} (h : ∀ t ∈ ts, q t) : q (Ty.ofMembers ts) := by
  unfold Ty.ofMembers
  split
  · exact hq.void
  · exact hq.seq.2 h
  · exact h _ List.mem_cons_self
  · exact hq.seq.2 h

lemma sequence {ts : List Ty} (h : ∀ t ∈ ts, q t) : q (Ty.sequence ts) := by
  refine hq.ofMembers fun u hu => ?_
  rw [flattenAll_eq_flatMap, List.mem_flatMap] at hu
  obtain ⟨t, ht, hu⟩ := hu
  exact hq.of_mem_flatten (h t ht) u hu

lemma listOf {element length : Ty} (he : q element) (hl : q length) :
    q (Ty.listOf element length) := by
  unfold Ty.listOf
  split
  · split
    · exact hq.void
    · exact hq.list.2 ⟨he, hq.int _⟩
  · exact hq.list.2 ⟨he, hl⟩

lemma eval {fn : LengthFn} {args : List Ty} (h : ∀ t ∈ args, q t) : q (fn.eval args) := by
  unfold LengthFn.eval
  split
  · exact hq.star
  · cases fn <;> dsimp only <;> split <;> first | exact hq.int _ | exact hq.func.2 h

/-- The normal form of a value inherits the property. -/
lemma normalize {t : Ty} (h : q t) : q t.normalize := by
  induction t with
  | void | int | star | const | var => exact h
  | seq items ih =>
    rw [Ty.normalize, normalizeAll_eq_map]
    exact hq.sequence (List.forall_mem_map.2 fun t ht => ih t ht (hq.seq.1 h t ht))
  | tuple items ih =>
    rw [Ty.normalize, normalizeAll_eq_map]
    exact hq.tuple.2 (List.forall_mem_map.2 fun t ht => ih t ht (hq.tuple.1 h t ht))
  | list element length ihe ihl =>
    obtain ⟨he, hl⟩ := hq.list.1 h
    exact hq.listOf (ihe he) (ihl hl)
  | func fn args ih =>
    rw [Ty.normalize, normalizeAll_eq_map]
    exact hq.eval (List.forall_mem_map.2 fun t ht => ih t ht (hq.func.1 h t ht))
  | contract body ihr ihy =>
    obtain ⟨hc, hr, hy⟩ := hq.contract.1 h
    rw [normalize_contract, Contract.withSides]
    split
    · exact hq.void
    · exact hq.contract.2 ⟨hq.annotated _ _ hc, ihr hr, ihy hy⟩

end Hereditary

variable {P Q : Parts}

lemma hereditary_within : Hereditary (Within P)
    fun body => P.constraints ∨ body.condition = none ∧ body.forbidden = [] where
  void := within_void
  int _ := within_int
  star := within_star
  seq := within_seq
  tuple := within_tuple
  list := within_list
  func := within_func
  contract := within_contract
  annotated _ _ h := h

lemma within_ofMembers {ts : List Ty} (h : ∀ t ∈ ts, t.Within P) : (ofMembers ts).Within P :=
  hereditary_within.ofMembers h

lemma within_sequence {ts : List Ty} (h : ∀ t ∈ ts, t.Within P) : (sequence ts).Within P :=
  hereditary_within.sequence h

lemma within_listOf {element length : Ty} (he : element.Within P) (hl : length.Within P) :
    (listOf element length).Within P :=
  hereditary_within.listOf he hl

lemma within_eval {fn : LengthFn} {args : List Ty} (h : ∀ t ∈ args, t.Within P) :
    (fn.eval args).Within P :=
  hereditary_within.eval h

/-- The normal form of a value is made of parts of the value. -/
lemma Within.normalize {t : Ty} (h : t.Within P) : t.normalize.Within P :=
  hereditary_within.normalize h

/-- The first element of a stream and what remains are made of parts of the stream. -/
lemma Within.pop? {t head rest : Ty} (h : t.Within P) (hpop : t.pop? = some (head, rest)) :
    head.Within P ∧ rest.Within P := by
  unfold Ty.pop? at hpop
  split at hpop
  · cases hpop
  · cases hpop
  · cases hpop
  · cases hpop
  · cases hpop
  · rename_i first others
    cases hpop
    have hall := List.forall_mem_cons.1 (within_seq.1 h)
    exact ⟨hall.1, within_sequence hall.2⟩
  · cases hpop
    exact ⟨h.1, h⟩
  · split at hpop
    · cases hpop
    · cases hpop
      exact ⟨h.1, within_listOf h.1 (within_eval (by simp))⟩
  · cases hpop
    refine ⟨h.1, within_listOf h.1 (within_eval ?_)⟩
    intro t ht
    exact List.mem_singleton.1 ht ▸ h.2
  · cases hpop
    exact ⟨h, trivial⟩
  · cases hpop
    exact ⟨h, trivial⟩
  · cases hpop
    exact ⟨h, trivial⟩
  · cases hpop
    exact ⟨h, trivial⟩

lemma Within.items {t : Ty} (h : t.Within P) : ∀ u ∈ t.items, u.Within P := by
  unfold Ty.items
  split
  · intro u hu
    cases hu
  · exact within_seq.1 h
  · intro u hu
    exact List.mem_singleton.1 hu ▸ h

lemma Within.streamMembers {t : Ty} (h : t.Within P) : ∀ u ∈ t.streamMembers, u.Within P := by
  unfold Ty.streamMembers
  split
  · split
    · intro u hu
      exact List.eq_of_mem_replicate hu ▸ h.1
    · intro u hu
      exact List.mem_singleton.1 hu ▸ h
  · exact h.items

lemma Within.concat {t u : Ty} (ht : t.Within P) (hu : u.Within P) : (t.concat u).Within P := by
  unfold Ty.concat
  split
  · exact hu
  · exact ht
  · refine within_sequence fun v hv => ?_
    exact (List.mem_append.1 hv).elim (ht.streamMembers v) (hu.streamMembers v)

/-- If every member of a list is a contract, the list is made of just these contracts. -/
lemma eq_map_of_mapM_contract? {items : List Ty} {contracts : List Contract}
    (h : items.mapM contract? = some contracts) : items = contracts.map .contract := by
  induction items generalizing contracts with
  | nil =>
    cases h
    rfl
  | cons t ts ih =>
    rw [List.mapM_cons] at h
    simp only [Option.bind_eq_bind, Option.bind_eq_some_iff, Option.pure_def,
      Option.some.injEq] at h
    obtain ⟨c, hc, cs, hcs, rfl⟩ := h
    cases t with
    | contract body =>
      cases hc
      rw [List.map_cons, ih hcs]
    | _ => cases hc

/-- A value that starts contracts starts at least one. -/
lemma ne_nil_of_contracts? {t : Ty} {contracts : List Contract}
    (h : t.contracts? = some contracts) : contracts ≠ [] := by
  unfold Ty.contracts? at h
  split at h
  · cases h
    exact List.cons_ne_nil _ _
  · cases h
  · rename_i items hitems
    rintro rfl
    exact hitems (eq_map_of_mapM_contract? h)
  · cases h

/-- The contracts that a value starts are made of its parts. -/
lemma Within.contracts? {t : Ty} {contracts : List Contract} (h : t.Within P)
    (hc : t.contracts? = some contracts) : ∀ c ∈ contracts, (Ty.contract c).Within P := by
  unfold Ty.contracts? at hc
  split at hc
  · cases hc
    intro c hmem
    exact List.mem_singleton.1 hmem ▸ h
  · cases hc
  · rename_i items _
    intro c hmem
    rw [within_tuple, eq_map_of_mapM_contract? hc] at h
    exact h _ (List.mem_map_of_mem hmem)
  · cases hc

end Ty

/-! ### Substitution -/

/-- If no exclusion of a contract is violated, both of its sides are replaced and normalized. -/
lemma Contract.expand_of_expandInto? {look : Nat → String → Ty} {c : Contract}
    {table : List Exclusion} (h : Exclusions.expandInto? look [] c.forbidden = some table) :
    c.expand look =
      { receives := (c.receives.expand look 0).normalize
        yields := (c.yields.expand look 0).normalize
        condition := c.condition.map (Condition.rename fun x => (look 0 x).normalize)
        forbidden := table
        source := c.source
        restorable := c.restorable } := by
  obtain ⟨receives, yields, condition, forbidden, source, restorable⟩ := c
  rw [Contract.expand, h]

/-- A contract collapses, or both of its sides are replaced and normalized. -/
lemma Contract.expand_cases (look : Nat → String → Ty) (c : Contract) :
    c.expand look = Contract.collapsed c.source ∨
      ∃ table, Exclusions.expandInto? look [] c.forbidden = some table ∧
        c.expand look =
          { receives := (c.receives.expand look 0).normalize
            yields := (c.yields.expand look 0).normalize
            condition := c.condition.map (Condition.rename fun x => (look 0 x).normalize)
            forbidden := table
            source := c.source
            restorable := c.restorable } := by
  cases h : Exclusions.expandInto? look [] c.forbidden with
  | some table => exact .inr ⟨table, rfl, expand_of_expandInto? h⟩
  | none =>
    obtain ⟨receives, yields, condition, forbidden, source, restorable⟩ := c
    rw [Contract.expand, h]
    exact .inl rfl

/-- The values that a table binds are made of the given parts. -/
def Bindings.Within (P : Parts) (b : Bindings) : Prop :=
  ∀ x t, b.find? x = some t → t.Within P

/-- What a variable stands for has a property if variables have it and each replacement passes it
on. Where only some variables matter, the property is needed of these. -/
lemma Bindings.lookWithin_induction {b : Bindings} {q : String → Prop} {p : Ty → Prop}
    (hvar : ∀ x, q x → p (.var x))
    (hstep : ∀ x t look depth, b.find? x = some t → (∀ depth y, q y → p (look depth y)) →
      p ((t.expand look depth).withSource x))
    {x : String} (hx : q x) (bound depth : Nat) : p (b.lookWithin bound depth x) := by
  induction bound generalizing depth x with
  | zero => exact hvar x hx
  | succ bound ih =>
    rw [lookWithin]
    split
    · exact hvar x hx
    · rename_i t ht
      split
      · exact hvar x hx
      · exact hstep x t _ _ ht fun depth y hy => ih hy depth

namespace Ty

variable {P Q : Parts} {b : Bindings}

lemma Within.withSource {t : Ty} (h : t.Within P) (x : String) : (t.withSource x).Within P := by
  unfold Ty.withSource
  split
  · split
    · have hbody := within_contract.1 h
      exact within_contract.2 hbody
    · exact h
  · exact h

/-- Replacing variables turns parts `P` into parts `Q` if it does so with each variable. -/
lemma Within.expand {look : Nat → String → Ty} {depth : Nat}
    (hconst : ∀ a, P.const a → Q.const a) (hconstraints : P.constraints → Q.constraints)
    (hlook : ∀ x, P.var x → (look depth x).Within Q) (hlook₀ : ∀ x, P.var x → (look 0 x).Within Q)
    {t : Ty} (h : t.Within P) : (t.expand look depth).Within Q := by
  induction t generalizing depth with
  | void | int | star => trivial
  | const a => exact hconst a h
  | var x => exact hlook x h
  | seq items ih =>
    rw [Ty.expand, expandAll_eq_map, within_seq, List.forall_mem_map]
    intro t ht
    exact ih t ht hlook (within_seq.1 h t ht)
  | tuple items ih =>
    rw [Ty.expand, expandAll_eq_map, within_tuple, List.forall_mem_map]
    intro t ht
    exact ih t ht hlook (within_tuple.1 h t ht)
  | func fn args ih =>
    rw [Ty.expand, expandAll_eq_map, within_func, List.forall_mem_map]
    intro t ht
    exact ih t ht hlook (within_func.1 h t ht)
  | list element length ihe ihl => exact ⟨ihe hlook h.1, ihl hlook h.2⟩
  | contract body ihr ihy =>
    obtain ⟨hc, hr, hy⟩ := within_contract.1 h
    rw [Ty.expand, within_contract]
    rcases Contract.expand_cases look body with heq | ⟨table, htable, heq⟩
    · rw [heq]
      exact ⟨.inr ⟨rfl, rfl⟩, trivial, trivial⟩
    · rw [heq]
      refine ⟨hc.imp hconstraints ?_, (ihr hlook₀ hr).normalize, (ihy hlook₀ hy).normalize⟩
      rintro ⟨hcondition, hforbidden⟩
      rw [hforbidden, Exclusions.expandInto?] at htable
      exact ⟨by rw [hcondition, Option.map_none], (Option.some.inj htable).symm⟩

/-- What a variable stands for is made of the parts of the table's values. -/
lemma within_lookWithin (hb : b.Within P) {x : String} (hx : P.var x) (bound depth : Nat) :
    (b.lookWithin bound depth x).Within P := by
  refine Bindings.lookWithin_induction (p := Ty.Within P) (fun _ hx => hx) ?_ hx bound depth
  intro x t look depth ht hlook
  have hexpand : (t.expand look depth).Within P :=
    Within.expand (fun _ => id) id (hlook depth) (hlook 0) (hb x t ht)
  exact hexpand.withSource x

/-- Substitution makes nothing that is neither in the value nor in the table. -/
lemma Within.subst (hb : b.Within P) {t : Ty} (h : t.Within P) : (t.subst b).Within P :=
  (Within.expand (fun _ => id) id (fun _ hx => within_lookWithin hb hx _ _)
    (fun _ hx => within_lookWithin hb hx _ _) h).normalize

end Ty

/-! ### Matching -/

namespace Bindings

variable {P : Parts}

lemma within_empty : (∅ : Bindings).Within P := by
  intro x t h
  simp at h

lemma within_bind {b : Bindings} (hb : b.Within P) {x : String} {t : Ty} (ht : t.Within P) :
    (b.bind x t).Within P := by
  intro y u hu
  rw [bind, NameTable.find?_insert] at hu
  split at hu
  · exact Option.some.inj hu ▸ ht
  · exact hb y u hu

lemma within_join? {b other joined : Bindings} (hb : b.Within P) (hother : other.Within P)
    (h : b.join? other = some joined) : joined.Within P := by
  intro x t hx
  exact (find?_of_join? h hx).elim (hb x t) (hother x t)

end Bindings

namespace Ty

lemma matchingAll?_nil_eq_some_iff {values : List Ty} {found result : Bindings} :
    matchingAll? found [] values = some result ↔ values = [] ∧ found = result := by
  cases values <;> simp [matchingAll?]

lemma matchingAll?_cons_eq_some_iff {p : Ty} {ps values : List Ty} {found result : Bindings} :
    matchingAll? found (p :: ps) values = some result ↔
      ∃ v vs more joined, values = v :: vs ∧ p.matching? v = some more ∧
        found.join? more = some joined ∧ matchingAll? joined ps vs = some result := by
  cases values <;> simp [matchingAll?, Option.bind_eq_some_iff]

lemma matching?_list_eq_some_iff {element length offered : Ty} {found : Bindings} :
    (Ty.list element length).matching? offered = some found ↔
      ∃ element' length' found₁ found₂, offered = .list element' length' ∧
        element.matching? element' = some found₁ ∧ length.matching? length' = some found₂ ∧
        found₁.join? found₂ = some found := by
  cases offered <;> simp [Ty.matching?, Option.bind_eq_some_iff]

lemma matching?_contract_eq_some_iff {c : Contract} {offered : Ty} {found : Bindings} :
    (Ty.contract c).matching? offered = some found ↔
      ∃ c' found₁ found₂, offered = .contract c' ∧ c.receives.matching? c'.receives = some found₁ ∧
        c.yields.matching? c'.yields = some found₂ ∧ found₁.join? found₂ = some found := by
  cases c
  cases offered <;> simp [Ty.matching?, Contract.matching?, Option.bind_eq_some_iff]

/-- A variable is bound to nothing but the whole offered value. -/
lemma find?_of_matching?_var {x y : String} {offered t : Ty} {found : Bindings}
    (h : (Ty.var x).matching? offered = some found) (hy : found.find? y = some t) :
    y = x ∧ t = offered := by
  rw [Ty.matching?] at h
  split at h
  · obtain rfl := Option.some.inj h
    simp at hy
  · split at h
    · cases h
    · rw [← Option.some.inj h, Bindings.bind, NameTable.find?_insert] at hy
      split at hy
      · rename_i hname
        exact ⟨hname, (Option.some.inj hy).symm⟩
      · simp at hy

/-- Matching values of some kind one by one makes bindings of some kind, if each match does so. -/
lemma forall_find?_matchingAll? {offers : Ty → Prop} {binds : String → Ty → Prop}
    {patterns values : List Ty}
    (ih : ∀ p ∈ patterns, ∀ {offered : Ty} {found : Bindings}, offers offered →
      p.matching? offered = some found → ∀ x t, found.find? x = some t → binds x t)
    {found result : Bindings} (hfound : ∀ x t, found.find? x = some t → binds x t)
    (hvalues : ∀ v ∈ values, offers v) (h : matchingAll? found patterns values = some result) :
    ∀ x t, result.find? x = some t → binds x t := by
  induction patterns generalizing values found with
  | nil =>
    obtain ⟨-, rfl⟩ := matchingAll?_nil_eq_some_iff.1 h
    exact hfound
  | cons p ps ihps =>
    obtain ⟨v, vs, more, joined, rfl, hmore, hjoined, hrest⟩ := matchingAll?_cons_eq_some_iff.1 h
    obtain ⟨hv, hvs⟩ := List.forall_mem_cons.1 hvalues
    obtain ⟨hp, hps⟩ := List.forall_mem_cons.1 ih
    refine ihps hps (fun x t hx => ?_) hvs hrest
    exact (Bindings.find?_of_join? hjoined hx).elim (hfound x t) (hp hv hmore x t)

/-- A property that the parts of a value have if the value has it. -/
structure Inherited (q : Ty → Prop) : Prop where
  seq : ∀ {items}, q (.seq items) → ∀ t ∈ items, q t
  tuple : ∀ {items}, q (.tuple items) → ∀ t ∈ items, q t
  list : ∀ {element length}, q (.list element length) → q element ∧ q length
  func : ∀ {fn args}, q (.func fn args) → ∀ t ∈ args, q t
  contract : ∀ {body}, q (.contract body) → q body.receives ∧ q body.yields

lemma Hereditary.inherited {q : Ty → Prop} {annotated : Contract → Prop}
    (hq : Hereditary q annotated) : Inherited q where
  seq := hq.seq.1
  tuple := hq.tuple.1
  list := hq.list.1
  func := hq.func.1
  contract h := (hq.contract.1 h).2

lemma inherited_true : Inherited fun _ => True := by
  constructor <;> simp

lemma Inherited.binds_of_matchingAll? {q : Ty → Prop} {patterns values : List Ty}
    {found : Bindings}
    (ih : ∀ p ∈ patterns, ∀ {offered : Ty} {found : Bindings}, q offered →
      p.matching? offered = some found →
        ∀ x t, found.find? x = some t → x ∈ p.occurrences ∧ q t)
    (hvalues : ∀ v ∈ values, q v) (h : matchingAll? ∅ patterns values = some found) :
    ∀ x t, found.find? x = some t → x ∈ occurrencesAll patterns ∧ q t := by
  rw [occurrencesAll_eq_flatMap]
  refine forall_find?_matchingAll? (fun p hp _ _ ho hmatch x t hx => ?_) (fun x t hx => ?_)
    hvalues h
  · obtain ⟨hmem, ht⟩ := ih p hp ho hmatch x t hx
    exact ⟨List.mem_flatMap.2 ⟨p, hp, hmem⟩, ht⟩
  · simp at hx

/-- A match binds variables of the pattern to parts of the offered value, so these have what they
inherit from it. -/
lemma Inherited.binds_of_matching? {q : Ty → Prop} (hq : Inherited q) {pattern offered : Ty}
    {found : Bindings} (ho : q offered) (h : pattern.matching? offered = some found) :
    ∀ x t, found.find? x = some t → x ∈ pattern.occurrences ∧ q t := by
  have hempty : ∀ {vars : List String}, ∀ x t, (∅ : Bindings).find? x = some t →
      x ∈ vars ∧ q t := by
    intro _ x t hx
    simp at hx
  induction pattern generalizing offered found with
  | var x =>
    intro y t hy
    obtain ⟨rfl, rfl⟩ := find?_of_matching?_var h hy
    exact ⟨List.mem_cons_self, ho⟩
  | void | star => cases offered <;> cases h <;> exact hempty
  | const a | int a =>
    cases offered <;> try cases h
    rw [Ty.matching?] at h
    split at h
    · exact Option.some.inj h ▸ hempty
    · cases h
  | seq patterns ih =>
    cases offered <;> try cases h
    exact binds_of_matchingAll? ih (hq.seq ho) h
  | tuple patterns ih =>
    cases offered <;> try cases h
    exact binds_of_matchingAll? ih (hq.tuple ho) h
  | func fn args ih =>
    cases offered <;> try cases h
    rw [Ty.matching?] at h
    split at h
    · exact binds_of_matchingAll? ih (hq.func ho) h
    · cases h
  | list element length ihe ihl =>
    obtain ⟨_, _, found₁, found₂, rfl, h₁, h₂, hjoin⟩ := matching?_list_eq_some_iff.1 h
    obtain ⟨he, hl⟩ := hq.list ho
    intro x t hx
    rw [occurrences, List.mem_append]
    exact (Bindings.find?_of_join? hjoin hx).elim (fun hx => (ihe he h₁ x t hx).imp_left .inl)
      fun hx => (ihl hl h₂ x t hx).imp_left .inr
  | contract body ihr ihy =>
    obtain ⟨_, found₁, found₂, rfl, h₁, h₂, hjoin⟩ := matching?_contract_eq_some_iff.1 h
    obtain ⟨hr, hy⟩ := hq.contract ho
    intro x t hx
    rw [occurrences_contract, List.mem_append]
    exact (Bindings.find?_of_join? hjoin hx).elim (fun hx => (ihr hr h₁ x t hx).imp_left .inl)
      fun hx => (ihy hy h₂ x t hx).imp_left .inr

/-- A match binds no variables but those of the pattern. -/
lemma mem_occurrences_of_matching? {pattern offered : Ty} {found : Bindings}
    (h : pattern.matching? offered = some found) :
    ∀ x t, found.find? x = some t → x ∈ pattern.occurrences :=
  fun x t hx => (inherited_true.binds_of_matching? trivial h x t hx).1

/-- What a match binds inherits what the offered value has. -/
lemma Hereditary.of_matching? {q : Ty → Prop} {annotated : Contract → Prop}
    (hq : Hereditary q annotated) {pattern offered : Ty} {found : Bindings} (ho : q offered)
    (h : pattern.matching? offered = some found) : ∀ x t, found.find? x = some t → q t :=
  fun x t hx => (hq.inherited.binds_of_matching? ho h x t hx).2

lemma within_matching? {P : Parts} {pattern offered : Ty} {found : Bindings} (ho : offered.Within P)
    (h : pattern.matching? offered = some found) : found.Within P :=
  hereditary_within.of_matching? ho h

end Ty

end ContractComposition

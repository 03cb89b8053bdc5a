import ContractComposition.Proofs.Equality
import ContractComposition.Proofs.Matching
import ContractComposition.Proofs.Streams
import ContractComposition.Proofs.Run.Law

/-!
# First-order values

A value is *first-order* if it is a constant, a variable or a tuple of first-order values. A side of
a contract is first-order if it is `void`, one such value or a sequence of at least two of them: it
is then determined by its members, and `Ty.ofMembers` makes it out of them. What is done to a side
is done to the list of its members: the first one is taken off (`Ty.pop?_ofMembers`), bindings are
substituted into each of them (`Ty.subst_ofMembers`), and concatenating two sides appends their
lists (`Ty.concat_ofMembers`).

A first-order value without variables is a *datum*. Contracts with first-order sides yield data, and
they bind variables to data (`Contract.law_firstOrder`). A match of a first-order pattern with a
datum is sound: under the bindings that it finds, the pattern is the datum
(`Ty.FirstOrder.subst_eq_of_matching?`).
-/

namespace ContractComposition

namespace Ty

/-- A constant, a variable, or a tuple of first-order values. -/
inductive FirstOrder : Ty → Prop
  | const (name : String) : FirstOrder (.const name)
  | var (name : String) : FirstOrder (.var name)
  | tuple {items : List Ty} (hitems : ∀ t ∈ items, FirstOrder t) : FirstOrder (.tuple items)

/-- Nothing, one first-order value, or a sequence of at least two of them. -/
inductive Side : Ty → Prop
  | void : Side .void
  | value {t : Ty} (ht : t.FirstOrder) : Side t
  | seq {items : List Ty} (hlength : 2 ≤ items.length) (hitems : ∀ t ∈ items, t.FirstOrder) :
    Side (.seq items)

/-- A first-order value without variables. -/
structure Datum (t : Ty) : Prop where
  firstOrder : t.FirstOrder
  isGround : t.isGround = true

/-! ### First-order values -/

lemma FirstOrder.isSteady {t : Ty} (h : t.FirstOrder) : t.IsSteady := by
  induction h with
  | const | var => trivial
  | tuple _ ih => exact isSteady_tuple.2 ih

lemma FirstOrder.isNormal {t : Ty} (h : t.FirstOrder) : t.IsNormal := by
  induction h with
  | const | var => trivial
  | tuple _ ih => exact allNormal_iff.2 ih

lemma FirstOrder.normalize_eq {t : Ty} (h : t.FirstOrder) : t.normalize = t :=
  h.isNormal.normalize_eq

lemma FirstOrder.isMember {t : Ty} (h : t.FirstOrder) : t.IsMember := by
  cases h <;> exact ⟨rfl, rfl⟩

/-- Annotations do not occur in first-order values. -/
lemma FirstOrder.bare_eq {t : Ty} (h : t.FirstOrder) : t.bare = t := by
  induction h with
  | const | var => rfl
  | tuple _ ih => rw [bare, bareAll_eq_map, List.map_congr_left ih, List.map_id']

/-- A first-order value is not a contract and does not start any. -/
lemma FirstOrder.contracts?_eq_none {t : Ty} (h : t.FirstOrder) : t.contracts? = none := by
  cases h with
  | const | var => rfl
  | tuple hitems =>
    rename_i items
    cases items with
    | nil => rfl
    | cons u us =>
      have hu : u.contract? = none := by
        cases hitems u List.mem_cons_self <;> rfl
      rw [contracts?, List.mapM_cons, hu]
      · rfl
      · intro h
        cases h

lemma FirstOrder.withSource_eq {t : Ty} (h : t.FirstOrder) (x : String) : t.withSource x = t := by
  cases h <;> rfl

/-- Replacing variables by first-order values gives a first-order value. -/
lemma FirstOrder.expand {t : Ty} (h : t.FirstOrder) {look : Nat → String → Ty} {depth : Nat}
    (hlook : ∀ x, (look depth x).FirstOrder) : (t.expand look depth).FirstOrder := by
  induction h with
  | const name => exact .const name
  | var x => exact hlook x
  | tuple _ ih =>
    rw [Ty.expand, expandAll_eq_map]
    exact .tuple (List.forall_mem_map.2 ih)

/-! ### Data -/

lemma Datum.isPlain {t : Ty} (h : t.Datum) : t.IsPlain :=
  isPlain_iff.2 ⟨h.isGround, h.firstOrder.isSteady.unconstrained⟩

/-- Substituting bindings does not change a datum. -/
lemma Datum.subst_eq {t : Ty} (h : t.Datum) (b : Bindings) : t.subst b = t := by
  rw [h.isPlain.subst_eq, h.firstOrder.normalize_eq]

/-- First-order values that are equal are the same. -/
lemma FirstOrder.eq_of_beq {t u : Ty} (ht : t.FirstOrder) (hu : u.FirstOrder)
    (h : (t == u) = true) : t = u := by
  have hbare : t.bare = u.bare := beq_iff_bare_eq.1 h
  rwa [ht.bare_eq, hu.bare_eq] at hbare

end Ty

namespace Bindings

/-- All values of the table are first-order. -/
def FirstOrder (b : Bindings) : Prop :=
  ∀ x t, b.find? x = some t → t.FirstOrder

/-- All values of the table are data. -/
def Data (b : Bindings) : Prop :=
  ∀ x t, b.find? x = some t → t.Datum

variable {b other joined : Bindings}

lemma Data.firstOrder (h : b.Data) : b.FirstOrder :=
  fun x t ht => (h x t ht).firstOrder

lemma Data.isPlain (h : b.Data) : b.IsPlain :=
  fun x t ht => (h x t ht).isPlain

lemma data_iff : b.Data ↔ ∀ x t, b.find? x = some t → t.FirstOrder ∧ t.isGround = true :=
  ⟨fun h x t ht => ⟨(h x t ht).firstOrder, (h x t ht).isGround⟩,
    fun h x t ht => ⟨(h x t ht).1, (h x t ht).2⟩⟩

lemma data_empty : (∅ : Bindings).Data := by
  intro x t h
  simp at h

lemma Data.join? (hb : b.Data) (hother : other.Data) (h : b.join? other = some joined) :
    joined.Data := by
  intro x t hx
  rcases find?_of_join? h hx with hx | hx
  · exact hb x t hx
  · exact hother x t hx

/-- What a variable stands for is first-order. -/
lemma FirstOrder.lookWithin (h : b.FirstOrder) (bound depth : Nat) (x : String) :
    (b.lookWithin bound depth x).FirstOrder := by
  refine lookWithin_induction (q := fun _ => True) (fun x _ => .var x) ?_ trivial bound depth
  intro x t look depth ht hlook
  have hexpand := (h x t ht).expand fun y => hlook depth y trivial
  rw [hexpand.withSource_eq]
  exact hexpand

/-- A joined table of data has the bindings of the second table, too. -/
lemma Data.extendedBy_join? (hb : b.Data) (hother : other.Data)
    (h : b.join? other = some joined) : other.ExtendedBy joined := by
  intro x t hx
  rw [find?_join? h]
  cases hbx : b.find? x with
  | none => exact hx
  | some u =>
    have hu := (hb x u hbx).firstOrder
    have ht := (hother x t hx).firstOrder
    have hagree := beq_of_join? h hbx hx
    rw [hu.normalize_eq, ht.normalize_eq] at hagree
    rw [Option.some_or, hu.eq_of_beq ht hagree]

end Bindings

/-! ### Sides and their members -/

namespace Ty

variable {vs ws : List Ty} {b : Bindings}

lemma FirstOrder.subst (hb : b.FirstOrder) {t : Ty} (h : t.FirstOrder) :
    (t.subst b).FirstOrder := by
  have hexpand : (t.expand b.look 0).FirstOrder := h.expand (hb.lookWithin _ 0)
  rw [Ty.subst, hexpand.normalize_eq]
  exact hexpand

lemma forall_firstOrder_subst (hb : b.FirstOrder) (h : ∀ v ∈ vs, v.FirstOrder) :
    ∀ v ∈ vs.map fun v => v.subst b, v.FirstOrder :=
  List.forall_mem_map.2 fun v hv => (h v hv).subst hb

lemma forall_isMember (h : ∀ v ∈ vs, v.FirstOrder) : ∀ v ∈ vs, v.IsMember :=
  fun v hv => (h v hv).isMember

/-- First-order values are the members of their sequence. -/
lemma sequence_eq_ofMembers (h : ∀ v ∈ vs, v.FirstOrder) : sequence vs = ofMembers vs := by
  rw [sequence, flattenAll_eq_self (forall_isMember h)]

lemma ofMembers_singleton {v : Ty} (h : v.FirstOrder) : ofMembers [v] = v := by
  cases h <;> rfl

lemma sequence_singleton {v : Ty} (h : v.FirstOrder) : sequence [v] = v := by
  rw [sequence_eq_ofMembers (List.forall_mem_singleton.2 h), ofMembers_singleton h]

/-- The members of a side are those that it was made of. -/
lemma items_ofMembers (h : ∀ v ∈ vs, v.FirstOrder) : (ofMembers vs).items = vs :=
  items_ofMembers_of_isMember (forall_isMember h)

lemma side_ofMembers (h : ∀ v ∈ vs, v.FirstOrder) : (ofMembers vs).Side := by
  match vs with
  | [] => exact .void
  | [v] =>
    have hv : v.FirstOrder := h v List.mem_cons_self
    rw [ofMembers_singleton hv]
    exact .value hv
  | u :: v :: vs =>
    have hlength : 2 ≤ (u :: v :: vs).length := by simp
    rw [ofMembers_of_two_le hlength]
    exact .seq hlength h

/-- A side is made of its members, which are first-order. -/
lemma Side.exists_members {t : Ty} (h : t.Side) :
    ∃ vs, (∀ v ∈ vs, v.FirstOrder) ∧ t = ofMembers vs := by
  cases h with
  | void => exact ⟨[], List.forall_mem_nil _, rfl⟩
  | value ht => exact ⟨[t], List.forall_mem_singleton.2 ht, (ofMembers_singleton ht).symm⟩
  | seq hlength hitems => exact ⟨_, hitems, (ofMembers_of_two_le hlength).symm⟩

/-- Taking the first element off a side takes off its first member. -/
lemma pop?_ofMembers (h : ∀ v ∈ vs, v.FirstOrder) {head rest : Ty}
    (hpop : (ofMembers vs).pop? = some (head, rest)) :
    ∃ others, vs = head :: others ∧ rest = ofMembers others :=
  pop?_ofMembers_of_isMember (forall_isMember h) hpop

lemma FirstOrder.isLengthExpr_eq_false {t : Ty} (h : t.FirstOrder) : t.isLengthExpr = false := by
  cases h <;> rfl

/-- The first member of a side is taken off. -/
lemma pop?_ofMembers_cons_of_firstOrder {v : Ty} (h : ∀ u ∈ v :: vs, u.FirstOrder) :
    (ofMembers (v :: vs)).pop? = some (v, ofMembers vs) :=
  pop?_ofMembers_cons (forall_isMember h) (h v List.mem_cons_self).isLengthExpr_eq_false

/-- Normalizing after replacing variables in a side is substituting into its members. -/
lemma subst_ofMembers (hb : b.FirstOrder) (h : ∀ v ∈ vs, v.FirstOrder) :
    (ofMembers vs).subst b = ofMembers (vs.map fun v => v.subst b) := by
  match vs with
  | [] => rfl
  | [v] =>
    have hv : v.FirstOrder := h v List.mem_cons_self
    rw [ofMembers_singleton hv, List.map_singleton, ofMembers_singleton (hv.subst hb)]
  | u :: v :: vs =>
    have hseq : (Ty.seq (u :: v :: vs)).subst b =
        sequence ((u :: v :: vs).map fun v => v.subst b) := by
      rw [Ty.subst, expand, normalize, expandAll_eq_map, normalizeAll_eq_map, List.map_map]
      rfl
    rw [ofMembers_of_two_le (by simp), hseq, sequence_eq_ofMembers (forall_firstOrder_subst hb h)]

lemma normalize_ofMembers (h : ∀ v ∈ vs, v.FirstOrder) :
    (ofMembers vs).normalize = ofMembers vs :=
  (isNormal_ofMembers (forall_isMember h) fun v hv => (h v hv).isNormal).normalize_eq

lemma isVoid_ofMembers_iff (h : ∀ v ∈ vs, v.FirstOrder) :
    (ofMembers vs).isVoid = true ↔ vs = [] :=
  isVoid_iff.trans (ofMembers_eq_void_iff (forall_isMember h))

/-- Concatenating sides appends their members. -/
lemma concat_ofMembers (hvs : ∀ v ∈ vs, v.FirstOrder) (hws : ∀ w ∈ ws, w.FirstOrder) :
    (ofMembers vs).concat (ofMembers ws) = ofMembers (vs ++ ws) :=
  concat_ofMembers_of_isMember (forall_isMember hvs) (forall_isMember hws)

/-- The members of a side into which bindings are substituted. -/
lemma Side.items_subst (hb : b.FirstOrder) {t : Ty} (h : t.Side) :
    (t.subst b).items = t.items.map fun v => v.subst b := by
  obtain ⟨vs, hvs, rfl⟩ := h.exists_members
  rw [subst_ofMembers hb hvs, items_ofMembers hvs,
    items_ofMembers (forall_firstOrder_subst hb hvs)]

lemma Side.subst (hb : b.FirstOrder) {t : Ty} (h : t.Side) : (t.subst b).Side := by
  obtain ⟨vs, hvs, rfl⟩ := h.exists_members
  rw [subst_ofMembers hb hvs]
  exact side_ofMembers (forall_firstOrder_subst hb hvs)

lemma Side.items_concat {t u : Ty} (ht : t.Side) (hu : u.Side) :
    (t.concat u).items = t.items ++ u.items := by
  obtain ⟨vs, hvs, rfl⟩ := ht.exists_members
  obtain ⟨ws, hws, rfl⟩ := hu.exists_members
  rw [concat_ofMembers hvs hws, items_ofMembers hvs, items_ofMembers hws,
    items_ofMembers (List.forall_mem_append.2 ⟨hvs, hws⟩)]

lemma Side.concat {t u : Ty} (ht : t.Side) (hu : u.Side) : (t.concat u).Side := by
  obtain ⟨vs, hvs, rfl⟩ := ht.exists_members
  obtain ⟨ws, hws, rfl⟩ := hu.exists_members
  rw [concat_ofMembers hvs hws]
  exact side_ofMembers (List.forall_mem_append.2 ⟨hvs, hws⟩)

/-! ### Matching -/

lemma subst_tuple (items : List Ty) (b : Bindings) :
    (Ty.tuple items).subst b = .tuple (items.map fun t => t.subst b) := by
  rw [Ty.subst, expand, normalize, expandAll_eq_map, normalizeAll_eq_map, List.map_map]
  rfl

/-- A variable that is bound to a datum is replaced by it. -/
lemma subst_var_of_find?_eq_some {x : String} {t : Ty} (ht : t.Datum) (h : b.find? x = some t) :
    (Ty.var x).subst b = t := by
  obtain ⟨bound, hlook⟩ := Bindings.look_zero_of_find?_eq_some h
  have hexpand : t.expand (b.lookWithin bound) 1 = t.expand (fun _ y => .var y) 0 :=
    ht.isPlain.expand_congr _ _ _ _
  have hfirstOrder : (t.expand (fun _ y => .var y) 0).FirstOrder := ht.firstOrder.expand .var
  rw [Ty.subst, expand, hlook, hexpand, hfirstOrder.withSource_eq, ht.isPlain.normalize_expand,
    ht.firstOrder.normalize_eq]

lemma Datum.tuple_items {items : List Ty} (h : (Ty.tuple items).Datum) : ∀ t ∈ items, t.Datum := by
  intro t ht
  have hplain : t.IsPlain := within_tuple.1 h.isPlain t ht
  cases h.firstOrder with
  | tuple hitems => exact ⟨hitems t ht, hplain.isGround⟩

/-- Matching data one by one finds data. Under all bindings that extend what is found, the patterns
are the data. -/
lemma matchingAll?_data {patterns values : List Ty}
    (ih : ∀ p ∈ patterns, ∀ {offered : Ty} {found : Bindings}, offered.Datum →
      p.matching? offered = some found →
        found.Data ∧ ∀ θ : Bindings, found.ExtendedBy θ → p.subst θ = offered)
    {found result : Bindings} (hfound : found.Data) (hvalues : ∀ v ∈ values, v.Datum)
    (h : matchingAll? found patterns values = some result) :
    result.Data ∧ found.ExtendedBy result ∧
      ∀ θ : Bindings, result.ExtendedBy θ → (patterns.map fun p => p.subst θ) = values := by
  induction patterns generalizing values found with
  | nil =>
    obtain ⟨rfl, rfl⟩ := matchingAll?_nil_eq_some_iff.1 h
    exact ⟨hfound, Bindings.ExtendedBy.refl _, fun _ _ => rfl⟩
  | cons p ps ihps =>
    obtain ⟨v, vs, more, joined, rfl, hmore, hjoined, h⟩ := matchingAll?_cons_eq_some_iff.1 h
    have hp := List.forall_mem_cons.1 ih
    have hv := List.forall_mem_cons.1 hvalues
    obtain ⟨hmoreData, hmoreSound⟩ := hp.1 hv.1 hmore
    obtain ⟨hresult, hext, hsound⟩ := ihps hp.2 (hfound.join? hmoreData hjoined) hv.2 h
    refine ⟨hresult, (Bindings.extendedBy_of_join? hjoined).trans hext, fun θ hθ => ?_⟩
    -- What was found for the first pattern is still there at the end.
    have hmoreθ : more.ExtendedBy θ :=
      ((hfound.extendedBy_join? hmoreData hjoined).trans hext).trans hθ
    rw [List.map_cons, hmoreSound θ hmoreθ, hsound θ hθ]

/-- A match of a first-order pattern with a datum finds data, and it is sound: under all bindings
that extend what is found, the pattern is the datum. -/
theorem FirstOrder.subst_eq_of_matching? {p offered : Ty} (hp : p.FirstOrder)
    (ho : offered.Datum) {found : Bindings} (h : p.matching? offered = some found) :
    found.Data ∧ ∀ θ : Bindings, found.ExtendedBy θ → p.subst θ = offered := by
  induction hp generalizing offered found with
  | const name =>
    cases offered with
    | const name' =>
      rw [matching?] at h
      split at h
      · rename_i heq
        obtain rfl := Option.some.inj h
        exact ⟨Bindings.data_empty, fun θ _ => congrArg Ty.const heq⟩
      · cases h
    | _ => cases h
  | var x =>
    rw [matching?] at h
    split at h
    · rename_i heq
      have hvar : (Ty.var x).isGround = true := eq_var_of_beq heq ▸ ho.isGround
      cases hvar
    · split at h
      · cases h
      · obtain rfl := Option.some.inj h
        constructor
        · intro y t ht
          rw [Bindings.bind, NameTable.find?_insert] at ht
          split at ht
          · exact Option.some.inj ht ▸ ho
          · simp at ht
        · intro θ hθ
          refine subst_var_of_find?_eq_some ho (hθ x offered ?_)
          rw [Bindings.bind, NameTable.find?_insert, if_pos rfl]
  | tuple hitems ih =>
    cases offered with
    | tuple values =>
      obtain ⟨hdata, -, hsound⟩ := matchingAll?_data (fun p hp {_ _} hd hm => ih p hp hd hm)
        Bindings.data_empty ho.tuple_items h
      refine ⟨hdata, fun θ hθ => ?_⟩
      rw [subst_tuple, hsound θ hθ]
    | _ => cases h

end Ty

/-! ### Contracts -/

/-- Both sides of the contract are first-order. -/
structure Contract.FirstOrder (c : Contract) : Prop where
  receives : c.receives.Side
  yields : c.yields.Side

lemma Contract.firstOrder_iff {c : Contract} :
    c.FirstOrder ↔ c.receives.Side ∧ c.yields.Side :=
  ⟨fun h => ⟨h.receives, h.yields⟩, fun h => ⟨h.1, h.2⟩⟩

namespace Contract.FirstOrder

variable {c : Contract} {b : Bindings}

lemma subst (hb : b.FirstOrder) (h : c.FirstOrder) : (c.subst b).FirstOrder := by
  rcases c.subst_sides b with ⟨hr, hy⟩ | ⟨hr, hy⟩
  · exact ⟨hr ▸ .void, hy ▸ .void⟩
  · exact ⟨hr ▸ h.receives.subst hb, hy ▸ h.yields.subst hb⟩

lemma freshen (h : c.FirstOrder) (suffix : Nat) (keep : List String) :
    (c.freshen suffix keep).FirstOrder := by
  refine h.subst fun x t ht => ?_
  rw [Bindings.eq_var_of_find?_suffixing ht]
  exact .var _

/-- What is yielded is a datum: the first member of the yielding side, after substituting the
bindings. The other members are left. -/
lemma produce? (hb : b.Data) (h : c.FirstOrder) {yielded : Yielded}
    (hyielded : c.produce? b = some yielded) :
    c.receives = .void ∧ yielded.value.Datum ∧
      ∃ v vs, (∀ u ∈ v :: vs, u.FirstOrder) ∧ c.yields = .ofMembers (v :: vs) ∧
        yielded.value = v.subst b ∧
        yielded.successor =
          { receives := .void, yields := .ofMembers (vs.map fun u => u.subst b),
            source := c.source, restorable := c.restorable } := by
  obtain ⟨hvoid, hground, rest, hpop, hsuccessor⟩ := produce?_eq_some_iff.1 hyielded
  obtain ⟨vs, hvs, hyields⟩ := h.yields.exists_members
  have hsubst := Ty.forall_firstOrder_subst hb.firstOrder hvs
  rw [hyields, Ty.subst_ofMembers hb.firstOrder hvs] at hpop hground
  have hwithin : (Ty.ofMembers (vs.map fun v => v.subst b)).Within .unconstrained :=
    Ty.within_ofMembers fun v hv => (hsubst v hv).isSteady.unconstrained
  have hvalueGround : yielded.value.isGround = true :=
    ((hwithin.ground_of_isGround hground).pop? hpop).1.isGround
  obtain ⟨others, hcons, rfl⟩ := Ty.pop?_ofMembers hsubst hpop
  cases vs with
  | nil => cases hcons
  | cons v vs =>
    obtain ⟨hvalue, rfl⟩ := List.cons.inj hcons
    have hvalueFirstOrder : yielded.value.FirstOrder :=
      hvalue ▸ (hvs v List.mem_cons_self).subst hb.firstOrder
    refine ⟨Ty.isVoid_iff.1 hvoid, ⟨hvalueFirstOrder, hvalueGround⟩, v, vs, hvs, hyields,
      hvalue.symm, ?_⟩
    rw [hsuccessor, Ty.normalize_ofMembers (List.forall_mem_cons.1 hsubst).2]

/-- A datum is received if it is, under the bindings that are in force from then on, the first
member of the receiving side. The other members are left. -/
lemma accept? (hb : b.Data) (h : c.FirstOrder) {offered : Ty} (ho : offered.Datum)
    {hierarchy : Hierarchy} {received : Received}
    (hreceived : c.accept? offered b hierarchy = some received) :
    received.bindings.Data ∧ b.ExtendedBy received.bindings ∧
      ∃ v vs, (∀ u ∈ v :: vs, u.FirstOrder) ∧ c.receives = .ofMembers (v :: vs) ∧
        (∀ θ : Bindings, received.bindings.ExtendedBy θ → v.subst θ = offered) ∧
        received.successor = { c with receives := .ofMembers vs } := by
  obtain ⟨head, rest, found, hpop, hfound, hjoin, -, -, hsuccessor⟩ :=
    accept?_eq_some_iff.1 hreceived
  obtain ⟨vs, hvs, hreceives⟩ := h.receives.exists_members
  rw [hreceives] at hpop
  obtain ⟨others, rfl, rfl⟩ := Ty.pop?_ofMembers hvs hpop
  have hhead : head.FirstOrder := hvs head List.mem_cons_self
  obtain ⟨hdata, hsound⟩ := (hhead.subst hb.firstOrder).subst_eq_of_matching? ho hfound
  have hext : b.ExtendedBy received.bindings := Bindings.extendedBy_of_join? hjoin
  refine ⟨hb.join? hdata hjoin, hext, head, others, hvs, hreceives, fun θ hθ => ?_, hsuccessor⟩
  have hfoundθ : found.ExtendedBy θ := (hb.extendedBy_join? hdata hjoin).trans hθ
  rw [← hsound θ hfoundθ, hhead.isSteady.subst_subst hb.isPlain (hext.trans hθ)]

/-- What was handed out, as a contract. -/
lemma output_eq {vs : List Ty} (h : ∀ v ∈ vs, v.FirstOrder) :
    Contract.of .void (Ty.sequence vs) = { receives := .void, yields := .ofMembers vs } := by
  rw [Contract.of, Ty.sequence_eq_ofMembers h, Ty.normalize_ofMembers h]
  rfl

end Contract.FirstOrder

/-- First-order contracts stay first-order, yield data and bind variables to data. -/
theorem Contract.law_firstOrder :
    Contract.Law Contract.FirstOrder Ty.Datum Bindings.Data where
  subst hb h := h.subst hb.firstOrder
  freshen suffix keep h := h.freshen suffix keep
  produce hb h hyielded := by
    obtain ⟨-, hvalue, v, vs, hvs, -, -, hsuccessor⟩ := h.produce? hb hyielded
    have hrest := Ty.forall_firstOrder_subst hb.firstOrder (List.forall_mem_cons.1 hvs).2
    refine ⟨hvalue, ?_⟩
    rw [hsuccessor]
    exact ⟨.void, Ty.side_ofMembers hrest⟩
  accept hb h ho hreceived := by
    obtain ⟨hdata, -, v, vs, hvs, -, -, hsuccessor⟩ := h.accept? hb ho hreceived
    refine ⟨?_, hdata⟩
    rw [hsuccessor]
    exact ⟨Ty.side_ofMembers (List.forall_mem_cons.1 hvs).2, h.yields⟩
  append h hv := by
    refine ⟨h.receives, h.yields.concat ?_⟩
    rw [Ty.sequence_singleton hv.firstOrder]
    exact .value hv.firstOrder
  contracts hv hcontracts := by
    rw [hv.firstOrder.contracts?_eq_none] at hcontracts
    cases hcontracts
  output h := by
    have hvs : ∀ v ∈ _, Ty.FirstOrder v := fun v hv => (h v hv).firstOrder
    rw [Contract.FirstOrder.output_eq hvs]
    exact ⟨.void, Ty.side_ofMembers hvs⟩
  andThen h hc := by
    have hvs : ∀ v ∈ _, Ty.FirstOrder v := fun v hv => (h v hv).firstOrder
    rw [Contract.FirstOrder.output_eq hvs]
    exact ⟨hc.receives, (Ty.side_ofMembers hvs).concat hc.yields⟩

end ContractComposition

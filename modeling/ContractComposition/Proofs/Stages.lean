import ContractComposition.Condition.Holds
import ContractComposition.Proofs.Resolution
import ContractComposition.Proofs.Streams

/-!
# Substituting in stages

Bindings are collected one after another, and what has been substituted already is substituted again
when there are more of them. Nothing is lost in this way: substituting some bindings and later more
is substituting the latter at once (`substitution_in_stages`), and the checks of exclusions and
conditions may be made before or after (`constraints_survive_stages`).

The difficulty is that each stage normalizes. Sequences are opened, lists of length zero vanish and
contracts that are finished become nothing, early in one case and late in the other. So normalizing
has to commute with replacing variables (`Ty.TableFree.normalize_expand_normalize`). There is one
obstacle: a sequence of one variable is that variable, but a sequence of one list is not that list.
Hence no variable may come to stand for a list on its own, `Bindings.ResolvesNoList`.
-/

namespace ContractComposition

namespace Ty

/-- No contract in the value carries exclusions. -/
def TableFree (t : Ty) : Prop :=
  t.EveryTable (· = [])

/-- The value is not a list on its own. -/
def NotList (t : Ty) : Prop :=
  ∀ element length, t ≠ .list element length

end Ty

namespace Bindings

/-- No contract in the values of the table carries exclusions. -/
def TableFree (b : Bindings) : Prop :=
  ∀ x t, b.find? x = some t → t.TableFree

lemma TableFree.of_extendedBy {b b' : Bindings} (h : b'.TableFree) (hbb' : b.ExtendedBy b') :
    b.TableFree :=
  fun x t hx => h x t (hbb' x t hx)

/-- No variable becomes a list on its own. -/
def ResolvesNoList (b : Bindings) : Prop :=
  ∀ x, ((Ty.var x).subst b).NotList

end Bindings

namespace Ty

variable {look : Nat → String → Ty}

/-! ### Sequences -/

/-- What becomes of a sequence is the sequence of what becomes of its members. -/
lemma normalize_expand_seq (items : List Ty) : ((Ty.seq items).expand look 0).normalize =
    sequence (items.map fun t => (t.expand look 0).normalize) := by
  rw [expand, normalize, expandAll_eq_map, normalizeAll_eq_map, List.map_map]
  rfl

/-- Replacing the members of some values and opening the results is replacing the values themselves
and opening the results, if this is so for each of them. -/
lemma flattenAll_map_flattenAll {f : Ty → Ty} {ts : List Ty}
    (h : ∀ t ∈ ts, (f t).flatten = flattenAll (t.flatten.map f)) :
    flattenAll ((flattenAll ts).map f) = flattenAll (ts.map f) := by
  simp only [flattenAll_eq_flatMap, List.flatMap_map, List.map_flatMap, List.flatMap_assoc] at h ⊢
  exact List.flatMap_congr fun t ht => (h t ht).symm

/-- A value may be opened before or after its variables are replaced. -/
lemma flatten_normalize_expand (t : Ty) : (t.expand look 0).normalize.flatten =
    flattenAll (t.flatten.map fun u => (u.expand look 0).normalize) := by
  induction t with
  | void => rfl
  | seq items ih =>
    rw [normalize_expand_seq, flatten_sequence, flatten, flattenAll_map_flattenAll ih]
  | const | var | int | star | tuple | list | func | contract => exact (List.append_nil _).symm

/-- The sequence of one stream is this stream, unless it is a list on its own. -/
lemma IsNormal.sequence_singleton {t : Ty} (h : t.IsNormal) (hlist : t.NotList) :
    sequence [t] = t := by
  obtain ⟨vs, hmember, -, rfl⟩ := h.exists_members hlist
  rw [sequence, flattenAll, flattenAll, List.append_nil, flatten_ofMembers hmember]

/-- Nothing but a list on its own becomes one. -/
lemma notList_normalize_expand (hlook : ∀ x, (look 0 x).normalize.NotList) {t : Ty}
    (h : t.NotList) : (t.expand look 0).normalize.NotList := by
  intro element length heq
  obtain ⟨element', length', heq'⟩ := exists_eq_list_of_normalize heq
  cases t with
  | var x => exact hlook x element length heq
  | list element length => exact h element length rfl
  | void | const | int | star | seq | tuple | func | contract => cases heq'

/-- Putting members together can be done after their variables have been replaced. -/
lemma normalize_expand_ofMembers (hlook : ∀ x, (look 0 x).normalize.NotList) (ts : List Ty) :
    ((ofMembers ts).expand look 0).normalize =
      sequence (ts.map fun t => (t.expand look 0).normalize) := by
  match ts with
  | [] => rfl
  | [t] =>
    by_cases ht : t.NotList
    · have hself : ofMembers [t] = t := by
        cases t with
        | list element length => exact absurd rfl (ht element length)
        | void | const | var | int | star | seq | tuple | func | contract => rfl
      rw [hself, List.map_singleton,
        (isNormal_normalize _).sequence_singleton (notList_normalize_expand hlook ht)]
    · simp only [NotList, not_forall, not_not] at ht
      obtain ⟨element, length, rfl⟩ := ht
      exact normalize_expand_seq _
  | t :: u :: ts =>
    rw [ofMembers_of_two_le (by simp)]
    exact normalize_expand_seq _

/-- Putting values together can be done after their variables have been replaced. -/
lemma normalize_expand_sequence (hlook : ∀ x, (look 0 x).normalize.NotList) (ts : List Ty) :
    ((sequence ts).expand look 0).normalize =
      sequence (ts.map fun t => (t.expand look 0).normalize) := by
  rw [sequence, normalize_expand_ofMembers hlook, sequence, sequence,
    flattenAll_map_flattenAll fun t _ => flatten_normalize_expand t]

/-! ### Normalizing early -/

lemma hereditary_tableFree : Hereditary TableFree fun body => body.forbidden = [] :=
  hereditary_everyTable

lemma TableFree.normalize {t : Ty} (h : t.TableFree) : t.normalize.TableFree :=
  EveryTable.normalize h

/-- What a contract without exclusions becomes depends on what its sides become. -/
lemma normalize_expand_contract {body : Contract} (h : body.forbidden = []) :
    ((Ty.contract body).expand look 0).normalize =
      ({ body with
        condition := body.condition.map
          (Condition.rename fun x => (look 0 x).normalize) } : Contract).withSides
        (body.receives.expand look 0).normalize (body.yields.expand look 0).normalize := by
  rw [expand_contract_of_forbidden_eq_nil h, normalize_contract, normalize_normalize,
    normalize_normalize]
  rfl

/-- Normalizing a value before its variables are replaced makes no difference. -/
theorem TableFree.normalize_expand_normalize (hlook : ∀ x, (look 0 x).normalize.NotList) {t : Ty}
    (h : t.TableFree) :
    (t.normalize.expand look 0).normalize = (t.expand look 0).normalize := by
  induction t with
  | void | const | var | int | star => rfl
  | seq items ih =>
    have hitems := fun t ht => ih t ht (hereditary_tableFree.seq.1 h t ht)
    rw [Ty.normalize, normalize_expand_sequence hlook, normalize_expand_seq, normalizeAll_eq_map,
      List.map_map]
    exact congrArg _ (List.map_congr_left hitems)
  | tuple items ih =>
    have hitems := fun t ht => ih t ht (hereditary_tableFree.tuple.1 h t ht)
    simp only [Ty.normalize, Ty.expand, normalizeAll_eq_map, expandAll_eq_map, List.map_map]
    exact congrArg _ (List.map_congr_left hitems)
  | func fn args ih =>
    have hargs := fun t ht => ih t ht (hereditary_tableFree.func.1 h t ht)
    rw [Ty.normalize, normalize_expand_eval, Ty.expand, Ty.normalize]
    simp only [normalizeAll_eq_map, expandAll_eq_map, List.map_map]
    exact congrArg _ (List.map_congr_left hargs)
  | list element length ihe ihl =>
    obtain ⟨he, hl⟩ := hereditary_tableFree.list.1 h
    rw [Ty.normalize, normalize_expand_listOf, ihe he, ihl hl]
    rfl
  | contract body ihr ihy =>
    obtain ⟨hc, hr, hy⟩ := hereditary_tableFree.contract.1 h
    rw [normalize_expand_contract hc, ← ihr hr, ← ihy hy, normalize_contract, Contract.withSides]
    split
    · -- A contract that is finished before is finished afterwards.
      rename_i hvoid
      rw [Bool.and_eq_true, isVoid_iff, isVoid_iff] at hvoid
      rw [hvoid.1, hvoid.2]
      rfl
    · exact normalize_expand_contract hc

/-! ### Looking up variables in stages -/

variable {b b' : Bindings}

/-- Replacing variables by values without exclusions brings none into a value. -/
lemma TableFree.expand {t : Ty} (h : t.TableFree)
    (hlook : ∀ x ∈ t.mentions, (look 0 x).TableFree) : (t.expand look 0).TableFree := by
  induction t with
  | void => exact .void
  | const name => exact .const name
  | int n => exact .int n
  | star => exact .star
  | var x => exact hlook x List.mem_cons_self
  | seq items ih =>
    rw [Ty.expand, expandAll_eq_map]
    exact .seq (List.forall_mem_map.2 fun t ht =>
      ih t ht (hereditary_tableFree.seq.1 h t ht) (forall_mentions_seq.1 hlook t ht))
  | tuple items ih =>
    rw [Ty.expand, expandAll_eq_map]
    exact .tuple (List.forall_mem_map.2 fun t ht =>
      ih t ht (hereditary_tableFree.tuple.1 h t ht) (forall_mentions_tuple.1 hlook t ht))
  | func fn args ih =>
    rw [Ty.expand, expandAll_eq_map]
    exact .func (List.forall_mem_map.2 fun t ht =>
      ih t ht (hereditary_tableFree.func.1 h t ht) (forall_mentions_func.1 hlook t ht))
  | list element length ihe ihl =>
    obtain ⟨he, hl⟩ := hereditary_tableFree.list.1 h
    obtain ⟨hlooke, hlookl⟩ := forall_mentions_list.1 hlook
    exact .list (ihe he hlooke) (ihl hl hlookl)
  | contract body ihr ihy =>
    obtain ⟨hc, hr, hy⟩ := hereditary_tableFree.contract.1 h
    obtain ⟨hlookr, hlooky, -, -⟩ := forall_mentions_contract.1 hlook
    rw [expand_contract_of_forbidden_eq_nil hc]
    exact .contract hc (ihr hr hlookr).normalize (ihy hy hlooky).normalize

/-- Without circles what a variable stands for has no exclusions, if the bindings have none. -/
lemma tableFree_look (hb : b.Acyclic) (hfree : b.TableFree) (x : String) :
    (b.look 0 x).TableFree := by
  induction x using hb.induction with
  | free x hx =>
    rw [Bindings.look_of_find?_eq_none hx]
    exact .var x
  | bound x t hx ih =>
    rw [hb.look_eq hx]
    exact EveryTable.withSource ((hfree x t hx).expand ih) x

/-- The source of a contract plays no part in replacing variables. -/
lemma core_expand_withSource (x : String) (t : Ty) :
    ((t.withSource x).expand look 0).core = (t.expand look 0).core := by
  unfold withSource
  split
  · rename_i body
    split
    · obtain ⟨receives, yields, condition, forbidden, source, restorable⟩ := body
      rw [expand, expand, Contract.expand, Contract.expand]
      cases Exclusions.expandInto? look [] forbidden with
      | none => exact core_contract_congr rfl rfl
      | some table => exact core_contract_congr rfl rfl
    · rfl
  · rfl

/-- Replacing the variables of a value in two stages is replacing them at once, if this is so for
what each of them stands for. -/
lemma TableFree.core_expand_expand (hlist : b'.ResolvesNoList)
    (hfree : ∀ x, (b.look 0 x).TableFree) {t : Ty} (h : t.TableFree)
    (hlook : ∀ x ∈ t.mentions,
      ((b.look 0 x).expand b'.look 0).core = (b'.look 0 x).core) :
    ((t.expand b.look 0).expand b'.look 0).core = (t.expand b'.look 0).core := by
  induction t with
  | void | const | int | star => rfl
  | var x => exact hlook x List.mem_cons_self
  | seq items ih =>
    simp only [Ty.expand, core_seq, expandAll_eq_map, List.map_map]
    exact congrArg _ (List.map_congr_left fun t ht =>
      ih t ht (hereditary_tableFree.seq.1 h t ht) (forall_mentions_seq.1 hlook t ht))
  | tuple items ih =>
    simp only [Ty.expand, core_tuple, expandAll_eq_map, List.map_map]
    exact congrArg _ (List.map_congr_left fun t ht =>
      ih t ht (hereditary_tableFree.tuple.1 h t ht) (forall_mentions_tuple.1 hlook t ht))
  | func fn args ih =>
    simp only [Ty.expand, core_func, expandAll_eq_map, List.map_map]
    exact congrArg _ (List.map_congr_left fun t ht =>
      ih t ht (hereditary_tableFree.func.1 h t ht) (forall_mentions_func.1 hlook t ht))
  | list element length ihe ihl =>
    obtain ⟨he, hl⟩ := hereditary_tableFree.list.1 h
    obtain ⟨hlooke, hlookl⟩ := forall_mentions_list.1 hlook
    simp only [Ty.expand, core_list, ihe he hlooke, ihl hl hlookl]
  | contract body ihr ihy =>
    obtain ⟨hc, hr, hy⟩ := hereditary_tableFree.contract.1 h
    obtain ⟨hlookr, hlooky, -, -⟩ := forall_mentions_contract.1 hlook
    -- The sides have been normalized in between.
    have hside : ∀ t : Ty, t.TableFree →
        ((t.expand b.look 0).expand b'.look 0).core = (t.expand b'.look 0).core →
        ((t.expand b.look 0).normalize.expand b'.look 0).normalize.core =
          (t.expand b'.look 0).normalize.core := by
      intro t ht hstages
      have hexpand : (t.expand b.look 0).TableFree := ht.expand fun x _ => hfree x
      rw [hexpand.normalize_expand_normalize hlist, core_normalize, core_normalize, hstages]
    rw [expand_contract_of_forbidden_eq_nil hc, expand_contract_of_forbidden_eq_nil,
      expand_contract_of_forbidden_eq_nil hc]
    · exact core_contract_congr (hside _ hr (ihr hr hlookr)) (hside _ hy (ihy hy hlooky))
    · exact hc

/-- Following a variable in two stages is following it at once. -/
lemma core_expand_look (hb' : b'.Acyclic) (hbb' : b.ExtendedBy b') (hlist : b'.ResolvesNoList)
    (hfree : b'.TableFree) (x : String) :
    ((b.look 0 x).expand b'.look 0).core = (b'.look 0 x).core := by
  have hb : b.Acyclic := hb'.of_extendedBy hbb'
  have hlook : ∀ x, (b.look 0 x).TableFree := tableFree_look hb (hfree.of_extendedBy hbb')
  induction x using hb.induction with
  | free x hx => rw [Bindings.look_of_find?_eq_none hx, expand]
  | bound x t hx ih =>
    have hx' : b'.find? x = some t := hbb' x t hx
    rw [hb.look_eq hx, hb'.look_eq hx', core_expand_withSource, core_withSource,
      (hfree x t hx').core_expand_expand hlist hlook ih]

/-- Substituting some bindings and then more is substituting the latter at once, up to
annotations. -/
theorem TableFree.bare_subst_subst (hb' : b'.Acyclic) (hbb' : b.ExtendedBy b')
    (hlist : b'.ResolvesNoList) (hfree : b'.TableFree) {t : Ty} (h : t.TableFree) :
    ((t.subst b).subst b').bare = (t.subst b').bare := by
  have hlook : ∀ x, (b.look 0 x).TableFree :=
    tableFree_look (hb'.of_extendedBy hbb') (hfree.of_extendedBy hbb')
  rw [subst, subst, (h.expand fun x _ => hlook x).normalize_expand_normalize hlist]
  exact h.core_expand_expand hlist hlook fun x _ => core_expand_look hb' hbb' hlist hfree x

/-- A value without constraints has no exclusions. -/
lemma Within.tableFree {t : Ty} (h : t.Within .unconstrained) : t.TableFree := by
  induction t with
  | void => exact .void
  | const name => exact .const name
  | var name => exact .var name
  | int n => exact .int n
  | star => exact .star
  | seq items ih => exact .seq fun t ht => ih t ht (within_seq.1 h t ht)
  | tuple items ih => exact .tuple fun t ht => ih t ht (within_tuple.1 h t ht)
  | func fn args ih => exact .func fun t ht => ih t ht (within_func.1 h t ht)
  | list element length ihe ihl => exact .list (ihe h.1) (ihl h.2)
  | contract body ihr ihy =>
    obtain ⟨hc, hr, hy⟩ := within_contract.1 h
    exact .contract (hc.resolve_left id).2 (ihr hr) (ihy hy)

end Ty

lemma Bindings.Within.tableFree {b : Bindings} (h : b.Within .unconstrained) : b.TableFree :=
  fun x t hx => (h x t hx).tableFree

/-- Without circles no variable becomes a list on its own, if none is bound to one. -/
lemma Bindings.resolvesNoList_of_notList {b : Bindings} (hb : b.Acyclic)
    (h : ∀ x t, b.find? x = some t → t.NotList) : b.ResolvesNoList := by
  have hlook : ∀ x, (b.look 0 x).NotList := by
    intro x
    induction x using hb.induction with
    | free x hx =>
      rw [Bindings.look_of_find?_eq_none hx]
      exact nofun
    | bound x t hx ih =>
      rw [hb.look_eq hx]
      have hexpand : (t.expand b.look 0).NotList := by
        cases t with
        | var y => exact ih y List.mem_cons_self
        | list element length => exact absurd rfl (h x _ hx element length)
        | void | const | int | star | seq | tuple | func | contract => exact nofun
      unfold Ty.withSource
      split
      · split <;> exact nofun
      · exact hexpand
  intro x element length heq
  obtain ⟨element', length', heq'⟩ := Ty.exists_eq_list_of_normalize heq
  exact hlook x element' length' heq'

/-! ### Conditions in stages -/

/-- Whether a clause holds depends on what its variable becomes, up to annotations. -/
lemma Condition.holds_inherits_congr {b : Bindings} {x y : String}
    (h : ((Ty.var x).subst b).bare = ((Ty.var y).subst b).bare) (cls : String)
    (hierarchy : Hierarchy) :
    (inherits x cls).holds b hierarchy = (inherits y cls).holds b hierarchy := by
  rw [holds, holds]
  generalize (Ty.var x).subst b = t at h ⊢
  generalize (Ty.var y).subst b = u at h ⊢
  cases t <;> cases u <;> first | rfl | cases h <;> rfl

/-- A condition may follow the variables of its clauses before it is checked. -/
lemma Condition.holds_subst {b b' : Bindings}
    (h : ∀ x, (((Ty.var x).subst b).subst b').bare = ((Ty.var x).subst b').bare) (c : Condition)
    (hierarchy : Hierarchy) : (c.subst b).holds b' hierarchy = c.holds b' hierarchy := by
  induction c with
  | both l r ihl ihr =>
    rw [holds, ← ihl, ← ihr]
    rfl
  | inherits x cls =>
    rw [subst, rename]
    split
    · rename_i y hy
      refine holds_inherits_congr ?_ cls hierarchy
      rw [← h x, hy]
    · rfl

/-! ### Main results -/

/-- Applying bindings in stages is applying them at once. Let the later bindings extend the earlier
ones, have no circles and make no variable a list on its own, and let no contract carry exclusions.
Then substituting the earlier bindings and after that the later ones gives what the later ones give
at once, for a value and for a contract. -/
theorem substitution_in_stages {b b' : Bindings} (hb' : b'.Acyclic) (hbb' : b.ExtendedBy b')
    (hlist : b'.ResolvesNoList) (hfree : b'.TableFree) :
    (∀ t : Ty, t.TableFree → ((t.subst b).subst b' == t.subst b') = true) ∧
      ∀ c : Contract, (Ty.contract c).TableFree →
        ((c.subst b).subst b' == c.subst b') = true := by
  have hstages : ∀ t : Ty, t.TableFree → ((t.subst b).subst b').bare = (t.subst b').bare :=
    fun t ht => ht.bare_subst_subst hb' hbb' hlist hfree
  refine ⟨fun t ht => Ty.beq_iff_bare_eq.2 (hstages t ht), fun c hc => ?_⟩
  obtain ⟨hforbidden, hr, hy⟩ := Ty.hereditary_tableFree.contract.1 hc
  obtain ⟨hreceives, hyields, hnone⟩ := Contract.subst_of_forbidden_eq_nil hforbidden b
  obtain ⟨hreceives', hyields', -⟩ := Contract.subst_of_forbidden_eq_nil hnone b'
  obtain ⟨hreceives'', hyields'', -⟩ := Contract.subst_of_forbidden_eq_nil hforbidden b'
  have hbare : (Ty.contract ((c.subst b).subst b')).bare = (Ty.contract (c.subst b')).bare := by
    rw [Ty.bare_contract, Ty.bare_contract, hreceives', hyields', hreceives, hyields, hreceives'',
      hyields'', hstages _ hr, hstages _ hy]
  exact Ty.beq_iff_bare_eq.2 hbare

/-- In the first stage a sequence comes in for a variable and the length of a list is renamed. In
the second one a member of the sequence vanishes, the lists become empty and the contract is
finished. -/
theorem substitution_in_stages_finishing :
    let b : Bindings := NameTable.ofList [("x", .seq [.var "y", .var "z"]), ("n", .var "m")]
    let b' : Bindings := NameTable.ofList
      [("x", .seq [.var "y", .var "z"]), ("n", .var "m"), ("m", .int 0), ("y", .void),
        ("z", .seq [.list (.const "A") (.int 2)])]
    let t : Ty := .seq [.var "x", .list (.const "B") (.func .dec [.var "n"]), .contract
      { receives := .list (.const "C") (.var "n"), yields := .var "y"
        condition := some (.inherits "n" "D") }]
    b'.Acyclic ∧ b'.ResolvesNoList ∧ ((t.subst b).subst b' == t.subst b') = true ∧
      (t.subst b' == .seq [.list (.const "A") (.int 2)]) = true := by
  intro b b' t
  have hb' : b'.Acyclic := by
    refine Bindings.acyclic_of_rank (fun x => if x = "x" ∨ x = "n" then 1 else 0) ?_
    refine NameTable.forall_find?_ofList ?_
    decide
  have hbb' : b.ExtendedBy b' :=
    NameTable.forall_find?_ofList (List.forall_mem_cons.2 ⟨rfl, List.forall_mem_singleton.2 rfl⟩)
  have hlist : b'.ResolvesNoList := by
    refine Bindings.resolvesNoList_of_notList hb' (NameTable.forall_find?_ofList ?_)
    simp [Ty.NotList]
  have hvalues : b'.Within .unconstrained := by
    refine NameTable.forall_find?_ofList ?_
    simp [Parts.unconstrained]
  have ht : t.TableFree := by
    refine .seq (List.forall_mem_cons.2 ⟨.var _, List.forall_mem_cons.2 ⟨?_, ?_⟩⟩)
    · exact .list (.const _) (.func (List.forall_mem_singleton.2 (.var _)))
    · exact List.forall_mem_singleton.2 (.contract rfl (.list (.const _) (.var _)) (.var _))
  exact ⟨hb', hlist, (substitution_in_stages hb' hbb' hlist hvalues.tableFree).1 t ht, by decide⟩

/-- The checks of constraints survive substitution in stages. Let the later bindings extend the
earlier ones, have no circles and make no variable a list on its own, and let no contract in the
bindings and in the table carry constraints. The earlier bindings violate the table exactly if
substituting them fails. The later ones violate it exactly if that fails or if they violate what has
become of the table. A condition that has followed its variables holds under the later bindings
exactly if it did before. -/
theorem constraints_survive_stages {b b' : Bindings} (hb' : b'.Acyclic) (hbb' : b.ExtendedBy b')
    (hlist : b'.ResolvesNoList) (hvalues : b'.Within .unconstrained) {table : List Exclusion}
    (htable : ∀ e ∈ table, e.Forall (Ty.Within .unconstrained)) (c : Condition)
    (hierarchy : Hierarchy) :
    (Exclusions.violatedBy table b = true ↔ Exclusions.subst? table b = none) ∧
      (Exclusions.violatedBy table b' = true ↔
        Exclusions.subst? table b = none ∨ ∃ table', Exclusions.subst? table b = some table' ∧
          Exclusions.violatedBy table' b' = true) ∧
      (c.subst b).holds b' hierarchy = c.holds b' hierarchy := by
  have hstages : ∀ t : Ty, t.Within .unconstrained →
      ((t.subst b).subst b').bare = (t.subst b').bare :=
    fun t ht => ht.tableFree.bare_subst_subst hb' hbb' hlist hvalues.tableFree
  have hearlier : b.Within .unconstrained := fun x t hx => hvalues x t (hbb' x t hx)
  refine ⟨Exclusions.subst?_eq_none_iff.symm, ?_, c.holds_subst (fun x => hstages _ trivial) _⟩
  refine Exclusions.violatedBy_iff_subst? b'.respects_unconstrained (fun e he => ?_) fun e he => ?_
  · exact (htable e he).expand fun t ht => ht.subst hearlier
  · exact ⟨fun t ht => hstages t ((htable e he).key t ht),
      fun row hrow t ht => hstages t ((htable e he).values row hrow t ht)⟩

/-- In the first stage the keys of two exclusions become the same variable and a third exclusion is
settled. In the second one they are violated, and the class of the variable does not fit. -/
theorem constraints_survive_stages_merging :
    let b : Bindings := NameTable.ofList [("x", .var "y")]
    let b' : Bindings := NameTable.ofList
      [("x", .var "y"), ("y", .const "A"), ("z", .const "A")]
    let table : List Exclusion := [⟨[.var "x"], [[.const "B"]]⟩, ⟨[.var "y"], [[.var "z"]]⟩,
      ⟨[.const "C"], [[.const "D"]]⟩]
    Exclusions.violatedBy table b = false ∧
      (Exclusions.subst? table b).map List.length = some 1 ∧
      (∃ table', Exclusions.subst? table b = some table' ∧
        Exclusions.violatedBy table' b' = true) ∧
      ((Condition.inherits "x" "E").subst b).holds b' ∅ = false := by
  intro b b' table
  have hb' : b'.Acyclic := by
    refine Bindings.acyclic_of_rank (fun x => if x = "x" then 1 else 0) ?_
    refine NameTable.forall_find?_ofList ?_
    decide
  have hbb' : b.ExtendedBy b' := NameTable.forall_find?_ofList (List.forall_mem_singleton.2 rfl)
  have hlist : b'.ResolvesNoList := by
    refine Bindings.resolvesNoList_of_notList hb' (NameTable.forall_find?_ofList ?_)
    simp [Ty.NotList]
  have hvalues : b'.Within .unconstrained := by
    refine NameTable.forall_find?_ofList ?_
    simp [Parts.unconstrained]
  have htable : ∀ e ∈ table, e.Forall (Ty.Within .unconstrained) := by
    simp [table, Exclusion.forall_iff, Parts.unconstrained]
  obtain ⟨hfails, hlater, hholds⟩ :=
    constraints_survive_stages hb' hbb' hlist hvalues htable (.inherits "x" "E") ∅
  have hearlier : Exclusions.violatedBy table b = false := by decide
  refine ⟨hearlier, by decide, (hlater.1 (by decide)).resolve_left ?_, hholds.trans (by decide)⟩
  rw [← hfails, hearlier]
  exact Bool.false_ne_true

end ContractComposition

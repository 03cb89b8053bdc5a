import ContractComposition.Proofs.Binding
import ContractComposition.Proofs.Growth
import ContractComposition.Proofs.Streams

/-!
# Discrete values

A value is *discrete* if it is made of constants, variables, tuples and sequences, and of lengths as
far as these are allowed (`Ty.Discrete`). Nothing in it is repeated and nothing is computed. Then
normalizing only opens nested sequences: the members of a stream stay as many as they were
(`Ty.Discrete.length_flatten_normalize`), and no variable is lost
(`Ty.Discrete.occurrences_normalize`). So it is known exactly which variables are left after
substituting ground bindings (`Ty.Discrete.mem_occurrences_subst`).

What a discrete stream consists of is given by `Ty.flatten`. Taking off an element takes off the
first member, and concatenation appends members. A stream in normal form has a first element unless
it is empty or a length on its own (`Ty.Discrete.exists_pop?`).

Contracts with discrete sides exchange discrete values, so that they obey a law of runs
(`Contract.law_discrete`).
-/

namespace ContractComposition

namespace Ty

/-- The value is made of constants, variables, tuples and sequences. Lengths may be among them only
if `lengths` holds. -/
inductive Discrete (lengths : Prop) : Ty → Prop
  | void : Discrete lengths .void
  | const (name : String) : Discrete lengths (.const name)
  | var (name : String) : Discrete lengths (.var name)
  | int (h : lengths) (n : Int64) : Discrete lengths (.int n)
  | star (h : lengths) : Discrete lengths .star
  | seq {items : List Ty} (h : ∀ t ∈ items, Discrete lengths t) : Discrete lengths (.seq items)
  | tuple {items : List Ty} (h : ∀ t ∈ items, Discrete lengths t) :
    Discrete lengths (.tuple items)

/-- Whether the value is a length on its own. Such a stream has no first element, though it is not
empty. -/
def isLength : Ty → Bool
  | .int _ => true
  | .star => true
  | _ => false

/-- A discrete value without variables. -/
structure Token (lengths : Prop) (t : Ty) : Prop where
  discrete : t.Discrete lengths
  isGround : t.isGround = true

/-! ### Members of streams -/

/-- Opening sequences loses no variable. -/
lemma flatMap_occurrences_flatten (t : Ty) : t.flatten.flatMap occurrences = t.occurrences := by
  induction t with
  | seq items ih =>
    rw [flatten, flattenAll_eq_flatMap, List.flatMap_assoc, occurrences, occurrencesAll_eq_flatMap]
    exact List.flatMap_congr ih
  | void => rfl
  | const | var | int | star | tuple | list | func | contract => simp [flatten]

lemma occurrences_sequence (ts : List Ty) : (sequence ts).occurrences = occurrencesAll ts := by
  rw [← flatMap_occurrences_flatten, flatten_sequence, flattenAll_eq_flatMap, List.flatMap_assoc,
    occurrencesAll_eq_flatMap]
  exact List.flatMap_congr fun t _ => flatMap_occurrences_flatten t

/-- Streams other than lists on their own are concatenated by appending their members. -/
lemma flatten_concat {t u : Ty} (ht : ∀ element length, t ≠ .list element length)
    (hu : ∀ element length, u ≠ .list element length) :
    (t.concat u).flatten = t.flatten ++ u.flatten := by
  by_cases hleft : t = .void
  · rw [hleft]
    rfl
  by_cases hright : u = .void
  · rw [hright, concat_void, flatten, List.append_nil]
  rw [concat_of_ne_void hleft hright, flatten_sequence, streamMembers_of_ne_list ht,
    streamMembers_of_ne_list hu, flattenAll_eq_flatMap, List.flatMap_append,
    ← flattenAll_eq_flatMap, ← flattenAll_eq_flatMap, flattenAll_items, flattenAll_items]

/-- The first element of a stream in normal form, other than a list on its own, is its first
member. -/
lemma IsNormal.flatten_of_pop? {t head rest : Ty} (h : t.IsNormal)
    (hlist : ∀ element length, t ≠ .list element length) (hpop : t.pop? = some (head, rest)) :
    t.flatten = head :: rest.flatten := by
  obtain ⟨vs, hmember, -, rfl⟩ := h.exists_members hlist
  obtain ⟨others, rfl, rfl⟩ := pop?_ofMembers_of_isMember hmember hpop
  rw [flatten_ofMembers hmember, flatten_ofMembers (List.forall_mem_cons.1 hmember).2]

namespace Discrete

variable {L M : Prop} {t u : Ty} {b : Bindings}

/-! ### Views -/

lemma mono (hLM : L → M) (h : t.Discrete L) : t.Discrete M := by
  induction h with
  | void => exact .void
  | const name => exact .const name
  | var name => exact .var name
  | int hL n => exact .int (hLM hL) n
  | star hL => exact .star (hLM hL)
  | seq _ ih => exact .seq ih
  | tuple _ ih => exact .tuple ih

lemma unconstrained (h : t.Discrete L) : t.Within .unconstrained := by
  induction h with
  | void | const | var | int | star => trivial
  | seq _ ih => exact within_seq.2 ih
  | tuple _ ih => exact within_tuple.2 ih

lemma ne_list (h : t.Discrete L) (element length : Ty) : t ≠ .list element length := by
  rintro rfl
  cases h

lemma isOpenStream_eq_false (h : t.Discrete L) : t.isOpenStream = false := by
  cases h <;> rfl

lemma withSource_eq (h : t.Discrete L) (x : String) : t.withSource x = t := by
  cases h <;> rfl

/-- No contract occurs in a discrete value, so none is started. -/
lemma contracts?_eq_none (h : t.Discrete L) : t.contracts? = none := by
  cases hcontracts : t.contracts? with
  | none => rfl
  | some contracts =>
    exfalso
    unfold Ty.contracts? at hcontracts
    split at hcontracts
    · cases h
    · cases hcontracts
    · rename_i items hitems
      cases h with
      | tuple h =>
        have heq := eq_map_of_mapM_contract? hcontracts
        cases contracts with
        | nil => exact hitems heq
        | cons c cs =>
          rw [heq, List.map_cons] at h
          cases h _ List.mem_cons_self
    · cases hcontracts

/-! ### Operations -/

lemma flatten (h : t.Discrete L) : ∀ v ∈ t.flatten, v.Discrete L := by
  induction h with
  | void => exact List.forall_mem_nil _
  | const name => exact List.forall_mem_singleton.2 (.const name)
  | var name => exact List.forall_mem_singleton.2 (.var name)
  | int hL n => exact List.forall_mem_singleton.2 (.int hL n)
  | star hL => exact List.forall_mem_singleton.2 (.star hL)
  | tuple h _ => exact List.forall_mem_singleton.2 (.tuple h)
  | seq _ ih =>
    intro v hv
    rw [Ty.flatten, flattenAll_eq_flatMap, List.mem_flatMap] at hv
    obtain ⟨t, ht, hv⟩ := hv
    exact ih t ht v hv

lemma ofMembers {vs : List Ty} (h : ∀ v ∈ vs, v.Discrete L) : (Ty.ofMembers vs).Discrete L := by
  unfold Ty.ofMembers
  split
  · exact .void
  · exact .seq h
  · exact h _ List.mem_cons_self
  · exact .seq h

lemma sequence {ts : List Ty} (h : ∀ t ∈ ts, t.Discrete L) : (Ty.sequence ts).Discrete L := by
  refine ofMembers fun v hv => ?_
  rw [flattenAll_eq_flatMap, List.mem_flatMap] at hv
  obtain ⟨t, ht, hv⟩ := hv
  exact (h t ht).flatten v hv

lemma normalize (h : t.Discrete L) : t.normalize.Discrete L := by
  induction h with
  | void => exact .void
  | const name => exact .const name
  | var name => exact .var name
  | int hL n => exact .int hL n
  | star hL => exact .star hL
  | seq _ ih =>
    rw [Ty.normalize, normalizeAll_eq_map]
    exact sequence (List.forall_mem_map.2 ih)
  | tuple _ ih =>
    rw [Ty.normalize, normalizeAll_eq_map]
    exact .tuple (List.forall_mem_map.2 ih)

lemma concat (ht : t.Discrete L) (hu : u.Discrete L) : (t.concat u).Discrete L := by
  have hitems : ∀ {s : Ty}, s.Discrete L → ∀ v ∈ s.items, v.Discrete L := by
    intro s hs
    cases hs with
    | void => exact List.forall_mem_nil _
    | seq h => exact h
    | const name => exact List.forall_mem_singleton.2 (.const name)
    | var name => exact List.forall_mem_singleton.2 (.var name)
    | int hL n => exact List.forall_mem_singleton.2 (.int hL n)
    | star hL => exact List.forall_mem_singleton.2 (.star hL)
    | tuple h => exact List.forall_mem_singleton.2 (.tuple h)
  by_cases hleft : t = .void
  · rwa [hleft]
  by_cases hright : u = .void
  · rwa [hright, concat_void]
  rw [concat_of_ne_void hleft hright, streamMembers_of_ne_list ht.ne_list,
    streamMembers_of_ne_list hu.ne_list]
  exact sequence (List.forall_mem_append.2 ⟨hitems ht, hitems hu⟩)

lemma pop? {head rest : Ty} (h : t.Discrete L) (hpop : t.pop? = some (head, rest)) :
    head.Discrete L ∧ rest.Discrete L := by
  cases h with
  | void | int | star => cases hpop
  | const name => cases hpop; exact ⟨.const name, .void⟩
  | var name => cases hpop; exact ⟨.var name, .void⟩
  | tuple h => cases hpop; exact ⟨.tuple h, .void⟩
  | @seq items h =>
    cases items with
    | nil => cases hpop
    | cons first others =>
      cases hpop
      obtain ⟨hfirst, hothers⟩ := List.forall_mem_cons.1 h
      exact ⟨hfirst, sequence hothers⟩

/-- A stream in normal form with something in it has a first element, unless it is a length. -/
lemma exists_pop? (h : t.Discrete L) (hnormal : t.IsNormal) (hvoid : t ≠ .void)
    (hlength : t.isLength = false) : ∃ popped, t.pop? = some popped := by
  cases h with
  | void => exact absurd rfl hvoid
  | int | star => cases hlength
  | const | var | tuple => exact ⟨_, rfl⟩
  | @seq items _ =>
    cases items with
    | nil =>
      obtain ⟨hmany | ⟨_, _, hone⟩, -, -⟩ := hnormal
      · exact absurd hmany (by simp)
      · cases hone
    | cons head rest => exact ⟨_, rfl⟩

lemma expand {look : Nat → String → Ty} {depth : Nat} (hlook : ∀ x, (look depth x).Discrete L)
    (h : t.Discrete L) : (t.expand look depth).Discrete L := by
  induction h with
  | void => exact .void
  | const name => exact .const name
  | var name => exact hlook name
  | int hL n => exact .int hL n
  | star hL => exact .star hL
  | seq _ ih =>
    rw [Ty.expand, expandAll_eq_map]
    exact .seq (List.forall_mem_map.2 ih)
  | tuple _ ih =>
    rw [Ty.expand, expandAll_eq_map]
    exact .tuple (List.forall_mem_map.2 ih)

lemma lookWithin (hb : ∀ x t, b.find? x = some t → t.Discrete L) (bound depth : Nat)
    (x : String) : (b.lookWithin bound depth x).Discrete L := by
  refine Bindings.lookWithin_induction (q := fun _ => True) (fun x _ => .var x) ?_ trivial bound
    depth
  intro x t look depth ht hlook
  have hexpand := (hb x t ht).expand fun y => hlook depth y trivial
  rw [hexpand.withSource_eq]
  exact hexpand

lemma subst (hb : ∀ x t, b.find? x = some t → t.Discrete L) (h : t.Discrete L) :
    (t.subst b).Discrete L :=
  (h.expand fun x => lookWithin hb _ _ x).normalize

/-- The parts of a discrete value are discrete. -/
lemma inherited : Inherited (Discrete L) where
  seq h := by
    cases h
    assumption
  tuple h := by
    cases h
    assumption
  list h := nomatch h
  func h := nomatch h
  contract h := nomatch h

/-! ### What normalizing keeps -/

/-- Normalizing keeps the number of members. -/
lemma length_flatten_normalize (h : t.Discrete L) :
    t.normalize.flatten.length = t.flatten.length := by
  induction h with
  | void | const | var | int | star | tuple => rfl
  | seq _ ih =>
    rw [Ty.normalize, flatten_sequence, normalizeAll_eq_map, Ty.flatten, flattenAll_eq_flatMap,
      flattenAll_eq_flatMap, List.flatMap_map, List.length_flatMap, List.length_flatMap]
    exact congrArg List.sum (List.map_congr_left ih)

/-- Normalizing keeps the variables. -/
lemma occurrences_normalize (h : t.Discrete L) : t.normalize.occurrences = t.occurrences := by
  induction h with
  | void | const | var | int | star => rfl
  | seq _ ih =>
    rw [Ty.normalize, occurrences_sequence, occurrences, normalizeAll_eq_map,
      occurrencesAll_eq_flatMap, occurrencesAll_eq_flatMap, List.flatMap_map]
    exact List.flatMap_congr ih
  | tuple _ ih =>
    rw [Ty.normalize, occurrences, occurrences, normalizeAll_eq_map, occurrencesAll_eq_flatMap,
      occurrencesAll_eq_flatMap, List.flatMap_map]
    exact List.flatMap_congr ih

/-- The variables after replacing variables are those that came in. -/
lemma occurrences_expand (h : t.Discrete L) (look : Nat → String → Ty) (depth : Nat) :
    (t.expand look depth).occurrences =
      t.occurrences.flatMap fun x => (look depth x).occurrences := by
  induction h with
  | void | const | int | star => rfl
  | var x => simp [Ty.expand, occurrences]
  | seq _ ih | tuple _ ih =>
    rw [Ty.expand, occurrences, occurrences, expandAll_eq_map, occurrencesAll_eq_flatMap,
      occurrencesAll_eq_flatMap, List.flatMap_map, List.flatMap_assoc]
    exact List.flatMap_congr ih

end Discrete

end Ty

/-- All values of the table are discrete and ground. -/
def Bindings.Tokens (lengths : Prop) (b : Bindings) : Prop :=
  ∀ x t, b.find? x = some t → t.Token lengths

namespace Bindings.Tokens

variable {L : Prop} {b : Bindings}

lemma discrete (h : b.Tokens L) : ∀ x t, b.find? x = some t → t.Discrete L :=
  fun x t ht => (h x t ht).discrete

lemma isPlain (h : b.Tokens L) : b.IsPlain := by
  intro x t ht
  exact Ty.isPlain_iff.2 ⟨(h x t ht).isGround, (h x t ht).discrete.unconstrained⟩

end Bindings.Tokens

/-- Substituting ground bindings leaves exactly the variables that are not bound. -/
lemma Ty.Discrete.mem_occurrences_subst {L M : Prop} {t : Ty} {b : Bindings} (hb : b.Tokens L)
    (h : t.Discrete M) {x : String} :
    x ∈ (t.subst b).occurrences ↔ x ∈ t.occurrences ∧ b.find? x = none := by
  have hall : t.Discrete True := h.mono fun _ => trivial
  have hlook : ∀ y, (b.look 0 y).Discrete True :=
    Ty.Discrete.lookWithin (fun y u hu => (hb.discrete y u hu).mono fun _ => trivial) _ _
  rw [Ty.subst, (hall.expand hlook).occurrences_normalize, hall.occurrences_expand,
    List.mem_flatMap]
  constructor
  · rintro ⟨y, hy, hx⟩
    cases hfind : b.find? y with
    | none =>
      rw [Bindings.look_of_find?_eq_none hfind, Ty.occurrences, List.mem_singleton] at hx
      exact hx ▸ ⟨hy, hfind⟩
    | some u =>
      have hground := (Ty.isPlain_look hb.isPlain hfind).isGround
      exact absurd hx (Ty.isGround_iff.1 hground x)
  · rintro ⟨hx, hfind⟩
    refine ⟨x, hx, ?_⟩
    rw [Bindings.look_of_find?_eq_none hfind]
    exact List.mem_singleton_self x

/-! ### Contracts -/

/-- Both sides of the contract are discrete. Lengths may be received; they may be yielded only if
`lengths` holds. -/
structure Contract.Discrete (lengths : Prop) (c : Contract) : Prop where
  receives : c.receives.Discrete True
  yields : c.yields.Discrete lengths

namespace Contract.Discrete

variable {L : Prop} {c : Contract} {b : Bindings}

lemma subst (hb : ∀ x t, b.find? x = some t → t.Discrete L) (h : c.Discrete L) :
    (c.subst b).Discrete L := by
  rcases c.subst_sides b with ⟨hr, hy⟩ | ⟨hr, hy⟩
  · exact ⟨hr ▸ .void, hy ▸ .void⟩
  · refine ⟨hr ▸ h.receives.subst fun x t ht => ?_, hy ▸ h.yields.subst hb⟩
    exact (hb x t ht).mono fun _ => trivial

lemma produce? (hb : b.Tokens L) (h : c.Discrete L) {yielded : Yielded}
    (hyielded : c.produce? b = some yielded) :
    yielded.value.Token L ∧ yielded.successor.Discrete L := by
  obtain ⟨-, hground, rest, hpop, hsuccessor⟩ := produce?_eq_some_iff.1 hyielded
  have hyields : (c.yields.subst b).Discrete L := h.yields.subst hb.discrete
  obtain ⟨hvalue, hrest⟩ := hyields.pop? hpop
  have hplain : (c.yields.subst b).IsPlain := hyields.unconstrained.ground_of_isGround hground
  refine ⟨⟨hvalue, (hplain.pop? hpop).1.isGround⟩, ?_⟩
  rw [hsuccessor]
  exact ⟨.void, hrest.normalize⟩

lemma accept? (hb : b.Tokens L) (h : c.Discrete L) {offered : Ty} (hoffered : offered.Token L)
    {hierarchy : Hierarchy} {received : Received}
    (hreceived : c.accept? offered b hierarchy = some received) :
    received.successor.Discrete L ∧ received.bindings.Tokens L := by
  obtain ⟨head, rest, found, hpop, hfound, hjoin, -, -, hsuccessor⟩ :=
    accept?_eq_some_iff.1 hreceived
  obtain ⟨-, hrest⟩ := h.receives.pop? hpop
  have hplain : offered.IsPlain :=
    hoffered.discrete.unconstrained.ground_of_isGround hoffered.isGround
  have hvalues : found.Tokens L := by
    intro x t ht
    exact ⟨(Ty.Discrete.inherited.binds_of_matching? hoffered.discrete hfound x t ht).2,
      (Ty.within_matching? hplain hfound x t ht).isGround⟩
  constructor
  · rw [hsuccessor]
    exact ⟨hrest, h.yields⟩
  · intro x t hx
    exact (Bindings.find?_of_join? hjoin hx).elim (hb x t) (hvalues x t)

lemma output {vs : List Ty} (h : ∀ v ∈ vs, v.Token L) :
    (Contract.of .void (Ty.sequence vs)).Discrete L :=
  ⟨.void, (Ty.Discrete.sequence fun v hv => (h v hv).discrete).normalize⟩

end Contract.Discrete

/-- Contracts with discrete sides stay discrete, yield discrete values without variables and bind
variables to such values. -/
theorem Contract.law_discrete (lengths : Prop) :
    Contract.Law (Contract.Discrete lengths) (Ty.Token lengths) (Bindings.Tokens lengths) where
  subst hb h := h.subst hb.discrete
  freshen suffix keep h := by
    refine h.subst fun x t ht => ?_
    rw [Bindings.eq_var_of_find?_suffixing ht]
    exact .var _
  produce hb h hyielded := h.produce? hb hyielded
  accept hb h hvalue hreceived := h.accept? hb hvalue hreceived
  append h hvalue :=
    ⟨h.receives, h.yields.concat (.sequence (List.forall_mem_singleton.2 hvalue.discrete))⟩
  contracts hvalue hcontracts := by
    rw [hvalue.discrete.contracts?_eq_none] at hcontracts
    cases hcontracts
  output h := .output h
  andThen hvalues h :=
    ⟨(Contract.Discrete.output hvalues).receives.concat h.receives |>.mono fun _ => trivial,
      (Contract.Discrete.output hvalues).yields.concat h.yields⟩

end ContractComposition

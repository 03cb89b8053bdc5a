import ContractComposition.Proofs.NormalForm

/-!
# Streams and their members

A stream in normal form is a list on its own, or it is determined by its members, and `Ty.ofMembers`
makes it out of them (`Ty.IsNormal.exists_members`). In the second case what is done to a stream is
done to the list of its members: the first one is taken off (`Ty.pop?_ofMembers_of_isMember`), and
concatenating two streams appends their lists (`Ty.concat_ofMembers_of_isMember`). A list on its own
is never made in this way (`Ty.ofMembers_ne_list`).

Taking streams apart and putting them together keeps normal forms (`Ty.IsNormal.pop?`,
`Ty.IsNormal.concat`).
-/

namespace ContractComposition

namespace Ty

variable {t u : Ty} {vs ws : List Ty}

/-! ### Members -/

/-- No list on its own is made of members. -/
lemma ofMembers_ne_list (vs : List Ty) (element length : Ty) :
    ofMembers vs ≠ .list element length := by
  unfold ofMembers
  split
  · exact nofun
  · exact nofun
  · rename_i hlist
    exact hlist element length
  · exact nofun

lemma sequence_ne_list (vs : List Ty) (element length : Ty) :
    sequence vs ≠ .list element length :=
  ofMembers_ne_list _ _ _

lemma streamMembers_of_ne_list (h : ∀ element length, t ≠ .list element length) :
    t.streamMembers = t.items := by
  cases t with
  | list element length => exact absurd rfl (h element length)
  | void | const | var | int | star | seq | tuple | func | contract => rfl

/-- The members of a stream are those that it was made of. -/
lemma items_ofMembers_of_isMember (h : ∀ v ∈ vs, v.IsMember) : (ofMembers vs).items = vs := by
  match vs with
  | [] => rfl
  | [v] =>
    have hv : v.IsMember := h v List.mem_cons_self
    cases v with
    | void => cases hv.1
    | seq => cases hv.2
    | list | const | var | int | star | tuple | func | contract => rfl
  | u :: v :: vs =>
    rw [ofMembers_of_two_le (by simp)]
    rfl

lemma ofMembers_eq_void_iff (h : ∀ v ∈ vs, v.IsMember) : ofMembers vs = .void ↔ vs = [] := by
  constructor
  · intro hvoid
    rw [← items_ofMembers_of_isMember h, hvoid]
    rfl
  · rintro rfl
    rfl

/-- Taking the first element off a stream takes off its first member. -/
lemma pop?_ofMembers_of_isMember (h : ∀ v ∈ vs, v.IsMember) {head rest : Ty}
    (hpop : (ofMembers vs).pop? = some (head, rest)) :
    ∃ others, vs = head :: others ∧ rest = ofMembers others := by
  match vs with
  | [] => cases hpop
  | [v] =>
    have hv : v.IsMember := h v List.mem_cons_self
    cases v with
    | void => cases hv.1
    | seq => cases hv.2
    | int | star | func => cases hpop
    | list | const | var | tuple | contract => cases hpop; exact ⟨[], rfl, rfl⟩
  | u :: v :: vs =>
    rw [ofMembers_of_two_le (by simp)] at hpop
    obtain ⟨rfl, rfl⟩ := Prod.mk.inj (Option.some.inj hpop)
    exact ⟨v :: vs, rfl, by rw [sequence, flattenAll_eq_self (List.forall_mem_cons.1 h).2]⟩

/-- Whether the value is a length: concrete, unknown or computed. Such a value has no first
element, though it is not empty. -/
def isLengthExpr : Ty → Bool
  | .int _ => true
  | .star => true
  | .func _ _ => true
  | _ => false

/-- The first member of a stream is taken off, unless it is a length. -/
lemma pop?_ofMembers_cons {v : Ty} (h : ∀ w ∈ v :: vs, w.IsMember)
    (hlength : v.isLengthExpr = false) :
    (ofMembers (v :: vs)).pop? = some (v, ofMembers vs) := by
  cases vs with
  | nil =>
    have hv : v.IsMember := h v List.mem_cons_self
    cases v with
    | void => cases hv.1
    | seq => cases hv.2
    | int | star | func => cases hlength
    | list | const | var | tuple | contract => rfl
  | cons w ws =>
    rw [ofMembers_of_two_le (by simp), pop?, sequence,
      flattenAll_eq_self (List.forall_mem_cons.1 h).2]

/-- Concatenating streams appends their members. -/
lemma concat_ofMembers_of_isMember (hvs : ∀ v ∈ vs, v.IsMember) (hws : ∀ w ∈ ws, w.IsMember) :
    (ofMembers vs).concat (ofMembers ws) = ofMembers (vs ++ ws) := by
  by_cases hleft : ofMembers vs = .void
  · rw [(ofMembers_eq_void_iff hvs).1 hleft]
    rfl
  by_cases hright : ofMembers ws = .void
  · rw [(ofMembers_eq_void_iff hws).1 hright, List.append_nil, ofMembers, concat_void]
  rw [concat_of_ne_void hleft hright, streamMembers_of_ne_list (ofMembers_ne_list vs),
    streamMembers_of_ne_list (ofMembers_ne_list ws), items_ofMembers_of_isMember hvs,
    items_ofMembers_of_isMember hws, sequence,
    flattenAll_eq_self (List.forall_mem_append.2 ⟨hvs, hws⟩)]

lemma forall_isMember_flattenAll (vs : List Ty) : ∀ v ∈ flattenAll vs, v.IsMember := by
  rw [flattenAll_eq_flatMap]
  intro v hv
  obtain ⟨u, -, hv⟩ := List.mem_flatMap.1 hv
  exact isMember_of_mem_flatten hv

/-- A stream that is opened gives its members, opened in turn. -/
lemma flattenAll_items (t : Ty) : flattenAll t.items = t.flatten := by
  cases t with
  | void | seq => rfl
  | const | var | int | star | tuple | list | func | contract => rfl

/-- The members of a stream that is made of members are these. -/
lemma flatten_ofMembers (h : ∀ v ∈ vs, v.IsMember) : (ofMembers vs).flatten = vs := by
  rw [← flattenAll_items, items_ofMembers_of_isMember h, flattenAll_eq_self h]

lemma flatten_sequence (ts : List Ty) : (sequence ts).flatten = flattenAll ts :=
  flatten_ofMembers (forall_isMember_flattenAll ts)

/-! ### Normal forms -/

/-- A stream in normal form that is not a list on its own is made of its members. -/
lemma IsNormal.exists_members (h : t.IsNormal)
    (hlist : ∀ element length, t ≠ .list element length) :
    ∃ vs, (∀ v ∈ vs, v.IsMember) ∧ (∀ v ∈ vs, v.IsNormal) ∧ t = ofMembers vs := by
  cases t with
  | void => exact ⟨[], List.forall_mem_nil _, List.forall_mem_nil _, rfl⟩
  | seq items =>
    obtain ⟨hshape, hmember, hnormal⟩ := h
    refine ⟨items, hmember, allNormal_iff.1 hnormal, ?_⟩
    rcases hshape with hlength | ⟨element, length, rfl⟩
    · exact (ofMembers_of_two_le hlength).symm
    · rfl
  | list element length => exact absurd rfl (hlist element length)
  | const | var | int | star | tuple | func | contract =>
    exact ⟨[_], List.forall_mem_singleton.2 ⟨rfl, rfl⟩, List.forall_mem_singleton.2 h, rfl⟩

/-- The elements and the remainder of a stream in normal form are in normal form. -/
lemma IsNormal.pop? {head rest : Ty} (h : t.IsNormal) (hpop : t.pop? = some (head, rest)) :
    head.IsNormal ∧ rest.IsNormal := by
  cases t with
  | void | int | star | func => cases hpop
  | const | var | tuple | contract => cases hpop; exact ⟨h, trivial⟩
  | seq items =>
    have hitems := allNormal_iff.1 h.2.2
    cases items with
    | nil => cases hpop
    | cons first others =>
      cases hpop
      have hall := List.forall_mem_cons.1 hitems
      exact ⟨hall.1, isNormal_sequence hall.2⟩
  | list element length =>
    obtain ⟨hpositive, helement, hlength⟩ := h
    have hrest : (listOf element (decOf length)).IsNormal :=
      isNormal_listOf helement (isNormal_eval (List.forall_mem_singleton.2 hlength))
    cases length with
    | star => cases hpop; exact ⟨helement, hpositive, helement, hlength⟩
    | int n =>
      rw [Ty.pop?] at hpop
      split at hpop
      · cases hpop
      · cases hpop
        exact ⟨helement, hrest⟩
    | void | const | var | seq | tuple | list | func | contract =>
      cases hpop
      exact ⟨helement, hrest⟩

lemma IsNormal.streamMembers (h : t.IsNormal) : ∀ v ∈ t.streamMembers, v.IsNormal := by
  by_cases hlist : ∃ element length, t = .list element length
  · obtain ⟨element, length, rfl⟩ := hlist
    have hself : ∀ v ∈ [Ty.list element length], v.IsNormal := List.forall_mem_singleton.2 h
    cases length with
    | int n =>
      rw [Ty.streamMembers]
      split
      · intro v hv
        rw [List.eq_of_mem_replicate hv]
        exact h.2.1
      · exact hself
    | void | const | var | star | seq | tuple | list | func | contract => exact hself
  · simp only [not_exists] at hlist
    obtain ⟨vs, hmember, hnormal, rfl⟩ := h.exists_members hlist
    rwa [streamMembers_of_ne_list hlist, items_ofMembers_of_isMember hmember]

/-- Putting streams in normal form together gives a normal form. -/
lemma IsNormal.concat (ht : t.IsNormal) (hu : u.IsNormal) : (t.concat u).IsNormal := by
  by_cases hleft : t = .void
  · rwa [hleft]
  by_cases hright : u = .void
  · rwa [hright, concat_void]
  rw [concat_of_ne_void hleft hright]
  exact isNormal_sequence (List.forall_mem_append.2 ⟨ht.streamMembers, hu.streamMembers⟩)

/-- Moving the first element of a stream to the end of what stands before it changes nothing as a
whole. What remains is not a list on its own. -/
lemma IsNormal.concat_pop? (ht : t.IsNormal) (hlist : ∀ element length, t ≠ .list element length)
    {head rest : Ty} (hpop : t.pop? = some (head, rest)) (vs : List Ty) :
    (sequence (vs ++ [head])).concat rest = (sequence vs).concat t ∧
      ∀ element length, rest ≠ .list element length := by
  obtain ⟨members, hmember, -, rfl⟩ := ht.exists_members hlist
  obtain ⟨others, rfl, rfl⟩ := pop?_ofMembers_of_isMember hmember hpop
  obtain ⟨hhead, hothers⟩ := List.forall_mem_cons.1 hmember
  have hflat : flattenAll (vs ++ [head]) = flattenAll vs ++ [head] := by
    rw [flattenAll_eq_flatMap, flattenAll_eq_flatMap, List.flatMap_append, List.flatMap_singleton,
      hhead.flatten_eq]
  refine ⟨?_, ofMembers_ne_list others⟩
  rw [sequence, sequence,
    concat_ofMembers_of_isMember (forall_isMember_flattenAll _) hothers,
    concat_ofMembers_of_isMember (forall_isMember_flattenAll _) hmember, hflat, List.append_assoc,
    List.singleton_append]

/-- A list in normal form that is not an open stream has a first element. -/
lemma IsNormal.exists_pop?_list {element length : Ty} (h : (Ty.list element length).IsNormal)
    (hclosed : (Ty.list element length).isOpenStream = false) :
    ∃ p, (Ty.list element length).pop? = some p := by
  cases length with
  | int n => exact ⟨_, if_neg (Int64.not_le.2 (h.1 n rfl))⟩
  | void | const | var | star | seq | tuple | list | func | contract => cases hclosed

/-- A list on its own arises from putting streams together only if one of them is nothing. -/
lemma eq_void_of_concat_eq_list {element length : Ty} (h : t.concat u = .list element length) :
    t = .void ∨ u = .void := by
  by_contra hboth
  rw [not_or] at hboth
  rw [concat_of_ne_void hboth.1 hboth.2] at h
  exact sequence_ne_list _ _ _ h

/-- Only lists on their own have lists on their own as normal forms. -/
lemma exists_eq_list_of_normalize {element length : Ty} (h : t.normalize = .list element length) :
    ∃ element' length', t = .list element' length' := by
  cases t with
  | void | const | var | int | star | tuple => cases h
  | seq items => exact absurd h (sequence_ne_list _ _ _)
  | list element' length' => exact ⟨element', length', rfl⟩
  | func fn args =>
    rw [normalize] at h
    rcases fn.eval_cases (normalizeAll args) with heq | ⟨n, heq⟩ | hstuck
    · rw [heq] at h
      cases h
    · rw [heq] at h
      cases h
    · rw [hstuck.eval_eq] at h
      cases h
  | contract body =>
    rw [normalize_contract, Contract.withSides] at h
    split at h <;> cases h

end Ty

end ContractComposition

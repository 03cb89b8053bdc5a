import ContractComposition.Proofs.Streams

/-!
# Draining streams

A stream is consumed from the front, one element after another. `Ty.Pops` follows this for a while,
and `Ty.Drains` until nothing is left. Which values a stream in normal form gives in this way, and
when it comes to its end, is known exactly (`popping_drains_streams`): a stream that is made of
members gives its members, a list of concrete length gives its element as often as it says, and a
list of any other length never ends. The length of a list is positive whenever it is counted down,
so that counting down is exact.

Concatenation puts one stream after another. What a stream contributes to it are its members,
where a list on its own stands for its elements if it is spread, and for itself otherwise
(`Ty.contribution`). A concatenation of two streams that are not empty is made of what the two
contribute, and it contributes just this to a further one; so concatenation is associative
(`concat_forms_monoid`). If what the streams contribute is what they give when they are drained,
then the concatenation gives the one after the other.
-/

namespace ContractComposition

namespace Ty

variable {t u : Ty} {vs ws : List Ty}

/-! ### Taking off one element after another -/

/-- Taking elements off a stream, one after another, gives some values and leaves another stream. -/
inductive Pops : Ty → List Ty → Ty → Prop
  | nil (t : Ty) : Pops t [] t
  | cons {t v rest u : Ty} {vs : List Ty} (hpop : t.pop? = some (v, rest))
      (hrest : Pops rest vs u) : Pops t (v :: vs) u

/-- Taking elements off a stream until nothing is left gives some values. -/
def Drains (t : Ty) (vs : List Ty) : Prop :=
  t.Pops vs .void

lemma drains_void : Ty.void.Drains [] :=
  .nil .void

lemma Drains.cons {v rest : Ty} (hpop : t.pop? = some (v, rest)) (hrest : rest.Drains vs) :
    t.Drains (v :: vs) :=
  Pops.cons hpop hrest

/-- A stream is drained in one way only. -/
lemma Drains.eq (h : t.Drains vs) (h' : t.Drains ws) : vs = ws := by
  induction vs generalizing t ws with
  | nil =>
    cases h with
    | nil =>
      cases h' with
      | nil => rfl
      | cons hpop => cases hpop
  | cons v vs ih =>
    cases h with
    | cons hpop hrest =>
      cases h' with
      | nil => cases hpop
      | cons hpop' hrest' =>
        rw [hpop] at hpop'
        cases hpop'
        rw [ih hrest hrest']

lemma Drains.iff_eq (h : t.Drains vs) (ws : List Ty) : t.Drains ws ↔ ws = vs := by
  constructor
  · exact fun h' => h'.eq h
  · rintro rfl
    exact h

/-- What is left of a stream in normal form is in normal form. -/
lemma Pops.isNormal (h : t.Pops vs u) (ht : t.IsNormal) : u.IsNormal := by
  induction h with
  | nil => exact ht
  | cons hpop _ ih => exact ih (ht.pop? hpop).2

/-! ### Streams made of members -/

/-- A stream made of members gives its members, unless there is a length among them. -/
lemma drains_ofMembers (h : ∀ v ∈ vs, v.IsMember) (hlength : ∀ v ∈ vs, v.isLengthExpr = false) :
    (ofMembers vs).Drains vs := by
  induction vs with
  | nil => exact drains_void
  | cons v vs ih =>
    obtain ⟨hfirst, hrest⟩ := List.forall_mem_cons.1 hlength
    exact (ih (List.forall_mem_cons.1 h).2 hrest).cons (pop?_ofMembers_cons h hfirst)

/-! ### Lists on their own -/

/-- A positive length is counted down without overflow. -/
lemma toInt_pred {n : Int64} (h : 0 < n) : (n - 1).toInt = n.toInt - 1 := by
  have hpos : 0 < n.toInt := Int64.lt_iff_toInt_lt.1 h
  have hlt := n.toInt_lt
  rw [Int64.toInt_sub, Int64.toInt_one]
  exact Int.bmod_eq_of_le (by omega) (by omega)

lemma decOf_int {n : Int64} (h : 0 < n) : decOf (.int n) = .int (n - 1) := by
  have hpred : ¬n - 1 < 0 := by
    have hpos : 0 < n.toInt := Int64.lt_iff_toInt_lt.1 h
    rw [Int64.lt_iff_toInt_lt, toInt_pred h, Int64.toInt_zero]
    omega
  exact congrArg Ty.int (if_neg hpred)

/-- A list of positive length has its element as its first one and gets shorter by one. -/
lemma pop?_list_int {n : Int64} (h : 0 < n) (element : Ty) :
    (Ty.list element (.int n)).pop? = some (element, listOf element (.int (n - 1))) := by
  rw [pop?, if_neg (Int64.not_le.2 h), decOf_int h]

lemma listOf_int_of_pos {n : Int64} (h : 0 < n) (element : Ty) :
    listOf element (.int n) = .list element (.int n) := by
  rw [listOf, if_neg (Int64.not_le.2 h)]

/-- A list of concrete length gives its element as often as the length says. -/
lemma drains_listOf (element : Ty) {k : Nat} {n : Int64} (hn : n.toInt = k) :
    (listOf element (.int n)).Drains (List.replicate k element) := by
  induction k generalizing n with
  | zero =>
    have hle : n ≤ 0 := by
      rw [Int64.le_iff_toInt_le, hn]
      exact Int.le_refl 0
    rw [listOf, if_pos hle]
    exact drains_void
  | succ k ih =>
    have hpos : 0 < n := by
      rw [Int64.lt_iff_toInt_lt, hn, Int64.toInt_zero]
      omega
    rw [listOf_int_of_pos hpos]
    refine Drains.cons (pop?_list_int hpos element) (ih ?_)
    rw [toInt_pred hpos, hn]
    omega

lemma drains_list_int {n : Int64} (h : 0 < n) (element : Ty) :
    (Ty.list element (.int n)).Drains (List.replicate n.toInt.toNat element) := by
  have hpos : 0 < n.toInt := Int64.lt_iff_toInt_lt.1 h
  rw [← listOf_int_of_pos h]
  exact drains_listOf element (by omega)

/-- A list whose length is not concrete has a first element, and its length does not become
concrete. -/
lemma pop?_list_of_int?_eq_none {length : Ty} (h : length.int? = none) (element : Ty) :
    (Ty.list element length).pop? = some (element, .list element (decOf length)) ∧
      (decOf length).int? = none := by
  cases length with
  | int n => cases h
  | void | const | var | star | seq | tuple | list | func | contract => exact ⟨rfl, rfl⟩

/-- A list whose length is not concrete goes on for ever, and stays such a list. -/
lemma pops_list_of_int?_eq_none {length : Ty} (h : length.int? = none) (element : Ty) (k : Nat) :
    ∃ rest, (Ty.list element length).Pops (List.replicate k element) rest := by
  induction k generalizing length with
  | zero => exact ⟨_, .nil _⟩
  | succ k ih =>
    obtain ⟨hpop, hdec⟩ := pop?_list_of_int?_eq_none h element
    obtain ⟨rest, hrest⟩ := ih hdec
    exact ⟨rest, .cons hpop hrest⟩

lemma not_drains_list_of_int?_eq_none {length : Ty} (h : length.int? = none) (element : Ty) :
    ¬(Ty.list element length).Drains vs := by
  induction vs generalizing length with
  | nil =>
    intro hdrains
    cases hdrains
  | cons v vs ih =>
    intro hdrains
    obtain ⟨hpop, hdec⟩ := pop?_list_of_int?_eq_none h element
    cases hdrains with
    | cons hpop' hrest =>
      rw [hpop] at hpop'
      cases hpop'
      exact ih hdec hrest

/-! ### Concatenation -/

/-- The members that a stream contributes to a concatenation, with sequences opened. -/
def contribution (t : Ty) : List Ty :=
  flattenAll t.streamMembers

lemma isMember_of_mem_contribution (t : Ty) : ∀ v ∈ t.contribution, v.IsMember :=
  forall_isMember_flattenAll _

/-- What is made of members contributes these. -/
lemma contribution_ofMembers (h : ∀ v ∈ vs, v.IsMember) : (ofMembers vs).contribution = vs := by
  rw [contribution, streamMembers_of_ne_list (ofMembers_ne_list vs), items_ofMembers_of_isMember h,
    flattenAll_eq_self h]

/-- A concatenation of two streams is made of what the two contribute. -/
lemma concat_eq_ofMembers (ht : t ≠ .void) (hu : u ≠ .void) :
    t.concat u = ofMembers (t.contribution ++ u.contribution) := by
  rw [concat_of_ne_void ht hu, sequence, contribution, contribution]
  simp only [flattenAll_eq_flatMap, List.flatMap_append]

/-- Opening a value that is not nothing gives something. -/
lemma IsNormal.flatten_ne_nil (h : t.IsNormal) (hvoid : t ≠ .void) : t.flatten ≠ [] := by
  cases t with
  | void => exact absurd rfl hvoid
  | seq items =>
    obtain ⟨hshape, hmember, -⟩ := h
    rw [Ty.flatten, flattenAll_eq_self hmember]
    rintro rfl
    rcases hshape with hlength | ⟨element, length, hone⟩
    · exact absurd hlength (by simp)
    · cases hone
  | const | var | int | star | tuple | list | func | contract => exact List.cons_ne_nil _ _

/-- A stream that is not empty contributes something, unless it is a list of nothing. -/
lemma IsNormal.contribution_ne_nil (h : t.IsNormal) (hvoid : t ≠ .void)
    (hlist : ∀ length, t ≠ .list .void length) : t.contribution ≠ [] := by
  by_cases hbare : ∃ element length, t = .list element length
  · obtain ⟨element, length, rfl⟩ := hbare
    have hself : flattenAll [Ty.list element length] ≠ [] := List.cons_ne_nil _ _
    cases length with
    | int n =>
      rw [contribution, Ty.streamMembers]
      split
      · have hpos : 0 < n.toInt := Int64.lt_iff_toInt_lt.1 (h.1 n rfl)
        have helement : element ≠ .void := by
          rintro rfl
          exact hlist _ rfl
        obtain ⟨k, hk⟩ : ∃ k, n.toInt.toNat = k + 1 := ⟨n.toInt.toNat - 1, by omega⟩
        rw [hk, List.replicate_succ, flattenAll]
        exact List.append_ne_nil_of_left_ne_nil (h.2.1.flatten_ne_nil helement) _
      · exact hself
    | void | const | var | star | seq | tuple | list | func | contract => exact hself
  · simp only [not_exists] at hbare
    obtain ⟨vs, hmember, -, rfl⟩ := h.exists_members hbare
    rw [contribution_ofMembers hmember]
    exact fun hnil => hvoid ((ofMembers_eq_void_iff hmember).2 hnil)

/-- A concatenation of two streams that contribute something is made of what they contribute, and
contributes just this. -/
lemma IsNormal.concat_ne_void (ht : t.IsNormal) (htvoid : t ≠ .void) (huvoid : u ≠ .void)
    (htlist : ∀ length, t ≠ .list .void length) :
    t.concat u ≠ .void ∧ (t.concat u).contribution = t.contribution ++ u.contribution := by
  have hmember : ∀ v ∈ t.contribution ++ u.contribution, v.IsMember :=
    List.forall_mem_append.2 ⟨t.isMember_of_mem_contribution, u.isMember_of_mem_contribution⟩
  rw [concat_eq_ofMembers htvoid huvoid]
  refine ⟨fun hvoid => ?_, contribution_ofMembers hmember⟩
  have hnil := (ofMembers_eq_void_iff hmember).1 hvoid
  exact ht.contribution_ne_nil htvoid htlist (List.append_eq_nil_iff.1 hnil).1

/-- Streams in normal form may be put together in any order, as long as none of them is a list of
nothing. -/
lemma IsNormal.concat_assoc {a b c : Ty} (ha : a.IsNormal) (hb : b.IsNormal)
    (halist : ∀ length, a ≠ .list .void length) (hblist : ∀ length, b ≠ .list .void length) :
    (a.concat b).concat c = a.concat (b.concat c) := by
  by_cases havoid : a = .void
  · rw [havoid]
    rfl
  by_cases hbvoid : b = .void
  · rw [hbvoid, concat_void]
    rfl
  by_cases hcvoid : c = .void
  · rw [hcvoid, concat_void, concat_void]
  obtain ⟨hab, habMembers⟩ := ha.concat_ne_void havoid hbvoid halist
  obtain ⟨hbc, hbcMembers⟩ := hb.concat_ne_void hbvoid hcvoid hblist
  rw [concat_eq_ofMembers hab hcvoid, concat_eq_ofMembers havoid hbc, habMembers, hbcMembers,
    List.append_assoc]

/-- The stream can be drained, and so it can after others have been put behind it: it is not an
open stream, no length is among its members, and if it is a list on its own, its element is neither
a sequence nor a length. -/
structure Separable (t : Ty) : Prop where
  closed : t.isOpenStream = false
  members : ∀ v ∈ t.items, v.isLengthExpr = false
  element : ∀ element length, t = .list element length →
    element.isSeq = false ∧ element.isLengthExpr = false

/-- A separable stream contributes what it gives when it is drained. -/
lemma Separable.drains (h : t.Separable) (ht : t.IsNormal)
    (hlist : ∀ length, t ≠ .list .void length) :
    t.Drains t.contribution ∧ ∀ v ∈ t.contribution, v.isLengthExpr = false := by
  by_cases hbare : ∃ element length, t = .list element length
  · obtain ⟨element, length, rfl⟩ := hbare
    obtain ⟨hseq, hlength⟩ := h.element element length rfl
    cases length with
    | int n =>
      have hlimit : n ≤ spreadLimit := Int64.not_lt.1 (of_decide_eq_false h.closed)
      have helement : element.IsMember := by
        refine ⟨Bool.eq_false_iff.2 fun hvoid => ?_, hseq⟩
        rw [isVoid_iff] at hvoid
        exact hlist (.int n) (by rw [hvoid])
      have hmembers : ∀ v ∈ List.replicate n.toInt.toNat element, v = element :=
        fun v hv => List.eq_of_mem_replicate hv
      have heq : (Ty.list element (.int n)).contribution =
          List.replicate n.toInt.toNat element := by
        rw [contribution, Ty.streamMembers, if_pos hlimit,
          flattenAll_eq_self fun v hv => hmembers v hv ▸ helement]
      rw [heq]
      exact ⟨drains_list_int (ht.1 n rfl) element, fun v hv => hmembers v hv ▸ hlength⟩
    | void | const | var | star | seq | tuple | list | func | contract => cases h.closed
  · simp only [not_exists] at hbare
    obtain ⟨vs, hmember, -, rfl⟩ := ht.exists_members hbare
    have hlengths := h.members
    rw [items_ofMembers_of_isMember hmember] at hlengths
    rw [contribution_ofMembers hmember]
    exact ⟨drains_ofMembers hmember hlengths, hlengths⟩

/-- Draining a concatenation of separable streams gives what draining the one and then the other
gives. -/
lemma Separable.drains_concat (ht : t.Separable) (hu : u.Separable) (htnormal : t.IsNormal)
    (hunormal : u.IsNormal) (htlist : ∀ length, t ≠ .list .void length)
    (hulist : ∀ length, u ≠ .list .void length) :
    (t.concat u).Drains (t.contribution ++ u.contribution) := by
  obtain ⟨htdrains, htlengths⟩ := ht.drains htnormal htlist
  obtain ⟨hudrains, hulengths⟩ := hu.drains hunormal hulist
  by_cases htvoid : t = .void
  · rw [htvoid]
    exact hudrains
  by_cases huvoid : u = .void
  · rw [huvoid, concat_void]
    exact (List.append_nil t.contribution).symm ▸ htdrains
  rw [concat_eq_ofMembers htvoid huvoid]
  refine drains_ofMembers ?_ (List.forall_mem_append.2 ⟨htlengths, hulengths⟩)
  exact List.forall_mem_append.2 ⟨t.isMember_of_mem_contribution, u.isMember_of_mem_contribution⟩

end Ty

/-! ### Main results -/

/-- Popping drains a stream exactly. Let a stream in normal form have no length among its members.
If it is not a list on its own, it gives its members and then comes to its end. A list of concrete
length gives its element as often as its length says and then comes to its end. A list of any other
length gives its element again and again and never comes to its end. Whenever the length of a list
is counted down on the way, it is positive, and one less is what results. -/
theorem popping_drains_streams {t : Ty} (ht : t.normalize = t)
    (hlengths : ∀ v ∈ t.items, v.isLengthExpr = false) :
    ((∀ element length, t ≠ .list element length) → ∀ vs, t.Drains vs ↔ vs = t.items) ∧
      (∀ element n, t = .list element (.int n) →
        ∀ vs, t.Drains vs ↔ vs = List.replicate n.toInt.toNat element) ∧
      (∀ element length, t = .list element length → length.int? = none →
        (∀ vs, ¬t.Drains vs) ∧ ∀ k, ∃ rest, t.Pops (List.replicate k element) rest) ∧
      ∀ vs element n, t.Pops vs (.list element (.int n)) →
        0 < n ∧ Ty.decOf (.int n) = .int (n - 1) ∧ (n - 1).toInt = n.toInt - 1 := by
  have hnormal : t.IsNormal := ht ▸ t.isNormal_normalize
  refine ⟨fun hlist vs => ?_, ?_, ?_, fun vs element n hpops => ?_⟩
  · obtain ⟨members, hmember, -, rfl⟩ := hnormal.exists_members hlist
    rw [Ty.items_ofMembers_of_isMember hmember] at hlengths ⊢
    exact (Ty.drains_ofMembers hmember hlengths).iff_eq vs
  · rintro element n rfl vs
    exact (Ty.drains_list_int (hnormal.1 n rfl) element).iff_eq vs
  · rintro element length rfl hlength
    exact ⟨fun vs => Ty.not_drains_list_of_int?_eq_none hlength element,
      Ty.pops_list_of_int?_eq_none hlength element⟩
  · have hpos : 0 < n := (hpops.isNormal hnormal).1 n rfl
    exact ⟨hpos, Ty.decOf_int hpos, Ty.toInt_pred hpos⟩

/-- A list at the end of a sequence stays one value, and the longest list of concrete length comes
to its end. -/
theorem popping_drains_streams_longest :
    (∀ vs, (Ty.seq [.const "A", .list (.const "B") (.int 3)]).Drains vs ↔
      vs = [.const "A", .list (.const "B") (.int 3)]) ∧
    ∀ vs, (Ty.list (.const "C") (.int 9223372036854775807)).Drains vs ↔
      vs = List.replicate 9223372036854775807 (.const "C") := by
  have hcount : (9223372036854775807 : Int64).toInt.toNat = 9223372036854775807 := by decide
  refine ⟨?_, ?_⟩
  · exact (popping_drains_streams (t := .seq [.const "A", .list (.const "B") (.int 3)]) rfl
      (by decide)).1 nofun
  · rw [← hcount]
    exact (popping_drains_streams (t := .list (.const "C") (.int 9223372036854775807)) rfl
      (by decide)).2.1 _ _ rfl

/-- Concatenation forms a monoid, and it concatenates streams. Let streams be in normal form and not
be lists of nothing. Such streams are closed under concatenation, nothing at all is neutral on both
sides, and it does not matter how three streams are grouped. The concatenation of two separable
streams, when it is drained, gives what the first one gives and then what the second one gives. -/
theorem concat_forms_monoid {a b : Ty} (ha : a.normalize = a) (hb : b.normalize = b)
    (halist : ∀ length, a ≠ .list .void length) (hblist : ∀ length, b ≠ .list .void length) :
    ((a.concat b).normalize = a.concat b ∧ ∀ length, a.concat b ≠ .list .void length) ∧
      (Ty.void.concat a = a ∧ a.concat .void = a) ∧
      (∀ c, (a.concat b).concat c = a.concat (b.concat c)) ∧
      (a.Separable → b.Separable → ∃ vs ws, (∀ us, a.Drains us ↔ us = vs) ∧
        (∀ us, b.Drains us ↔ us = ws) ∧ ∀ us, (a.concat b).Drains us ↔ us = vs ++ ws) := by
  have hanormal : a.IsNormal := ha ▸ a.isNormal_normalize
  have hbnormal : b.IsNormal := hb ▸ b.isNormal_normalize
  refine ⟨⟨(hanormal.concat hbnormal).normalize_eq, fun length heq => ?_⟩, ⟨rfl, a.concat_void⟩,
    fun c => hanormal.concat_assoc hbnormal halist hblist, fun hasep hbsep => ?_⟩
  · rcases Ty.eq_void_of_concat_eq_list heq with rfl | rfl
    · exact hblist length heq
    · exact halist length (a.concat_void ▸ heq)
  · refine ⟨a.contribution, b.contribution, ?_, ?_, ?_⟩
    · exact (hasep.drains hanormal halist).1.iff_eq
    · exact (hbsep.drains hbnormal hblist).1.iff_eq
    · exact (hasep.drains_concat hbsep hanormal hbnormal halist hblist).iff_eq

/-- A list of the greatest length that is spread stands between an open stream and a sequence. A
list of two elements and a sequence that ends in a list are drained one after the other. -/
theorem concat_forms_monoid_spreading :
    let limit : Ty := .list (.const "A") (.int 4096)
    let stream : Ty := .list (.const "B") .star
    let short : Ty := .list (.const "C") (.int 2)
    let ending : Ty := .seq [.const "D", .list (.const "E") (.int 3)]
    (stream.concat limit).concat ending = stream.concat (limit.concat ending) ∧
      (short.concat ending).Drains
        [.const "C", .const "C", .const "D", .list (.const "E") (.int 3)] := by
  intro limit stream short ending
  have hlist : ∀ name length length', Ty.list (.const name) length ≠ .list .void length' := nofun
  have hshort : short.Separable := by
    refine ⟨by decide, by decide, fun element length heq => ?_⟩
    rw [← (Ty.list.inj heq).1]
    decide
  have hending : ending.Separable := ⟨by decide, by decide, nofun⟩
  obtain ⟨-, -, hgroup, -⟩ :=
    concat_forms_monoid (a := stream) (b := limit) rfl rfl (hlist _ _) (hlist _ _)
  obtain ⟨-, -, -, hdrains⟩ :=
    concat_forms_monoid (a := short) (b := ending) rfl rfl (hlist _ _) nofun
  obtain ⟨vs, ws, hvs, hws, hall⟩ := hdrains hshort hending
  refine ⟨hgroup ending, (hall _).2 ?_⟩
  have hfirst := (hvs [.const "C", .const "C"]).1 ?_
  have hsecond := (hws [.const "D", .list (.const "E") (.int 3)]).1 ?_
  · rw [← hfirst, ← hsecond]
    rfl
  · exact .cons rfl (.cons rfl (.nil _))
  · exact .cons rfl (.cons rfl (.nil _))

end ContractComposition

import ContractComposition.Proofs.Run.Law
import ContractComposition.Proofs.Streams

/-!
# Normal forms are kept

Values are kept in normal form: whatever makes a value out of normal forms makes a normal form. A
value is normal exactly if normalizing leaves it alone, and substituting bindings gives a normal
form whatever it starts from. The smart constructors, concatenation and taking elements off a
stream keep normal forms, and so does everything that is done with a contract whose sides are
normal (`Contract.NormalSides`). Such a contract is finished exactly if both sides are literally
`void`, so that no normalizing is needed to see it.

Since contracts with normal sides obey a law of runs (`Contract.law_normalSides`), runs that begin
with them never meet other values.
-/

namespace ContractComposition

/-- Both sides of the contract are in normal form. Unlike a contract that is passed on as a value,
it may be finished. -/
structure Contract.NormalSides (c : Contract) : Prop where
  receives : c.receives.IsNormal
  yields : c.yields.IsNormal

namespace Ty

/-- The normal forms are the values that normalizing leaves alone. -/
lemma isNormal_iff {t : Ty} : t.IsNormal ↔ t.normalize = t := by
  constructor
  · exact IsNormal.normalize_eq
  · intro h
    rw [← h]
    exact t.isNormal_normalize

lemma isNormal_subst (t : Ty) (b : Bindings) : (t.subst b).IsNormal :=
  isNormal_normalize _

lemma isNormal_tuple {ts : List Ty} : (Ty.tuple ts).IsNormal ↔ ∀ t ∈ ts, t.IsNormal :=
  allNormal_iff

lemma isNormal_minOf {t u : Ty} (ht : t.IsNormal) (hu : u.IsNormal) : (minOf t u).IsNormal :=
  isNormal_eval (List.forall_mem_cons.2 ⟨ht, List.forall_mem_singleton.2 hu⟩)

lemma isNormal_decOf {t : Ty} (ht : t.IsNormal) : (decOf t).IsNormal :=
  isNormal_eval (List.forall_mem_singleton.2 ht)

/-- The contracts that a normal value starts have normal sides. -/
lemma IsNormal.contracts? {t : Ty} {contracts : List Contract} (h : t.IsNormal)
    (hc : t.contracts? = some contracts) : ∀ c ∈ contracts, c.NormalSides := by
  have hsides : ∀ c, (Ty.contract c).IsNormal → c.NormalSides := by
    intro c hnormal
    obtain ⟨-, hr, hy⟩ := isNormal_contract.1 hnormal
    exact ⟨hr, hy⟩
  unfold Ty.contracts? at hc
  split at hc
  · cases hc
    exact List.forall_mem_singleton.2 (hsides _ h)
  · cases hc
  · intro c hmem
    rw [isNormal_tuple, eq_map_of_mapM_contract? hc] at h
    exact hsides c (h _ (List.mem_map_of_mem hmem))
  · cases hc

end Ty

namespace Contract.NormalSides

variable {c next : Contract}

lemma of (receives yields : Ty) : (Contract.of receives yields).NormalSides :=
  ⟨receives.isNormal_normalize, yields.isNormal_normalize⟩

lemma subst (c : Contract) (b : Bindings) : (c.subst b).NormalSides := by
  rcases c.subst_sides b with ⟨hr, hy⟩ | ⟨hr, hy⟩
  · exact ⟨hr ▸ trivial, hy ▸ trivial⟩
  · exact ⟨hr ▸ c.receives.isNormal_subst b, hy ▸ c.yields.isNormal_subst b⟩

lemma accept? (h : c.NormalSides) {offered : Ty} {known : Bindings} {hierarchy : Hierarchy}
    {received : Received} (hreceived : c.accept? offered known hierarchy = some received) :
    received.successor.NormalSides := by
  obtain ⟨head, rest, found, hpop, -, -, -, -, hsuccessor⟩ := accept?_eq_some_iff.1 hreceived
  rw [hsuccessor]
  exact ⟨(h.receives.pop? hpop).2, h.yields⟩

/-- What is yielded is normal even if the contract is not, since bindings are substituted before. -/
lemma produce? {b : Bindings} {yielded : Yielded} (hyielded : c.produce? b = some yielded) :
    yielded.value.IsNormal ∧ yielded.successor.NormalSides := by
  obtain ⟨-, -, rest, hpop, hsuccessor⟩ := produce?_eq_some_iff.1 hyielded
  refine ⟨((c.yields.isNormal_subst b).pop? hpop).1, ?_⟩
  rw [hsuccessor]
  exact ⟨trivial, rest.isNormal_normalize⟩

lemma andThen (h : c.NormalSides) (hnext : next.NormalSides) : (c.andThen next).NormalSides :=
  ⟨h.receives.concat hnext.receives, h.yields.concat hnext.yields⟩

lemma appendYield (h : c.NormalSides) {value : Ty} (hvalue : value.IsNormal) :
    (c.appendYield value).NormalSides :=
  ⟨h.receives, h.yields.concat (Ty.isNormal_sequence (List.forall_mem_singleton.2 hvalue))⟩

/-- A contract with normal sides is finished exactly if both sides are literally `void`. -/
lemma isTerminal_iff (h : c.NormalSides) :
    c.isTerminal = true ↔ c.receives = .void ∧ c.yields = .void := by
  rw [isTerminal, h.receives.normalize_eq, h.yields.normalize_eq, Bool.and_eq_true, Ty.isVoid_iff,
    Ty.isVoid_iff]

end Contract.NormalSides

/-- Normal form is an invariant of the representation. Normalizing gives a normal form and leaves
exactly the normal forms alone; substituting gives a normal form; the smart constructors,
concatenation, and taking an element off a stream make normal forms out of normal forms; the
contracts that are left after receiving, after yielding, after putting contracts together and after
taking over a value have normal sides if those before have them, and such a contract is finished
exactly if both sides are literally `void`. -/
theorem normal_forms_are_kept :
    (∀ t : Ty, t.normalize.IsNormal ∧ (t.IsNormal ↔ t.normalize = t) ∧
      t.normalize.normalize = t.normalize) ∧
    (∀ (t : Ty) (c : Contract) (b : Bindings), (t.subst b).IsNormal ∧ (c.subst b).NormalSides) ∧
    (∀ ts : List Ty, (∀ t ∈ ts, t.IsNormal) →
      (Ty.sequence ts).IsNormal ∧ (Ty.tuple ts).IsNormal) ∧
    (∀ t u : Ty, t.IsNormal → u.IsNormal → (Ty.listOf t u).IsNormal ∧ (Ty.minOf t u).IsNormal ∧
      (Ty.decOf t).IsNormal ∧ (t.concat u).IsNormal) ∧
    (∀ t head rest : Ty, t.IsNormal → t.pop? = some (head, rest) →
      head.IsNormal ∧ rest.IsNormal) ∧
    ∀ c : Contract, c.NormalSides →
      (∀ offered known hierarchy received, c.accept? offered known hierarchy = some received →
        received.successor.NormalSides) ∧
      (∀ b yielded, c.produce? b = some yielded →
        yielded.value.IsNormal ∧ yielded.successor.NormalSides) ∧
      (∀ next : Contract, next.NormalSides → (c.andThen next).NormalSides) ∧
      (∀ value : Ty, value.IsNormal → (c.appendYield value).NormalSides) ∧
      (c.isTerminal = true ↔ c.receives = .void ∧ c.yields = .void) := by
  refine ⟨fun t => ?_, fun t c b => ?_, fun ts hts => ?_, fun t u ht hu => ?_,
    fun t head rest ht hpop => ht.pop? hpop, fun c hc => ?_⟩
  · exact ⟨t.isNormal_normalize, Ty.isNormal_iff, t.normalize_normalize⟩
  · exact ⟨t.isNormal_subst b, .subst c b⟩
  · exact ⟨Ty.isNormal_sequence hts, Ty.isNormal_tuple.2 hts⟩
  · exact ⟨Ty.isNormal_listOf ht hu, Ty.isNormal_minOf ht hu, Ty.isNormal_decOf ht, ht.concat hu⟩
  · exact ⟨fun _ _ _ _ hreceived => hc.accept? hreceived,
      fun _ _ hyielded => Contract.NormalSides.produce? hyielded,
      fun next hnext => hc.andThen hnext, fun value hvalue => hc.appendYield hvalue,
      hc.isTerminal_iff⟩

/-- A list of unknown length stays in normal form when its first element is taken off and when a
list of known length is put after it; so does a contract that receives this list. -/
theorem normal_forms_are_kept_for_lists :
    (Ty.list (.var "x") (.var "n")).pop? =
      some (.var "x", .list (.var "x") (.func .dec [.var "n"])) ∧
    (Ty.list (.var "x") (.func .dec [.var "n"])).IsNormal ∧
    ((Ty.list (.var "x") (.var "n")).concat (.list (.const "A") (.int 2))).IsNormal ∧
    ((Contract.mk (.list (.var "x") (.var "n")) (.const "A") none [] none false).appendYield
      (.tuple [.var "x", .const "B"])).NormalSides := by
  have hlist : (Ty.list (.var "x") (.var "n")).IsNormal := ⟨nofun, trivial, trivial⟩
  have htwo : (Ty.list (.const "A") (.int 2)).IsNormal := by
    refine ⟨fun n hn => ?_, trivial, trivial⟩
    obtain rfl := Option.some.inj hn
    decide
  have htuple : (Ty.tuple [.var "x", .const "B"]).IsNormal := ⟨trivial, trivial, trivial⟩
  have hsides : (Contract.mk (.list (.var "x") (.var "n")) (.const "A") none [] none
      false).NormalSides := ⟨hlist, trivial⟩
  obtain ⟨-, -, -, hpair, hpop, hcontract⟩ := normal_forms_are_kept
  obtain ⟨-, -, -, happend, -⟩ := hcontract _ hsides
  exact ⟨rfl, (hpop _ _ _ hlist rfl).2, (hpair _ _ hlist htwo).2.2.2, happend _ htuple⟩

/-! ### Runs -/

/-- Contracts with normal sides exchange normal values and keep normal sides, under any bindings. -/
theorem Contract.law_normalSides :
    Contract.Law Contract.NormalSides Ty.IsNormal fun _ => True where
  subst _ _ := .subst _ _
  freshen _ _ _ := .subst _ _
  produce _ _ hyielded := Contract.NormalSides.produce? hyielded
  accept _ h _ hreceived := ⟨h.accept? hreceived, trivial⟩
  append h hvalue := h.appendYield hvalue
  contracts hvalue hcs := hvalue.contracts? hcs
  output _ := .of _ _
  andThen _ h := .andThen (.of _ _) h

/-- A solution of generators with normal sides has normal sides, and every state on the way to it
has normal contracts on its seats and has handed out normal values. -/
theorem solve_keeps_normal_forms {options : Options} {generators : List Generator}
    {bindings : Bindings} (hgenerators : ∀ g ∈ generators, g.contract.NormalSides) :
    (∀ run, Run.Reachable options (Run.start generators bindings) run →
      Run.Obeys Contract.NormalSides Ty.IsNormal (fun _ => True) run) ∧
    ∀ solution, solve options generators bindings = .ok solution →
      solution.contract.NormalSides := by
  have hreachable : ∀ run, Run.Reachable options (Run.start generators bindings) run →
      Run.Obeys Contract.NormalSides Ty.IsNormal (fun _ => True) run := by
    intro run hrun
    exact (Run.Obeys.start trivial hgenerators).of_reachable Contract.law_normalSides hrun
  refine ⟨hreachable, fun solution hsolution => ?_⟩
  obtain ⟨actions, final, hpath, -, hending, -⟩ := Run.exists_path_of_solve_eq_ok hsolution
  exact (hreachable final hpath.reachable).ending Contract.law_normalSides hending

end ContractComposition

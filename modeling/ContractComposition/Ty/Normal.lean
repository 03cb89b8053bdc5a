import ContractComposition.Ty.Basic

/-!
# Normal forms

Many values describe the same stream: sequences may be nested or contain `void`, lists may be
empty, length functions may be evaluated, finished contracts may stand for nothing. The smart
constructors `Ty.sequence`, `Ty.listOf`, `Ty.minOf` and `Ty.decOf` build normal forms out of normal
forms, and `Ty.normalize` brings any value into normal form.

A sequence of one member is that member, with one exception. A list inside a sequence is one
value, while a list on its own is a stream of its elements; so the sequence around a single list
has to stay.
-/

namespace ContractComposition

mutual

/-- The members that a value contributes to a sequence: nested sequences are opened, `void` adds
nothing. -/
def Ty.flatten : Ty → List Ty
  | .void => []
  | .seq items => Ty.flattenAll items
  | t => [t]

/-- The members that the values of a list contribute to a sequence, in order. -/
def Ty.flattenAll : List Ty → List Ty
  | [] => []
  | t :: ts => t.flatten ++ Ty.flattenAll ts

end

namespace Ty

/-- The value made of flat members: `void` for none, the member itself for one that is not a list,
and a sequence otherwise. -/
def ofMembers : List Ty → Ty
  | [] => .void
  | [.list element length] => .seq [.list element length]
  | [t] => t
  | ts => .seq ts

/-- The sequence of some values in normal form. -/
def sequence (items : List Ty) : Ty :=
  ofMembers (flattenAll items)

/-- The list of `length` times `element`; a list of concrete length zero or less is `void`. -/
def listOf (element length : Ty) : Ty :=
  match length with
  | .int n => if n ≤ 0 then .void else .list element (.int n)
  | length => .list element length

end Ty

namespace LengthFn

/-- Evaluates a length function as far as its arguments allow. An unknown length makes the result
unknown; otherwise concrete arguments give a concrete result. -/
def eval (fn : LengthFn) (args : List Ty) : Ty :=
  if args.any Ty.isStar then .star
  else
    match fn with
    | .min =>
      match args.mapM Ty.int? with
      | some (n :: ns) => .int (ns.foldl (fun a b => if b < a then b else a) n)
      | _ => .func .min args
    | .dec =>
      match args with
      | [.int n] => .int (if n - 1 < 0 then 0 else n - 1)
      | _ => .func .dec args

end LengthFn

namespace Ty

/-- The smaller of two lengths. -/
def minOf (left right : Ty) : Ty :=
  LengthFn.min.eval [left, right]

/-- One less than a length, and never below zero. -/
def decOf (length : Ty) : Ty :=
  LengthFn.dec.eval [length]

end Ty

namespace Contract

/-- The value that a contract with the two given normal sides stands for: a contract with nothing
left to receive or to yield is `void`. -/
def withSides (c : Contract) (receives yields : Ty) : Ty :=
  if receives.isVoid && yields.isVoid then .void
  else .contract { c with receives := receives, yields := yields }

end Contract

mutual

/-- The normal form of a value. -/
def Ty.normalize : Ty → Ty
  | .seq items => Ty.sequence (Ty.normalizeAll items)
  | .tuple items => .tuple (Ty.normalizeAll items)
  | .list element length => Ty.listOf element.normalize length.normalize
  | .func fn args => fn.eval (Ty.normalizeAll args)
  | .contract body => body.normalize
  | .void => .void
  | .const name => .const name
  | .var name => .var name
  | .int n => .int n
  | .star => .star

/-- The normal forms of the values of a list. -/
def Ty.normalizeAll : List Ty → List Ty
  | [] => []
  | t :: ts => t.normalize :: Ty.normalizeAll ts

/-- The normal form of a contract as a value: both sides are normalized, and a finished contract is
`void`. -/
def Contract.normalize : Contract → Ty
  | ⟨receives, yields, condition, forbidden, source, restorable⟩ =>
    Contract.withSides ⟨receives, yields, condition, forbidden, source, restorable⟩
      receives.normalize yields.normalize

end

namespace Contract

/-- Whether there is nothing left to receive and nothing left to yield. -/
def isTerminal (c : Contract) : Bool :=
  c.receives.normalize.isVoid && c.yields.normalize.isVoid

end Contract

namespace Ty

theorem normalizeAll_eq_map (ts : List Ty) : normalizeAll ts = ts.map normalize := by
  induction ts with
  | nil => rfl
  | cons t ts ih => simp [normalizeAll, ih]

theorem flattenAll_eq_flatMap (ts : List Ty) : flattenAll ts = ts.flatMap flatten := by
  induction ts with
  | nil => rfl
  | cons t ts ih => simp [flattenAll, ih]

end Ty

end ContractComposition

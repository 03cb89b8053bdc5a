import ContractComposition.Bindings.Basic

/-!
# Matching

A value is offered to a pattern. It is accepted when the variables of the pattern can be bound such
that the pattern describes the offered value; the variables of the offered value stay as they are.
An unknown length in the pattern describes every length. A variable is never bound to a value that
contains it.
-/

namespace ContractComposition

mutual

/-- The bindings under which a pattern describes the offered value, or `none` if there are none. -/
def Ty.matching? : Ty → Ty → Option Bindings
  | .var x, offered =>
    if offered == .var x then some ∅
    else if x ∈ offered.occurrences then none
    else some (Bindings.bind ∅ x offered)
  | .star, .int _ => some ∅
  | .star, .star => some ∅
  | .star, .func _ _ => some ∅
  | .star, .var _ => some ∅
  | .void, .void => some ∅
  | .const a, .const b => if a = b then some ∅ else none
  | .int a, .int b => if a = b then some ∅ else none
  | .seq patterns, .seq values => Ty.matchingAll? ∅ patterns values
  | .tuple patterns, .tuple values => Ty.matchingAll? ∅ patterns values
  | .list element length, .list element' length' => do
    let found ← element.matching? element'
    let more ← length.matching? length'
    found.join? more
  | .func fn args, .func fn' args' =>
    if fn = fn' then Ty.matchingAll? ∅ args args' else none
  | .contract body, .contract body' => body.matching? body'
  | _, _ => none

/-- Matches values with patterns one by one, joining what is found to `found`. -/
def Ty.matchingAll? (found : Bindings) : List Ty → List Ty → Option Bindings
  | [], [] => some found
  | pattern :: patterns, value :: values => do
    let more ← pattern.matching? value
    let joined ← found.join? more
    Ty.matchingAll? joined patterns values
  | _, _ => none

/-- Matches contracts side by side. -/
def Contract.matching? : Contract → Contract → Option Bindings
  | ⟨receives, yields, _, _, _, _⟩, offered => do
    let found ← receives.matching? offered.receives
    let more ← yields.matching? offered.yields
    found.join? more

end

end ContractComposition

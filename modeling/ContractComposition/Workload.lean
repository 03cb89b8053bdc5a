import ContractComposition.Catalog

/-!
# Workloads

Families of compositions of growing size, for measuring how much work composing takes.
-/

namespace ContractComposition

namespace Workload

/-- The token with a number. -/
def token (i : Nat) : Ty :=
  .const ("T" ++ toString i)

/-- The relay that turns the token with a number into the next one. -/
def relay (i : Nat) : Generator where
  name := "relay" ++ toString i
  contract := Contract.of (token i) (token (i + 1))

/-- A source of the first token, followed by `length` relays. -/
def relayChain (length : Nat) : List Generator :=
  { name := "source", contract := Contract.of .void (token 0) } ::
    (List.range length).map relay

/-- The source with a number, one of many that yield the same token. -/
def tokenSource (i : Nat) : Generator where
  name := "source" ++ toString i
  contract := Contract.of .void (.const "Token")

/-- The sink that waits for `width` tokens. -/
def sink (width : Nat) : Generator where
  name := "sink"
  contract := Contract.of (Ty.sequence (List.replicate width (.const "Token"))) (.const "Done")

/-- As many sources as `width` says, and one sink for their tokens. -/
def fanIn (width : Nat) : List Generator :=
  (List.range width).map tokenSource ++ [sink width]

/-- The relay chain as a catalog of operations. -/
def relayCatalog (length : Nat) : Catalog :=
  Catalog.ofList (relayChain length)

end Workload

end ContractComposition

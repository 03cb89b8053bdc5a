import ContractComposition.Workload

/-!
# Metrics of the standard workloads

The report says how many steps each standard workload takes, how long its trace is and how many
operations take part. It is written as indented JSON, the keys of each object in alphabetical
order.
-/

namespace ContractComposition

namespace Metrics

/-- What was measured of a workload. -/
structure Measurement where
  /-- The name of the workload. -/
  name : String
  /-- How many generators took part. -/
  operations : Nat
  /-- How many steps were taken. -/
  steps : Nat
  /-- How many events the trace has. -/
  traceEvents : Nat
deriving DecidableEq, Inhabited

/-- Measures a composition; a workload that cannot be composed is reported. -/
def measure (name : String) : Except SolveError Solution → Except String Measurement
  | .error e => .error ("workload `" ++ name ++ "` failed: " ++ e.message)
  | .ok solution => .ok {
      name := name
      operations := (Trace.operations solution.trace).length
      steps := solution.steps
      traceEvents := solution.trace.length }

/-- The measurements of the standard workloads. -/
def measurements : Except String (List Measurement) := do
  let catalog := Workload.relayCatalog 64
  let chain ← measure "relay_chain_64" (solve {} (Workload.relayChain 64) ∅)
  let fan ← measure "fan_in_64" (solve {} (Workload.fanIn 64) ∅)
  let composed ← measure "relay_catalog_64" (catalog.compose {} catalog.names [])
  return [chain, fan, composed]

/-- A measurement as a JSON object, indented by four blanks. -/
def Measurement.text (m : Measurement) : String :=
  "\n".intercalate [
    "    \x7b",
    "      \"name\": \"" ++ m.name ++ "\",",
    "      \"operations\": " ++ toString m.operations ++ ",",
    "      \"steps\": " ++ toString m.steps ++ ",",
    "      \"trace_events\": " ++ toString m.traceEvents,
    "    \x7d"]

/-- The JSON array of measurements, as the value of a key. -/
def arrayText (ms : List Measurement) : String :=
  if ms.isEmpty then "[]"
  else "[\n" ++ ",\n".intercalate (ms.map Measurement.text) ++ "\n  ]"

/-- The number of steps of all measurements together. -/
def totalSteps (ms : List Measurement) : Nat :=
  ms.foldl (fun total m => total + m.steps) 0

/-- The report on some measurements. -/
def reportText (ms : List Measurement) : String :=
  "\n".intercalate [
    "\x7b",
    "  \"total_steps\": " ++ toString (totalSteps ms) ++ ",",
    "  \"workloads\": " ++ arrayText ms,
    "\x7d"]

/-- The report on the standard workloads. -/
def report : Except String String :=
  measurements.map reportText

end Metrics

end ContractComposition

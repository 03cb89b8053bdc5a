import ContractComposition.Names
import ContractComposition.NameTable
import ContractComposition.Condition.Basic
import ContractComposition.Ty.Basic
import ContractComposition.Ty.Order
import ContractComposition.Ty.Normal
import ContractComposition.Ty.Stream
import ContractComposition.Ty.Text
import ContractComposition.Exclusion
import ContractComposition.Bindings.Basic
import ContractComposition.Bindings.Subst
import ContractComposition.Ty.Matching
import ContractComposition.Hierarchy
import ContractComposition.Condition.Holds
import ContractComposition.Contract.Basic
import ContractComposition.Contract.Exchange
import ContractComposition.Diagnostic
import ContractComposition.SolveError
import ContractComposition.Trace
import ContractComposition.Generator
import ContractComposition.Run.Basic
import ContractComposition.Run.Action
import ContractComposition.Run.Commit
import ContractComposition.Run.Settle
import ContractComposition.Solve
import ContractComposition.Catalog
import ContractComposition.Workload
import ContractComposition.Metrics.Report
import ContractComposition.Metrics.FileTree
import ContractComposition.Metrics.Command
import ContractComposition.Main
import ContractComposition.Proofs.Tables
import ContractComposition.Proofs.Parts
import ContractComposition.Proofs.Matching
import ContractComposition.Proofs.Contracts
import ContractComposition.Proofs.NormalForm
import ContractComposition.Proofs.Streams
import ContractComposition.Proofs.Annotations
import ContractComposition.Proofs.Substitution
import ContractComposition.Proofs.Equality
import ContractComposition.Proofs.Exclusions
import ContractComposition.Proofs.Run.Seats
import ContractComposition.Proofs.Run.Steps
import ContractComposition.Proofs.Run.Seating
import ContractComposition.Proofs.Run.Law
import ContractComposition.Proofs.Run.Simulation
import ContractComposition.Proofs.FirstOrder
import ContractComposition.Proofs.Constants
import ContractComposition.Proofs.Growth
import ContractComposition.Proofs.Conservation
import ContractComposition.Proofs.Forbidden
import ContractComposition.Proofs.Run.Moves
import ContractComposition.Proofs.Budget
import ContractComposition.Proofs.Chronicle
import ContractComposition.Proofs.Binding
import ContractComposition.Proofs.Readiness
import ContractComposition.Proofs.StepBound
import ContractComposition.Proofs.Nesting
import ContractComposition.Proofs.Termination
import ContractComposition.Proofs.Variables
import ContractComposition.Proofs.Run.Restarts
import ContractComposition.Proofs.Freshness
import ContractComposition.Proofs.Labels
import ContractComposition.Proofs.Relabeling
import ContractComposition.Proofs.Elementary
import ContractComposition.Proofs.Unwinding
import ContractComposition.Proofs.InsertionOrder
import ContractComposition.Proofs.CatalogComposition
import ContractComposition.Proofs.Representation
import ContractComposition.Proofs.MatchSoundness
import ContractComposition.Proofs.Acyclicity
import ContractComposition.Proofs.Resolution
import ContractComposition.Proofs.Stages
import ContractComposition.Proofs.MatchCompleteness
import ContractComposition.Proofs.Discrete
import ContractComposition.Proofs.Stalling
import ContractComposition.Proofs.Run.Occupancy
import ContractComposition.Proofs.Handover
import ContractComposition.Proofs.Draining
import ContractComposition.Proofs.Propagation
import ContractComposition.Proofs.UnmatchedOutput
import ContractComposition.Proofs.Ancestry
import ContractComposition.Proofs.OccursCheck
import ContractComposition.Proofs.Renaming
import ContractComposition.Proofs.Deliveries
import ContractComposition.Proofs.Workloads
import ContractComposition.Proofs.Joining
import ContractComposition.Proofs.Comparison
import ContractComposition.Proofs.Restriction
import ContractComposition.Proofs.Congruence
import ContractComposition.Proofs.SavedReport

import BoxFlow.CommandLine.Run
import BoxFlow.Main
import BoxFlow.Proofs.Facts.Tables
import BoxFlow.Proofs.Worklist
import BoxFlow.Proofs.Facts.Knowledge
import BoxFlow.Proofs.Facts.Lattice
import BoxFlow.Proofs.Lattice.NormalForms
import BoxFlow.Proofs.Classification.Order
import BoxFlow.Proofs.Options
import BoxFlow.Proofs.Dataflow.Rules
import BoxFlow.Proofs.Dataflow.Effect
import BoxFlow.Proofs.Dataflow.Reachability
import BoxFlow.Proofs.Dataflow.Transfer
import BoxFlow.Proofs.Dataflow.Aliases
import BoxFlow.Proofs.Dataflow.Run
import BoxFlow.Proofs.IR.Stores
import BoxFlow.Proofs.Loading
import BoxFlow.Proofs.Dataflow.Bounds
import BoxFlow.Proofs.Dataflow.Grown
import BoxFlow.Proofs.Dataflow.Invariant
import BoxFlow.Proofs.Dataflow.Equations
import BoxFlow.Proofs.Dataflow.Growth
import BoxFlow.Proofs.Dataflow.Convergence
import BoxFlow.Proofs.Machine.Basic
import BoxFlow.Proofs.Classification.Scans
import BoxFlow.Proofs.Classification.Rules
import BoxFlow.Proofs.Dataflow.Warnings
import BoxFlow.Proofs.Machine.Runs
import BoxFlow.Proofs.Machine.Closed
import BoxFlow.Proofs.Dataflow.Kept
import BoxFlow.Proofs.Machine.Covers
import BoxFlow.Proofs.Machine.Effects
import BoxFlow.Proofs.Machine.Truth
import BoxFlow.Proofs.Ends
import BoxFlow.Proofs.IR.Edits
import BoxFlow.Proofs.Rewriting.Layout
import BoxFlow.Proofs.Rewriting.Fates
import BoxFlow.Proofs.Rewriting.Steps
import BoxFlow.Proofs.Rewriting.Phases
import BoxFlow.Proofs.Rewriting.Justified
import BoxFlow.Proofs.Machine.Renamed
import BoxFlow.Proofs.Machine.Acyclic
import BoxFlow.Proofs.Rewriting.Simulation
import BoxFlow.Proofs.Rewriting.SameRuns
import BoxFlow.Proofs.Dataflow.Ascent
import BoxFlow.Proofs.Dataflow.Least
import BoxFlow.Proofs.Pass
import BoxFlow.Proofs.Dataflow.Paths
import BoxFlow.Proofs.OpaqueCalls
import BoxFlow.Proofs.Escape
import BoxFlow.Proofs.Escape.Exact
import BoxFlow.Proofs.Machine.Stems
import BoxFlow.Proofs.Machine.Sources
import BoxFlow.Proofs.Machine.Escaping
import BoxFlow.Proofs.Machine.Classes
import BoxFlow.Proofs.Dataflow.Siblings
import BoxFlow.Proofs.Rewriting.Validity
import BoxFlow.Proofs.Validity
import BoxFlow.Proofs.Machine.Given
import BoxFlow.Proofs.Machine.Tracking
import BoxFlow.Proofs.Machine.Callers
import BoxFlow.Proofs.Listing.Listable
import BoxFlow.Proofs.Listing.Reading
import BoxFlow.Proofs.Listing.Written
import BoxFlow.Proofs.Listing.Labels
import BoxFlow.Proofs.Listing.Whole
import BoxFlow.Proofs.IR.Growth
import BoxFlow.Proofs.Listing.Names
import BoxFlow.Proofs.Listing.Placed
import BoxFlow.Proofs.Listing.Realized
import BoxFlow.Proofs.Listing.Resolved
import BoxFlow.Proofs.IR.Edges
import BoxFlow.Proofs.IR.Construction
import BoxFlow.Proofs.Listing.Accepted
import BoxFlow.Proofs.Dataflow.Domain
import BoxFlow.Proofs.Listing.Isomorphic
import BoxFlow.Proofs.Listing.Restored
import BoxFlow.Proofs.Listing.Proper
import BoxFlow.Proofs.Listing.Reprinted
import BoxFlow.Proofs.Dataflow.CallEffect
import BoxFlow.Proofs.Dataflow.Monotone
import BoxFlow.Proofs.Json.Overlong
import BoxFlow.Proofs.CommandLine.Exit
import BoxFlow.Proofs.Dataflow.Renumbering
import BoxFlow.Proofs.Dataflow.Lockstep
import BoxFlow.Proofs.Listing.Serials
import BoxFlow.Proofs.Classification.Values
import BoxFlow.Proofs.Classification.Closed
import BoxFlow.Proofs.Rewriting.Follows
import BoxFlow.Proofs.Rewriting.Escaping
import BoxFlow.Proofs.Rewriting.Reanalysis
import BoxFlow.Proofs.Rewriting.Exhausted
import BoxFlow.Proofs.Rewriting.Carried
import BoxFlow.Proofs.Idempotence
import BoxFlow.Proofs.IR.TextWeight
import BoxFlow.Proofs.Rewriting.Account
import BoxFlow.Proofs.Listing.PlainNames
import BoxFlow.Proofs.Rewriting.Printed
import BoxFlow.Proofs.Repetition
import BoxFlow.Proofs.Listing.Grammar
import BoxFlow.Proofs.Listing.Tracks
import BoxFlow.Proofs.Listing.Spaced
import BoxFlow.Proofs.Listing.Moved
import BoxFlow.Proofs.Listing.Layout
import BoxFlow.Proofs.Listing.Taken
import BoxFlow.Proofs.Listing.Relabelled
import BoxFlow.Proofs.Listing.Stops
import BoxFlow.Proofs.Rewriting.Sums
import BoxFlow.Proofs.IR.Naming

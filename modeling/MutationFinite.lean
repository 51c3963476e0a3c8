import MutationFinite.Cancel.Family
import MutationFinite.Main
import MutationFinite.Proofs.Mutation.Exact
import MutationFinite.Proofs.Mutation.Growth
import MutationFinite.Proofs.Mutation.Checked
import MutationFinite.Proofs.Relabelling.Action
import MutationFinite.Proofs.Mutation.Reachable
import MutationFinite.Proofs.MutationClass.Ledger
import MutationFinite.Proofs.MutationClass.Store
import MutationFinite.Proofs.MutationClass.Walk
import MutationFinite.Proofs.MutationClass.Exploration
import MutationFinite.Proofs.MutationClass.Lockstep
import MutationFinite.Proofs.Relabelling.Search
import MutationFinite.Proofs.Iteration
import MutationFinite.Proofs.Relabelling.Succession
import MutationFinite.Proofs.Equivalence.Fingerprint
import MutationFinite.Proofs.Equivalence.Oracle
import MutationFinite.Proofs.Equivalence.Checker
import MutationFinite.Proofs.Equivalence.Context
import MutationFinite.Proofs.MutationClass.CollapsedStore
import MutationFinite.Proofs.MutationClass.Enumeration
import MutationFinite.Proofs.Matrix.Certificate
import MutationFinite.Proofs.RandomWalk.Soundness
import MutationFinite.Proofs.Classification.Finiteness
import MutationFinite.Proofs.Classification.Connected
import MutationFinite.Proofs.Classification.RankTwo
import MutationFinite.Proofs.Mutation.Overflow
import MutationFinite.Proofs.Mutation.RankTwo
import MutationFinite.Proofs.MutationClass.Equivalence
import MutationFinite.Proofs.MutationClass.DirectSearch
import MutationFinite.Proofs.MutationClass.Ends
import MutationFinite.Proofs.MutationClass.Transitions
import MutationFinite.Proofs.MutationClass.ExploredEdges
import MutationFinite.Proofs.MutationClass.Unstopped
import MutationFinite.Proofs.Classification.Verdict
import MutationFinite.Proofs.Matrix.Deletion
import MutationFinite.Proofs.Matrix.Isolation
import MutationFinite.Proofs.Classification.Deletion
import MutationFinite.Proofs.Pipeline.Folding
import MutationFinite.Proofs.Classification.Minimality
import MutationFinite.Proofs.Classification.Result
import MutationFinite.Proofs.Classification.Relabelling
import MutationFinite.Proofs.Matrix.Extension
import MutationFinite.Matrix.Odometer
import MutationFinite.Proofs.Matrix.Odometer
import MutationFinite.Proofs.Text.Reading
import MutationFinite.Proofs.Matrix.Reading
import MutationFinite.Proofs.Matrix.ReadingErrors
import MutationFinite.Proofs.Matrix.Layout
import MutationFinite.Proofs.Classification.Maximality
import MutationFinite.Proofs.Mutation.Involution
import MutationFinite.Proofs.RandomWalk.Stopping
import MutationFinite.Proofs.RandomWalk.PlainRun
import MutationFinite.Proofs.Classification.Cancellation
import MutationFinite.Proofs.Dynkin.Diagram
import MutationFinite.Proofs.Classification.SkewSymmetric
import MutationFinite.Proofs.Dynkin.Exactness
import MutationFinite.Proofs.Pipeline.Steps
import MutationFinite.Proofs.Pipeline.Interleaving
import MutationFinite.Proofs.Pipeline.Schedule
import MutationFinite.RandomWalk.Interleaving
import MutationFinite.Proofs.RandomWalk.Interleaving
import MutationFinite.Pipeline.Errands
import MutationFinite.Matrix.Worklist
import MutationFinite.Proofs.Matrix.Worklist
import MutationFinite.Proofs.Classification.Refusals
import MutationFinite.Proofs.Classification.MinimalityErrors
import MutationFinite.Proofs.Pipeline.Errands
import MutationFinite.Proofs.Pipeline.OneWorker
import MutationFinite.Proofs.Pipeline.Progress
import MutationFinite.Proofs.Pipeline.FoldedPrefix
import MutationFinite.Proofs.Cancel.History
import MutationFinite.Proofs.Cancel.Family
import MutationFinite.Proofs.Classification.Consistency
import MutationFinite.Proofs.MutationClass.Separation
import MutationFinite.Proofs.Relabelling.Orbits
import MutationFinite.Relabelling.Tables
import MutationFinite.Proofs.Relabelling.Tables
import MutationFinite.LinkRecord.Words
import MutationFinite.Proofs.LinkRecord.Marks
import MutationFinite.Proofs.LinkRecord.Words
import MutationFinite.Matrix.Sweep
import MutationFinite.Proofs.Mutation.Buffers
import MutationFinite.Proofs.RandomWalk.Seeds

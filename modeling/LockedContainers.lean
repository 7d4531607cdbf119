import LockedContainers.Binary64.Arithmetic
import LockedContainers.Binary64.Basic
import LockedContainers.Decimal.Fixed
import LockedContainers.Decimal.General
import LockedContainers.Guarded
import LockedContainers.History.CallTree
import LockedContainers.History.Event
import LockedContainers.History.Model
import LockedContainers.History.Recorder
import LockedContainers.History.Search
import LockedContainers.History.Subject
import LockedContainers.Main
import LockedContainers.Map.Basic
import LockedContainers.Map.Failure
import LockedContainers.Map.Integer
import LockedContainers.Map.Memory
import LockedContainers.Map.Monitor
import LockedContainers.Map.Options
import LockedContainers.Map.Request
import LockedContainers.Map.Striped
import LockedContainers.Map.Table
import LockedContainers.Output.Console
import LockedContainers.Output.Spooler
import LockedContainers.Part
import LockedContainers.Probe.Fault
import LockedContainers.Probe.Key
import LockedContainers.Probe.Sweep
import LockedContainers.Proofs.Audit
import LockedContainers.Proofs.Binary64.Products
import LockedContainers.Proofs.Binary64.Quotients
import LockedContainers.Proofs.Binary64.Rounding
import LockedContainers.Proofs.Binary64.Values
import LockedContainers.Proofs.Disjoint
import LockedContainers.Proofs.Guarded
import LockedContainers.Proofs.History.Moments
import LockedContainers.Proofs.History.Order
import LockedContainers.Proofs.History.Packed
import LockedContainers.Proofs.History.Recorded
import LockedContainers.Proofs.History.Repeated
import LockedContainers.Proofs.History.Search
import LockedContainers.Proofs.History.Simulation
import LockedContainers.Proofs.Interleaved
import LockedContainers.Proofs.Map.Agreement
import LockedContainers.Proofs.Map.Callbacks
import LockedContainers.Proofs.Map.Calm
import LockedContainers.Proofs.Map.Conservation
import LockedContainers.Proofs.Map.Construction
import LockedContainers.Proofs.Map.Coverage
import LockedContainers.Proofs.Map.Dictionary
import LockedContainers.Proofs.Map.Effects
import LockedContainers.Proofs.Map.Entries
import LockedContainers.Proofs.Map.Failures
import LockedContainers.Proofs.Map.Growth
import LockedContainers.Proofs.Map.Holders
import LockedContainers.Proofs.Map.Integer
import LockedContainers.Proofs.Map.Interleaved
import LockedContainers.Proofs.Map.Load
import LockedContainers.Proofs.Map.Moves
import LockedContainers.Proofs.Map.Operations
import LockedContainers.Proofs.Map.Overshoot
import LockedContainers.Proofs.Map.Passes
import LockedContainers.Proofs.Map.Progress
import LockedContainers.Proofs.Map.Redistribution
import LockedContainers.Proofs.Map.Sequential
import LockedContainers.Proofs.Map.Sized
import LockedContainers.Proofs.Map.Sizing
import LockedContainers.Proofs.Map.Solitary
import LockedContainers.Proofs.Map.Storage
import LockedContainers.Proofs.Map.Stripes
import LockedContainers.Proofs.Output.Changes
import LockedContainers.Proofs.Output.Order
import LockedContainers.Proofs.Output.Threads
import LockedContainers.Proofs.Progress
import LockedContainers.Proofs.Race
import LockedContainers.Proofs.Separation
import LockedContainers.Proofs.Sequential
import LockedContainers.Proofs.Set.Acts
import LockedContainers.Proofs.Set.Alone
import LockedContainers.Proofs.Set.Chain
import LockedContainers.Proofs.Set.Consistency
import LockedContainers.Proofs.Set.Coupling
import LockedContainers.Proofs.Set.Footing
import LockedContainers.Proofs.Set.Inquiry
import LockedContainers.Proofs.Set.Integer
import LockedContainers.Proofs.Set.Interchange
import LockedContainers.Proofs.Set.Interleaved
import LockedContainers.Proofs.Set.Nodes
import LockedContainers.Proofs.Set.Ordered
import LockedContainers.Proofs.Set.Progress
import LockedContainers.Proofs.Set.Sequential
import LockedContainers.Proofs.Set.Snapshot
import LockedContainers.Proofs.Set.Solo
import LockedContainers.Proofs.Set.Standing
import LockedContainers.Proofs.Set.Strides
import LockedContainers.Proofs.Showcase.Survivors
import LockedContainers.Proofs.Showcase.Writers
import LockedContainers.Proofs.Stress.Containers
import LockedContainers.Proofs.Stress.Reference
import LockedContainers.Proofs.Text.Template
import LockedContainers.Set.Coupled
import LockedContainers.Set.Integer
import LockedContainers.Set.Monitor
import LockedContainers.Set.Place
import LockedContainers.Set.Request
import LockedContainers.Showcase
import LockedContainers.Stress.Reference
import LockedContainers.Stress.Statistics
import LockedContainers.Testing.Case
import LockedContainers.Testing.Thrown
import LockedContainers.Text.Bytes
import LockedContainers.Text.Message
import LockedContainers.Text.Template
import LockedContainers.Text.Value
import LockedContainers.Threads.Cores
import LockedContainers.Threads.Latch
import LockedContainers.Threads.Race

import DynLocks.Lib.CutVector
import DynLocks.Lib.BoundedStep
import DynLocks.Lib.SegmentDp
import DynLocks.Lib.Interleaving
import DynLocks.Lib.History
import DynLocks.Lib.EpochTable
import DynLocks.Lib.Sampler
import DynLocks.Lib.Rotation
import DynLocks.Lib.Tally
import DynLocks.Lib.Lifecycle
import DynLocks.Lib.Critical
import DynLocks.Lib.Pattern
import DynLocks.Lib.Columns
import DynLocks.Lib.Decimal
import DynLocks.Lib.Lines
import DynLocks.Lib.LockOrder
import DynLocks.Lib.Exceptions
import DynLocks.Lib.Attempts
import DynLocks.Lib.Workload
import DynLocks.Lib.Ledger
import DynLocks.Lib.Drain
import DynLocks.Lib.MutexImpl
import DynLocks.Lib.Meter
import DynLocks.Lib.Quantile
import DynLocks.Layout
import DynLocks.Dynamic.Cost
import DynLocks.Dynamic.Optimal
import DynLocks.Dynamic.Stats
import DynLocks.Dynamic.Gain
import DynLocks.Dynamic.Machine
import DynLocks.Dynamic.Protocol
import DynLocks.Dynamic.Exclusion
import DynLocks.Dynamic.RangeLock
import DynLocks.Dynamic.Rebuild
import DynLocks.Dynamic.Pause
import DynLocks.Dynamic.Mutexes
import DynLocks.Dynamic.Table
import DynLocks.Dynamic.LockOrder
import DynLocks.Dynamic.Return
import DynLocks.Dynamic.Drain
import DynLocks.Dynamic.Fairness
import DynLocks.Dynamic.Guards
import DynLocks.Dynamic.Observations
import DynLocks.Dynamic.Lifecycle
import DynLocks.Dynamic.Failure
import DynLocks.Dynamic.Unwinding
import DynLocks.Dynamic.Workload
import DynLocks.Dynamic.Example
import DynLocks.Sampling
import DynLocks.Genetic.Chromosome
import DynLocks.Genetic.Hits
import DynLocks.Genetic.Repair
import DynLocks.Genetic.Balance
import DynLocks.Genetic.Breeding
import DynLocks.Genetic.Partitioner
import DynLocks.Genetic.Validity
import DynLocks.Genetic.Moves
import DynLocks.Genetic.Progress
import DynLocks.Genetic.Recall
import DynLocks.Genetic.Components
import DynLocks.Genetic.Lookup
import DynLocks.Genetic.Evaluate
import DynLocks.Genetic.Machine
import DynLocks.Genetic.Record
import DynLocks.Genetic.Mutexes
import DynLocks.Genetic.Training
import DynLocks.Genetic.Count
import DynLocks.Genetic.LockOrder
import DynLocks.Genetic.Lifecycle
import DynLocks.Genetic.Failure
import DynLocks.Genetic.Unwinding
import DynLocks.Genetic.Wakeup
import DynLocks.Genetic.Exclusion
import DynLocks.Genetic.RangeLock
import DynLocks.Genetic.Guards
import DynLocks.Genetic.Traffic
import DynLocks.Genetic.World
import DynLocks.Genetic.Samples
import DynLocks.Agreement
import DynLocks.Genetic.Quantile
import DynLocks.Naive.Machine
import DynLocks.Naive.Guards
import DynLocks.Naive.RangeLock
import DynLocks.Naive.Unwinding
import DynLocks.Adapter.Object
import DynLocks.Adapter.Linearizable
import DynLocks.Adapter.Genetic
import DynLocks.Benchmark.Stream
import DynLocks.Benchmark.RunPhase
import DynLocks.Benchmark.RunWorkload
import DynLocks.Benchmark.NoLostUpdate
import DynLocks.Benchmark.Scenario
import DynLocks.RuntimeStats
import DynLocks.Benchmark.Totals
import DynLocks.Spinlock
import DynLocks.Dynamic.Spinning
import DynLocks.Benchmark.Spinning
import DynLocks.Arithmetic
import DynLocks.Lifecycle
import DynLocks.Report
import DynLocks.PrintCompat
import DynLocks.Benchmark.Print
import DynLocks.Summary
import DynLocks.NoDeadlock
import DynLocks.Failure
import DynLocks.Neutral
import DynLocks.InStep

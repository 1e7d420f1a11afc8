import LogicStateCoverage.Runs
import LogicStateCoverage.Walks
import LogicStateCoverage.Words
import LogicStateCoverage.LogicState
import LogicStateCoverage.BloomFilter
import LogicStateCoverage.Hash
import LogicStateCoverage.Spread
import LogicStateCoverage.Runtime
import LogicStateCoverage.Daemon
import LogicStateCoverage.Protocol
import LogicStateCoverage.SoloRuns
import LogicStateCoverage.SanityChecks
import LogicStateCoverage.HandOver
import LogicStateCoverage.LockStep
import LogicStateCoverage.Snapshots
import LogicStateCoverage.Buffers
import LogicStateCoverage.Channel
import LogicStateCoverage.Kills
import LogicStateCoverage.Restarts
import LogicStateCoverage.StartUp
import LogicStateCoverage.Progress
import LogicStateCoverage.Starvation
import LogicStateCoverage.Pass
import LogicStateCoverage.Edges
import LogicStateCoverage.MainBlocks
import LogicStateCoverage.CrashRecovery
import LogicStateCoverage.Branches
import LogicStateCoverage.Bitmaps
import LogicStateCoverage.Filter
import LogicStateCoverage.Coverage
import LogicStateCoverage.Occupancy
import LogicStateCoverage.Cardinality
import LogicStateCoverage.Tallies
import LogicStateCoverage.Estimates
import LogicStateCoverage.Memory
import LogicStateCoverage.Buckets
import LogicStateCoverage.Schedule
import LogicStateCoverage.Reporting
import LogicStateCoverage.Boundaries
import LogicStateCoverage.Rates
import LogicStateCoverage.Increments
import LogicStateCoverage.Divisor
import LogicStateCoverage.Periods
import LogicStateCoverage.Ipc
import LogicStateCoverage.Lives
import LogicStateCoverage.Attach
import LogicStateCoverage.Text
import LogicStateCoverage.Output
import LogicStateCoverage.Tables
import LogicStateCoverage.Ticks
import LogicStateCoverage.Labels
import LogicStateCoverage.FailedStart
import LogicStateCoverage.Machine
import LogicStateCoverage.Transparency
import LogicStateCoverage.Locations
import LogicStateCoverage.Threads
import LogicStateCoverage.Wrapper

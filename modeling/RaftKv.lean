import RaftKv.Lib.OrdMap
import RaftKv.Lib.KvStore
import RaftKv.Lib.Bytes
import RaftKv.Lib.Ascending
import RaftKv.Lib.Format
import RaftKv.Lib.Majority
import RaftKv.Lib.Ledger
import RaftKv.Lib.LedgerSteps
import RaftKv.Lib.Runs
import RaftKv.Lib.Linearizable
import RaftKv.Lib.LogOrder
import RaftKv.Lib.Versions
import RaftKv.Lib.FirstHit
import RaftKv.Lib.VersionList
import RaftKv.Lib.Regroup
import RaftKv.Lib.InStep
import RaftKv.Lib.Ensures
import RaftKv.Lib.Lockstep
import RaftKv.Lib.Checked
import RaftKv.Raft.Types
import RaftKv.Raft.Log
import RaftKv.Raft.Node
import RaftKv.Raft.Checked
import RaftKv.Raft.Moves
import RaftKv.Raft.Calls
import RaftKv.Raft.CommitRule
import RaftKv.Raft.Logical
import RaftKv.Raft.Batch
import RaftKv.Raft.Cluster
import RaftKv.Raft.Coupling
import RaftKv.Raft.SimElection
import RaftKv.Raft.SimReplication
import RaftKv.Raft.Simulation
import RaftKv.Raft.Reachable
import RaftKv.Raft.Commits
import RaftKv.Raft.Safety
import RaftKv.Raft.Matching
import RaftKv.Raft.Configuration
import RaftKv.Raft.ReadQuorum
import RaftKv.Raft.Delivery
import RaftKv.Raft.Proposed
import RaftKv.Raft.ReadContexts
import RaftKv.Raft.Shape
import RaftKv.Raft.Persistence
import RaftKv.Raft.FollowerLog
import RaftKv.Raft.Panics
import RaftKv.Raft.CompactView
import RaftKv.Raft.Reads
import RaftKv.Raft.ReadWatch
import RaftKv.Raft.Lease
import RaftKv.Raft.PreVote
import RaftKv.Raft.Heartbeat
import RaftKv.Raft.OwnEntry
import RaftKv.Raft.Exchange
import RaftKv.Raft.Repair
import RaftKv.Kvsm.StateMachine
import RaftKv.Kvsm.ExactlyOnce
import RaftKv.Kvsm.Replay
import RaftKv.Proto.Frame
import RaftKv.Server.LogStore
import RaftKv.Server.LogStoreContract
import RaftKv.Server.Stored
import RaftKv.Server.Core
import RaftKv.Server.Loop
import RaftKv.Server.Servers
import RaftKv.Server.Applied
import RaftKv.Server.LeaseRead
import RaftKv.Sim.Wgl
import RaftKv.Sim.WglExact
import RaftKv.Sim.Hosts
import RaftKv.Sim.Steps
import RaftKv.Sim.Replicas
import RaftKv.Sim.Linearize
import RaftKv.Sim.Trials
import RaftKv.Sim.ReadHistory
import RaftKv.Storage.Coding
import RaftKv.Storage.Manifest
import RaftKv.Storage.Bloom
import RaftKv.Storage.Block
import RaftKv.Storage.Checked
import RaftKv.Storage.Table
import RaftKv.Storage.TableExact
import RaftKv.Storage.RoundTrip
import RaftKv.Storage.Wal
import RaftKv.Storage.MemTable
import RaftKv.Storage.Iter
import RaftKv.Storage.Compactor
import RaftKv.Storage.Reference
import RaftKv.Storage.Db
import RaftKv.Storage.Tree
import RaftKv.Storage.Turns
import RaftKv.Storage.Invariant
import RaftKv.Storage.Changes
import RaftKv.Storage.Swap
import RaftKv.Storage.Calls
import RaftKv.Storage.Compaction
import RaftKv.Storage.Recovery
import RaftKv.Storage.Refine
import RaftKv.Storage.Crash
import RaftKv.Storage.Shelves
import RaftKv.Storage.Levels
import RaftKv.Storage.Shown
import RaftKv.Storage.Scan
import RaftKv.Storage.Backend
import RaftKv.Storage.Faults
import RaftKv.Storage.FailedAppend
import RaftKv.Storage.TornLog
import RaftKv.Storage.Corruption
import RaftKv.Storage.Compacted
import RaftKv.Storage.Preserve
import RaftKv.Storage.Limits

import Mathlib.Data.List.Basic

/-!
# Wire and state types of the consensus core (crates/raft/src/types.rs)

| here | there |
| --- | --- |
| `NodeId`; terms, indexes  | the `u64` aliases (`types.rs:5-7`), as `Nat`: every counter of the core starts at 0 and grows by one per call, so wrap-around at `2^64` is not modelled |
| `Bytes`                   | `Vec<u8>` |
| `Message.src`, `.dst`     | the fields `from` and `to` (both are Lean keywords) |
| `Config.tick_le`          | the half-open range `[election_tick_min, election_tick_max)` of `types.rs:166`; without it `reset_election_timer` underflows |
-/

namespace RaftKv

abbrev NodeId := Nat
abbrev Bytes := List UInt8

inductive ConfChange where
  | addNode (id : NodeId)
  | removeNode (id : NodeId)
deriving DecidableEq, Repr

inductive EntryPayload where
  | noop
  | normal (data : Bytes)
  | confChange (cc : ConfChange)
deriving DecidableEq, Repr

structure Entry where
  term : Nat
  index : Nat
  payload : EntryPayload
deriving DecidableEq, Repr

/-- `HardState` (`types.rs:36`): what must be durable before any message reflecting it leaves. -/
structure HardState where
  term : Nat := 0
  votedFor : Option NodeId := none
deriving DecidableEq, Repr

structure Snapshot where
  lastIndex : Nat
  lastTerm : Nat
  voters : List NodeId
  data : Bytes
deriving DecidableEq, Repr

inductive MessageBody where
  | preVote (lastLogIndex : Nat) (lastLogTerm : Nat)
  | preVoteResp (granted : Bool)
  | requestVote (lastLogIndex : Nat) (lastLogTerm : Nat)
  | requestVoteResp (granted : Bool)
  | appendEntries (prevLogIndex : Nat) (prevLogTerm : Nat) (entries : List Entry)
      (leaderCommit : Nat) (readCtx : Nat)
  | appendEntriesResp (success : Bool) (matchIndex : Nat) (conflictIndex : Nat) (readCtx : Nat)
  | installSnapshot (snapshot : Snapshot)
  | installSnapshotResp (lastIndex : Nat)
deriving DecidableEq, Repr

structure Message where
  src : NodeId
  dst : NodeId
  /-- The sender's term; for `preVote` and a granted `preVoteResp` the prospective one. -/
  term : Nat
  body : MessageBody
deriving DecidableEq, Repr

/-- `Output` (`types.rs:104`): everything the calls since the last `take_output` produced. -/
structure Output where
  messages : List Message := []
  committed : List Entry := []
  hardState : Option HardState := none
  append : List Entry := []
  snapshot : Option Snapshot := none
  readStates : List (Nat × Nat) := []
deriving DecidableEq, Repr

/-- `Output::is_empty` (`types.rs:125`). -/
def Output.isEmpty (o : Output) : Bool :=
  o.messages.isEmpty && o.committed.isEmpty && o.hardState.isNone && o.append.isEmpty
    && o.snapshot.isNone && o.readStates.isEmpty

/-- `Persisted` (`types.rs:137`): the durable node state handed back at restart. -/
structure Persisted where
  hardState : HardState := {}
  entries : List Entry := []
  snapshot : Option Snapshot := none
deriving DecidableEq, Repr

inductive Role where
  | follower
  | preCandidate
  | candidate
  | leader
deriving DecidableEq, Repr

inductive ProposeError where
  | notLeader (hint : Option NodeId)
  | confChangeInFlight
  | notReady
deriving DecidableEq, Repr

structure Config where
  id : NodeId
  electionTickMin : Nat
  electionTickMax : Nat
  heartbeatTick : Nat
  maxBatchEntries : Nat
  maxInflight : Nat
  preVote : Bool
  seed : UInt64
  tick_le : electionTickMin ≤ electionTickMax
deriving DecidableEq

/-- `Config::new` (`types.rs:180`). -/
def Config.new (id : NodeId) (seed : UInt64) : Config :=
  { id, electionTickMin := 10, electionTickMax := 20, heartbeatTick := 2, maxBatchEntries := 64,
    maxInflight := 10, preVote := true, seed, tick_le := by decide }

end RaftKv

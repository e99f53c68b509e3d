import Mathlib.Data.Prod.Lex
import RaftKv.Kvsm.StateMachine
import RaftKv.Raft.Node

/-!
# The server's event loop

`server/src/core.rs`: one task owns the raft node and the state machine, handles any number of
queued events and then takes the raft output once.

| here | there |
| --- | --- |
| `Request`, `Response`, `Consistency` | the client protocol (`proto/src/lib.rs`) |
| `Core.start`         | `Core::open` (`core.rs:86`) after the log store has been read |
| `Core.handleEvents`  | the drained queue of `Core::run` (`core.rs:126-145`) |
| `Core.handleEvent`   | `handle_event` (`core.rs:150`), with the functions it calls |
| `Core.processOutput` | `process_output` (`core.rs:350`) |
| `none`               | a panic: an undecodable command or snapshot, or one inside the raft node |

The log store is written and never read back while the server runs; it is modelled in
`Server.LogStore`. The counters of `metrics.rs` are left out. A client is a number; what is sent to
it is appended to `replies`. A waiting request that times out is dropped without a reply, as in the
source, where its connection then reports a retry.
-/

namespace RaftKv

inductive Consistency where
  | linearizable
  | leaderLease
  | stale
deriving DecidableEq, Repr

inductive Request where
  | put (sessionId seq : Nat) (key value : Bytes)
  | delete (sessionId seq : Nat) (key : Bytes)
  | cas (sessionId seq : Nat) (key : Bytes) (expect new : Option Bytes)
  | get (key : Bytes) (consistency : Consistency)
  | scan (start : Bytes) (stop : Option Bytes) (limit : Nat) (consistency : Consistency)
  | status
deriving DecidableEq, Repr

inductive Response where
  | ok
  | value (v : Option Bytes)
  | cas (success : Bool) (actual : Option Bytes)
  | kvs (kvs : List (Bytes × Bytes))
  | notLeader (hint : Option NodeId)
  | retry (reason : String)
  | status (id : NodeId) (role : String) (term : Nat) (leader : Option NodeId) (commit applied lastLogIndex : Nat)
      (voters : List NodeId)
  | err (text : String)
deriving DecidableEq, Repr

inductive Event where
  | tick
  | peer (m : Message)
  | client (req : Request) (tx : Nat)
deriving DecidableEq, Repr

def pendingTimeoutTicks : Nat := 50

structure PendingWrite where
  tx : Nat
  deadline : Nat
deriving DecidableEq, Repr

inductive ReadReq where
  | get (key : Bytes)
  | scan (start : Bytes) (stop : Option Bytes) (limit : Nat)
deriving DecidableEq, Repr

structure PendingRead where
  req : ReadReq
  tx : Nat
  deadline : Nat
deriving DecidableEq, Repr

structure Core where
  raft : RaftNode
  sm : StateMachine DbBackend
  applied : Nat
  appliedSinceSnap : Nat
  snapshotEvery : Nat
  /-- By session and sequence number. -/
  pendingWrites : OrdMap (Nat ×ₗ Nat) PendingWrite
  pendingReads : OrdMap Nat PendingRead
  /-- ReadIndex rounds that completed but whose index is not applied yet. -/
  readyReads : List (Nat × Nat)
  nextReadId : Nat
  tick : Nat
  /-- What was sent to each client. -/
  replies : List (Nat × Response)

/-- The `Debug` text of a role. -/
def Role.debug : Role → String
  | .follower => "Follower"
  | .preCandidate => "PreCandidate"
  | .candidate => "Candidate"
  | .leader => "Leader"

/-- `op_result_response` (`core.rs:420`) -/
def opResultResponse : OpResult → Response
  | .ok => .ok
  | .value v => .value v
  | .cas success actual => .cas success actual
  | .stale => .err "stale sequence number"

/-- `propose_err` (`core.rs:304`) -/
def proposeErr : ProposeError → Response
  | .notLeader hint => .notLeader hint
  | .notReady => .retry "leader not ready (no commit in current term yet)"
  | .confChangeInFlight => .err "conf change in flight"

namespace Core

variable (W : Wire)

/-- `Core::open`: `persisted` is what the log store returned, `leftover` what an earlier run left in the
state machine's database. -/
def start (cfg : Config) (initialVoters : List NodeId) (snapshotEvery : Nat) (persisted : Persisted)
    (leftover : DbBackend) : Option Core :=
  let sm := StateMachine.new leftover
  let restored := match persisted.snapshot with
    | some snap => (sm.restore W.payload snap.data).map fun sm => (sm, snap.lastIndex)
    | none =>
      -- a clean slate even if a previous run left data
      (sm.restore W.payload ((StateMachine.new (⟨∅⟩ : MemBackend)).snapshot W.payload)).map fun sm => (sm, 0)
  restored.bind fun (sm, applied) =>
    (RaftNode.new cfg initialVoters persisted).map fun raft =>
      { raft, sm, applied, appliedSinceSnap := 0, snapshotEvery, pendingWrites := ∅, pendingReads := ∅,
        readyReads := [], nextReadId := 1, tick := 0, replies := [] }

/-- `tx.send(response)` -/
def send (c : Core) (tx : Nat) (response : Response) : Core := { c with replies := c.replies ++ [(tx, response)] }

/-! ## Clients -/

def serveRead (c : Core) : ReadReq → Response
  | .get key => .value (c.sm.read key)
  | .scan start stop limit => .kvs (c.sm.readRange start stop limit)

/-- `propose_write` (`core.rs:217`) -/
def proposeWrite (c : Core) (sessionId seq : Nat) (op : Op) (tx : Nat) : Core :=
  if sessionId = 0 then c.send tx (.err "session_id must be nonzero")
  else
    let cmd : Command := { sessionId, seq, op }
    match c.raft.propose (W.command.ser cmd) with
    | (.ok _, raft) =>
      { c with raft
               pendingWrites := c.pendingWrites.insert (toLex (sessionId, seq))
                 { tx, deadline := c.tick + pendingTimeoutTicks } }
    | (.error e, raft) => { c with raft }.send tx (proposeErr e)

/-- `handle_read` (`core.rs:250`) -/
def handleRead (c : Core) (req : ReadReq) (consistency : Consistency) (tx : Nat) : Core :=
  match consistency with
  | .stale => c.send tx (c.serveRead req)
  | .leaderLease =>
    if ¬ c.raft.isLeader then c.send tx (.notLeader c.raft.leaderId)
    else if c.raft.leaseValid then c.send tx (c.serveRead req)
    else c.send tx (.retry "leader lease not established")
  | .linearizable =>
    let rid := c.nextReadId
    let c := { c with nextReadId := c.nextReadId + 1 }
    match c.raft.readIndex rid with
    | (.ok _, raft) =>
      { c with raft
               pendingReads := c.pendingReads.insert rid { req, tx, deadline := c.tick + pendingTimeoutTicks } }
    | (.error e, raft) => { c with raft }.send tx (proposeErr e)

def statusOf (c : Core) : Response :=
  .status c.raft.cfg.id c.raft.role.debug c.raft.hs.term c.raft.leaderId c.raft.commit c.applied
    c.raft.log.lastIndex c.raft.voters

/-- `handle_client` (`core.rs:165`) -/
def handleClient (c : Core) (req : Request) (tx : Nat) : Core :=
  match req with
  | .put sessionId seq key value => c.proposeWrite W sessionId seq (.put key value) tx
  | .delete sessionId seq key => c.proposeWrite W sessionId seq (.delete key) tx
  | .cas sessionId seq key expect new => c.proposeWrite W sessionId seq (.cas key expect new) tx
  | .get key consistency => c.handleRead (.get key) consistency tx
  | .scan start stop limit consistency => c.handleRead (.scan start stop limit) consistency tx
  | .status => c.send tx c.statusOf

/-- `sweep_timeouts` (`core.rs:320`) -/
def sweepTimeouts (c : Core) : Core :=
  let pendingReads := c.pendingReads.filter fun _ r => r.deadline > c.tick
  { c with
    pendingWrites := c.pendingWrites.filter fun _ w => ¬ w.deadline ≤ c.tick
    pendingReads
    readyReads := c.readyReads.filter fun r => (pendingReads.find? r.1).isSome }

def handleEvent (c : Core) : Event → Option Core
  | .tick => some { c with tick := c.tick + 1, raft := c.raft.tick }.sweepTimeouts
  | .peer m => (c.raft.step m).map fun raft => { c with raft }
  | .client req tx => some (c.handleClient W req tx)

def handleEvents (c : Core) : List Event → Option Core
  | [] => some c
  | e :: es => (c.handleEvent W e).bind fun c => c.handleEvents es

/-! ## Output -/

/-- A leader-installed snapshot resets the state machine (`core.rs:363-368`). -/
def restoreSnapshot (c : Core) : Option Snapshot → Option Core
  | some snap => (c.sm.restore W.payload snap.data).map fun sm =>
      { c with sm, applied := snap.lastIndex, appliedSinceSnap := 0 }
  | none => some c

/-- Answer the client that waits for the command (`core.rs:376-378`). -/
def answerWrite (c : Core) (cmd : Command) (result : OpResult) : Core :=
  match c.pendingWrites.find? (toLex (cmd.sessionId, cmd.seq)) with
  | some w => { c with pendingWrites := c.pendingWrites.erase (toLex (cmd.sessionId, cmd.seq)) }.send w.tx
      (opResultResponse result)
  | none => c

/-- One turn of the loop over the committed entries (`core.rs:371-382`). -/
def applyEntry (c : Core) (e : Entry) : Option Core :=
  let done := match e.payload with
    | .normal data =>
      match W.command.de data with
      | .ok cmd =>
        let (result, sm) := c.sm.apply cmd
        some ({ c with sm }.answerWrite cmd result)
      | .error _ => none
    | _ => some c
  done.map fun c => { c with applied := e.index, appliedSinceSnap := c.appliedSinceSnap + 1 }

def applyCommitted (c : Core) : List Entry → Option Core
  | [] => some c
  | e :: es => (c.applyEntry W e).bind fun c => c.applyCommitted es

/-- Log compaction once enough entries have applied (`core.rs:385-392`). -/
def maybeCompact (c : Core) : Option Snapshot × Core :=
  if c.appliedSinceSnap ≥ c.snapshotEvery then
    let (snap, raft) := c.raft.compact c.applied (c.sm.snapshot W.payload)
    (snap, { c with raft, appliedSinceSnap := 0 })
  else (none, c)

/-- Serve the reads whose index is applied, keep the others waiting (`core.rs:395-407`). -/
def serveReady (c : Core) : List (Nat × Nat) → Core
  | [] => c
  | (rid, idx) :: rest =>
    let c := if idx ≤ c.applied then
        match c.pendingReads.find? rid with
        | some r => { c with pendingReads := c.pendingReads.erase rid }.send r.tx (c.serveRead r.req)
        | none => c
      else { c with readyReads := c.readyReads ++ [(rid, idx)] }
    c.serveReady rest

/-- What a call of `process_output` leaves behind. -/
structure Processed where
  core : Core
  messages : List Message
  /-- The snapshot that was given to `compact_to`. -/
  compacted : Option Snapshot

/-- `process_output`. The source loops until the output is empty; one pass leaves it empty
(`processOutput_drained`). -/
def processOutput (c : Core) : Option Processed :=
  let (out, raft) := c.raft.takeOutput
  let c := { c with raft }
  if out.isEmpty then some { core := c, messages := [], compacted := none }
  else
    (c.restoreSnapshot W out.snapshot).bind fun c =>
    (c.applyCommitted W out.committed).map fun c =>
      let (compacted, c) := c.maybeCompact W
      let ready := c.readyReads ++ out.readStates
      { core := { c with readyReads := [] }.serveReady ready, messages := out.messages, compacted }

end Core

end RaftKv

import RaftKv.Kvsm.Replay
import RaftKv.Lib.Linearizable

/-!
# The simulator

`sim/src/cluster.rs` without its randomness: nodes with a state machine each, a disk that survives
crashes, clients that resend, and a network that loses, duplicates, delays and reorders. What the
seeded generator chooses there is chosen by the action here, so every run of the simulator is a run
of this one.

| here | there |
| --- | --- |
| `SimNode`               | the host's part of `SimNode`; the raft node and the disk are in `Sim.cluster` |
| `Sim.processOutput`     | `process_output` (`cluster.rs:402`) |
| `Sim.onClientReq`       | `on_client_req`, `try_propose` (`cluster.rs:630-698`) |
| `Sim.onClientWake`      | `on_client_wake` (`cluster.rs:544`), for writes and CAS |
| `Sim.onClientResp`      | `on_client_resp`, `complete_op` (`cluster.rs:699-777`) |
| `Sim.crash`, `.restart` | `crash`, `on_restart` (`cluster.rs:826-868`) |
| `none`                  | a panic, or an action that cannot happen (a message nobody sent) |

Keys and values are byte strings; the source's are the encodings `vec![key]` and `encode_val`. The
history keeps the whole result of a CAS, where `HRes::CasOk` keeps only the flag. A request is in
`requests` from the first time it is sent, and a response in `sent`: both can then arrive at any
time, any number of times or never. Reads reach the nodes as any other request, but the clients here
record only their writes and CAS. The self-checks of the source (`applied_global`,
`leaders_by_term`, `check_log_matching`) and its statistics are left out.
-/

namespace RaftKv

open Function

inductive CReq where
  | write (seq : Nat) (key value : Bytes)
  | cas (seq : Nat) (key : Bytes) (expect new : Option Bytes)
  | read (opTs : Nat) (key : Bytes)
deriving DecidableEq, Repr

inductive CResp where
  /-- `opRef` is the seq of a write, the time of a read. -/
  | retry (opRef : Nat) (hint : Option NodeId)
  | writeDone (seq : Nat) (result : OpResult)
  | readDone (opTs : Nat) (value : Option Bytes)
deriving DecidableEq, Repr

structure SimNode where
  up : Bool
  sm : StateMachine MemBackend
  applied : Nat
  appliedSinceSnap : Nat
  nextReadId : Nat
  /-- read id ↦ client, time and key -/
  pendingReads : OrdMap Nat (Nat × Nat × Bytes)
  readyReads : List (Nat × Nat)
  /-- `(session, seq)` of the proposals this node owes a response for -/
  waitingWrites : List (Nat × Nat)
  /-- The responses handed to the network so far, by client. -/
  sent : List (Nat × CResp)

/-- The operation a client waits for. -/
structure CurOp where
  histIdx : Nat
  seq : Nat
  op : Op
deriving DecidableEq, Repr

structure SimClient where
  nextSeq : Nat
  cur : Option CurOp
deriving DecidableEq, Repr

structure OpRecord extends CallRecord Op OpResult where
  client : Nat
  seq : Nat
deriving DecidableEq

/-- The session of a client; 0 is reserved for "no session". -/
def sessionOf (client : Nat) : Nat := 100 + client + 1

structure Sim where
  cluster : Cluster
  node : NodeId → SimNode
  client : Nat → SimClient
  requests : List (Nat × CReq)
  history : List OpRecord
  stamp : Nat

inductive SimAction where
  | tick (i : NodeId)
  | deliver (m : Message)
  | request (i : NodeId) (c : Nat) (req : CReq)
  | wake (c seq : Nat) (op : Op)
  | response (i : NodeId) (c : Nat) (resp : CResp)
  | crash (i : NodeId)
  | restart (i : NodeId) (cfg : Config)

/-! ## Nodes -/

namespace SimNode

variable (W : Wire)

def boot : SimNode :=
  { up := true, sm := StateMachine.new ⟨∅⟩, applied := 0, appliedSinceSnap := 0, nextReadId := 1, pendingReads := ∅,
    readyReads := [], waitingWrites := [], sent := [] }

def send (x : SimNode) (c : Nat) (resp : CResp) : SimNode := { x with sent := x.sent ++ [(c, resp)] }

/-- An installed snapshot replaces the state (`cluster.rs:411-418`). -/
def restoreSnapshot (x : SimNode) : Option Snapshot → Option SimNode
  | some snap => (x.sm.restore W.payload snap.data).map fun sm =>
      { x with sm, applied := snap.lastIndex, appliedSinceSnap := 0 }
  | none => some x

/-- The client that waits for the command is answered (`cluster.rs:446-449`). -/
def answer (x : SimNode) (cmd : Command) (result : OpResult) : SimNode :=
  if cmd.sessionId ≠ 0 ∧ (cmd.sessionId, cmd.seq) ∈ x.waitingWrites then
    { x with waitingWrites := x.waitingWrites.filter (· ≠ (cmd.sessionId, cmd.seq)) }.send (cmd.sessionId - 101)
      (.writeDone cmd.seq result)
  else x

/-- One turn of the loop over the committed entries (`cluster.rs:430-454`). -/
def applyEntry (x : SimNode) (e : Entry) : Option SimNode :=
  let applied := match e.payload with
    | .normal data =>
      match W.command.de data with
      | .ok cmd =>
        let (result, sm) := x.sm.apply cmd
        some ({ x with sm }.answer cmd result)
      | .error _ => none
    | _ => some x
  applied.map fun x => { x with applied := e.index, appliedSinceSnap := x.appliedSinceSnap + 1 }

def applyCommitted (x : SimNode) : List Entry → Option SimNode
  | [] => some x
  | e :: es => (x.applyEntry W e).bind fun x => x.applyCommitted es

/-- Serve the reads whose index is applied, keep the others waiting (`cluster.rs:470-488`). -/
def serveReady (x : SimNode) : List (Nat × Nat) → SimNode
  | [] => x
  | (rid, idx) :: rest =>
    let x := if idx ≤ x.applied then
        match x.pendingReads.find? rid with
        | some (c, opTs, key) =>
          { x with pendingReads := x.pendingReads.erase rid }.send c (.readDone opTs (x.sm.read key))
        | none => x
      else { x with readyReads := x.readyReads ++ [(rid, idx)] }
    x.serveReady rest

end SimNode

/-- `compact`, with the snapshot on disk before it is used (`cluster.rs:457-466`). -/
def Cluster.compact (s : Cluster) (i : NodeId) (applied : Nat) (data : Bytes) : Cluster :=
  match (s.host i).raft.compact applied data with
  | (some snap, n) => s.compacted i applied snap n
  | (none, _) => s

namespace Sim

variable (W : Wire) (every : Nat)

def boot (cfg : NodeId → Config) (voters : List NodeId) : Sim where
  cluster := Cluster.init cfg voters
  node _ := SimNode.boot
  client _ := { nextSeq := 0, cur := none }
  requests := []
  history := []
  stamp := 0

/-- The node `i`, whose raft node is in state `n` after a call, honours the host contract: it persists, applies,
compacts after `every` entries, serves reads and releases the messages. -/
def processOutput (s : Sim) (i : NodeId) (n : RaftNode) : Option Sim :=
  ((s.node i).restoreSnapshot W n.out.snapshot).bind fun x =>
  (x.applyCommitted W n.out.committed).map fun x =>
    let cluster := s.cluster.flush i n
    let (cluster, x) :=
      if x.appliedSinceSnap ≥ every then
        (cluster.compact i x.applied (x.sm.snapshot W.payload), { x with appliedSinceSnap := 0 })
      else (cluster, x)
    let ready := x.readyReads ++ n.out.readStates
    { s with cluster, node := update s.node i ({ x with readyReads := [] }.serveReady ready) }

/-- A call on a node that is up, and `process_output` after it. -/
def call (s : Sim) (i : NodeId) (c : Call) : Option Sim :=
  if s.cluster.deliverable i c then ((s.cluster.host i).raft.call c).bind (s.processOutput W every i) else none

/-- The response is sent to the client. -/
def reply (s : Sim) (i : NodeId) (c : Nat) (resp : CResp) : Sim :=
  { s with node := update s.node i ((s.node i).send c resp) }

def tryPropose (s : Sim) (i : NodeId) (c : Nat) (cmd : Command) : Option Sim :=
  match ((s.cluster.host i).raft.propose (W.command.ser cmd)).1 with
  | .ok _ =>
    let x := s.node i
    { s with node := update s.node i
              { x with waitingWrites := x.waitingWrites.insert (cmd.sessionId, cmd.seq) } }.call W every i
      (.propose (W.command.ser cmd))
  | .error (.notLeader hint) => some (s.reply i c (.retry cmd.seq hint))
  | .error _ => some (s.reply i c (.retry cmd.seq (some i)))

def onClientReq (s : Sim) (i : NodeId) (c : Nat) (req : CReq) : Option Sim :=
  if !(s.node i).up then some s
  else match req with
    | .write seq key value => s.tryPropose W every i c { sessionId := sessionOf c, seq, op := .put key value }
    | .cas seq key expect new => s.tryPropose W every i c { sessionId := sessionOf c, seq, op := .cas key expect new }
    | .read opTs key =>
      let x := s.node i
      let rid := x.nextReadId
      let s := { s with node := update s.node i { x with nextReadId := rid + 1 } }
      match ((s.cluster.host i).raft.readIndex rid).1 with
      | .ok _ =>
        { s with node := update s.node i
                  { x with nextReadId := rid + 1, pendingReads := x.pendingReads.insert rid (c, opTs, key) } }.call
          W every i (.readIndex rid)
      | .error (.notLeader hint) => some (s.reply i c (.retry opTs hint))
      | .error _ => some (s.reply i c (.retry opTs (some i)))

/-! ## Clients -/

/-- The request for an operation, which the client sends and resends. -/
def requestOf (seq : Nat) : Op → Option CReq
  | .put key value => some (.write seq key value)
  | .cas key expect new => some (.cas seq key expect new)
  | _ => none

/-- An idle client invokes a write or a CAS under a seq above its earlier ones. -/
def onClientWake (s : Sim) (c seq : Nat) (op : Op) : Option Sim :=
  if (s.client c).cur.isSome ∨ seq ≤ (s.client c).nextSeq then none
  else (requestOf seq op).map fun req =>
    { s with
      stamp := s.stamp + 1
      client := update s.client c { nextSeq := seq, cur := some { histIdx := s.history.length, seq, op } }
      requests := s.requests ++ [(c, req)]
      history := s.history ++ [{ op, invoke := s.stamp + 1, ret := none, result := none, client := c, seq }] }

/-- What the client records as the result: any response completes a write, only a CAS result a CAS. -/
def accepts (op : Op) (result : OpResult) : Option OpResult :=
  match op, result with
  | .put .., _ => some .ok
  | .cas .., .cas success actual => some (.cas success actual)
  | _, _ => none

def completeOp (s : Sim) (c : Nat) (cur : CurOp) (result : OpResult) : Sim :=
  { s with
    stamp := s.stamp + 1
    client := update s.client c { s.client c with cur := none }
    history := s.history.modify cur.histIdx fun r => { r with ret := some (s.stamp + 1), result := some result } }

def onClientResp (s : Sim) (c : Nat) (resp : CResp) : Sim :=
  match (s.client c).cur, resp with
  | some cur, .writeDone seq result =>
    if cur.seq = seq then
      match accepts cur.op result with
      | some res => s.completeOp c cur res
      | none => s
    else s
  | _, _ => s

/-! ## Faults -/

def crash (s : Sim) (i : NodeId) : Sim :=
  if !(s.node i).up then s
  else
    { s with node := update s.node i
              { s.node i with
                up := false, sm := StateMachine.new ⟨∅⟩, applied := 0, appliedSinceSnap := 0, pendingReads := ∅
                readyReads := [], waitingWrites := [] } }

def restart (voters : List NodeId) (s : Sim) (i : NodeId) (cfg : Config) : Option Sim :=
  if (s.node i).up then some s
  else
    (RaftNode.new { cfg with id := i } voters (s.cluster.host i).disk).bind fun raft =>
    let restored := match (s.cluster.host i).disk.snapshot with
      | some snap => ((s.node i).sm.restore W.payload snap.data).map fun sm =>
          { s.node i with sm, applied := snap.lastIndex }
      | none => some (s.node i)
    restored.bind fun x =>
      { s with cluster := s.cluster.restarted i raft, node := update s.node i { x with up := true } }.processOutput
        W every i raft

def exec (voters : List NodeId) (s : Sim) : SimAction → Option Sim
  | .tick i => if (s.node i).up then s.call W every i .tick else some s
  | .deliver m => if (s.node m.dst).up then s.call W every m.dst (.step m) else some s
  | .request i c req =>
    match req with
    | .read .. => s.onClientReq W every i c req
    | _ => if (c, req) ∈ s.requests then s.onClientReq W every i c req else none
  | .wake c seq op => s.onClientWake c seq op
  | .response i c resp => if (c, resp) ∈ (s.node i).sent then some (s.onClientResp c resp) else none
  | .crash i => some (s.crash i)
  | .restart i cfg => s.restart W every voters i cfg

end Sim

end RaftKv

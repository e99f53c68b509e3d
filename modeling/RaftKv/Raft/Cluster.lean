import RaftKv.Lib.Runs
import RaftKv.Raft.Batch

/-!
# Runs of a cluster

The environment of `sim/src/cluster.rs`, without its randomness: any interleaving of calls, any
loss, duplication, delay and reordering of messages, crashes with a restart from the durable
copy, and compaction. After each call the whole output is persisted before its messages are
released (`Sim::process_output`, `cluster.rs:402`).

| here | there |
| --- | --- |
| `Host.raft`, `.disk`       | `SimNode::raft`, `SimNode::disk` |
| `Cluster.net`              | the messages released so far; a message stays, so that it may be delivered again, late or never |
| `Action.call`              | an entry point of the node followed by `process_output` |
| `Action.compact`           | `compact` at an applied index with the disk update of `cluster.rs:460-463` |
| `Action.restart`           | a crash followed by `RaftNode::new` from the disk |

The other fields are history: `delivered`, `snaps` and `reads` record what was handed out, `base`
and `prefixes` which log prefix a snapshot stands for. No node reads them.
-/

namespace RaftKv

open Function

structure Host where
  raft : RaftNode
  disk : Persisted
  /-- History: the entries the snapshot base of `raft` stands for. -/
  base : List Entry

/-- All hosts after one of them has changed. -/
theorem forall_update {P : NodeId → Host → Prop} {f : NodeId → Host} {i : NodeId} {x : Host} (hx : P i x)
    (h : ∀ j, P j (f j)) : ∀ j, P j (update f i x j) :=
  (forall_update_iff f (p := P)).2 ⟨hx, fun j _ => h j⟩

/-- An entry of `Output.committed`, with the state in which the node handed it out. -/
structure Delivery where
  node : NodeId
  term : Nat
  role : Role
  entry : Entry
deriving DecidableEq, Repr

structure Cluster where
  host : NodeId → Host
  net : List Message
  delivered : List Delivery
  /-- Every snapshot taken by `compact` or installed. -/
  snaps : List Snapshot
  /-- The prefix of the log each snapshot was taken of. -/
  prefixes : List (Snapshot × List Entry)
  /-- `(node, request id, index)` for each entry of `Output.read_states`. -/
  reads : List (NodeId × Nat × Nat)

inductive Action where
  | call (i : NodeId) (c : Call)
  | compact (i : NodeId) (applied : Nat) (data : Bytes)
  | restart (i : NodeId) (cfg : Config)

namespace Cluster

/-- Nothing has happened yet; a node that is started later starts in this state too. -/
def init (cfg : NodeId → Config) (voters : List NodeId) : Cluster where
  host i := { raft := RaftNode.fresh { cfg i with id := i } voters, disk := {}, base := [] }
  net := []
  delivered := []
  snaps := []
  prefixes := []
  reads := []

/-- The prefix recorded for a snapshot. -/
def prefixOf (s : Cluster) (snap : Snapshot) : List Entry :=
  ((s.prefixes.find? fun p => p.1 = snap).map Prod.snd).getD []

/-- The node `i`, in state `n` after its calls, hands its output over and has `disk` on disk. -/
def flushTo (s : Cluster) (i : NodeId) (n : RaftNode) (disk : Persisted) : Cluster :=
  let o := n.out
  let host : Host := { raft := n.takeOutput.2, disk, base := (o.snapshot.map s.prefixOf).getD (s.host i).base }
  { s with
    host := update s.host i host
    net := s.net ++ o.messages
    delivered := s.delivered ++ o.committed.map fun entry =>
      { node := i, term := n.hs.term, role := n.role, entry }
    snaps := s.snaps ++ o.snapshot.toList
    reads := s.reads ++ o.readStates.map fun r => (i, r.1, r.2) }

theorem flushTo_self (s : Cluster) (i : NodeId) (n : RaftNode) (disk : Persisted) :
    (s.flushTo i n disk).host i =
      { raft := n.takeOutput.2, disk, base := (n.out.snapshot.map s.prefixOf).getD (s.host i).base } :=
  update_self ..

/-- `process_output` for the node `i`, which is in state `n` after its call. -/
def flush (s : Cluster) (i : NodeId) (n : RaftNode) : Cluster := s.flushTo i n ((s.host i).disk.persist n.out)

/-- A message can only be stepped by its receiver, once it has been released. -/
def deliverable (s : Cluster) (i : NodeId) : Call → Bool
  | .step m => decide (m.dst = i) && s.net.contains m
  | _ => true

theorem deliverable_step {s : Cluster} {i : NodeId} {m : Message} (h : s.deliverable i (.step m) = true) :
    m.dst = i ∧ m ∈ s.net := by
  simpa [deliverable] using h

/-- The node `i` has taken the snapshot `snap` at `applied`, which left it in state `n`. -/
def compacted (s : Cluster) (i : NodeId) (applied : Nat) (snap : Snapshot) (n : RaftNode) : Cluster :=
  let h := s.host i
  let p := (h.base ++ h.raft.log.entries).take applied
  let host : Host := { raft := n, disk := h.disk.compactTo snap, base := p }
  { s with host := update s.host i host
           snaps := s.snaps ++ [snap]
           prefixes := s.prefixes ++ [(snap, p)] }

theorem compacted_self (s : Cluster) (i : NodeId) (applied : Nat) (snap : Snapshot) (n : RaftNode) :
    (s.compacted i applied snap n).host i =
      { raft := n, disk := (s.host i).disk.compactTo snap
        base := ((s.host i).base ++ (s.host i).raft.log.entries).take applied } :=
  update_self ..

/-- The node `i` has been started again, in state `n`. -/
def restarted (s : Cluster) (i : NodeId) (n : RaftNode) : Cluster :=
  { s with host := update s.host i { s.host i with raft := n } }

def exec (voters : List NodeId) (s : Cluster) : Action → Option Cluster
  | .call i c => if s.deliverable i c then ((s.host i).raft.call c).map (s.flush i) else none
  | .compact i applied data =>
    match (s.host i).raft.compact applied data with
    | (none, _) => some s
    | (some snap, n) => some (s.compacted i applied snap n)
  | .restart i cfg => (RaftNode.new { cfg with id := i } voters (s.host i).disk).map (s.restarted i)

def execAll (voters : List NodeId) : Cluster → List Action → Option Cluster
  | s, [] => some s
  | s, a :: as => (s.exec voters a).bind fun s => s.execAll voters as

/-- What an action does when it succeeds. -/
inductive Exec (voters : List NodeId) (s : Cluster) : Action → Cluster → Prop
  | call {i : NodeId} {c : Call} {n : RaftNode} : s.deliverable i c = true → (s.host i).raft.call c = some n →
      Exec voters s (.call i c) (s.flush i n)
  | idle {i : NodeId} {applied : Nat} {data : Bytes} : Exec voters s (.compact i applied data) s
  | compact {i : NodeId} {applied : Nat} {data : Bytes} {snap : Snapshot} {n : RaftNode} :
      (s.host i).raft.compact applied data = (some snap, n) →
      Exec voters s (.compact i applied data) (s.compacted i applied snap n)
  | restart {i : NodeId} {cfg : Config} {n : RaftNode} :
      RaftNode.new { cfg with id := i } voters (s.host i).disk = some n →
      Exec voters s (.restart i cfg) (s.restarted i n)

theorem exec_some {voters : List NodeId} {s t : Cluster} {a : Action} (h : s.exec voters a = some t) :
    Exec voters s a t := by
  cases a with
  | call i c =>
    simp only [exec] at h
    split at h
    · rename_i hdel
      obtain ⟨n, hc, rfl⟩ := Option.map_eq_some_iff.1 h
      exact .call hdel hc
    · cases h
  | compact i applied data =>
    simp only [exec] at h
    split at h
    · cases h; exact .idle
    · rename_i snap n hc
      cases h; exact .compact hc
  | restart i cfg =>
    obtain ⟨n, hn, rfl⟩ := Option.map_eq_some_iff.1 h
    exact .restart hn

end Cluster

/-- The cluster can go from `s` to `t` by actions that all meet `ok`. -/
abbrev Run (voters : List NodeId) (ok : Cluster → Action → Prop) (s t : Cluster) : Prop :=
  Runs (Cluster.exec voters) ok s t

namespace Run

variable {voters : List NodeId} {ok : Cluster → Action → Prop} {s t : Cluster}

/-- An executed list of permitted actions is a run. -/
theorem of_execAll {as : List Action} (h : s.execAll voters as = some t) (hok : ∀ s, ∀ a ∈ as, ok s a) :
    Run voters ok s t := by
  induction as generalizing s with
  | nil => cases h; exact .refl
  | cons a as ih =>
    obtain ⟨s', hs', h⟩ := Option.bind_eq_some_iff.1 h
    exact (Runs.tail .refl (hok s a (by simp)) hs').trans (ih h fun s b hb => hok s b (by simp [hb]))

/-- A run by evaluation: the listed actions succeed and end in a state with `P`. -/
theorem reached (voters : List NodeId) (ok : Cluster → Action → Prop) (s : Cluster) (as : List Action)
    {P : Cluster → Prop} [DecidablePred P] (h : (s.execAll voters as).any (fun t => decide (P t)) = true)
    (hok : ∀ s, ∀ a ∈ as, ok s a) : ∃ t, Run voters ok s t ∧ P t := by
  obtain ⟨t, ht, hP⟩ := (Option.any_eq_true _ _).1 h
  exact ⟨t, of_execAll ht hok, of_decide_eq_true hP⟩

end Run

/-- Fixed membership: no configuration change is proposed. -/
def Action.fixed : Action → Prop
  | .call _ (.proposeConfChange _) => False
  | _ => True

instance : DecidablePred Action.fixed := fun a => by
  unfold Action.fixed
  split <;> infer_instance

/-! ## Scenarios

Names for the steps of concrete runs. The configuration times out after a single tick. -/

def Config.quick (i : NodeId) : Config :=
  { id := i, electionTickMin := 1, electionTickMax := 2, heartbeatTick := 1, maxBatchEntries := 64,
    maxInflight := 10, preVote := false, seed := 0, tick_le := by decide }

namespace Action

def deliver (src dst term : Nat) (body : MessageBody) : Action := .call dst (.step { src, dst, term, body })

def ask (src dst term lastLogIndex lastLogTerm : Nat) : Action :=
  deliver src dst term (.requestVote lastLogIndex lastLogTerm)

def grant (src dst term : Nat) : Action := deliver src dst term (.requestVoteResp true)

/-- Node 1 of `[1, 2, 3]` becomes leader of term 1 with the vote of node 2. -/
def firstElection : List Action := [.call 1 .tick, ask 1 2 1 0 0, grant 2 1 1]

/-- Node 1 then commits its no-op with node 2. -/
def firstCommit : List Action :=
  firstElection ++
  [deliver 1 2 1 (.appendEntries 0 0 [{ term := 1, index := 1, payload := .noop }] 0 0),
   deliver 2 1 1 (.appendEntriesResp true 1 0 0)]

end Action

/-- The first batch of node 1, on its way to node 2. -/
def Message.firstBatch : Message :=
  { src := 1, dst := 2, term := 1, body := .appendEntries 0 0 [{ term := 1, index := 1, payload := .noop }] 0 0 }

end RaftKv

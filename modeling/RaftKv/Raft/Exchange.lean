import RaftKv.Raft.Checked
import RaftKv.Raft.Matching
import RaftKv.Raft.FollowerLog

/-!
# A leader and one follower

A leader finds out where the log of a follower agrees with its own by trial: it sends a batch at
`next`, and a rejection with its hint moves `next` down, a success moves it up; a follower behind the
base of the log gets the snapshot instead. `Exchange` is a cluster in which only what the two say to
each other is delivered. With a huge `max_batch_entries` cutting a batch may overflow: `start?` and
`deliver?` are the exchange with the panics of the source, and `MessageBody.Fits` says which messages
can be sent without one.

| here | there |
| --- | --- |
| `RaftNode.accepted`, `RaftNode.refused` | `handle_append_resp` on the progress (`node.rs:861-901`) |
| `RaftNode.installed`                    | `handle_install_snapshot_resp` on the progress (`node.rs:956-972`) |
| `Exchange.start`                        | one `send_append` (`node.rs:475-543`) |
-/

namespace RaftKv

open Relation

variable {voters : List NodeId} {s t : Cluster} {i j : NodeId} {n n' : RaftNode} {T : Nat} {m : Message} {pr : Progress}

/-! ## What `send_append` sends -/

theorem RaftLog.slice_ne_nil {log : RaftLog} {start max : Nat} (hlo : log.snapIndex < start)
    (hhi : start ≤ log.lastIndex) (hmax : 0 < max) : log.slice start max ≠ [] := by
  have hstart : Nat.max start log.firstIndex = start := Nat.max_eq_left hlo
  unfold RaftLog.slice
  rw [if_neg (by omega)]
  refine List.ne_nil_of_length_pos ?_
  rw [RaftLog.lastIndex] at hhi
  rw [List.length_take, List.length_drop]
  omega

namespace RaftNode

theorem sendAppend_snapshot {snap : Snapshot} (hpr : n.prs.find? j = some pr) (hpend : pr.pendingSnapshot = false)
    (hnext : pr.next ≤ n.log.snapIndex) (hsnap : n.snapshot = some snap) :
    n.sendAppend j =
      { n with prs := n.prs.insert j { pr with pendingSnapshot := true, snapshotSentTick := n.tickCounter } }.send j
        (.installSnapshot snap) := by
  unfold sendAppend
  rw [hpr]
  dsimp only
  rw [if_neg (by simp [hpend]), if_pos hnext, hsnap]

/-- A batch from `next` on: all that fits, or nothing while the window is full. -/
theorem sendAppend_batch {prevTerm : Nat} (hpr : n.prs.find? j = some pr) (hpend : pr.pendingSnapshot = false)
    (hnext : n.log.snapIndex < pr.next) (hterm : n.log.term (pr.next - 1) = some prevTerm) :
    ∃ es pr', n.sendAppend j = { n with prs := n.prs.insert j pr' }.send j
        (.appendEntries (pr.next - 1) prevTerm es n.commit n.readCtxCounter) ∧
      pr'.next = pr.next + es.length ∧ pr'.pendingSnapshot = false ∧ pr'.matched = pr.matched ∧
      (es = n.log.slice pr.next n.cfg.maxBatchEntries ∨
        es = [] ∧ n.cfg.maxInflight ≤ pr.inflight ∧ pr'.inflight = pr.inflight - 1) := by
  unfold sendAppend
  rw [hpr]
  dsimp only
  rw [if_neg (by simp [hpend]), if_neg (Nat.not_le.2 hnext), hterm]
  by_cases hfull : (!(n.log.slice pr.next n.cfg.maxBatchEntries).isEmpty &&
    decide (pr.inflight ≥ n.cfg.maxInflight)) = true
  · have hin : n.cfg.maxInflight ≤ pr.inflight := by
      simp only [Bool.and_eq_true, decide_eq_true_eq] at hfull
      exact hfull.2
    simp only [if_pos hfull]
    exact ⟨[], _, rfl, rfl, rfl, rfl, Or.inr ⟨rfl, hin, rfl⟩⟩
  · simp only [if_neg hfull]
    refine ⟨_, _, rfl, ?_, ?_, ?_, Or.inl rfl⟩
    · split
      · rfl
      · rename_i hlen
        simp only [Nat.not_lt, Nat.le_zero] at hlen
        simp [hlen]
    · split <;> rfl
    · split <;> rfl

end RaftNode

/-- The sum `start + max` of the `slice` behind this message fits `usize` (`log.rs:75`). After the last index `slice`
returns before it. -/
def MessageBody.Fits (log : RaftLog) (max : Nat) : MessageBody → Prop
  | .appendEntries prev _ _ _ _ => prev < log.lastIndex → prev - log.snapIndex + max < 2 ^ 64
  | _ => True

instance (log : RaftLog) (max : Nat) : DecidablePred (MessageBody.Fits log max) := fun body => by
  unfold MessageBody.Fits
  split <;> infer_instance

theorem MessageBody.fits_of_le {log : RaftLog} {max : Nat} (hvec : log.entries.length ≤ 2 ^ 63) (hmax : max ≤ 2 ^ 63)
    (body : MessageBody) : body.Fits log max := by
  cases body with
  | appendEntries prev prevTerm es lc ctx =>
    intro hlt
    rw [RaftLog.lastIndex] at hlt
    omega
  | _ => trivial

variable {k : NodeId}

namespace RaftNode

/-- The messages of the output were cut without overflow. -/
def Fits (n : RaftNode) : Prop := ∀ m ∈ n.out.messages, m.body.Fits n.log n.cfg.maxBatchEntries

instance (n : RaftNode) : Decidable n.Fits := by
  unfold Fits
  infer_instance

theorem fits_of_silent (hout : n.out.messages = []) : n.Fits := by simp [Fits, hout]

/-- `send_append` panics if and only if what it would send does not fit. -/
theorem sendAppend?_eq_ite (hout : n.out.messages = []) (hvec : n.log.entries.length ≤ 2 ^ 63) (j : NodeId) :
    n.sendAppend? j = if (n.sendAppend j).Fits then some (n.sendAppend j) else none := by
  unfold sendAppend? sendAppend
  cases n.prs.find? j with
  | none => exact (if_pos (fits_of_silent hout)).symm
  | some pr =>
    dsimp only
    split
    · exact (if_pos (fits_of_silent hout)).symm
    · split
      · cases n.snapshot with
        | none => exact (if_pos (fits_of_silent hout)).symm
        | some snap => exact (if_pos (by simp [Fits, send, pushMsg, hout, MessageBody.Fits])).symm
      · obtain ⟨prev, hprev⟩ : ∃ prev, pr.next = prev + 1 := ⟨pr.next - 1, by omega⟩
        rw [hprev, checkedSub_of_le (Nat.le_add_left _ _), Nat.add_sub_cancel]
        simp only [RaftLog.term?_eq, Option.bind_eq_bind, Option.bind_some]
        cases n.log.term prev with
        | none => exact (if_pos (fits_of_silent hout)).symm
        | some prevTerm =>
          rw [RaftLog.slice?_after (by omega) hvec]
          by_cases hfit : prev < n.log.lastIndex → prev - n.log.snapIndex + n.cfg.maxBatchEntries < 2 ^ 64
          · rw [if_pos hfit, if_pos (by simpa [Fits, send, pushMsg, hout, MessageBody.Fits] using hfit)]; rfl
          · rw [if_neg hfit, if_neg (by simpa [Fits, send, pushMsg, hout, MessageBody.Fits] using hfit)]; rfl

/-! ## What the leader does with an answer, beside its progress -/

/-- The node is in the same office with the same log. -/
structure Keeps (n n' : RaftNode) : Prop where
  cfg : n'.cfg = n.cfg
  log : n'.log = n.log
  hs : n'.hs = n.hs
  role : n'.role = n.role
  snapshot : n'.snapshot = n.snapshot
  installed : n'.out.snapshot = n.out.snapshot

theorem Keeps.trans {n'' : RaftNode} (h : Keeps n n') (h' : Keeps n' n'') : Keeps n n'' :=
  ⟨h'.cfg.trans h.cfg, h'.log.trans h.log, h'.hs.trans h.hs, h'.role.trans h.role, h'.snapshot.trans h.snapshot,
    h'.installed.trans h.installed⟩

theorem SentFrom.keeps (h : SentFrom n n') : Keeps n n' := by
  refine ⟨?_, ?_, ?_, ?_, ?_, ?_⟩ <;> rw [h]

/-- Commitment and reads move on; the progress and the messages stay as well. -/
structure Beside (n n' : RaftNode) : Prop extends Keeps n n' where
  prs : n'.prs = n.prs
  messages : n'.out.messages = n.out.messages

theorem Beside.refl (n : RaftNode) : Beside n n := ⟨⟨rfl, rfl, rfl, rfl, rfl, rfl⟩, rfl, rfl⟩

theorem Beside.trans {n'' : RaftNode} (h : Beside n n') (h' : Beside n' n'') : Beside n n'' :=
  ⟨h.toKeeps.trans h'.toKeeps, h'.prs.trans h.prs, h'.messages.trans h.messages⟩

/-- Without configuration changes in its log a leader does not step down. -/
theorem maybeAdvanceCommit_beside (hplain : ∀ e ∈ n.log.entries, e.isConf = false) : Beside n n.maybeAdvanceCommit := by
  unfold maybeAdvanceCommit
  split
  · exact .refl n
  · split
    · exact .refl n
    · split
      · rename_i k _ h
        rcases advanceCommitTo_eq k (Nat.le_of_lt h.1) with heq | ⟨_, _, e, he, hconf⟩
        · rw [heq]; exact ⟨⟨rfl, rfl, rfl, rfl, rfl, rfl⟩, rfl, rfl⟩
        · rw [hplain e he] at hconf
          cases hconf
      · exact .refl n

theorem processReadAcks_beside (n : RaftNode) : Beside n n.processReadAcks := by
  unfold processReadAcks
  split
  · exact .refl n
  · split
    · exact .refl n
    · split
      · exact ⟨⟨rfl, rfl, rfl, rfl, rfl, rfl⟩, rfl, rfl⟩
      · exact .refl n

/-- The progress of a peer that has accepted a batch up to `k`, as `handle_append_resp` records it. -/
def accepted (n : RaftNode) (pr : Progress) (k ctx : Nat) : Progress :=
  { pr with lastRespTick := n.tickCounter, ackedReadCtx := Nat.max pr.ackedReadCtx ctx
            matched := if k > pr.matched then k else pr.matched
            next := Nat.max pr.next (k + 1)
            inflight := pr.inflight - 1 }

/-- The progress of a peer that has refused a batch with the hint `ci`. -/
def refused (n : RaftNode) (pr : Progress) (ci ctx : Nat) : Progress :=
  { pr with lastRespTick := n.tickCounter, ackedReadCtx := Nat.max pr.ackedReadCtx ctx
            next := Nat.min (Nat.max ci 1) (n.log.lastIndex + 1)
            inflight := 0 }

/-- The progress of a peer that has the snapshot up to `li`, as `handle_install_snapshot_resp` records it. -/
def installed (n : RaftNode) (pr : Progress) (li : Nat) : Progress :=
  { pr with pendingSnapshot := false, lastRespTick := n.tickCounter
            matched := if li > pr.matched then li else pr.matched
            next := Nat.max pr.next (li + 1)
            inflight := 0 }

/-- A progress has been replaced, and commitment and reads may have moved on. -/
theorem Beside.replaced (h : Beside { n with prs := n.prs.insert j pr } n') :
    n'.prs.find? j = some pr ∧ Keeps n n' ∧ n'.out.messages = n.out.messages := by
  refine ⟨?_, ⟨h.cfg, h.log, h.hs, h.role, h.snapshot, h.installed⟩, h.messages⟩
  rw [h.prs]
  exact (OrdMap.find?_insert ..).trans (if_pos rfl)

theorem countAck_replaced (hplain : ∀ e ∈ n.log.entries, e.isConf = false) (j : NodeId) (pr : Progress) (k ctx : Nat) :
    (n.countAck j pr k ctx).processReadAcks.prs.find? j = some (n.accepted pr k ctx) ∧
      Keeps n (n.countAck j pr k ctx).processReadAcks ∧
      (n.countAck j pr k ctx).processReadAcks.out.messages = n.out.messages := by
  have hcommit : Beside { n with prs := n.prs.insert j (n.accepted pr k ctx) } (n.countAck j pr k ctx) :=
    maybeAdvanceCommit_beside hplain
  exact (hcommit.trans (processReadAcks_beside _)).replaced

theorem handleInstallSnapshotResp_eq {li : Nat} (hr : n.role = .leader) (hpr : n.prs.find? j = some pr) :
    n.handleInstallSnapshotResp j li =
      { n with prs := n.prs.insert j (n.installed pr li) }.maybeAdvanceCommit.sendAppend j := by
  unfold handleInstallSnapshotResp
  rw [if_neg (by simp [hr]), hpr]
  rfl

theorem messages_send {dst : NodeId} (hid : n.cfg.id = k) (hterm : n.hs.term = T) (hout : n.out.messages = [])
    (body : MessageBody) : (n.send dst body).out.messages = [{ src := k, dst, term := T, body }] := by
  simp [send, pushMsg, hid, hterm, hout]

theorem raiseCommit_beside (n : RaftNode) (k : Nat) : Beside n (n.raiseCommit k) := by
  unfold raiseCommit
  split
  · exact ⟨⟨rfl, rfl, rfl, rfl, rfl, rfl⟩, rfl, rfl⟩
  · exact .refl n

theorem step_same (hpre : isPreVote m.body = false) (ht : m.term = n.hs.term) : n.step m = n.dispatch m := by
  unfold step
  rw [if_neg (by simp [hpre]), if_neg (by omega), if_neg (by omega)]

theorem step?_same (hpre : isPreVote m.body = false) (ht : m.term = n.hs.term) : n.step? m = n.dispatch? m := by
  unfold step?
  cases hb : m.body with
  | preVote lli llt => rw [hb] at hpre; cases hpre
  | preVoteResp granted => rw [hb] at hpre; cases hpre
  | _ =>
    rw [if_neg (by omega), if_neg (by omega)]

/-- The leader panics over an answer if and only if what it would send does not fit. -/
theorem handleAppendResp?_eq_ite {ok : Bool} {k ci ctx : Nat} (hr : n.role = .leader) (hpr : n.prs.find? j = some pr)
    (hplain : ∀ e ∈ n.log.entries, e.isConf = false) (hout : n.out.messages = [])
    (hvec : n.log.entries.length ≤ 2 ^ 63) :
    n.handleAppendResp? j ok k ci ctx =
      if (n.handleAppendResp j ok k ci ctx).Fits then some (n.handleAppendResp j ok k ci ctx) else none := by
  cases ok with
  | false =>
    unfold handleAppendResp? handleAppendResp
    simp only [if_neg (not_not.2 hr), hpr, Bool.false_eq_true, if_false]
    split
    · exact sendAppend?_eq_ite (by exact hout) (by exact hvec) j
    · exact (if_pos (fits_of_silent (by exact hout))).symm
  | true =>
    obtain ⟨-, hkeeps, hmsg⟩ := countAck_replaced hplain j pr k ctx
    rw [handleAppendResp_eq hr hpr]
    unfold handleAppendResp?
    rw [if_neg (by simp [hr]), hpr]
    dsimp only
    rw [if_pos rfl, maybeAdvanceCommit?_eq, Option.bind_eq_bind, Option.bind_some, processReadAcks?_eq,
      Option.bind_some]
    show (if (((n.countAck j pr k ctx).processReadAcks.prs.find? j).map fun p =>
      decide (p.next ≤ n.log.lastIndex)).getD false then (n.countAck j pr k ctx).processReadAcks.sendAppend? j else
        some (n.countAck j pr k ctx).processReadAcks) = _
    generalize (n.countAck j pr k ctx).processReadAcks = n₂ at hkeeps hmsg ⊢
    unfold sendRest
    split
    · exact sendAppend?_eq_ite (hmsg.trans hout) (by rw [hkeeps.log]; exact hvec) j
    · exact (if_pos (fits_of_silent (hmsg.trans hout))).symm

theorem handleInstallSnapshotResp?_eq_ite {li : Nat} (hr : n.role = .leader) (hpr : n.prs.find? j = some pr)
    (hplain : ∀ e ∈ n.log.entries, e.isConf = false) (hout : n.out.messages = [])
    (hvec : n.log.entries.length ≤ 2 ^ 63) :
    n.handleInstallSnapshotResp? j li =
      if (n.handleInstallSnapshotResp j li).Fits then some (n.handleInstallSnapshotResp j li) else none := by
  have hbeside : Beside { n with prs := n.prs.insert j (n.installed pr li) } _ := maybeAdvanceCommit_beside hplain
  obtain ⟨-, hkeeps, hmsg⟩ := hbeside.replaced
  rw [handleInstallSnapshotResp_eq hr hpr]
  unfold handleInstallSnapshotResp?
  rw [if_neg (by simp [hr]), hpr]
  dsimp only
  rw [maybeAdvanceCommit?_eq, Option.bind_eq_bind, Option.bind_some]
  exact sendAppend?_eq_ite (hmsg.trans hout) (by rw [hkeeps.log]; exact hvec) j

end RaftNode

/-! ## The exchange -/

def Message.between (i j : NodeId) (m : Message) : Bool :=
  decide (m.src = i ∧ m.dst = j) || decide (m.src = j ∧ m.dst = i)

/-- A cluster in which only the messages on the wire are delivered any more, in order. -/
structure Exchange where
  cluster : Cluster
  wire : List Message

namespace Exchange

/-- From `s` to `t` the messages between `i` and `j` have joined the wire. -/
def after (i j : NodeId) (s t : Cluster) (wire : List Message) : Exchange :=
  { cluster := t, wire := wire ++ (t.net.drop s.net.length).filter (Message.between i j) }

/-- One `send_append` of `i` to `j`; what was in flight before is discarded. -/
def start (i j : NodeId) (s : Cluster) : Exchange := after i j s (s.flush i ((s.host i).raft.sendAppend j)) []

/-- The oldest message on the wire is delivered. -/
def deliver (voters : List NodeId) (i j : NodeId) (x : Exchange) : Option Exchange :=
  match x.wire with
  | [] => none
  | m :: wire => (x.cluster.exec voters (.call m.dst (.step m))).map fun t => after i j x.cluster t wire

/-- `start` with the panics of the source. -/
def start? (i j : NodeId) (s : Cluster) : Option Exchange :=
  ((s.host i).raft.sendAppend? j).map fun n => after i j s (s.flush i n) []

/-- `deliver` with the panics of the source. -/
def deliver? (i j : NodeId) (x : Exchange) : Option Exchange :=
  match x.wire with
  | [] => none
  | m :: wire => ((x.cluster.host m.dst).raft.step? m).map fun n => after i j x.cluster (x.cluster.flush m.dst n) wire

/-- What is on the wire was cut by the leader without overflow. -/
def Fits (i : NodeId) (x : Exchange) : Prop :=
  ∀ m ∈ x.wire, m.body.Fits (x.cluster.host i).raft.log (x.cluster.host i).raft.cfg.maxBatchEntries

instance (i : NodeId) (x : Exchange) : Decidable (x.Fits i) := by
  unfold Fits
  infer_instance

end Exchange

abbrev Deliveries (voters : List NodeId) (i j : NodeId) : Exchange → Exchange → Prop :=
  ReflTransGen fun x y => x.deliver voters i j = some y

abbrev Deliveries? (i j : NodeId) : Exchange → Exchange → Prop := ReflTransGen fun x y => x.deliver? i j = some y

/-- The leader knows that the follower has its log, and it is so. -/
structure Repaired (i j : NodeId) (s : Cluster) : Prop where
  matched : ((s.host i).raft.prs.find? j).map Progress.matched = some (s.host i).raft.log.lastIndex
  lastIndex : (s.host j).raft.log.lastIndex = (s.host i).raft.log.lastIndex
  entries : (s.host j).raft.log.entries = (s.host i).logical.drop (s.host j).raft.log.snapIndex

theorem Exchange.wire_after_flush (s : Cluster) (k : NodeId) (n : RaftNode) (wire : List Message) :
    (Exchange.after i j s (s.flush k n) wire).wire = wire ++ n.out.messages.filter (Message.between i j) := by
  show wire ++ ((s.net ++ n.out.messages).drop s.net.length).filter _ = _
  rw [List.drop_left]

theorem exec_step (hnet : m ∈ s.net) (hdst : m.dst = k) (hstep : (s.host k).raft.step m = some n') :
    s.exec voters (.call k (.step m)) = some (s.flush k n') := by
  have hdel : s.deliverable k (.step m) = true := by simp [Cluster.deliverable, hdst, hnet]
  simp only [Cluster.exec, if_pos hdel, RaftNode.call, hstep, Option.map_some]

theorem Exchange.after_flush (hbetween : ∀ m' ∈ n'.out.messages, Message.between i j m' = true) :
    Exchange.after i j s (s.flush k n') [] = ⟨s.flush k n', n'.out.messages⟩ := by
  have hwire := Exchange.wire_after_flush (i := i) (j := j) s k n' []
  rw [List.filter_eq_self.2 hbetween] at hwire
  exact congrArg (Exchange.mk (s.flush k n')) hwire

theorem Exchange.deliver_one (voters : List NodeId) (hnet : m ∈ s.net) (hdst : m.dst = k)
    (hstep : (s.host k).raft.step m = some n') (hbetween : ∀ m' ∈ n'.out.messages, Message.between i j m' = true) :
    Exchange.deliver voters i j ⟨s, [m]⟩ = some ⟨s.flush k n', n'.out.messages⟩ := by
  unfold Exchange.deliver
  dsimp only
  rw [hdst, exec_step hnet hdst hstep, Option.map_some, Exchange.after_flush hbetween]

theorem Exchange.deliver?_one (hdst : m.dst = k) {p : Prop} [Decidable p]
    (hstep : (s.host k).raft.step? m = if p then some n' else none)
    (hbetween : ∀ m' ∈ n'.out.messages, Message.between i j m' = true) :
    Exchange.deliver? i j ⟨s, [m]⟩ = if p then some ⟨s.flush k n', n'.out.messages⟩ else none := by
  unfold Exchange.deliver?
  dsimp only
  rw [hdst, hstep]
  split
  · rw [Option.map_some, Exchange.after_flush hbetween]
  · rfl

theorem Exchange.fits_flush : Exchange.Fits i ⟨s.flush i n', n'.out.messages⟩ ↔ n'.Fits := by
  unfold Exchange.Fits
  rw [Cluster.flush, Cluster.flushTo_self]
  rfl

theorem Move.cfg_eq {c : Call} {n₀ : RaftNode} (hm : Move c n₀ n n') : n'.cfg = n.cfg := by
  cases hm <;> first | rfl | simp [RaftNode.stand, RaftNode.resetElectionTimer]

theorem Moves.cfg_eq {c : Call} {n₀ : RaftNode} (hm : Moves c n₀ n n') : n'.cfg = n.cfg := by
  induction hm with
  | refl => rfl
  | tail _ hm ih => exact hm.cfg_eq.trans ih

theorem Exchange.deliver_cfg {x y : Exchange} (h : x.deliver voters i j = some y) (k : NodeId) :
    (y.cluster.host k).raft.cfg = (x.cluster.host k).raft.cfg := by
  unfold Exchange.deliver at h
  split at h
  · cases h
  · obtain ⟨t, ht, rfl⟩ := Option.map_eq_some_iff.1 h
    cases Cluster.exec_some ht with
    | @call _ _ n' _ hc =>
      have hcfg : n'.cfg = (x.cluster.host _).raft.cfg := Moves.cfg_eq (RaftNode.call_moves hc)
      exact forall_update (P := fun k h => h.raft.cfg = (x.cluster.host k).raft.cfg) hcfg (fun _ => rfl) k

theorem Cluster.flush_host (s : Cluster) (k : NodeId) (n : RaftNode) (hout : n.out.snapshot = none) :
    ((s.flush k n).host k).raft = { n with out := {} } ∧ ((s.flush k n).host k).base = (s.host k).base := by
  rw [Cluster.flush, Cluster.flushTo_self, hout]
  exact ⟨rfl, rfl⟩

theorem Cluster.flush_other (s : Cluster) {l : NodeId} (n : RaftNode) (h : l ≠ k) : (s.flush k n).host l = s.host l :=
  Function.update_of_ne h ..

end RaftKv

import RaftKv.Lib.OrdMap
import RaftKv.Raft.Log

/-!
# The Raft node state machine (crates/raft/src/node.rs)

| here | there |
| --- | --- |
| `Progress`, `RaftNode`    | `node.rs:12-44`, `node.rs:46-75`; `BTreeMap` is `OrdMap`, the RNG word is a `UInt64` |
| `RaftNode.new`            | `RaftNode::new` (`node.rs:80`); `none` when `RaftLog::new` panics |
| `advanceCommitTo`         | `advance_commit_to` (`node.rs:572`); its `debug_assert!` is the precondition `h` |
| `findNew`, `pushAll`      | the two loops of `handle_append_entries` (`node.rs:799-826`) |
| `handleAppendEntries`     | `node.rs:750-838`; `none` when one of its assertions panics |
| `step`                    | `node.rs:597-677`; `none` when the handler panics |
| `Call`, `RaftNode.call`   | the public entry points a host drives between two `take_output` calls |
| the rest                  | the method of the same name |

A method that mutates `self` is a function to the new node; `propose`, `propose_conf_change` and
`read_index` also return their `Result`. Sorting in descending order is `insertionSort (· ≥ ·)`:
the sorted values are plain numbers, so stability does not matter.
-/

namespace RaftKv

structure Progress where
  next : Nat
  matched : Nat
  inflight : Nat
  pendingSnapshot : Bool
  snapshotSentTick : Nat
  ackedReadCtx : Nat
  lastRespTick : Nat
deriving DecidableEq, Repr

def Progress.new (next : Nat) : Progress :=
  { next, matched := 0, inflight := 0, pendingSnapshot := false, snapshotSentTick := 0,
    ackedReadCtx := 0, lastRespTick := 0 }

structure RaftNode where
  cfg : Config
  log : RaftLog
  hs : HardState
  role : Role
  leaderId : Option NodeId
  commit : Nat
  snapshot : Option Snapshot
  votersBase : List NodeId
  electionElapsed : Nat
  randomizedTimeout : Nat
  heartbeatElapsed : Nat
  tickCounter : Nat
  votes : OrdMap NodeId Bool
  prs : OrdMap NodeId Progress
  readCtxCounter : Nat
  /-- `(ctx, request id, commit index at request time)` -/
  pendingReads : List (Nat × Nat × Nat)
  out : Output
  rng : UInt64
deriving DecidableEq

/-- One conf-change entry of the loop in `voters_at` (`node.rs:152-161`). -/
def ConfChange.apply (v : List NodeId) : ConfChange → List NodeId
  | .addNode id => if v.contains id then v else v ++ [id]
  | .removeNode id => v.filter (· ≠ id)

def Entry.applyConf (v : List NodeId) (e : Entry) : List NodeId :=
  match e.payload with
  | .confChange cc => cc.apply v
  | _ => v

def Entry.isConf (e : Entry) : Bool :=
  match e.payload with
  | .confChange _ => true
  | _ => false

namespace RaftNode

def isLeader (n : RaftNode) : Bool := n.role = .leader

/-- `voters_at` (`node.rs:146`): the loop stops at the first entry beyond `idx`. -/
def votersAt (n : RaftNode) (idx : Nat) : List NodeId :=
  (n.log.entries.takeWhile fun e => e.index ≤ idx).foldl Entry.applyConf n.votersBase

/-- `voters` (`node.rs:142`): the latest configuration in the log, committed or not. -/
def voters (n : RaftNode) : List NodeId := n.votersAt n.log.lastIndex

def quorum (n : RaftNode) : Nat := n.voters.length / 2 + 1

/-- `lease_valid` (`node.rs:174`). -/
def leaseValid (n : RaftNode) : Bool :=
  if n.role ≠ .leader then false
  else
    let ticks := n.voters.map fun v =>
      if v = n.cfg.id then n.tickCounter else ((n.prs.find? v).map Progress.lastRespTick).getD 0
    match (ticks.insertionSort (· ≥ ·))[n.quorum - 1]? with
    | none => false
    | some quorumTick => n.tickCounter - quorumTick < n.cfg.electionTickMin

def takeOutput (n : RaftNode) : Output × RaftNode := (n.out, { n with out := {} })

def pushMsg (n : RaftNode) (m : Message) : RaftNode :=
  { n with out := { n.out with messages := n.out.messages ++ [m] } }

def send (n : RaftNode) (dst : NodeId) (body : MessageBody) : RaftNode :=
  n.pushMsg { src := n.cfg.id, dst, term := n.hs.term, body }

/-! ## Hard state and timers -/

def setTerm (n : RaftNode) (term : Nat) : RaftNode :=
  if n.hs.term ≠ term then
    let hs := { n.hs with term }
    { n with hs, out := { n.out with hardState := some hs } }
  else n

def setVote (n : RaftNode) (v : Option NodeId) : RaftNode :=
  if n.hs.votedFor ≠ v then
    let hs := { n.hs with votedFor := v }
    { n with hs, out := { n.out with hardState := some hs } }
  else n

/-- `next_rand` (`node.rs:204`): one xorshift step, output scrambled by a multiplication. -/
def nextRand (rng : UInt64) : UInt64 × UInt64 :=
  let x := rng ^^^ (rng >>> 12)
  let x := x ^^^ (x <<< 25)
  let x := x ^^^ (x >>> 27)
  (x * 0x2545F4914F6CDD1D, x)

def resetElectionTimer (n : RaftNode) : RaftNode :=
  let span := Nat.max (n.cfg.electionTickMax - n.cfg.electionTickMin) 1
  let (r, rng) := nextRand n.rng
  { n with rng, randomizedTimeout := n.cfg.electionTickMin + r.toNat % span, electionElapsed := 0 }

def new (cfg : Config) (initialVoters : List NodeId) (persisted : Persisted) : Option RaftNode :=
  let (snapIndex, snapTerm, votersBase) := match persisted.snapshot with
    | some s => (s.lastIndex, s.lastTerm, s.voters)
    | none => (0, 0, initialVoters)
  (RaftLog.new snapIndex snapTerm persisted.entries).map fun log =>
    resetElectionTimer
      { cfg, log, hs := persisted.hardState, role := .follower, leaderId := none, commit := snapIndex,
        snapshot := persisted.snapshot, votersBase, electionElapsed := 0, randomizedTimeout := 0,
        heartbeatElapsed := 0, tickCounter := 0, votes := ∅, prs := ∅, readCtxCounter := 0,
        pendingReads := [], out := {},
        rng := (cfg.seed ^^^ (UInt64.ofNat cfg.id * 0x9E3779B97F4A7C15)) ||| 1 }

/-- A node that starts with nothing on disk. -/
def fresh (cfg : Config) (initialVoters : List NodeId) : RaftNode :=
  resetElectionTimer
    { cfg, log := RaftLog.resetToSnapshot 0 0, hs := {}, role := .follower, leaderId := none, commit := 0,
      snapshot := none, votersBase := initialVoters, electionElapsed := 0, randomizedTimeout := 0,
      heartbeatElapsed := 0, tickCounter := 0, votes := ∅, prs := ∅, readCtxCounter := 0,
      pendingReads := [], out := {},
      rng := (cfg.seed ^^^ (UInt64.ofNat cfg.id * 0x9E3779B97F4A7C15)) ||| 1 }

theorem new_empty (cfg : Config) (initialVoters : List NodeId) :
    new cfg initialVoters {} = some (fresh cfg initialVoters) := rfl

/-! ## Replication, leader side -/

/-- `sync_progress_with_voters` (`node.rs:376`). -/
def syncProgressWithVoters (n : RaftNode) : RaftNode :=
  if n.role ≠ .leader then n
  else
    let next := n.log.lastIndex + 1
    let voters := n.voters
    let prs := voters.foldl (fun prs peer =>
      if peer ≠ n.cfg.id ∧ (prs.find? peer).isNone then prs.insert peer (Progress.new next) else prs) n.prs
    { n with prs := prs.filter fun id _ => voters.contains id }

/-- `send_append` (`node.rs:475`). -/
def sendAppend (n : RaftNode) (peer : NodeId) : RaftNode :=
  match n.prs.find? peer with
  | none => n
  | some pr =>
    if pr.pendingSnapshot ∧ n.tickCounter - pr.snapshotSentTick < n.cfg.electionTickMin then n
    else
      let pr := { pr with pendingSnapshot := false }
      if pr.next ≤ n.log.snapIndex then
        match n.snapshot with
        | some snap =>
          let pr := { pr with pendingSnapshot := true, snapshotSentTick := n.tickCounter }
          { n with prs := n.prs.insert peer pr }.send peer (.installSnapshot snap)
        | none => { n with prs := n.prs.insert peer pr }
      else
        let prev := pr.next - 1
        match n.log.term prev with
        | none => { n with prs := n.prs.insert peer pr }
        | some prevTerm =>
          let entries := n.log.slice pr.next n.cfg.maxBatchEntries
          -- a full window still heartbeats, and decays one slot
          let full := !entries.isEmpty && decide (pr.inflight ≥ n.cfg.maxInflight)
          let entries := if full then [] else entries
          let pr := if full then { pr with inflight := pr.inflight - 1 } else pr
          let pr := if entries.length > 0 then
            { pr with next := pr.next + entries.length, inflight := pr.inflight + 1 } else pr
          { n with prs := n.prs.insert peer pr }.send peer
            (.appendEntries prev prevTerm entries n.commit n.readCtxCounter)

/-- `broadcast_append` (`node.rs:467`). -/
def broadcastAppend (n : RaftNode) : RaftNode :=
  let n := n.syncProgressWithVoters
  n.prs.keys.foldl sendAppend n

def becomeFollower (n : RaftNode) (term : Nat) (leader : Option NodeId) : RaftNode :=
  let n := if term > n.hs.term then (n.setTerm term).setVote none else n
  resetElectionTimer { n with role := .follower, leaderId := leader, prs := ∅, pendingReads := [] }

/-- The entries `advance_commit_to` hands out: the `log.get` hits in `old + 1 ..= new_commit`. -/
def newlyCommitted (n : RaftNode) (newCommit : Nat) : List Entry :=
  (List.range' (n.commit + 1) (newCommit - n.commit)).filterMap n.log.get

/-- `advance_commit_to` (`node.rs:572`): a leader that commits its own removal steps down. -/
def advanceCommitTo (n : RaftNode) (newCommit : Nat) (_h : n.commit ≤ newCommit) : RaftNode :=
  let es := n.newlyCommitted newCommit
  let steppedDown := es.any fun e =>
    decide (e.payload = .confChange (.removeNode n.cfg.id)) && n.isLeader
  let n := { n with commit := newCommit, out := { n.out with committed := n.out.committed ++ es } }
  if steppedDown then n.becomeFollower n.hs.term none else n

/-- What `maybe_advance_commit` sorts (`node.rs:550-559`). -/
def matchIndexes (n : RaftNode) : List Nat :=
  n.voters.map fun v =>
    if v = n.cfg.id then n.log.lastIndex else ((n.prs.find? v).map Progress.matched).getD 0

/-- `maybe_advance_commit` (`node.rs:545`): only entries of the current term are counted. -/
def maybeAdvanceCommit (n : RaftNode) : RaftNode :=
  if n.role ≠ .leader then n
  else match (n.matchIndexes.insertionSort (· ≥ ·))[n.quorum - 1]? with
    | none => n
    | some candidate =>
      if h : n.commit < candidate ∧ n.log.term candidate = some n.hs.term then
        n.advanceCommitTo candidate (Nat.le_of_lt h.1)
      else n

/-- `append_local` (`node.rs:390`): the pushed entry has the next index by construction. -/
def appendLocal (n : RaftNode) (payload : EntryPayload) : Nat × RaftNode :=
  let idx := n.log.lastIndex + 1
  let e : Entry := { term := n.hs.term, index := idx, payload }
  let n := { n with log := n.log.push e rfl, out := { n.out with append := n.out.append ++ [e] } }
  (idx, n.maybeAdvanceCommit.broadcastAppend)

/-! ## Elections -/

def countGranted (n : RaftNode) : Nat :=
  let voters := n.voters
  (n.votes.toList.filter fun p => p.2 && voters.contains p.1).length

def logUpToDate (n : RaftNode) (lastLogIndex lastLogTerm : Nat) : Bool :=
  decide (n.log.lastTerm < lastLogTerm ∨
    (n.log.lastTerm = lastLogTerm ∧ n.log.lastIndex ≤ lastLogIndex))

/-- `become_leader` (`node.rs:328`). -/
def becomeLeader (n : RaftNode) : RaftNode :=
  let next := n.log.lastIndex + 1
  let prs := n.voters.foldl (fun prs peer =>
    if peer ≠ n.cfg.id then prs.insert peer (Progress.new next) else prs) ∅
  let n := { n with role := .leader, leaderId := some n.cfg.id, heartbeatElapsed := 0, prs,
                    pendingReads := [], readCtxCounter := 0 }
  (n.appendLocal .noop).2.broadcastAppend

/-- The vote-request loop shared by `campaign_pre` and `campaign`. -/
def requestVotes (n : RaftNode) (term : Nat) (body : MessageBody) : RaftNode :=
  n.voters.foldl (fun m peer =>
    if peer = n.cfg.id then m else m.pushMsg { src := n.cfg.id, dst := peer, term, body }) n

/-- `campaign` (`node.rs:276`). -/
def campaign (n : RaftNode) : RaftNode :=
  let n := (n.setTerm (n.hs.term + 1)).setVote (some n.cfg.id)
  let n := { n with role := .candidate, leaderId := none, votes := OrdMap.insert ∅ n.cfg.id true }
  if n.countGranted ≥ n.quorum then n.becomeLeader
  else n.requestVotes n.hs.term (.requestVote n.log.lastIndex n.log.lastTerm)

/-- `campaign_pre` (`node.rs:251`): asks at the prospective term, which is not persisted. -/
def campaignPre (n : RaftNode) : RaftNode :=
  let n := { n with role := .preCandidate, votes := OrdMap.insert ∅ n.cfg.id true }
  if n.countGranted ≥ n.quorum then n.campaign
  else n.requestVotes (n.hs.term + 1) (.preVote n.log.lastIndex n.log.lastTerm)

/-- `tick` (`node.rs:222`): a node outside its own voter set never campaigns. -/
def tick (n : RaftNode) : RaftNode :=
  let n := { n with tickCounter := n.tickCounter + 1 }
  if n.role = .leader then
    let n := { n with heartbeatElapsed := n.heartbeatElapsed + 1 }
    if n.heartbeatElapsed ≥ n.cfg.heartbeatTick then { n with heartbeatElapsed := 0 }.broadcastAppend else n
  else
    let n := { n with electionElapsed := n.electionElapsed + 1 }
    if n.electionElapsed ≥ n.randomizedTimeout then
      let n := n.resetElectionTimer
      if n.voters.contains n.cfg.id then
        if n.cfg.preVote then n.campaignPre else n.campaign
      else n
    else n

/-! ## Proposals and reads -/

def propose (n : RaftNode) (data : Bytes) : Except ProposeError Nat × RaftNode :=
  if n.role ≠ .leader then (.error (.notLeader n.leaderId), n)
  else
    let (idx, n) := n.appendLocal (.normal data)
    (.ok idx, n)

/-- `propose_conf_change` (`node.rs:356`): refused while a conf entry above `commit` is in the log. -/
def proposeConfChange (n : RaftNode) (cc : ConfChange) : Except ProposeError Nat × RaftNode :=
  if n.role ≠ .leader then (.error (.notLeader n.leaderId), n)
  else if n.log.entries.any fun e => decide (e.index > n.commit) && e.isConf then
    (.error .confChangeInFlight, n)
  else
    let (idx, n) := n.appendLocal (.confChange cc)
    (.ok idx, n.syncProgressWithVoters)

def releaseReads (n : RaftNode) (upToCtx : Nat) : RaftNode :=
  let released := (n.pendingReads.filter fun r => r.1 ≤ upToCtx).map fun r => (r.2.1, r.2.2)
  { n with pendingReads := n.pendingReads.filter fun r => ¬ r.1 ≤ upToCtx
           out := { n.out with readStates := n.out.readStates ++ released } }

/-- `read_index` (`node.rs:407`). -/
def readIndex (n : RaftNode) (requestId : Nat) : Except ProposeError Unit × RaftNode :=
  if n.role ≠ .leader then (.error (.notLeader n.leaderId), n)
  else if n.log.term n.commit ≠ some n.hs.term then (.error .notReady, n)
  else
    let ctx := n.readCtxCounter + 1
    let n := { n with readCtxCounter := ctx, pendingReads := n.pendingReads ++ [(ctx, requestId, n.commit)] }
    if n.quorum = 1 then (.ok (), n.releaseReads ctx) else (.ok (), n.broadcastAppend)

/-- What `process_read_acks` sorts (`node.rs:445-454`). -/
def readAcks (n : RaftNode) : List Nat :=
  n.voters.map fun v =>
    if v = n.cfg.id then n.readCtxCounter else ((n.prs.find? v).map Progress.ackedReadCtx).getD 0

/-- `process_read_acks` (`node.rs:440`). -/
def processReadAcks (n : RaftNode) : RaftNode :=
  if n.pendingReads.isEmpty then n
  else match (n.readAcks.insertionSort (· ≥ ·))[n.quorum - 1]? with
    | none => n
    | some quorumCtx => if quorumCtx > 0 then n.releaseReads quorumCtx else n

/-! ## Message handlers -/

/-- `handle_pre_vote` (`node.rs:679`). -/
def handlePreVote (n : RaftNode) (src : NodeId) (term lastLogIndex lastLogTerm : Nat) : RaftNode :=
  let leaderAlive := n.leaderId.isSome && decide (n.electionElapsed < n.cfg.electionTickMin)
  let granted := decide (term > n.hs.term) && n.logUpToDate lastLogIndex lastLogTerm && !leaderAlive
  n.pushMsg { src := n.cfg.id, dst := src, term := if granted then term else n.hs.term,
              body := .preVoteResp granted }

/-- `handle_pre_vote_resp` (`node.rs:705`). -/
def handlePreVoteResp (n : RaftNode) (src : NodeId) (term : Nat) (granted : Bool) : RaftNode :=
  if !granted then
    if term > n.hs.term then n.becomeFollower term none else n
  else if n.role ≠ .preCandidate ∨ term ≠ n.hs.term + 1 then n
  else
    let n := { n with votes := n.votes.insert src true }
    if n.countGranted ≥ n.quorum then n.campaign else n

/-- `handle_request_vote` (`node.rs:725`). -/
def handleRequestVote (n : RaftNode) (src : NodeId) (lli llt : Nat) : RaftNode :=
  let canVote := decide (n.hs.votedFor = none ∨ n.hs.votedFor = some src)
  let granted := canVote && n.logUpToDate lli llt
  let n := if granted then (n.setVote (some src)).resetElectionTimer else n
  n.send src (.requestVoteResp granted)

/-- `handle_request_vote_resp` (`node.rs:740`). -/
def handleRequestVoteResp (n : RaftNode) (src : NodeId) (granted : Bool) : RaftNode :=
  if n.role ≠ .candidate then n
  else
    let n := { n with votes := n.votes.insert src granted }
    if n.countGranted ≥ n.quorum then n.becomeLeader else n

def replyAppend (n : RaftNode) (dst : NodeId) (success : Bool) (matchIndex conflictIndex readCtx : Nat) :
    RaftNode :=
  n.send dst (.appendEntriesResp success matchIndex conflictIndex readCtx)

/-- The hint loop of a term conflict (`node.rs:789-794`). -/
def conflictHint (log : RaftLog) (t : Nat) : Nat → Nat
  | 0 => 0
  | c + 1 => if c + 1 > log.firstIndex ∧ log.term c = some t then conflictHint log t c else c + 1

/-- `for (i, e) in entries.iter().enumerate()` (`node.rs:800-823`): skip what the log already holds,
truncate at the first conflict; `none` is the failed `assert!` or the `panic!` of `truncate_from`. -/
def findNew (log : RaftLog) (commit : Nat) : List Entry → Option (RaftLog × List Entry)
  | [] => some (log, [])
  | e :: es =>
    match log.term e.index with
    | some t =>
      if t = e.term then findNew log commit es
      else if h : commit < e.index ∧ log.snapIndex < e.index then
        some (log.truncateFrom e.index h.2, e :: es)
      else none
    | none => some (log, e :: es)

/-- `for e in &to_append { self.log.push(e.clone()) }`. -/
def pushAll (log : RaftLog) : List Entry → Option RaftLog
  | [] => some log
  | e :: es => if h : e.index = log.lastIndex + 1 then pushAll (log.push e h) es else none

/-- The accepting branch (`node.rs:797-836`). -/
def acceptEntries (n : RaftNode) (src : NodeId) (prevIdx : Nat) (entries : List Entry)
    (leaderCommit readCtx : Nat) : Option RaftNode := do
  let (log, toAppend) ← findNew n.log n.commit entries
  let log ← pushAll log toAppend
  let n := { n with log, out := { n.out with append := n.out.append ++ toAppend } }
  let newLast := prevIdx + entries.length
  let commitTarget := Nat.min leaderCommit newLast
  let n := if h : n.commit < commitTarget then n.advanceCommitTo commitTarget (Nat.le_of_lt h) else n
  return n.replyAppend src true newLast 0 readCtx

/-- The consistency check at `prev` (`node.rs:780-837`). -/
def checkPrev (n : RaftNode) (src : NodeId) (prevIdx prevTerm : Nat) (entries : List Entry)
    (leaderCommit readCtx : Nat) : Option RaftNode :=
  match n.log.term prevIdx with
  | none => some (n.replyAppend src false 0 (n.log.lastIndex + 1) readCtx)
  | some t =>
    if t ≠ prevTerm then some (n.replyAppend src false 0 (conflictHint n.log t prevIdx) readCtx)
    else n.acceptEntries src prevIdx entries leaderCommit readCtx

/-- `handle_append_entries` (`node.rs:750`): entries at or below the snapshot base are skipped. -/
def handleAppendEntries (n : RaftNode) (src : NodeId) (prevLogIndex prevLogTerm : Nat)
    (entries : List Entry) (leaderCommit readCtx : Nat) : Option RaftNode :=
  let n := { n with role := .follower, leaderId := some src, electionElapsed := 0 }
  if prevLogIndex < n.log.snapIndex then
    let covered := n.log.snapIndex - prevLogIndex
    if covered ≥ entries.length then some (n.replyAppend src true n.log.snapIndex 0 readCtx)
    else n.checkPrev src n.log.snapIndex n.log.snapTerm (entries.drop covered) leaderCommit readCtx
  else n.checkPrev src prevLogIndex prevLogTerm entries leaderCommit readCtx

/-- `handle_append_resp` (`node.rs:861`). -/
def handleAppendResp (n : RaftNode) (src : NodeId) (success : Bool)
    (matchIndex conflictIndex readCtx : Nat) : RaftNode :=
  if n.role ≠ .leader then n
  else match n.prs.find? src with
    | none => n
    | some pr =>
      let lastIndex := n.log.lastIndex
      let pr := { pr with lastRespTick := n.tickCounter, ackedReadCtx := Nat.max pr.ackedReadCtx readCtx }
      if success then
        let pr := { pr with matched := if matchIndex > pr.matched then matchIndex else pr.matched
                            next := Nat.max pr.next (matchIndex + 1)
                            inflight := pr.inflight - 1 }
        let n := { n with prs := n.prs.insert src pr }.maybeAdvanceCommit.processReadAcks
        if ((n.prs.find? src).map fun p => decide (p.next ≤ lastIndex)).getD false then n.sendAppend src else n
      else if conflictIndex > 0 then
        let pr := { pr with next := Nat.min (Nat.max conflictIndex 1) (lastIndex + 1), inflight := 0 }
        { n with prs := n.prs.insert src pr }.sendAppend src
      else { n with prs := n.prs.insert src pr }

/-- `handle_install_snapshot` (`node.rs:903`): stale, prefix of our log, or reset. -/
def handleInstallSnapshot (n : RaftNode) (src : NodeId) (snapshot : Snapshot) : RaftNode :=
  let n := { n with role := .follower, leaderId := some src, electionElapsed := 0 }
  if h : snapshot.lastIndex ≤ n.commit then n.send src (.installSnapshotResp n.commit)
  else if n.log.term snapshot.lastIndex = some snapshot.lastTerm then
    (n.advanceCommitTo snapshot.lastIndex (Nat.le_of_lt (Nat.lt_of_not_le h))).send src
      (.installSnapshotResp snapshot.lastIndex)
  else
    { n with log := RaftLog.resetToSnapshot snapshot.lastIndex snapshot.lastTerm
             commit := snapshot.lastIndex, votersBase := snapshot.voters, snapshot := some snapshot
             out := { n.out with snapshot := some snapshot } }.send src
      (.installSnapshotResp snapshot.lastIndex)

/-- `handle_install_snapshot_resp` (`node.rs:956`). -/
def handleInstallSnapshotResp (n : RaftNode) (src : NodeId) (lastIndex : Nat) : RaftNode :=
  if n.role ≠ .leader then n
  else match n.prs.find? src with
    | none => n
    | some pr =>
      let pr := { pr with pendingSnapshot := false
                          lastRespTick := n.tickCounter
                          matched := if lastIndex > pr.matched then lastIndex else pr.matched
                          next := Nat.max pr.next (lastIndex + 1)
                          inflight := 0 }
      { n with prs := n.prs.insert src pr }.maybeAdvanceCommit.sendAppend src

/-- The handlers reached at the node's own term (`node.rs:641-676`). -/
def dispatch (n : RaftNode) (msg : Message) : Option RaftNode :=
  match msg.body with
  | .requestVote lli llt => some (n.handleRequestVote msg.src lli llt)
  | .requestVoteResp granted => some (n.handleRequestVoteResp msg.src granted)
  | .appendEntries prev prevTerm entries leaderCommit readCtx =>
    n.handleAppendEntries msg.src prev prevTerm entries leaderCommit readCtx
  | .appendEntriesResp success matchIndex conflictIndex readCtx =>
    some (n.handleAppendResp msg.src success matchIndex conflictIndex readCtx)
  | .installSnapshot snapshot => some (n.handleInstallSnapshot msg.src snapshot)
  | .installSnapshotResp lastIndex => some (n.handleInstallSnapshotResp msg.src lastIndex)
  | .preVote lli llt => some (n.handlePreVote msg.src msg.term lli llt)
  | .preVoteResp granted => some (n.handlePreVoteResp msg.src msg.term granted)

/-- The reply to a sender with a stale term (`node.rs:612-638`). -/
def answerStale (n : RaftNode) (msg : Message) : RaftNode :=
  match msg.body with
  | .appendEntries _ _ _ _ readCtx => n.send msg.src (.appendEntriesResp false 0 0 readCtx)
  | .requestVote _ _ => n.send msg.src (.requestVoteResp false)
  | _ => n

/-- The leader a message of a higher term announces (`node.rs:605-610`). -/
def announcedLeader (msg : Message) : Option NodeId :=
  match msg.body with
  | .appendEntries .. | .installSnapshot _ => some msg.src
  | _ => none

def isPreVote : MessageBody → Bool
  | .preVote _ _ | .preVoteResp _ => true
  | _ => false

/-- `step` (`node.rs:597`): pre-vote traffic never moves the term. -/
def step (n : RaftNode) (msg : Message) : Option RaftNode :=
  if isPreVote msg.body then n.dispatch msg
  else if msg.term > n.hs.term then (n.becomeFollower msg.term (announcedLeader msg)).dispatch msg
  else if msg.term < n.hs.term then some (n.answerStale msg)
  else n.dispatch msg

/-- `compact` (`node.rs:979`). -/
def compact (n : RaftNode) (applied : Nat) (smData : Bytes) : Option Snapshot × RaftNode :=
  if applied ≤ n.log.snapIndex ∨ applied > n.commit then (none, n)
  else match n.log.term applied with
    | none => (none, n)
    | some term =>
      let voters := n.votersAt applied
      let snap : Snapshot := { lastIndex := applied, lastTerm := term, voters, data := smData }
      (some snap, { n with votersBase := voters, log := n.log.compact applied term, snapshot := some snap })

end RaftNode

/-- The calls a host may make before it drains the output. -/
inductive Call where
  | tick
  | step (msg : Message)
  | propose (data : Bytes)
  | proposeConfChange (cc : ConfChange)
  | readIndex (requestId : Nat)
deriving DecidableEq, Repr

def RaftNode.call (n : RaftNode) : Call → Option RaftNode
  | .tick => some n.tick
  | .step msg => n.step msg
  | .propose data => some (n.propose data).2
  | .proposeConfChange cc => some (n.proposeConfChange cc).2
  | .readIndex requestId => some (n.readIndex requestId).2

end RaftKv

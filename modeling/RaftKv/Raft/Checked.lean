import RaftKv.Lib.Checked
import RaftKv.Raft.Node

/-!
# The model with its panics

The model of `log.rs` and `node.rs` again, now with every operation of the source that can panic
tested where the source performs it: the assertions, the `panic!` of `truncate_from`, the
`unreachable!` arms, each index and slice, each unsigned subtraction and the sum `start + max` of
`slice`. `f?` is `f` with these tests, `none` is a panic. The lemma `f?_eq` says that `f?` is `f`: the
tests that fail on some states are those for which `f` itself has a `none`. Where a batch is sent,
this is so for a `max_batch_entries` up to `2 ^ 63`.

| here | there |
| --- | --- |
| `RaftLog.offset?`                  | `(idx - self.snap_index - 1) as usize` in `term`, `get`, `slice` and `truncate_from` |
| `RaftLog.slice?`                   | `start + max` as well (`log.rs:75`) |
| `RaftLog.push?`, `truncateFrom?`, `compact?` | the checks of `log.rs:80-104`; `RaftLog.new` is `assert_contiguous` |
| `resetElectionTimer?`              | `election_tick_max - election_tick_min` and `% span` (`node.rs:214-216`) |
| `quorumValue?`                     | `ticks[q - 1]`, `acks[q - 1]`, `matches[q - 1]` behind their length checks (`node.rs:189-194`, `455-458`, `560-565`) |
| `sendAppend?`                      | `pr.next - 1` (`node.rs:510`) |
| `advanceCommitTo?`                 | `debug_assert!(new_commit >= self.commit)` (`node.rs:573`) |
| `conflictHint?`, `findNew?`        | `conflict - 1`, the overwrite `assert!` and `entries[i..]` (`node.rs:789-823`) |
| `handleAppendEntries?`             | `snap_index - prev_idx` and `entries.drain(..covered)` (`node.rs:769-778`) |
| `handlePreVote?`, `handlePreVoteResp?`, `dispatch?` | the `unreachable!` arms (`node.rs:675`, `685`, `708`) |

A function of the source in which nothing can panic is used as it is. The additions of `1` to an
index, a term or a counter are unbounded, as everywhere in this model, and the saturating
subtractions of the source are those of `Nat`.
-/

namespace RaftKv

/-! ## The log -/

namespace RaftLog

variable (l : RaftLog)

/-- `idx - self.snap_index - 1`, the position of `idx` in `entries`. -/
def offset? (idx : Nat) : Option Nat := do
  let i ← checkedSub idx l.snapIndex
  checkedSub i 1

def term? (idx : Nat) : Option (Option Nat) :=
  if idx = l.snapIndex then some (some l.snapTerm)
  else if idx < l.snapIndex ∨ idx > l.lastIndex then some none
  else do
    let i ← l.offset? idx
    let e ← l.entries[i]?
    return some e.term

def get? (idx : Nat) : Option (Option Entry) :=
  if idx ≤ l.snapIndex ∨ idx > l.lastIndex then some none
  else do
    let i ← l.offset? idx
    let e ← l.entries[i]?
    return some e

def slice? (start max : Nat) : Option (List Entry) :=
  let start := Nat.max start l.firstIndex
  if start > l.lastIndex then some []
  else do
    let first ← l.offset? start
    let stop ← checkedShift first max
    checkedSlice l.entries first (Nat.min stop l.entries.length)

def push? (e : Entry) : Option RaftLog := if h : e.index = l.lastIndex + 1 then some (l.push e h) else none

def truncateFrom? (idx : Nat) : Option RaftLog :=
  if idx ≤ l.snapIndex then none
  else do
    let keep ← l.offset? idx
    return { l with
      entries := l.entries.take (Nat.min keep l.entries.length)
      contiguous := fun i x hx => l.contiguous i x (by
        rw [List.getElem?_take] at hx; split at hx
        · exact hx
        · cases hx) }

def compact? (idx term : Nat) : Option RaftLog :=
  if idx ≤ l.snapIndex then some l
  else do
    let covered ← checkedSub idx l.snapIndex
    let entries ← checkedDrain l.entries (Nat.min covered l.entries.length)
    RaftLog.new idx term entries

variable {l}

theorem offset?_eq {idx : Nat} (h : l.snapIndex < idx) : l.offset? idx = some (idx - l.snapIndex - 1) := by
  unfold offset?
  rw [checkedSub_of_le (le_of_lt h)]
  exact checkedSub_of_le (by omega)

/-- An index between the base and the end of the log points into `entries`. -/
theorem getElem?_of_between {idx : Nat} (h : l.snapIndex < idx) (h' : idx ≤ l.lastIndex) :
    ∃ e, l.entries[idx - l.snapIndex - 1]? = some e := by
  rw [lastIndex] at h'
  exact ⟨_, List.getElem?_eq_getElem (by omega)⟩

theorem term?_eq (idx : Nat) : l.term? idx = some (l.term idx) := by
  unfold term? term
  split
  · rfl
  · split
    · rfl
    · have hlt : l.snapIndex < idx := by omega
      obtain ⟨e, he⟩ := getElem?_of_between hlt (by omega)
      simp [offset?_eq hlt, he]

theorem get?_eq (idx : Nat) : l.get? idx = some (l.get idx) := by
  unfold get? get
  split
  · rfl
  · have hlt : l.snapIndex < idx := by omega
    obtain ⟨e, he⟩ := getElem?_of_between hlt (by omega)
    simp [offset?_eq hlt, he]

/-- Only the sum can fail. -/
theorem slice?_eq_shift {start max : Nat} (hle : Nat.max start l.firstIndex ≤ l.lastIndex) :
    l.slice? start max =
      (checkedShift (Nat.max start l.firstIndex - l.snapIndex - 1) max).map fun _ => l.slice start max := by
  have hlo : l.snapIndex < Nat.max start l.firstIndex := Nat.le_max_right _ _
  unfold slice? slice checkedShift
  rw [if_neg (not_lt.2 hle), if_neg (not_lt.2 hle), offset?_eq hlo, Option.bind_eq_bind, Option.bind_some]
  split
  · rfl
  · rw [lastIndex] at hle
    rw [Option.bind_some, Option.map_some, checkedSlice_of_le (Nat.le_min.2 ⟨by omega, by omega⟩)
      (min_le_right _ _), ← List.take_eq_take_min, List.drop_take, Nat.add_sub_cancel_left]

theorem slice?_past {start max : Nat} (h : l.lastIndex < Nat.max start l.firstIndex) :
    l.slice? start max = some (l.slice start max) := by
  unfold slice? slice
  rw [if_pos h, if_pos h]

theorem slice?_eq (start : Nat) {max : Nat} (h : max ≤ 2 ^ 63) : l.slice? start max = some (l.slice start max) := by
  rcases lt_or_ge l.lastIndex (Nat.max start l.firstIndex) with hpast | hle
  · exact slice?_past hpast
  · rw [slice?_eq_shift hle, checkedShift_of_le h]; rfl

/-- The slice behind a batch after `prev`, of a log that fits into a `Vec`. -/
theorem slice?_after {prev max : Nat} (hlo : l.snapIndex ≤ prev) (hvec : l.entries.length ≤ 2 ^ 63) :
    l.slice? (prev + 1) max =
      if prev < l.lastIndex → prev - l.snapIndex + max < 2 ^ 64 then some (l.slice (prev + 1) max) else none := by
  have hstart : Nat.max (prev + 1) l.firstIndex = prev + 1 := Nat.max_eq_left (Nat.succ_le_succ hlo)
  rcases lt_or_ge prev l.lastIndex with hlt | hge
  · rw [slice?_eq_shift (by rw [hstart]; exact hlt), hstart,
      show prev + 1 - l.snapIndex - 1 = prev - l.snapIndex by omega,
      checkedShift_of_lt (by rw [lastIndex] at hlt; omega)]
    by_cases hfit : prev - l.snapIndex + max < 2 ^ 64
    · rw [if_pos hfit, if_pos fun _ => hfit]; rfl
    · rw [if_neg hfit, if_neg fun h => hfit (h hlt)]; rfl
  · rw [slice?_past (by rw [hstart]; exact Nat.lt_succ_of_le hge), if_pos fun h => absurd h (not_lt.2 hge)]

theorem push?_next {e : Entry} (h : e.index = l.lastIndex + 1) : l.push? e = some (l.push e h) := dif_pos h

theorem truncateFrom?_eq {idx : Nat} (h : l.snapIndex < idx) : l.truncateFrom? idx = some (l.truncateFrom idx h) := by
  unfold truncateFrom?
  rw [if_neg (by omega), offset?_eq h]
  refine congrArg some (ext_fields rfl rfl ?_)
  exact (List.take_eq_take_min ..).symm

/-- The entries `compact` keeps are contiguous from the new base. -/
theorem compact?_eq (idx term : Nat) : l.compact? idx term = some (l.compact idx term) := by
  unfold compact?
  split
  · rename_i h
    rw [compact, dif_pos h]
  · rename_i h
    have hdrop : l.entries.drop (Nat.min (idx - l.snapIndex) l.entries.length) = l.entries.drop (idx - l.snapIndex) :=
      List.drop_eq_drop_min.symm
    have hc := (l.compact idx term).contiguous
    obtain ⟨h1, h2, h3⟩ := compact_eq term (Nat.lt_of_not_le h)
    rw [h1, h3] at hc
    rw [checkedSub_of_le (by omega), Option.bind_eq_bind, Option.bind_some, checkedDrain_of_le (min_le_right _ _),
      Option.bind_eq_bind, Option.bind_some, hdrop, new_contiguous (isContiguous_iff.2 hc)]
    exact congrArg some (ext_fields h1.symm h2.symm h3.symm)

end RaftLog

/-- Batches of this size never overflow in `slice`. -/
def Config.Roomy (cfg : Config) : Prop := cfg.maxBatchEntries ≤ 2 ^ 63

/-! ## The node -/

namespace RaftNode

variable (n : RaftNode)

def resetElectionTimer? : Option RaftNode := do
  let d ← checkedSub n.cfg.electionTickMax n.cfg.electionTickMin
  let span := Nat.max d 1
  let (r, rng) := nextRand n.rng
  let jitter ← checkedMod r.toNat span
  return { n with rng, randomizedTimeout := n.cfg.electionTickMin + jitter, electionElapsed := 0 }

def new? (cfg : Config) (initialVoters : List NodeId) (persisted : Persisted) : Option RaftNode := do
  let (snapIndex, snapTerm, votersBase) := match persisted.snapshot with
    | some s => (s.lastIndex, s.lastTerm, s.voters)
    | none => (0, 0, initialVoters)
  let log ← RaftLog.new snapIndex snapTerm persisted.entries
  resetElectionTimer?
    { cfg, log, hs := persisted.hardState, role := .follower, leaderId := none, commit := snapIndex,
      snapshot := persisted.snapshot, votersBase, electionElapsed := 0, randomizedTimeout := 0,
      heartbeatElapsed := 0, tickCounter := 0, votes := ∅, prs := ∅, readCtxCounter := 0,
      pendingReads := [], out := {},
      rng := (cfg.seed ^^^ (UInt64.ofNat cfg.id * 0x9E3779B97F4A7C15)) ||| 1 }

/-- Sort in descending order, give up when there are fewer than `q` values, take `[q - 1]`. -/
def quorumValue? (values : List Nat) : Option (Option Nat) :=
  let values := values.insertionSort (· ≥ ·)
  let q := n.quorum
  if values.length < q then some none
  else do
    let i ← checkedSub q 1
    let x ← values[i]?
    return some x

def leaseValid? : Option Bool :=
  if n.role ≠ .leader then some false
  else do
    let ticks := n.voters.map fun v =>
      if v = n.cfg.id then n.tickCounter else ((n.prs.find? v).map Progress.lastRespTick).getD 0
    match ← n.quorumValue? ticks with
    | none => return false
    | some quorumTick => return n.tickCounter - quorumTick < n.cfg.electionTickMin

def sendAppend? (peer : NodeId) : Option RaftNode :=
  match n.prs.find? peer with
  | none => some n
  | some pr =>
    if pr.pendingSnapshot ∧ n.tickCounter - pr.snapshotSentTick < n.cfg.electionTickMin then some n
    else
      let pr := { pr with pendingSnapshot := false }
      if pr.next ≤ n.log.snapIndex then
        match n.snapshot with
        | some snap =>
          let pr := { pr with pendingSnapshot := true, snapshotSentTick := n.tickCounter }
          some ({ n with prs := n.prs.insert peer pr }.send peer (.installSnapshot snap))
        | none => some { n with prs := n.prs.insert peer pr }
      else do
        let prev ← checkedSub pr.next 1
        match ← n.log.term? prev with
        | none => return { n with prs := n.prs.insert peer pr }
        | some prevTerm =>
          let entries ← n.log.slice? pr.next n.cfg.maxBatchEntries
          let full := !entries.isEmpty && decide (pr.inflight ≥ n.cfg.maxInflight)
          let entries := if full then [] else entries
          let pr := if full then { pr with inflight := pr.inflight - 1 } else pr
          let pr := if entries.length > 0 then
            { pr with next := pr.next + entries.length, inflight := pr.inflight + 1 } else pr
          return { n with prs := n.prs.insert peer pr }.send peer
            (.appendEntries prev prevTerm entries n.commit n.readCtxCounter)

def broadcastAppend? : Option RaftNode :=
  let n := n.syncProgressWithVoters
  n.prs.keys.foldlM sendAppend? n

def becomeFollower? (term : Nat) (leader : Option NodeId) : Option RaftNode :=
  let n := if term > n.hs.term then (n.setTerm term).setVote none else n
  resetElectionTimer? { n with role := .follower, leaderId := leader, prs := ∅, pendingReads := [] }

def advanceCommitTo? (newCommit : Nat) : Option RaftNode := do
  checkedAssert (newCommit ≥ n.commit)
  let hits ← (List.range' (n.commit + 1) (newCommit - n.commit)).mapM n.log.get?
  let es := hits.filterMap id
  let steppedDown := es.any fun e =>
    decide (e.payload = .confChange (.removeNode n.cfg.id)) && n.isLeader
  let n := { n with commit := newCommit, out := { n.out with committed := n.out.committed ++ es } }
  if steppedDown then n.becomeFollower? n.hs.term none else return n

def maybeAdvanceCommit? : Option RaftNode :=
  if n.role ≠ .leader then some n
  else do
    match ← n.quorumValue? n.matchIndexes with
    | none => return n
    | some candidate =>
      if candidate > n.commit then
        if (← n.log.term? candidate) = some n.hs.term then n.advanceCommitTo? candidate else return n
      else return n

def appendLocal? (payload : EntryPayload) : Option (Nat × RaftNode) := do
  let idx := n.log.lastIndex + 1
  let e : Entry := { term := n.hs.term, index := idx, payload }
  let log ← n.log.push? e
  let n := { n with log, out := { n.out with append := n.out.append ++ [e] } }
  let n ← n.maybeAdvanceCommit?
  let n ← n.broadcastAppend?
  return (idx, n)

def becomeLeader? : Option RaftNode := do
  let next := n.log.lastIndex + 1
  let prs := n.voters.foldl (fun prs peer =>
    if peer ≠ n.cfg.id then prs.insert peer (Progress.new next) else prs) ∅
  let n := { n with role := .leader, leaderId := some n.cfg.id, heartbeatElapsed := 0, prs,
                    pendingReads := [], readCtxCounter := 0 }
  let (_, n) ← n.appendLocal? .noop
  n.broadcastAppend?

def campaign? : Option RaftNode :=
  let n := (n.setTerm (n.hs.term + 1)).setVote (some n.cfg.id)
  let n := { n with role := .candidate, leaderId := none, votes := OrdMap.insert ∅ n.cfg.id true }
  if n.countGranted ≥ n.quorum then n.becomeLeader?
  else some (n.requestVotes n.hs.term (.requestVote n.log.lastIndex n.log.lastTerm))

def campaignPre? : Option RaftNode :=
  let n := { n with role := .preCandidate, votes := OrdMap.insert ∅ n.cfg.id true }
  if n.countGranted ≥ n.quorum then n.campaign?
  else some (n.requestVotes (n.hs.term + 1) (.preVote n.log.lastIndex n.log.lastTerm))

def tick? : Option RaftNode :=
  let n := { n with tickCounter := n.tickCounter + 1 }
  if n.role = .leader then
    let n := { n with heartbeatElapsed := n.heartbeatElapsed + 1 }
    if n.heartbeatElapsed ≥ n.cfg.heartbeatTick then { n with heartbeatElapsed := 0 }.broadcastAppend? else some n
  else
    let n := { n with electionElapsed := n.electionElapsed + 1 }
    if n.electionElapsed ≥ n.randomizedTimeout then do
      let n ← n.resetElectionTimer?
      if n.voters.contains n.cfg.id then
        if n.cfg.preVote then n.campaignPre? else n.campaign?
      else return n
    else some n

def propose? (data : Bytes) : Option (Except ProposeError Nat × RaftNode) :=
  if n.role ≠ .leader then some (.error (.notLeader n.leaderId), n)
  else do
    let (idx, n) ← n.appendLocal? (.normal data)
    return (.ok idx, n)

def proposeConfChange? (cc : ConfChange) : Option (Except ProposeError Nat × RaftNode) :=
  if n.role ≠ .leader then some (.error (.notLeader n.leaderId), n)
  else if n.log.entries.any fun e => decide (e.index > n.commit) && e.isConf then
    some (.error .confChangeInFlight, n)
  else do
    let (idx, n) ← n.appendLocal? (.confChange cc)
    return (.ok idx, n.syncProgressWithVoters)

def readIndex? (requestId : Nat) : Option (Except ProposeError Unit × RaftNode) :=
  if n.role ≠ .leader then some (.error (.notLeader n.leaderId), n)
  else do
    let t ← n.log.term? n.commit
    if t ≠ some n.hs.term then return (.error .notReady, n)
    else
      let ctx := n.readCtxCounter + 1
      let n := { n with readCtxCounter := ctx, pendingReads := n.pendingReads ++ [(ctx, requestId, n.commit)] }
      if n.quorum = 1 then return (.ok (), n.releaseReads ctx)
      else
        let n ← n.broadcastAppend?
        return (.ok (), n)

def processReadAcks? : Option RaftNode :=
  if n.pendingReads.isEmpty then some n
  else do
    match ← n.quorumValue? n.readAcks with
    | none => return n
    | some quorumCtx => if quorumCtx > 0 then return n.releaseReads quorumCtx else return n

/-! ### Message handlers -/

def handlePreVote? (msg : Message) : Option RaftNode :=
  match msg.body with
  | .preVote lli llt => some (n.handlePreVote msg.src msg.term lli llt)
  | _ => none

def handlePreVoteResp? (msg : Message) : Option RaftNode :=
  match msg.body with
  | .preVoteResp granted =>
    if !granted then
      if msg.term > n.hs.term then n.becomeFollower? msg.term none else some n
    else if n.role ≠ .preCandidate ∨ msg.term ≠ n.hs.term + 1 then some n
    else
      let n := { n with votes := n.votes.insert msg.src true }
      if n.countGranted ≥ n.quorum then n.campaign? else some n
  | _ => none

def handleRequestVote? (src : NodeId) (lli llt : Nat) : Option RaftNode := do
  let canVote := decide (n.hs.votedFor = none ∨ n.hs.votedFor = some src)
  let granted := canVote && n.logUpToDate lli llt
  let n ← if granted then (n.setVote (some src)).resetElectionTimer? else some n
  return n.send src (.requestVoteResp granted)

def handleRequestVoteResp? (src : NodeId) (granted : Bool) : Option RaftNode :=
  if n.role ≠ .candidate then some n
  else
    let n := { n with votes := n.votes.insert src granted }
    if n.countGranted ≥ n.quorum then n.becomeLeader? else some n

def conflictHint? (log : RaftLog) (t : Nat) : Nat → Option Nat
  | 0 => some 0
  | c + 1 =>
    if c + 1 > log.firstIndex then do
      let below ← checkedSub (c + 1) 1
      if (← log.term? below) = some t then conflictHint? log t c else return c + 1
    else some (c + 1)

/-- The loop over `entries` from position `i` on, where `rest` is left of them. -/
def findNew? (log : RaftLog) (commit : Nat) (entries : List Entry) : Nat → List Entry → Option (RaftLog × List Entry)
  | _, [] => some (log, [])
  | i, e :: rest => do
    match ← log.term? e.index with
    | some t =>
      if t = e.term then findNew? log commit entries (i + 1) rest
      else
        checkedAssert (e.index > commit)
        let log ← log.truncateFrom? e.index
        let toAppend ← checkedSlice entries i entries.length
        return (log, toAppend)
    | none =>
      let toAppend ← checkedSlice entries i entries.length
      return (log, toAppend)

def acceptEntries? (src : NodeId) (prevIdx : Nat) (entries : List Entry) (leaderCommit readCtx : Nat) :
    Option RaftNode := do
  let (log, toAppend) ← findNew? n.log n.commit entries 0 entries
  let log ← toAppend.foldlM RaftLog.push? log
  let n := { n with log, out := { n.out with append := n.out.append ++ toAppend } }
  let newLast := prevIdx + entries.length
  let commitTarget := Nat.min leaderCommit newLast
  let n ← if commitTarget > n.commit then n.advanceCommitTo? commitTarget else some n
  return n.replyAppend src true newLast 0 readCtx

def checkPrev? (src : NodeId) (prevIdx prevTerm : Nat) (entries : List Entry) (leaderCommit readCtx : Nat) :
    Option RaftNode := do
  match ← n.log.term? prevIdx with
  | none => return n.replyAppend src false 0 (n.log.lastIndex + 1) readCtx
  | some t =>
    if t ≠ prevTerm then
      let conflict ← conflictHint? n.log t prevIdx
      return n.replyAppend src false 0 conflict readCtx
    else n.acceptEntries? src prevIdx entries leaderCommit readCtx

def handleAppendEntries? (src : NodeId) (prevLogIndex prevLogTerm : Nat) (entries : List Entry)
    (leaderCommit readCtx : Nat) : Option RaftNode :=
  let n := { n with role := .follower, leaderId := some src, electionElapsed := 0 }
  if prevLogIndex < n.log.snapIndex then do
    let covered ← checkedSub n.log.snapIndex prevLogIndex
    if covered ≥ entries.length then return n.replyAppend src true n.log.snapIndex 0 readCtx
    else
      let entries ← checkedDrain entries covered
      n.checkPrev? src n.log.snapIndex n.log.snapTerm entries leaderCommit readCtx
  else n.checkPrev? src prevLogIndex prevLogTerm entries leaderCommit readCtx

def handleAppendResp? (src : NodeId) (success : Bool) (matchIndex conflictIndex readCtx : Nat) : Option RaftNode :=
  if n.role ≠ .leader then some n
  else match n.prs.find? src with
    | none => some n
    | some pr =>
      let lastIndex := n.log.lastIndex
      let pr := { pr with lastRespTick := n.tickCounter, ackedReadCtx := Nat.max pr.ackedReadCtx readCtx }
      if success then do
        let pr := { pr with matched := if matchIndex > pr.matched then matchIndex else pr.matched
                            next := Nat.max pr.next (matchIndex + 1)
                            inflight := pr.inflight - 1 }
        let n ← { n with prs := n.prs.insert src pr }.maybeAdvanceCommit?
        let n ← n.processReadAcks?
        if ((n.prs.find? src).map fun p => decide (p.next ≤ lastIndex)).getD false then n.sendAppend? src else return n
      else if conflictIndex > 0 then
        let pr := { pr with next := Nat.min (Nat.max conflictIndex 1) (lastIndex + 1), inflight := 0 }
        { n with prs := n.prs.insert src pr }.sendAppend? src
      else some { n with prs := n.prs.insert src pr }

def handleInstallSnapshot? (src : NodeId) (snapshot : Snapshot) : Option RaftNode :=
  let n := { n with role := .follower, leaderId := some src, electionElapsed := 0 }
  if snapshot.lastIndex ≤ n.commit then some (n.send src (.installSnapshotResp n.commit))
  else do
    if (← n.log.term? snapshot.lastIndex) = some snapshot.lastTerm then
      let n ← n.advanceCommitTo? snapshot.lastIndex
      return n.send src (.installSnapshotResp snapshot.lastIndex)
    else
      return { n with log := RaftLog.resetToSnapshot snapshot.lastIndex snapshot.lastTerm
                      commit := snapshot.lastIndex, votersBase := snapshot.voters, snapshot := some snapshot
                      out := { n.out with snapshot := some snapshot } }.send src
        (.installSnapshotResp snapshot.lastIndex)

def handleInstallSnapshotResp? (src : NodeId) (lastIndex : Nat) : Option RaftNode :=
  if n.role ≠ .leader then some n
  else match n.prs.find? src with
    | none => some n
    | some pr => do
      let pr := { pr with pendingSnapshot := false
                          lastRespTick := n.tickCounter
                          matched := if lastIndex > pr.matched then lastIndex else pr.matched
                          next := Nat.max pr.next (lastIndex + 1)
                          inflight := 0 }
      let n ← { n with prs := n.prs.insert src pr }.maybeAdvanceCommit?
      n.sendAppend? src

def dispatch? (msg : Message) : Option RaftNode :=
  match msg.body with
  | .requestVote lli llt => n.handleRequestVote? msg.src lli llt
  | .requestVoteResp granted => n.handleRequestVoteResp? msg.src granted
  | .appendEntries prev prevTerm entries leaderCommit readCtx =>
    n.handleAppendEntries? msg.src prev prevTerm entries leaderCommit readCtx
  | .appendEntriesResp success matchIndex conflictIndex readCtx =>
    n.handleAppendResp? msg.src success matchIndex conflictIndex readCtx
  | .installSnapshot snapshot => n.handleInstallSnapshot? msg.src snapshot
  | .installSnapshotResp lastIndex => n.handleInstallSnapshotResp? msg.src lastIndex
  | .preVote _ _ | .preVoteResp _ => none

def step? (msg : Message) : Option RaftNode :=
  match msg.body with
  | .preVote _ _ => n.handlePreVote? msg
  | .preVoteResp _ => n.handlePreVoteResp? msg
  | _ =>
    if msg.term > n.hs.term then do
      let n ← n.becomeFollower? msg.term (announcedLeader msg)
      n.dispatch? msg
    else if msg.term < n.hs.term then some (n.answerStale msg)
    else n.dispatch? msg

def compact? (applied : Nat) (smData : Bytes) : Option (Option Snapshot × RaftNode) :=
  if applied ≤ n.log.snapIndex ∨ applied > n.commit then some (none, n)
  else do
    match ← n.log.term? applied with
    | none => return (none, n)
    | some term =>
      let voters := n.votersAt applied
      let log ← n.log.compact? applied term
      let snap : Snapshot := { lastIndex := applied, lastTerm := term, voters, data := smData }
      return (some snap, { n with votersBase := voters, log, snapshot := some snap })

def call? : Call → Option RaftNode
  | .tick => n.tick?
  | .step msg => n.step? msg
  | .propose data => (n.propose? data).map Prod.snd
  | .proposeConfChange cc => (n.proposeConfChange? cc).map Prod.snd
  | .readIndex requestId => (n.readIndex? requestId).map Prod.snd

/-! ### No test fails that the model does not know -/

variable {n}

theorem resetElectionTimer?_eq : n.resetElectionTimer? = some n.resetElectionTimer := by
  have hspan : 0 < Nat.max (n.cfg.electionTickMax - n.cfg.electionTickMin) 1 := Nat.le_max_right _ _
  unfold resetElectionTimer?
  rw [checkedSub_of_le n.cfg.tick_le]
  simp only [Option.bind_eq_bind, Option.bind_some, checkedMod_of_pos hspan]
  rfl

theorem new?_eq (cfg : Config) (initialVoters : List NodeId) (persisted : Persisted) :
    new? cfg initialVoters persisted = new cfg initialVoters persisted := by
  unfold new? new
  simp only [resetElectionTimer?_eq]
  cases persisted.snapshot <;> exact Option.map_eq_bind.symm

theorem quorumValue?_eq (values : List Nat) :
    n.quorumValue? values = some (values.insertionSort (· ≥ ·))[n.quorum - 1]? := by
  unfold quorumValue?
  dsimp only
  have hq : 1 ≤ n.quorum := Nat.le_add_left _ _
  generalize values.insertionSort (· ≥ ·) = sorted
  split
  · rw [List.getElem?_eq_none (by omega)]
  · obtain ⟨x, hx⟩ : ∃ x, sorted[n.quorum - 1]? = some x := ⟨_, List.getElem?_eq_getElem (by omega)⟩
    simp [checkedSub_of_le hq, hx]

theorem leaseValid?_eq : n.leaseValid? = some n.leaseValid := by
  unfold leaseValid? leaseValid
  split
  · rfl
  · simp only [quorumValue?_eq, Option.bind_eq_bind, Option.bind_some]
    split <;> simp_all

@[simp] theorem setTerm_cfg (term : Nat) : (n.setTerm term).cfg = n.cfg := by unfold setTerm; split <;> rfl

@[simp] theorem setVote_cfg (v : Option NodeId) : (n.setVote v).cfg = n.cfg := by unfold setVote; split <;> rfl

@[simp] theorem becomeFollower_cfg (term : Nat) (leader : Option NodeId) :
    (n.becomeFollower term leader).cfg = n.cfg := by
  show (if term > n.hs.term then (n.setTerm term).setVote none else n).cfg = n.cfg
  split <;> simp

@[simp] theorem syncProgressWithVoters_cfg : n.syncProgressWithVoters.cfg = n.cfg := by
  unfold syncProgressWithVoters
  split <;> rfl

@[simp] theorem sendAppend_cfg (peer : NodeId) : (n.sendAppend peer).cfg = n.cfg := by
  unfold sendAppend
  cases n.prs.find? peer with
  | none => rfl
  | some pr =>
    dsimp only
    split
    · rfl
    · split
      · cases n.snapshot <;> rfl
      · cases n.log.term (pr.next - 1) <;> rfl

theorem advanceCommitTo_cfg {k : Nat} (hk : n.commit ≤ k) : (n.advanceCommitTo k hk).cfg = n.cfg := by
  unfold advanceCommitTo
  dsimp only
  split
  · exact becomeFollower_cfg ..
  · rfl

@[simp] theorem maybeAdvanceCommit_cfg : n.maybeAdvanceCommit.cfg = n.cfg := by
  unfold maybeAdvanceCommit
  repeat' split
  all_goals simp [advanceCommitTo_cfg]

@[simp] theorem processReadAcks_cfg : n.processReadAcks.cfg = n.cfg := by
  unfold processReadAcks
  repeat' split
  all_goals rfl

@[simp] theorem broadcastAppend_cfg : n.broadcastAppend.cfg = n.cfg := by
  have hfold : ∀ (peers : List NodeId) (m : RaftNode), (peers.foldl sendAppend m).cfg = m.cfg := by
    intro peers
    induction peers with
    | nil => exact fun _ => rfl
    | cons peer peers ih => exact fun m => (ih _).trans (sendAppend_cfg peer)
  exact (hfold _ _).trans syncProgressWithVoters_cfg

@[simp] theorem appendLocal_cfg (payload : EntryPayload) : (n.appendLocal payload).2.cfg = n.cfg := by
  simp [appendLocal]

theorem sendAppend?_eq (h : n.cfg.Roomy) (peer : NodeId) : n.sendAppend? peer = some (n.sendAppend peer) := by
  unfold sendAppend? sendAppend
  cases n.prs.find? peer with
  | none => rfl
  | some pr =>
    dsimp only
    split
    · rfl
    · split
      · cases n.snapshot <;> rfl
      · -- `next` lies above the snapshot base
        rw [checkedSub_of_le (by omega)]
        simp only [RaftLog.term?_eq, RaftLog.slice?_eq _ h, Option.bind_eq_bind, Option.bind_some]
        cases n.log.term (pr.next - 1) <;> rfl

theorem broadcastAppend?_eq (h : n.cfg.Roomy) : n.broadcastAppend? = some n.broadcastAppend :=
  List.foldlM_of_eq_some (P := fun n => n.cfg.Roomy) (fun _ peer hs => sendAppend?_eq hs peer)
    (fun _ peer hs => by rwa [sendAppend_cfg]) _ _ (by rwa [syncProgressWithVoters_cfg])

theorem becomeFollower?_eq (term : Nat) (leader : Option NodeId) :
    n.becomeFollower? term leader = some (n.becomeFollower term leader) := resetElectionTimer?_eq

theorem advanceCommitTo?_eq {newCommit : Nat} (h : n.commit ≤ newCommit) :
    n.advanceCommitTo? newCommit = some (n.advanceCommitTo newCommit h) := by
  unfold advanceCommitTo? advanceCommitTo newlyCommitted
  have hes : ∀ l : List Nat, (l.map n.log.get).filterMap id = l.filterMap n.log.get := fun l => by
    rw [List.filterMap_map]; rfl
  rw [checkedAssert_of h, List.mapM_of_eq_some RaftLog.get?_eq]
  simp only [Option.bind_eq_bind, Option.bind_some, hes, becomeFollower?_eq]
  exact (apply_ite some ..).symm

theorem maybeAdvanceCommit?_eq : n.maybeAdvanceCommit? = some n.maybeAdvanceCommit := by
  unfold maybeAdvanceCommit? maybeAdvanceCommit
  split
  · rfl
  · simp only [quorumValue?_eq, RaftLog.term?_eq, Option.bind_eq_bind, Option.bind_some]
    cases (n.matchIndexes.insertionSort (· ≥ ·))[n.quorum - 1]? with
    | none => rfl
    | some candidate =>
      dsimp only
      by_cases hlt : n.commit < candidate
      · by_cases ht : n.log.term candidate = some n.hs.term
        · rw [if_pos hlt, if_pos ht, dif_pos ⟨hlt, ht⟩, advanceCommitTo?_eq]
        · rw [if_pos hlt, if_neg ht, dif_neg fun h => ht h.2]; rfl
      · rw [if_neg hlt, dif_neg fun h => hlt h.1]; rfl

theorem appendLocal?_eq (h : n.cfg.Roomy) (payload : EntryPayload) :
    n.appendLocal? payload = some (n.appendLocal payload) := by
  unfold appendLocal?
  dsimp only
  rw [RaftLog.push?_next rfl]
  simp only [Option.bind_eq_bind, Option.bind_some, maybeAdvanceCommit?_eq, broadcastAppend?_eq,
    maybeAdvanceCommit_cfg, h]
  rfl

theorem becomeLeader?_eq (h : n.cfg.Roomy) : n.becomeLeader? = some n.becomeLeader := by
  unfold becomeLeader?
  simp only [appendLocal?_eq, Option.bind_eq_bind, Option.bind_some, broadcastAppend?_eq, appendLocal_cfg, h]
  rfl

theorem campaign?_eq (h : n.cfg.Roomy) : n.campaign? = some n.campaign := by
  unfold campaign? campaign
  simp only [becomeLeader?_eq, setVote_cfg, setTerm_cfg, h, apply_ite some]

theorem campaignPre?_eq (h : n.cfg.Roomy) : n.campaignPre? = some n.campaignPre := by
  unfold campaignPre? campaignPre
  simp only [campaign?_eq, h, apply_ite some]

theorem tick?_eq (h : n.cfg.Roomy) : n.tick? = some n.tick := by
  have hreset : ∀ m : RaftNode, m.resetElectionTimer.cfg.Roomy = m.cfg.Roomy := fun _ => rfl
  unfold tick? tick
  simp only [broadcastAppend?_eq, resetElectionTimer?_eq, campaignPre?_eq, campaign?_eq, hreset, h,
    Option.bind_eq_bind, Option.bind_some, apply_ite some]
  rfl

theorem propose?_eq (h : n.cfg.Roomy) (data : Bytes) : n.propose? data = some (n.propose data) := by
  unfold propose? propose
  simp only [appendLocal?_eq, h, apply_ite some]
  rfl

theorem proposeConfChange?_eq (h : n.cfg.Roomy) (cc : ConfChange) :
    n.proposeConfChange? cc = some (n.proposeConfChange cc) := by
  unfold proposeConfChange? proposeConfChange
  simp only [appendLocal?_eq, h, apply_ite some]
  rfl

theorem readIndex?_eq (h : n.cfg.Roomy) (requestId : Nat) : n.readIndex? requestId = some (n.readIndex requestId) := by
  unfold readIndex? readIndex
  simp only [RaftLog.term?_eq, broadcastAppend?_eq, h, apply_ite some]
  rfl

theorem processReadAcks?_eq : n.processReadAcks? = some n.processReadAcks := by
  unfold processReadAcks? processReadAcks
  split
  · rfl
  · simp only [quorumValue?_eq]
    cases (n.readAcks.insertionSort (· ≥ ·))[n.quorum - 1]? with
    | none => rfl
    | some quorumCtx => exact (apply_ite some ..).symm

theorem handlePreVoteResp?_eq (h : n.cfg.Roomy) {msg : Message} {granted : Bool}
    (hb : msg.body = .preVoteResp granted) :
    n.handlePreVoteResp? msg = some (n.handlePreVoteResp msg.src msg.term granted) := by
  unfold handlePreVoteResp? handlePreVoteResp
  rw [hb]
  simp only [becomeFollower?_eq, campaign?_eq, h, apply_ite some]

theorem handleRequestVote?_eq (src : NodeId) (lli llt : Nat) :
    n.handleRequestVote? src lli llt = some (n.handleRequestVote src lli llt) := by
  unfold handleRequestVote? handleRequestVote
  dsimp only
  cases decide (n.hs.votedFor = none ∨ n.hs.votedFor = some src) && n.logUpToDate lli llt with
  | false => rfl
  | true => simp [resetElectionTimer?_eq]

theorem handleRequestVoteResp?_eq (h : n.cfg.Roomy) (src : NodeId) (granted : Bool) :
    n.handleRequestVoteResp? src granted = some (n.handleRequestVoteResp src granted) := by
  unfold handleRequestVoteResp? handleRequestVoteResp
  simp only [becomeLeader?_eq, h, apply_ite some]

theorem conflictHint?_eq (log : RaftLog) (t : Nat) : ∀ c, conflictHint? log t c = some (conflictHint log t c)
  | 0 => rfl
  | c + 1 => by
    unfold conflictHint? conflictHint
    rw [checkedSub_of_le (Nat.le_add_left _ _), Nat.add_sub_cancel]
    simp only [RaftLog.term?_eq, Option.bind_eq_bind, Option.bind_some, conflictHint?_eq log t c]
    by_cases hlt : c + 1 > log.firstIndex
    · by_cases ht : log.term c = some t
      · rw [if_pos hlt, if_pos ht, if_pos ⟨hlt, ht⟩]
      · rw [if_pos hlt, if_neg ht, if_neg fun h => ht h.2]; rfl
    · rw [if_neg hlt, if_neg fun h => hlt h.1]

/-- The one assertion of the loop, and the `panic!` of `truncate_from`, are the `none` of `findNew`. -/
theorem findNew?_eq (log : RaftLog) (commit : Nat) (entries : List Entry) :
    ∀ (rest : List Entry) (i : Nat), i ≤ entries.length → entries.drop i = rest →
      findNew? log commit entries i rest = findNew log commit rest
  | [], _, _, _ => rfl
  | e :: rest, i, hi, hrest => by
    have hlt : i < entries.length := by
      rcases lt_or_ge i entries.length with h | h
      · exact h
      · rw [List.drop_eq_nil_of_le h] at hrest; cases hrest
    have hnext : entries.drop (i + 1) = rest := by
      rw [← List.tail_drop, hrest]; rfl
    unfold findNew? findNew
    simp only [RaftLog.term?_eq, Option.bind_eq_bind, Option.bind_some, checkedSlice_to_end hi, hrest,
      findNew?_eq log commit entries rest (i + 1) hlt hnext, checkedAssert_bind]
    cases log.term e.index with
    | none => rfl
    | some t =>
      dsimp only
      split
      · rfl
      · by_cases hc : commit < e.index
        · by_cases hs : log.snapIndex < e.index
          · rw [if_pos hc, dif_pos ⟨hc, hs⟩, RaftLog.truncateFrom?_eq hs]; rfl
          · rw [if_pos hc, dif_neg fun h => hs h.2, RaftLog.truncateFrom?, if_pos (Nat.le_of_not_lt hs)]; rfl
        · rw [if_neg hc, dif_neg fun h => hc h.1]

theorem pushAll_eq_foldlM (log : RaftLog) (es : List Entry) : es.foldlM RaftLog.push? log = pushAll log es := by
  induction es generalizing log with
  | nil => rfl
  | cons e es ih =>
    rw [List.foldlM_cons, pushAll, RaftLog.push?]
    split
    · exact ih _
    · rfl

theorem acceptEntries?_eq (src : NodeId) (prevIdx : Nat) (entries : List Entry) (leaderCommit readCtx : Nat) :
    n.acceptEntries? src prevIdx entries leaderCommit readCtx =
      n.acceptEntries src prevIdx entries leaderCommit readCtx := by
  unfold acceptEntries? acceptEntries
  rw [findNew?_eq n.log n.commit entries entries 0 (Nat.zero_le _) rfl]
  simp only [pushAll_eq_foldlM]
  refine bind_congr fun p => bind_congr fun log => ?_
  by_cases h : n.commit < Nat.min leaderCommit (prevIdx + entries.length)
  · simp only [h, ↓reduceDIte]
    rw [advanceCommitTo?_eq (by exact le_of_lt h)]; rfl
  · simp only [h]
    rfl

theorem checkPrev?_eq (src : NodeId) (prevIdx prevTerm : Nat) (entries : List Entry) (leaderCommit readCtx : Nat) :
    n.checkPrev? src prevIdx prevTerm entries leaderCommit readCtx =
      n.checkPrev src prevIdx prevTerm entries leaderCommit readCtx := by
  unfold checkPrev? checkPrev
  simp only [RaftLog.term?_eq, conflictHint?_eq, acceptEntries?_eq]
  cases n.log.term prevIdx <;> rfl

theorem handleAppendEntries?_eq (src : NodeId) (prevLogIndex prevLogTerm : Nat) (entries : List Entry)
    (leaderCommit readCtx : Nat) :
    n.handleAppendEntries? src prevLogIndex prevLogTerm entries leaderCommit readCtx =
      n.handleAppendEntries src prevLogIndex prevLogTerm entries leaderCommit readCtx := by
  unfold handleAppendEntries? handleAppendEntries
  simp only [checkPrev?_eq]
  split
  · rename_i hlt
    rw [checkedSub_of_le (le_of_lt hlt), Option.bind_eq_bind, Option.bind_some]
    split
    · rfl
    · rw [checkedDrain_of_le (by omega)]; rfl
  · rfl

theorem handleAppendResp?_eq (h : n.cfg.Roomy) (src : NodeId) (success : Bool)
    (matchIndex conflictIndex readCtx : Nat) :
    n.handleAppendResp? src success matchIndex conflictIndex readCtx =
      some (n.handleAppendResp src success matchIndex conflictIndex readCtx) := by
  unfold handleAppendResp? handleAppendResp
  simp only [maybeAdvanceCommit?_eq, processReadAcks?_eq, sendAppend?_eq, processReadAcks_cfg, maybeAdvanceCommit_cfg,
    h, Option.bind_eq_bind, Option.bind_some]
  cases n.prs.find? src with
  | none => exact (apply_ite some ..).symm
  | some pr =>
    simp only [apply_ite some]
    rfl

theorem handleInstallSnapshot?_eq (src : NodeId) (snapshot : Snapshot) :
    n.handleInstallSnapshot? src snapshot = some (n.handleInstallSnapshot src snapshot) := by
  unfold handleInstallSnapshot? handleInstallSnapshot
  dsimp only
  split
  · rfl
  · rename_i hgt
    simp only [RaftLog.term?_eq, apply_ite some]
    rw [advanceCommitTo?_eq (by exact le_of_lt (Nat.lt_of_not_le hgt))]
    rfl

theorem handleInstallSnapshotResp?_eq (h : n.cfg.Roomy) (src : NodeId) (lastIndex : Nat) :
    n.handleInstallSnapshotResp? src lastIndex = some (n.handleInstallSnapshotResp src lastIndex) := by
  unfold handleInstallSnapshotResp? handleInstallSnapshotResp
  simp only [maybeAdvanceCommit?_eq, sendAppend?_eq, maybeAdvanceCommit_cfg, h, Option.bind_eq_bind, Option.bind_some,
    apply_ite some]
  cases n.prs.find? src <;> rfl

/-- `step` sends pre-vote traffic elsewhere, so the `unreachable!` arms are. -/
theorem dispatch?_eq (h : n.cfg.Roomy) {msg : Message} (hpre : isPreVote msg.body = false) :
    n.dispatch? msg = n.dispatch msg := by
  unfold dispatch? dispatch
  cases hb : msg.body with
  | preVote lli llt => rw [hb] at hpre; cases hpre
  | preVoteResp granted => rw [hb] at hpre; cases hpre
  | requestVote lli llt => exact handleRequestVote?_eq ..
  | requestVoteResp granted => exact handleRequestVoteResp?_eq h ..
  | appendEntries prev prevTerm entries leaderCommit readCtx => exact handleAppendEntries?_eq ..
  | appendEntriesResp success matchIndex conflictIndex readCtx => exact handleAppendResp?_eq h ..
  | installSnapshot snapshot => exact handleInstallSnapshot?_eq ..
  | installSnapshotResp lastIndex => exact handleInstallSnapshotResp?_eq h ..

theorem step?_eq (h : n.cfg.Roomy) (msg : Message) : n.step? msg = n.step msg := by
  unfold step? step
  cases hb : msg.body with
  | preVote lli llt => simp [handlePreVote?, dispatch, isPreVote, hb]
  | preVoteResp granted => simp [handlePreVoteResp?_eq h hb, dispatch, isPreVote, hb]
  | _ =>
    have hd : ∀ {n : RaftNode}, n.cfg.Roomy → n.dispatch? msg = n.dispatch msg :=
      fun h => dispatch?_eq h (by rw [hb]; rfl)
    simp only [hd, becomeFollower?_eq, becomeFollower_cfg, h, Option.bind_eq_bind, Option.bind_some]
    rfl

theorem compact?_eq (applied : Nat) (smData : Bytes) : n.compact? applied smData = some (n.compact applied smData) := by
  unfold compact? compact
  simp only [RaftLog.term?_eq, RaftLog.compact?_eq, apply_ite some]
  cases n.log.term applied <;> rfl

theorem call?_eq (h : n.cfg.Roomy) (c : Call) : n.call? c = n.call c := by
  cases c with
  | tick => exact tick?_eq h
  | step msg => exact step?_eq h msg
  | propose data => simp [call?, call, propose?_eq h]
  | proposeConfChange cc => simp [call?, call, proposeConfChange?_eq h]
  | readIndex requestId => simp [call?, call, readIndex?_eq h]

end RaftNode
end RaftKv

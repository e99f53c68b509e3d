import Mathlib.Logic.Relation
import RaftKv.Raft.Node

/-!
# The moves a call is made of

Every entry point of the node is a sequence of a few kinds of state changes, each made under a
condition that can be read off the node and the message being stepped. `Move c` lists them with
those conditions; `RaftNode.call_moves` shows that a call does nothing else. An invariant of the
node is then checked once per move, whichever handler makes it.

| move | made by |
| --- | --- |
| `beat`, `wait`, `rest`     | `tick` (`node.rs:222`) |
| `preCampaign`, `stand`     | `campaign_pre`, `campaign` up to the vote requests |
| `win`                      | `become_leader` up to its no-op |
| `follow`, `listen`         | `become_follower`; the first lines of the two handlers of a leader's messages |
| `vote`, `count`            | `handle_request_vote`; the two handlers of vote responses |
| `append`, `adopt`, `install` | `append_local`; the two loops of `handle_append_entries`; the last branch of `handle_install_snapshot` |
| `commitQuorum`, `commitFollow` | `advance_commit_to`, as the leader and as a follower calls it |
| `sync`, `pace`, `response` | the changes of `prs` |
| `register`, `release`      | `read_index`, `release_reads` |
| `push`                     | every message sent |
-/

namespace RaftKv

open Relation

/-- The term of the last entry, or that of the entry before the batch. -/
def lastTermFrom (prevTerm : Nat) (es : List Entry) : Nat := (es.getLast?.map Entry.term).getD prevTerm

/-- The entries of a batch continue at `prev + 1`. -/
def Contig (prev : Nat) (es : List Entry) : Prop :=
  ∀ (i : Nat) (e : Entry), es[i]? = some e → e.index = prev + 1 + i

theorem Contig.last {prev : Nat} {es : List Entry} {e : Entry} (h : Contig prev es)
    (he : es.getLast? = some e) : e.index = prev + es.length := by
  rw [List.getLast?_eq_getElem?] at he
  have hlt := (List.getElem?_eq_some_iff.1 he).1
  rw [h _ e he]; omega

theorem Contig.drop {prev k : Nat} {es : List Entry} (h : Contig prev es) : Contig (prev + k) (es.drop k) := by
  intro i e he
  rw [List.getElem?_drop] at he
  rw [h _ e he]; omega

namespace RaftNode

/-- `campaign` before it asks for votes. -/
def stand (n : RaftNode) : RaftNode :=
  let n := (n.setTerm (n.hs.term + 1)).setVote (some n.cfg.id)
  { n with role := .candidate, leaderId := none, votes := OrdMap.insert ∅ n.cfg.id true }

/-- `become_leader` before it appends its no-op. -/
def win (n : RaftNode) : RaftNode :=
  let next := n.log.lastIndex + 1
  let prs := n.voters.foldl (fun prs peer =>
    if peer ≠ n.cfg.id then prs.insert peer (Progress.new next) else prs) ∅
  { n with role := .leader, leaderId := some n.cfg.id, heartbeatElapsed := 0, prs,
           pendingReads := [], readCtxCounter := 0 }

theorem index_next (n : RaftNode) (payload : EntryPayload) :
    ({ term := n.hs.term, index := n.log.lastIndex + 1, payload } : Entry).index = n.log.lastIndex + 1 := rfl

/-- `append_local` before it replicates. -/
def appendEntry (n : RaftNode) (payload : EntryPayload) : RaftNode :=
  let e : Entry := { term := n.hs.term, index := n.log.lastIndex + 1, payload }
  { n with log := n.log.push e (index_next n payload), out := { n.out with append := n.out.append ++ [e] } }

/-- `advance_commit_to` before a removed leader steps down. -/
def commitTo (n : RaftNode) (k : Nat) : RaftNode :=
  { n with commit := k, out := { n.out with committed := n.out.committed ++ n.newlyCommitted k } }

/-- The reset branch of `handle_install_snapshot`. -/
def install (n : RaftNode) (s : Snapshot) : RaftNode :=
  { n with log := RaftLog.resetToSnapshot s.lastIndex s.lastTerm
           commit := s.lastIndex, votersBase := s.voters, snapshot := some s
           out := { n.out with snapshot := some s } }

/-- `read_index` before it asks the followers. -/
def register (n : RaftNode) (r : Nat) : RaftNode :=
  let ctx := n.readCtxCounter + 1
  { n with readCtxCounter := ctx, pendingReads := n.pendingReads ++ [(ctx, r, n.commit)] }

/-- The two loops of `handle_append_entries`. -/
def adopt (n : RaftNode) (log : RaftLog) (new : List Entry) : RaftNode :=
  { n with log, out := { n.out with append := n.out.append ++ new } }

end RaftNode

/-- When a follower that steps `m` may advance to `k`. -/
def Covers (n : RaftNode) (m : Message) (k : Nat) : Prop :=
  match m.body with
  | .appendEntries prev prevTerm es leaderCommit _ =>
    k ≤ leaderCommit ∧ k ≤ prev + es.length ∧
      (Contig prev es → n.log.term (prev + es.length) = some (lastTermFrom prevTerm es))
  | .installSnapshot s => k = s.lastIndex ∧ n.log.term k = some s.lastTerm
  | _ => False

/-- What holds of the answer to the `AppendEntries` that is being stepped. -/
def Answers (n : RaftNode) (m : Message) (success : Bool) (matchIndex conflictIndex readCtx : Nat) : Prop :=
  ∃ prev prevTerm es leaderCommit, m.body = .appendEntries prev prevTerm es leaderCommit readCtx ∧
    ((success = false ∧ m.term < n.hs.term ∧ conflictIndex = 0) ∨
     (success = false ∧ m.term = n.hs.term ∧ n.log.term prev ≠ some prevTerm ∧ n.log.snapIndex ≤ prev ∧
        (conflictIndex = 0 → prev = 0)) ∨
     (success = true ∧ m.term = n.hs.term ∧ matchIndex = n.log.snapIndex ∧ prev + es.length ≤ matchIndex) ∨
     (success = true ∧ m.term = n.hs.term ∧ matchIndex = prev + es.length ∧
        (Contig prev es → n.log.term matchIndex = some (lastTermFrom prevTerm es))))

/-- What holds of a message when it is sent during the call `c`. -/
def Says (c : Call) (n : RaftNode) (m : Message) : Prop :=
  m.src = n.cfg.id ∧
  match m.body with
  | .preVote lli llt =>
    m.term = n.hs.term + 1 ∧ n.role = .preCandidate ∧ lli = n.log.lastIndex ∧ llt = n.log.lastTerm
  | .preVoteResp granted =>
    granted = true → n.hs.term < m.term ∧ ¬ (n.leaderId.isSome ∧ n.electionElapsed < n.cfg.electionTickMin)
  | .requestVote lli llt =>
    m.term = n.hs.term ∧ n.role = .candidate ∧ lli = n.log.lastIndex ∧ llt = n.log.lastTerm
  | .requestVoteResp granted => m.term = n.hs.term ∧ (granted = true → n.hs.votedFor = some m.dst)
  | .appendEntries prev prevTerm es leaderCommit readCtx =>
    m.term = n.hs.term ∧ n.role = .leader ∧ n.log.snapIndex ≤ prev ∧ n.log.term prev = some prevTerm ∧
      (es = [] ∨ es = n.log.slice (prev + 1) n.cfg.maxBatchEntries) ∧ leaderCommit = n.commit ∧
      readCtx = n.readCtxCounter
  | .appendEntriesResp success matchIndex conflictIndex readCtx =>
    m.term = n.hs.term ∧ ∃ m₀, c = .step m₀ ∧ m.dst = m₀.src ∧
      Answers n m₀ success matchIndex conflictIndex readCtx
  | .installSnapshot s => m.term = n.hs.term ∧ n.role = .leader ∧ n.snapshot = some s
  | .installSnapshotResp lastIndex =>
    m.term = n.hs.term ∧ ∃ m₀ s, c = .step m₀ ∧ m.dst = m₀.src ∧ m₀.term = n.hs.term ∧
      m₀.body = .installSnapshot s ∧ s.lastIndex ≤ lastIndex ∧ lastIndex = n.commit

/-- What a response makes of the sender's progress. -/
def Responds (n : RaftNode) (m : Message) (pr pr' : Progress) : Prop :=
  pr'.lastRespTick = n.tickCounter ∧
  match m.body with
  | .appendEntriesResp success matchIndex _ readCtx =>
    pr'.ackedReadCtx = Nat.max pr.ackedReadCtx readCtx ∧
      (pr'.matched = pr.matched ∨ success = true ∧ pr'.matched = matchIndex)
  | .installSnapshotResp lastIndex =>
    pr'.ackedReadCtx = pr.ackedReadCtx ∧ (pr'.matched = pr.matched ∨ pr'.matched = lastIndex)
  | _ => False

/-- Only the send window of a progress changed. -/
structure SameProgress (pr pr' : Progress) : Prop where
  matched : pr'.matched = pr.matched
  acked : pr'.ackedReadCtx = pr.ackedReadCtx
  resp : pr'.lastRespTick = pr.lastRespTick

/-- How far a response reaches in the leader's log. -/
def Message.acked (m : Message) : Nat :=
  match m.body with
  | .appendEntriesResp success matchIndex _ _ => if success then matchIndex else 0
  | .installSnapshotResp lastIndex => lastIndex
  | _ => 0

/-- The send window of a progress moves within the log, unless `k` lies beyond it, and a snapshot is sent now. -/
structure Paces (n : RaftNode) (k : Nat) (pr pr' : Progress) : Prop where
  next_pos : 0 < pr.next → 0 < pr'.next
  next_le : pr'.next ≤ Nat.max pr.next (Nat.max n.log.lastIndex k + 1)
  inflight_le : pr'.inflight ≤ Nat.max pr.inflight n.cfg.maxInflight
  sent_le : pr'.snapshotSentTick ≤ Nat.max pr.snapshotSentTick n.tickCounter

/-- A configuration change is proposed. -/
def Call.changesConf : Call → Prop
  | .proposeConfChange _ => True
  | _ => False

/-- The payloads a leader appends during a call on `n₀`. -/
def MayAppend (c : Call) (n₀ n : RaftNode) (payload : EntryPayload) : Prop :=
  match payload with
  | .noop => True
  | .normal data => c = .propose data
  | .confChange cc => c = .proposeConfChange cc ∧ n = n₀ ∧
      ∀ e ∈ n.log.entries, e.isConf = true → e.index ≤ n.commit

/-- What a handler has not changed yet when it gets to the leader's data. -/
structure Untouched (n₀ n : RaftNode) : Prop where
  term : n₀.hs.term ≤ n.hs.term
  log : n.log = n₀.log
  commit : n.commit = n₀.commit
  snapshot : n.snapshot = n₀.snapshot
  append : n.out.append = n₀.out.append
  committed : n.out.committed = n₀.out.committed
  installed : n.out.snapshot = n₀.out.snapshot

theorem Untouched.refl (n : RaftNode) : Untouched n n := ⟨le_refl _, rfl, rfl, rfl, rfl, rfl, rfl⟩

theorem Untouched.listen {n₀ n : RaftNode} (h : Untouched n₀ n) (src : NodeId) :
    Untouched n₀ { n with role := .follower, leaderId := some src, electionElapsed := 0 } :=
  ⟨h.term, h.log, h.commit, h.snapshot, h.append, h.committed, h.installed⟩

/-- The batch that is left of an `AppendEntries` above the snapshot base, behind its consistency check. -/
def Fits (n : RaftNode) (prev prevTerm : Nat) (es es' : List Entry) : Prop :=
  (n.log.snapIndex ≤ prev ∧ es' = es ∧ n.log.term prev = some prevTerm) ∨
  (prev < n.log.snapIndex ∧ es' = es.drop (n.log.snapIndex - prev) ∧ n.log.snapIndex - prev < es.length)

/-- One move of the call `c` on `n₀`. -/
inductive Move (c : Call) (n₀ : RaftNode) : RaftNode → RaftNode → Prop
  | beat {n : RaftNode} (x : Nat) : c = .tick → n.role = .leader →
      Move c n₀ n { n with tickCounter := n.tickCounter + 1, heartbeatElapsed := x }
  | wait {n : RaftNode} : c = .tick → n.role ≠ .leader →
      Move c n₀ n { n with tickCounter := n.tickCounter + 1, electionElapsed := n.electionElapsed + 1 }
  | rest {n : RaftNode} : c = .tick → n.role ≠ .leader → n.randomizedTimeout ≤ n.electionElapsed →
      Move c n₀ n n.resetElectionTimer
  | preCampaign {n : RaftNode} : c = .tick → n.role ≠ .leader → n.randomizedTimeout ≤ n.electionElapsed →
      n.cfg.id ∈ n.voters → n.cfg.preVote = true →
      Move c n₀ n { n.resetElectionTimer with role := .preCandidate, votes := OrdMap.insert ∅ n.cfg.id true }
  | stand {n : RaftNode} : (n.role = .preCandidate ∧ n.quorum ≤ n.countGranted) ∨
        (n.cfg.preVote = false ∧ n.cfg.id ∈ n.voters) →
      Move c n₀ n n.stand
  | win {n : RaftNode} : n.role = .candidate → n.quorum ≤ n.countGranted → Move c n₀ n n.win
  | follow {n : RaftNode} {t : Nat} {l : Option NodeId} :
      (t = n.hs.term ∧ l = none ∧ ∃ e ∈ n.log.entries, e.isConf = true) ∨
        (∃ m, c = .step m ∧ m.term = t ∧ n.hs.term < t) →
      Move c n₀ n (n.becomeFollower t l)
  | listen {n : RaftNode} {m : Message} : c = .step m → m.term = n.hs.term →
      RaftNode.announcedLeader m = some m.src →
      Move c n₀ n { n with role := .follower, leaderId := some m.src, electionElapsed := 0 }
  | vote {n : RaftNode} {m : Message} {lli llt : Nat} : c = .step m → m.body = .requestVote lli llt →
      m.term = n.hs.term → n.hs.votedFor = none ∨ n.hs.votedFor = some m.src →
      n.logUpToDate lli llt = true → n.log = n₀.log → n = n₀ ∨ n₀.hs.term < n.hs.term →
      Move c n₀ n (n.setVote (some m.src)).resetElectionTimer
  | count {n : RaftNode} {m : Message} {granted : Bool} : c = .step m →
      (m.body = .requestVoteResp granted ∧ m.term = n.hs.term ∧ n.role = .candidate) ∨
        (m.body = .preVoteResp true ∧ granted = true ∧ m.term = n.hs.term + 1 ∧ n.role = .preCandidate) →
      Move c n₀ n { n with votes := n.votes.insert m.src granted }
  | append {n : RaftNode} {payload : EntryPayload} : n.role = .leader → MayAppend c n₀ n payload →
      Move c n₀ n (n.appendEntry payload)
  | adopt {n : RaftNode} {m : Message} {prev prevTerm : Nat} {es es' new : List Entry}
      {leaderCommit readCtx : Nat} {log log' : RaftLog} : c = .step m → m.term = n.hs.term →
      n.role = .follower → Untouched n₀ n → m.body = .appendEntries prev prevTerm es leaderCommit readCtx →
      Fits n prev prevTerm es es' → RaftNode.findNew n.log n.commit es' = some (log, new) →
      RaftNode.pushAll log new = some log' → Move c n₀ n (n.adopt log' new)
  | install {n : RaftNode} {m : Message} {s : Snapshot} : c = .step m → m.term = n.hs.term →
      n.role = .follower → Untouched n₀ n → m.body = .installSnapshot s → n.commit < s.lastIndex →
      n.log.term s.lastIndex ≠ some s.lastTerm → Move c n₀ n (n.install s)
  | commitQuorum {n : RaftNode} {k : Nat} : n.role = .leader →
      (n.matchIndexes.insertionSort (· ≥ ·))[n.quorum - 1]? = some k → n.commit < k →
      n.log.term k = some n.hs.term → Move c n₀ n (n.commitTo k)
  | commitFollow {n : RaftNode} {m : Message} {k : Nat} : c = .step m → m.term = n.hs.term →
      n.role = .follower → n.commit < k → Covers n m k → Move c n₀ n (n.commitTo k)
  | sync {n : RaftNode} : n.role = .leader → Move c n₀ n n.syncProgressWithVoters
  | pace {n : RaftNode} {p : NodeId} {pr pr' : Progress} : n.prs.find? p = some pr → SameProgress pr pr' →
      Paces n 0 pr pr' → Move c n₀ n { n with prs := n.prs.insert p pr' }
  | response {n : RaftNode} {m : Message} {pr pr' : Progress} : c = .step m → m.term = n.hs.term →
      n.role = .leader → n = n₀ → n.prs.find? m.src = some pr → Responds n m pr pr' → Paces n m.acked pr pr' →
      Move c n₀ n { n with prs := n.prs.insert m.src pr' }
  | register {n : RaftNode} {r : Nat} : c = .readIndex r → n.role = .leader → n = n₀ →
      n.log.term n.commit = some n.hs.term →
      Move c n₀ n (n.register r)
  | release {n : RaftNode} {ctx : Nat} : n.role = .leader →
      (n.quorum = 1 ∧ ctx = n.readCtxCounter) ∨
        (0 < ctx ∧ (n.readAcks.insertionSort (· ≥ ·))[n.quorum - 1]? = some ctx) →
      Move c n₀ n (n.releaseReads ctx)
  | push {n : RaftNode} {m : Message} : Says c n m → Move c n₀ n (n.pushMsg m)

/-- Stepping `m` casts a vote: `handle_request_vote` grants it, and not merely again. -/
def RaftNode.casts (n : RaftNode) (m : Message) : Bool :=
  match m.body with
  | .requestVote lli llt =>
    decide (n.hs.term < m.term ∨ (m.term = n.hs.term ∧ n.hs.votedFor = none)) && n.logUpToDate lli llt
  | _ => false

/-- A whole call, as far as invariants are concerned. -/
abbrev Moves (c : Call) (n₀ : RaftNode) : RaftNode → RaftNode → Prop := ReflTransGen (Move c n₀)

namespace RaftNode

variable {c : Call} {n n₀ : RaftNode}

/-! ## The hard state after a move -/

theorem setTerm_eq (n : RaftNode) (t : Nat) : n.setTerm t =
    { n with hs := { n.hs with term := t }, out := { n.out with hardState := (n.setTerm t).out.hardState } } := by
  unfold setTerm
  split
  · rfl
  · rename_i h
    rw [not_not] at h
    subst h; rfl

theorem setVote_eq (n : RaftNode) (v : Option NodeId) : n.setVote v =
    { n with hs := { n.hs with votedFor := v }, out := { n.out with hardState := (n.setVote v).out.hardState } } := by
  unfold setVote
  split
  · rfl
  · rename_i h
    rw [not_not] at h
    subst h; rfl

theorem stand_eq (n : RaftNode) :
    n.stand = { n with hs := ⟨n.hs.term + 1, some n.cfg.id⟩, role := .candidate, leaderId := none
                       votes := OrdMap.insert ∅ n.cfg.id true
                       out := { n.out with hardState := n.stand.out.hardState } } := by
  have h1 := setTerm_eq n (n.hs.term + 1)
  have h2 := setVote_eq (n.setTerm (n.hs.term + 1)) (some n.cfg.id)
  unfold stand
  rw [h2, h1]

theorem becomeFollower_eq (n : RaftNode) {t : Nat} (l : Option NodeId) (h : n.hs.term < t) :
    n.becomeFollower t l = resetElectionTimer
      { n with hs := ⟨t, none⟩, role := .follower, leaderId := l, prs := ∅, pendingReads := []
               out := { n.out with hardState := (n.becomeFollower t l).out.hardState } } := by
  have h1 := setTerm_eq n t
  have h2 := setVote_eq (n.setTerm t) none
  unfold becomeFollower
  rw [if_pos h]
  rw [h2, h1]; rfl

theorem becomeFollower_same (n : RaftNode) {t : Nat} (l : Option NodeId) (h : t ≤ n.hs.term) :
    n.becomeFollower t l = resetElectionTimer
      { n with role := .follower, leaderId := l, prs := ∅, pendingReads := [] } := by
  unfold becomeFollower
  rw [if_neg (not_lt.2 h)]

/-! ## Replication -/

/-- A leader, or a node whose leadership is cleared. -/
def Leading (n : RaftNode) : Prop := n.role = .leader ∨ (n.prs = ∅ ∧ n.pendingReads = [])

theorem becomeFollower_leading (t : Nat) (l : Option NodeId) : (n.becomeFollower t l).Leading :=
  .inr ⟨rfl, rfl⟩

/-- What a slice adds to `next` stays within the log. -/
theorem slice_length_le (log : RaftLog) (next max : Nat) (h : log.snapIndex < next) :
    next + (log.slice next max).length ≤ Nat.max next (log.lastIndex + 1) := by
  have hstart : Nat.max next log.firstIndex = next := Nat.max_eq_left h
  unfold RaftLog.slice
  dsimp only
  split
  · exact le_max_left _ _
  · rename_i hle
    refine le_trans ?_ (le_max_right _ _)
    rw [List.length_take, List.length_drop]
    unfold RaftLog.lastIndex at hle ⊢
    omega

/-- A leader sends at most one message, built from its own log. -/
theorem sendAppend_cases (n : RaftNode) (p : NodeId) :
    n.sendAppend p = n ∨ ∃ pr pr', n.prs.find? p = some pr ∧ SameProgress pr pr' ∧ Paces n 0 pr pr' ∧
      (n.sendAppend p = { n with prs := n.prs.insert p pr' } ∨
       ∃ body, n.sendAppend p = { n with prs := n.prs.insert p pr' }.send p body ∧
        (n.role = .leader → Says c n { src := n.cfg.id, dst := p, term := n.hs.term, body })) := by
  unfold sendAppend
  split
  · exact .inl rfl
  · rename_i pr hpr
    split
    · exact .inl rfl
    · refine .inr ?_
      dsimp only
      have hstay : ∀ {pr' : Progress}, pr'.next = pr.next → pr'.inflight = pr.inflight →
          pr'.snapshotSentTick ≤ Nat.max pr.snapshotSentTick n.tickCounter → Paces n 0 pr pr' :=
        fun h1 h2 h3 => ⟨fun h => h1 ▸ h, h1 ▸ le_max_left _ _, h2 ▸ le_max_left _ _, h3⟩
      split
      · split
        · rename_i snap hsnap
          refine ⟨pr, _, hpr, ?_, ?_, .inr ⟨_, rfl, fun hr => ?_⟩⟩
          · exact ⟨rfl, rfl, rfl⟩
          · exact hstay rfl rfl (le_max_right _ _)
          · exact ⟨rfl, rfl, hr, hsnap⟩
        · refine ⟨pr, _, hpr, ?_, ?_, .inl rfl⟩
          · exact ⟨rfl, rfl, rfl⟩
          · exact hstay rfl rfl (le_max_left _ _)
      · rename_i hnext
        split
        · refine ⟨pr, _, hpr, ?_, ?_, .inl rfl⟩
          · exact ⟨rfl, rfl, rfl⟩
          · exact hstay rfl rfl (le_max_left _ _)
        · rename_i prevTerm hterm
          refine ⟨pr, _, hpr, ?_, ?_, .inr ⟨_, rfl, fun hr => ?_⟩⟩
          · refine ⟨?_, ?_, ?_⟩ <;> repeat' split
            all_goals rfl
          · have hle := slice_length_le n.log pr.next n.cfg.maxBatchEntries (Nat.lt_of_not_le hnext)
            split
            · -- the window is full
              exact ⟨fun h => h, le_max_left _ _, le_trans (Nat.sub_le _ _) (le_max_left _ _),
                le_max_left _ _⟩
            · rename_i hfull
              split
              · rename_i hlen
                refine ⟨fun h => Nat.add_pos_left h _, le_trans hle ?_, le_trans ?_ (le_max_right _ _),
                  le_max_left _ _⟩
                · exact Nat.max_le.2 ⟨le_max_left _ _,
                    le_trans (Nat.succ_le_succ (le_max_left _ _)) (le_max_right _ _)⟩
                · have hne : (n.log.slice pr.next n.cfg.maxBatchEntries).isEmpty = false := by
                    rw [List.isEmpty_eq_false_iff]
                    exact List.ne_nil_of_length_pos hlen
                  rw [hne] at hfull
                  have hlt : pr.inflight < n.cfg.maxInflight := by simpa using hfull
                  exact hlt
              · exact hstay rfl rfl (le_max_left _ _)
          · have hnext' : pr.next - 1 + 1 = pr.next := by omega
            refine ⟨rfl, rfl, hr, by omega, hterm, ?_, rfl, rfl⟩
            rw [hnext']
            split
            · exact .inl rfl
            · exact .inr rfl

theorem sendAppend_role (n : RaftNode) (p : NodeId) : (n.sendAppend p).role = n.role := by
  rcases sendAppend_cases (c := .tick) n p with h | ⟨_, _, _, _, _, h | ⟨_, h, _⟩⟩
  · rw [h]
  · rw [h]
  · rw [h]; rfl

theorem sendAppend_of_empty (h : n.prs = ∅) (p : NodeId) : n.sendAppend p = n := by
  unfold sendAppend
  rw [h, OrdMap.find?_empty]

theorem sendAppend_moves (h : n.role = .leader) (p : NodeId) : Moves c n₀ n (n.sendAppend p) := by
  rcases sendAppend_cases (c := c) n p with heq | ⟨pr, pr', hpr, hsame, hpace, heq | ⟨body, heq, hsay⟩⟩
  · rw [heq]
  · rw [heq]; exact .single (.pace hpr hsame hpace)
  · rw [heq]
    exact .tail (.single (.pace hpr hsame hpace)) (.push (hsay h))

theorem syncProgressWithVoters_of_not (h : n.role ≠ .leader) : n.syncProgressWithVoters = n := if_pos h

theorem syncProgressWithVoters_role (n : RaftNode) : n.syncProgressWithVoters.role = n.role := by
  unfold syncProgressWithVoters
  split <;> rfl

theorem sendAll_moves (ps : List NodeId) : ∀ {n : RaftNode}, n.role = .leader →
    Moves c n₀ n (ps.foldl sendAppend n) ∧ (ps.foldl sendAppend n).role = .leader := by
  induction ps with
  | nil => exact fun h => ⟨.refl, h⟩
  | cons p ps ih =>
    intro n h
    obtain ⟨hm, hr⟩ := ih (n := n.sendAppend p) (by rw [sendAppend_role, h])
    exact ⟨(sendAppend_moves h p).trans hm, hr⟩

theorem broadcastAppend_moves (h : n.Leading) : Moves c n₀ n n.broadcastAppend ∧ n.broadcastAppend.Leading := by
  unfold broadcastAppend
  by_cases hr : n.role = .leader
  · obtain ⟨hm, hr'⟩ := sendAll_moves (c := c) n.syncProgressWithVoters.prs.keys
      (n := n.syncProgressWithVoters) (by rw [syncProgressWithVoters_role, hr])
    exact ⟨.head (.sync hr) hm, .inl hr'⟩
  · obtain ⟨hprs, hreads⟩ := h.resolve_left hr
    simp only [syncProgressWithVoters_of_not hr, hprs]
    exact ⟨.refl, h⟩

/-! ## Commitment -/

/-- Only a leader steps down when it delivers. -/
theorem advanceCommitTo_eq (k : Nat) (h : n.commit ≤ k) :
    n.advanceCommitTo k h = n.commitTo k ∨
      (n.role = .leader ∧ n.advanceCommitTo k h = (n.commitTo k).becomeFollower n.hs.term none ∧
        ∃ e ∈ n.log.entries, e.isConf = true) := by
  unfold advanceCommitTo
  dsimp only
  split
  · rename_i hany
    obtain ⟨e, hmem, he⟩ := List.any_eq_true.1 hany
    obtain ⟨hremoved, hleads⟩ := Bool.and_eq_true_iff.1 he
    refine .inr ⟨by simpa [isLeader] using hleads, rfl, e, ?_, ?_⟩
    · obtain ⟨idx, _, hget⟩ := List.mem_filterMap.1 hmem
      exact List.mem_of_getElem? (RaftLog.get_eq_some.1 hget).2
    · unfold Entry.isConf
      rw [of_decide_eq_true hremoved]
  · exact .inl rfl

theorem advanceCommitTo_follower (hr : n.role = .follower) (k : Nat) (h : n.commit ≤ k) :
    n.advanceCommitTo k h = n.commitTo k := by
  rcases advanceCommitTo_eq k h with heq | ⟨hl, _⟩
  · exact heq
  · rw [hr] at hl; cases hl

theorem maybeAdvanceCommit_moves (hr : n.role = .leader) :
    Moves c n₀ n n.maybeAdvanceCommit ∧ n.maybeAdvanceCommit.Leading := by
  unfold maybeAdvanceCommit
  rw [if_neg (by simp [hr])]
  split
  · exact ⟨.refl, .inl hr⟩
  · rename_i k hk
    split
    · rename_i h
      have hmove : Move c n₀ n (n.commitTo k) := .commitQuorum hr hk h.1 h.2
      rcases advanceCommitTo_eq k (le_of_lt h.1) with heq | ⟨_, heq, hconf⟩
      · rw [heq]; exact ⟨.single hmove, .inl hr⟩
      · rw [heq]
        exact ⟨.tail (.single hmove) (.follow (.inl ⟨rfl, rfl, hconf⟩)), becomeFollower_leading _ _⟩
    · exact ⟨.refl, .inl hr⟩

theorem appendLocal_moves (payload : EntryPayload) (hr : n.role = .leader) (hp : MayAppend c n₀ n payload) :
    Moves c n₀ n (n.appendLocal payload).2 ∧ (n.appendLocal payload).2.Leading := by
  obtain ⟨hm, hl⟩ := maybeAdvanceCommit_moves (c := c) (n := n.appendEntry payload) hr
  obtain ⟨hm', hl'⟩ := broadcastAppend_moves (c := c) hl
  exact ⟨.head (.append hr hp) (hm.trans hm'), hl'⟩

/-! ## Elections -/

theorem becomeLeader_moves (hr : n.role = .candidate) (hq : n.quorum ≤ n.countGranted) :
    Moves c n₀ n n.becomeLeader := by
  obtain ⟨hm, hl⟩ := appendLocal_moves (c := c) (n := n.win) .noop rfl trivial
  exact .head (.win hr hq) (hm.trans (broadcastAppend_moves hl).1)

/-- Asking the voters changes nothing but the messages. -/
theorem requestVotes_moves {term : Nat} {body : MessageBody}
    (hsay : ∀ (out : Output) (dst : NodeId), Says c { n with out } { src := n.cfg.id, dst, term, body }) :
    Moves c n₀ n (n.requestVotes term body) := by
  have hfold : ∀ (ps : List NodeId) (out : Output), Moves c n₀ { n with out }
      (ps.foldl (fun m peer =>
        if peer = n.cfg.id then m else m.pushMsg { src := n.cfg.id, dst := peer, term, body }) { n with out }) := by
    intro ps
    induction ps with
    | nil => exact fun _ => .refl
    | cons p ps ih =>
      intro out
      rw [List.foldl_cons]
      split
      · exact ih out
      · exact .head (.push (hsay out p)) (ih _)
  exact hfold n.voters n.out

theorem campaign_moves (h : (n.role = .preCandidate ∧ n.quorum ≤ n.countGranted) ∨
    (n.cfg.preVote = false ∧ n.cfg.id ∈ n.voters)) : Moves c n₀ n n.campaign := by
  have heq : n.campaign = if n.stand.countGranted ≥ n.stand.quorum then n.stand.becomeLeader
      else n.stand.requestVotes n.stand.hs.term
        (.requestVote n.stand.log.lastIndex n.stand.log.lastTerm) := rfl
  rw [heq]
  refine .head (.stand h) ?_
  split
  · rename_i hq
    exact becomeLeader_moves rfl hq
  · exact requestVotes_moves fun _ _ => ⟨rfl, rfl, rfl, rfl, rfl⟩

theorem tick_moves : Moves .tick n₀ n n.tick := by
  unfold tick
  dsimp only
  split
  · rename_i hr
    split
    · refine .head (.beat 0 rfl hr) ?_
      refine (broadcastAppend_moves ?_).1
      exact .inl hr
    · exact .single (.beat _ rfl hr)
  · rename_i hr
    refine .head (.wait rfl hr) ?_
    split
    · rename_i ht
      split
      · rename_i hmem
        split
        · rename_i hpre
          refine .head (.preCampaign rfl hr ht (List.contains_iff_mem.1 hmem) hpre) ?_
          unfold campaignPre
          dsimp only
          split
          · rename_i hq
            exact campaign_moves (.inl ⟨rfl, hq⟩)
          · exact requestVotes_moves fun _ _ => ⟨rfl, rfl, rfl, rfl, rfl⟩
        · rename_i hpre
          exact .head (.rest rfl hr ht) (campaign_moves (.inr ⟨by simpa using hpre, List.contains_iff_mem.1 hmem⟩))
      · exact .single (.rest rfl hr ht)
    · exact .refl

/-! ## Requests of the host -/

theorem propose_moves {data : Bytes} : Moves (.propose data) n₀ n (n.propose data).2 := by
  unfold propose
  split
  · exact .refl
  · rename_i hr
    exact (appendLocal_moves (.normal data) (not_not.1 hr) rfl).1

theorem proposeConfChange_moves {cc : ConfChange} : Moves (.proposeConfChange cc) n n (n.proposeConfChange cc).2 := by
  unfold proposeConfChange
  split
  · exact .refl
  · rename_i hr
    split
    · exact .refl
    · rename_i hany
      have hmay : MayAppend (.proposeConfChange cc) n n (.confChange cc) := by
        refine ⟨rfl, rfl, fun e he hconf => ?_⟩
        by_contra hlt
        exact hany (List.any_eq_true.2 ⟨e, he, by simp [hconf]; omega⟩)
      have hm := (appendLocal_moves _ (not_not.1 hr) hmay).1
      by_cases hr' : (n.appendLocal (.confChange cc)).2.role = .leader
      · exact .tail hm (.sync hr')
      · show Moves _ n n (n.appendLocal (.confChange cc)).2.syncProgressWithVoters
        rw [syncProgressWithVoters_of_not hr']; exact hm

theorem readIndex_moves {r : Nat} : Moves (.readIndex r) n n (n.readIndex r).2 := by
  unfold readIndex
  split
  · exact .refl
  · rename_i hr
    split
    · exact .refl
    · rename_i ht
      refine .head (.register rfl (not_not.1 hr) rfl (not_not.1 ht)) ?_
      dsimp only
      split
      · rename_i hq
        exact .single (.release (not_not.1 hr) (.inl ⟨hq, rfl⟩))
      · refine (broadcastAppend_moves ?_).1
        exact .inl (not_not.1 hr)

theorem processReadAcks_moves (h : n.Leading) : Moves c n₀ n n.processReadAcks := by
  unfold processReadAcks
  split
  · exact .refl
  · rename_i hne
    have hr : n.role = .leader := by
      refine h.resolve_right fun hempty => hne ?_
      rw [hempty.2]; rfl
    split
    · exact .refl
    · rename_i ctx hctx
      split
      · rename_i hpos
        exact .single (.release hr (.inr ⟨hpos, hctx⟩))
      · exact .refl

theorem processReadAcks_prs (n : RaftNode) : n.processReadAcks.prs = n.prs := by
  unfold processReadAcks
  repeat' split
  all_goals rfl

theorem processReadAcks_role (n : RaftNode) : n.processReadAcks.role = n.role := by
  unfold processReadAcks
  repeat' split
  all_goals rfl

end RaftNode
end RaftKv

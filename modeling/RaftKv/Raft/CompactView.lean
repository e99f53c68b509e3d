import RaftKv.Raft.FollowerLog

/-!
# Compaction is invisible to a follower

A node that compacts keeps its logical log and moves its snapshot base up to the compacted index.
Everything a vote request, a batch or a snapshot makes it do is decided by the logical log: the
terms it is asked for lie at or above the commit index or belong to a prefix that the sender's log
contains as well. So two nodes that are `Alike` above an index stay alike, whatever their bases.

| here | there |
| --- | --- |
| `Message.asks`     | the four messages a follower answers (`node.rs:597-677`) |
| `Message.verdict`  | the message without the two indexes of an `AppendEntriesResp` |
| `Alike k n n'`     | same outputs and state, same log entries above `k` |
| `Moved base base'` | the same logical log above two bases, both committed |
-/

namespace RaftKv

open RaftNode

/-- `PreVote`, `RequestVote`, `AppendEntries` and `InstallSnapshot`. -/
def Message.asks (m : Message) : Bool :=
  match m.body with
  | .preVote _ _ | .requestVote _ _ | .appendEntries .. | .installSnapshot _ => true
  | _ => false

/-- What a message says apart from where the sender's log begins or disagrees. -/
def Message.verdict (m : Message) : Message :=
  match m.body with
  | .appendEntriesResp success _ _ readCtx => { m with body := .appendEntriesResp success 0 0 readCtx }
  | _ => m

structure Alike (k : Nat) (n n' : RaftNode) : Prop where
  cfg : n'.cfg = n.cfg
  hs : n'.hs = n.hs
  role : n'.role = n.role
  leaderId : n'.leaderId = n.leaderId
  commit : n'.commit = n.commit
  elapsed : n'.electionElapsed = n.electionElapsed
  committed : n'.out.committed = n.out.committed
  append : n'.out.append = n.out.append
  messages : n'.out.messages.map Message.verdict = n.out.messages.map Message.verdict
  above : ∀ idx, k < idx → n'.log.get idx = n.log.get idx

namespace Alike

variable {k : Nat} {n n' : RaftNode}

theorem pushMsg (h : Alike k n n') {m m' : Message} (hm : m'.verdict = m.verdict) :
    Alike k (n.pushMsg m) (n'.pushMsg m') where
  __ := h
  messages := by simp [RaftNode.pushMsg, h.messages, hm]

theorem send (h : Alike k n n') (dst : NodeId) (body : MessageBody) : Alike k (n.send dst body) (n'.send dst body) := by
  refine h.pushMsg ?_
  rw [h.cfg, h.hs]

/-- The two indexes of a reply may differ. -/
theorem replyAppend (h : Alike k n n') (dst : NodeId) (success : Bool) (m c m' c' readCtx : Nat) :
    Alike k (n.replyAppend dst success m c readCtx) (n'.replyAppend dst success m' c' readCtx) := by
  refine h.pushMsg ?_
  rw [h.cfg, h.hs]; rfl

theorem listen (h : Alike k n n') (src : NodeId) : Alike k (n.listen src) (n'.listen src) where
  __ := h
  role := rfl
  leaderId := rfl
  elapsed := rfl

theorem setVote (h : Alike k n n') (v : Option NodeId) : Alike k (n.setVote v) (n'.setVote v) := by
  unfold RaftNode.setVote
  rw [h.hs]
  split
  · exact { h with hs := rfl }
  · exact h

theorem resetElectionTimer (h : Alike k n n') : Alike k n.resetElectionTimer n'.resetElectionTimer where
  __ := h
  elapsed := rfl

theorem setTerm (h : Alike k n n') (t : Nat) : Alike k (n.setTerm t) (n'.setTerm t) := by
  unfold RaftNode.setTerm
  rw [h.hs]
  split
  · exact { h with hs := rfl }
  · exact h

theorem becomeFollower (h : Alike k n n') (t : Nat) (l : Option NodeId) :
    Alike k (n.becomeFollower t l) (n'.becomeFollower t l) := by
  have hset : Alike k (if t > n.hs.term then (n.setTerm t).setVote none else n)
      (if t > n'.hs.term then (n'.setTerm t).setVote none else n') := by
    rw [h.hs]
    split
    · exact (h.setTerm t).setVote none
    · exact h
  unfold RaftNode.becomeFollower
  exact resetElectionTimer { hset with role := rfl, leaderId := rfl }

theorem newlyCommitted (h : Alike k n n') (hk : k ≤ n.commit) (c : Nat) : n'.newlyCommitted c = n.newlyCommitted c := by
  unfold RaftNode.newlyCommitted
  rw [h.commit]
  refine List.filterMap_congr fun idx hidx => h.above idx ?_
  obtain ⟨_, _, rfl⟩ := List.mem_range'.1 hidx
  omega

theorem commitTo (h : Alike k n n') (hk : k ≤ n.commit) (c : Nat) : Alike k (n.commitTo c) (n'.commitTo c) where
  __ := h
  commit := rfl
  committed := by
    show n'.out.committed ++ _ = n.out.committed ++ _
    rw [h.committed, h.newlyCommitted hk]

theorem raiseCommit (h : Alike k n n') (hk : k ≤ n.commit) (c : Nat) :
    Alike k (n.raiseCommit c) (n'.raiseCommit c) := by
  unfold RaftNode.raiseCommit
  rw [h.commit]
  split
  · exact h.commitTo hk c
  · exact h

theorem adopt (h : Alike k n n') {log log' : RaftLog} (new : List Entry)
    (hlog : ∀ idx, k < idx → log'.get idx = log.get idx) :
    Alike k (n.adopt log new) (n'.adopt log' new) where
  __ := h
  append := by
    show n'.out.append ++ new = n.out.append ++ new
    rw [h.append]
  above := hlog

theorem install (h : Alike k n n') (snap : Snapshot) : Alike k (n.install snap) (n'.install snap) where
  __ := h
  commit := rfl
  above _ _ := rfl

end Alike

/-- One logical log above two bases of at most `k` entries. -/
structure Moved (k : Nat) (base base' : List Entry) (log log' : RaftLog) : Prop where
  rel : LogRel base log
  rel' : LogRel base' log'
  le : base.length ≤ k
  le' : base'.length ≤ k
  eq : base' ++ log'.entries = base ++ log.entries

namespace Moved

variable {k : Nat} {base base' : List Entry} {log log' : RaftLog}

theorem lastIndex (h : Moved k base base' log log') : log'.lastIndex = log.lastIndex := by
  rw [h.rel'.lastIndex_eq, h.rel.lastIndex_eq, h.eq]

theorem lastTerm (h : Moved k base base' log log') : log'.lastTerm = log.lastTerm := by
  rw [h.rel'.lastTerm_eq, h.rel.lastTerm_eq, h.eq]

theorem get (h : Moved k base base' log log') {idx : Nat} (hk : k < idx) : log'.get idx = log.get idx := by
  have h₁ := h.le
  have h₂ := h.le'
  refine Option.ext fun e => ?_
  rw [h.rel'.get_eq, h.rel.get_eq, h.eq]
  exact and_congr_left fun _ => ⟨fun _ => by omega, fun _ => by omega⟩

theorem term (h : Moved k base base' log log') {idx : Nat} (hk : k ≤ idx) : log'.term idx = log.term idx := by
  have h₁ := h.le
  have h₂ := h.le'
  rcases Nat.lt_or_ge (base ++ log.entries).length idx with hlt | hle
  · have hnone : ∀ {b : List Entry} {l : RaftLog}, LogRel b l → (b ++ l.entries).length < idx → l.term idx = none := by
      intro b l hrel hlt
      cases ht : l.term idx with
      | none => rfl
      | some t => have := (hrel.term_some ht).2.1; omega
    rw [hnone h.rel hlt, hnone h.rel' (by rw [h.eq]; exact hlt)]
  · rw [h.rel.term_eq (by omega) hle, h.rel'.term_eq (by omega) (by rw [h.eq]; exact hle), h.eq]

end Moved

/-! ## The handlers -/

namespace Alike

variable {k : Nat} {n n' : RaftNode} {base base' : List Entry}

theorem logUpToDate (hm : Moved k base base' n.log n'.log) (lli llt : Nat) :
    n'.logUpToDate lli llt = n.logUpToDate lli llt := by
  unfold RaftNode.logUpToDate
  rw [hm.lastIndex, hm.lastTerm]

theorem handlePreVote (h : Alike k n n') (hm : Moved k base base' n.log n'.log) (src : NodeId) (t lli llt : Nat) :
    Alike k (n.handlePreVote src t lli llt) (n'.handlePreVote src t lli llt) := by
  unfold RaftNode.handlePreVote
  refine h.pushMsg ?_
  rw [h.cfg, h.hs, h.leaderId, h.elapsed, logUpToDate hm]

theorem handleRequestVote (h : Alike k n n') (hm : Moved k base base' n.log n'.log) (src : NodeId) (lli llt : Nat) :
    Alike k (n.handleRequestVote src lli llt) (n'.handleRequestVote src lli llt) := by
  unfold RaftNode.handleRequestVote
  rw [h.hs, logUpToDate hm]
  refine send ?_ src _
  split
  · exact (h.setVote (some src)).resetElectionTimer
  · exact h

theorem handleInstallSnapshot (h : Alike k n n') (hm : Moved k base base' n.log n'.log) (hk : k ≤ n.commit)
    (src : NodeId) (snap : Snapshot) :
    Alike k (n.handleInstallSnapshot src snap) (n'.handleInstallSnapshot src snap) := by
  have hl := h.listen src
  rw [handleInstallSnapshot_eq, handleInstallSnapshot_eq, h.commit]
  by_cases hle : snap.lastIndex ≤ n.commit
  · rw [if_pos hle, if_pos hle]
    exact hl.send src _
  · rw [if_neg hle, hm.term (by omega)]
    split
    · exact (hl.commitTo hk _).send src _
    · exact (hl.install snap).send src _

variable {voters : List NodeId} {hv : voters.Nodup} {g : Ghost} {rec rec' : Snapshot → List Entry → Prop}
  {D D' : Entry → Prop} {i : NodeId} {m : Message} {n₁ n₁' : RaftNode}

/-- A leader's batch: both nodes accept or refuse it, and take over the same entries. -/
theorem handleAppendEntries (hloc : Local voters hv g rec D i n base) (hloc' : Local voters hv g rec' D' i n' base')
    (hmv : Moved k base base' n.log n'.log) (hk : k ≤ n.commit) (hu : Untouched n n₁) (hu' : Untouched n' n₁')
    (h : Alike k n₁ n₁') {r : Reign NodeId Entry} {T : Nat} {p es : List Entry} (hr : g.led.reign T = some r)
    (hT : n.hs.term ≤ T) (hT' : n'.hs.term ≤ T) (hp : p ++ es <+: r.log) (src : NodeId) (lc ctx : Nat) :
    ∃ x x', n₁.handleAppendEntries src p.length (lastTermOf p) es lc ctx = some x ∧
      n₁'.handleAppendEntries src p.length (lastTermOf p) es lc ctx = some x' ∧ Alike k x x' := by
  have hl := h.listen src
  have hout := hloc.handleAppendEntries hu hr hT hp src lc ctx
  have hout' := hloc'.handleAppendEntries hu' hr hT' hp src lc ctx
  rw [hmv.eq] at hout'
  rcases hout with ⟨hno, hint, -, -, he⟩ | ⟨hyes, log, j, -, hrel, hlog, he⟩
  · rcases hout' with ⟨-, hint', -, -, he'⟩ | ⟨hyes', -⟩
    · exact ⟨_, _, he, he', hl.replyAppend src false 0 hint 0 hint' ctx⟩
    · exact absurd hyes' hno
  · rcases hout' with ⟨hno', -⟩ | ⟨-, log', j', -, hrel', hlog', he'⟩
    · exact absurd hyes hno'
    · have hmv' : Moved k base base' log log' := ⟨hrel, hrel', hmv.le, hmv.le', hlog'.trans hlog.symm⟩
      refine ⟨_, _, he, he', replyAppend
        (raiseCommit (hl.adopt _ fun idx hidx => hmv'.get hidx) ?_ _) src true j 0 j' 0 ctx⟩
      show k ≤ n₁.commit
      rw [hu.commit]; exact hk

theorem dispatch (hloc : Local voters hv g rec D i n base) (hloc' : Local voters hv g rec' D' i n' base')
    (hmv : Moved k base base' n.log n'.log) (hk : k ≤ n.commit) (hu : Untouched n n₁) (hu' : Untouched n' n₁')
    (h : Alike k n₁ n₁') (hm : MsgOk voters hv g rec m) (hask : m.asks = true)
    (hT : isPreVote m.body = false → n.hs.term ≤ m.term ∧ n'.hs.term ≤ m.term) :
    ∃ x x', n₁.dispatch m = some x ∧ n₁'.dispatch m = some x' ∧ Alike k x x' := by
  have hmv₁ : Moved k base base' n₁.log n₁'.log := by rw [hu.log, hu'.log]; exact hmv
  have hk₁ : k ≤ n₁.commit := by rw [hu.commit]; exact hk
  unfold RaftNode.dispatch
  cases hb : m.body with
  | preVote lli llt => exact ⟨_, _, rfl, rfl, h.handlePreVote hmv₁ m.src m.term lli llt⟩
  | requestVote lli llt => exact ⟨_, _, rfl, rfl, h.handleRequestVote hmv₁ m.src lli llt⟩
  | installSnapshot snap => exact ⟨_, _, rfl, rfl, h.handleInstallSnapshot hmv₁ hk₁ m.src snap⟩
  | appendEntries prev prevTerm es lc ctx =>
    unfold MsgOk at hm
    rw [hb] at hm hT
    obtain ⟨r, p, q, hr, -, hp, rfl, rfl, -⟩ := hm
    obtain ⟨hle, hle'⟩ := hT rfl
    exact handleAppendEntries hloc hloc' hmv hk hu hu' h hr hle hle' hp m.src lc ctx
  | _ => rw [Message.asks, hb] at hask; cases hask

theorem answerStale (h : Alike k n n') (m : Message) : Alike k (n.answerStale m) (n'.answerStale m) := by
  unfold RaftNode.answerStale
  split
  · exact h.send m.src _
  · exact h.send m.src _
  · exact h

/-- The step lemma: what a node answers does not depend on how far it has compacted. -/
theorem step (hloc : Local voters hv g rec D i n base) (hloc' : Local voters hv g rec' D' i n' base')
    (hmv : Moved k base base' n.log n'.log) (hk : k ≤ n.commit) (h : Alike k n n') (hm : MsgOk voters hv g rec m)
    (hask : m.asks = true) : ∃ x x', n.step m = some x ∧ n'.step m = some x' ∧ Alike k x x' := by
  unfold RaftNode.step
  rw [h.hs]
  cases hpre : isPreVote m.body with
  | true =>
    exact dispatch hloc hloc' hmv hk (Untouched.refl n) (Untouched.refl n') h hm hask fun h' => by
      rw [hpre] at h'; cases h'
  | false =>
    by_cases hgt : m.term > n.hs.term
    · rw [if_pos hgt, if_pos hgt]
      refine dispatch hloc hloc' hmv hk (becomeFollower_untouched n _ _) (becomeFollower_untouched n' _ _)
        (h.becomeFollower _ _) hm hask fun _ => ⟨Nat.le_of_lt hgt, ?_⟩
      rw [h.hs]; exact Nat.le_of_lt hgt
    · rw [if_neg hgt, if_neg hgt]
      by_cases hlt : m.term < n.hs.term
      · rw [if_pos hlt, if_pos hlt]
        exact ⟨_, _, rfl, rfl, h.answerStale m⟩
      · rw [if_neg hlt, if_neg hlt]
        refine dispatch hloc hloc' hmv hk (Untouched.refl n) (Untouched.refl n') h hm hask fun _ => ⟨by omega, ?_⟩
        rw [h.hs]; omega

end Alike

variable {s : Cluster} {i : NodeId}

/-- In a fixed-membership cluster a node that compacts reacts to everything it is asked as it would
have without the compaction. -/
theorem compaction_invisible (cfg : NodeId → Config) (voters : List NodeId) (hv : voters.Nodup)
    (hr : Run voters (fun _ a => a.fixed) (Cluster.init cfg voters) s) {applied : Nat}
    (hlo : (s.host i).raft.log.snapIndex < applied) (hhi : applied ≤ (s.host i).raft.commit) (data : Bytes)
    {m : Message} (hm : m ∈ s.net) (hask : m.asks = true) :
    ∃ snap n x x', (s.host i).raft.compact applied data = (some snap, n) ∧ (s.host i).raft.step m = some x ∧
      n.step m = some x' ∧ Alike (max applied (s.host i).raft.commit) x x' := by
  obtain ⟨g, -, h⟩ := (Inv.init cfg voters hv).run (fun _ _ => confReady_of_fixed) hr
  have hl := h.locals i
  have hcore := hl.core
  have hterm := hcore.rel.term_eq (by rw [← hcore.rel.len]; omega) (Nat.le_trans hhi hcore.commit_le)
  obtain ⟨snap, n, hc⟩ : ∃ snap n, (s.host i).raft.compact applied data = (some snap, n) := by
    unfold compact
    rw [if_neg (by omega), hterm]
    exact ⟨_, _, rfl⟩
  have hl' := (h.compact hc).locals i
  rw [s.compacted_self] at hl'
  obtain ⟨-, -, t, ht, hsnap, hn⟩ := compact_some hc
  have hmv : Moved (s.host i).raft.commit (s.host i).base
    (((s.host i).base ++ (s.host i).raft.log.entries).take applied)
      (s.host i).raft.log n.log := by
    refine ⟨hcore.rel, hl'.core.rel, hcore.snap_le, ?_, ?_⟩
    · rw [List.length_take]; omega
    · exact hl'.core.log_eq.symm.trans hcore.log_eq
  have hmax : max applied (s.host i).raft.commit = (s.host i).raft.commit := Nat.max_eq_right hhi
  have halike : Alike (s.host i).raft.commit (s.host i).raft n := by
    have habove := fun idx (hidx : (s.host i).raft.commit < idx) => hmv.get hidx
    rw [hn] at habove ⊢
    exact ⟨rfl, rfl, rfl, rfl, rfl, rfl, rfl, rfl, rfl, habove⟩
  obtain ⟨x, x', hx, hx', hsame⟩ := Alike.step hl hl' hmv (Nat.le_refl _) halike (h.net m hm) hask
  rw [hmax]
  exact ⟨snap, n, x, x', hc, hx, hx', hsame⟩

/-- The batch that node 2 has already taken over, before and after it compacts. -/
theorem compaction_invisible_run :
    ∃ s, Run [1, 2, 3] (fun _ a => a.fixed) (Cluster.init Config.quick [1, 2, 3]) s ∧
      ((s.host 2).raft.log.snapIndex < 1 ∧ 1 ≤ (s.host 2).raft.commit ∧ .firstBatch ∈ s.net) ∧
      ∃ snap n x x', (s.host 2).raft.compact 1 [] = (some snap, n) ∧ (s.host 2).raft.step .firstBatch = some x ∧
        n.step .firstBatch = some x' ∧ Alike (max 1 (s.host 2).raft.commit) x x' := by
  obtain ⟨s, hr, hP⟩ := Run.reached [1, 2, 3] (fun _ a => a.fixed) (Cluster.init Config.quick [1, 2, 3])
    (P := fun s => (s.host 2).raft.log.snapIndex < 1 ∧ 1 ≤ (s.host 2).raft.commit ∧ .firstBatch ∈ s.net)
    (Action.firstCommit ++ [.call 1 .tick, .deliver 1 2 1 (.appendEntries 1 1 [] 1 0)])
    (by decide +kernel) (fun _ => by decide)
  exact ⟨s, hr, hP, compaction_invisible Config.quick [1, 2, 3] (by decide) hr hP.1 hP.2.1 [] hP.2.2 rfl⟩

end RaftKv

import RaftKv.Raft.Lease

/-!
# A leader's log ends in its own term

`become_leader` appends a no-op before it returns (`node.rs:328-349`), and a leader never truncates
its log. So between calls the last entry of a leader is of the current term, in memory or at the
snapshot boundary.
-/

namespace RaftKv

variable {voters : List NodeId} {s t : Cluster} {i : NodeId} {n n' : RaftNode} {c : Call} {m : Message}

namespace RaftNode

/-- The last entry of a leader is its own. -/
def Owns (n : RaftNode) : Prop := n.role = .leader → n.log.lastTerm = n.hs.term

theorem owns_of_ne (h : n.role ≠ .leader) : n.Owns := fun hr => absurd hr h

theorem Owns.congr (h : n.Owns) (hrole : n'.role = n.role) (hlog : n'.log = n.log) (hterm : n'.hs.term = n.hs.term) :
    n'.Owns := by
  intro hr
  rw [hlog, hterm]
  exact h (hrole ▸ hr)

theorem Owns.sent (h : n.Owns) (hs : SentFrom n n') : n'.Owns := by
  refine h.congr ?_ ?_ ?_ <;> rw [hs]

theorem becomeFollower_role (n : RaftNode) (t : Nat) (l : Option NodeId) : (n.becomeFollower t l).role = .follower := by
  rcases Nat.lt_or_ge n.hs.term t with hlt | hge
  · rw [becomeFollower_eq n l hlt]; rfl
  · rw [becomeFollower_same n l hge]; rfl

theorem owns_becomeFollower (n : RaftNode) (t : Nat) (l : Option NodeId) : (n.becomeFollower t l).Owns :=
  owns_of_ne (by simp [becomeFollower_role])

theorem Owns.maybeAdvanceCommit (h : n.Owns) : n.maybeAdvanceCommit.Owns := by
  unfold RaftNode.maybeAdvanceCommit
  split
  · exact h
  · split
    · exact h
    · split
      · rename_i k _ hk
        rcases advanceCommitTo_eq k (Nat.le_of_lt hk.1) with heq | ⟨_, heq, _⟩
        · rw [heq]; exact h.congr rfl rfl rfl
        · rw [heq]; exact owns_becomeFollower _ _ _
      · exact h

/-- The entry a leader appends is its own. -/
theorem owns_appendLocal (n : RaftNode) (payload : EntryPayload) : (n.appendLocal payload).2.Owns := by
  have hpush : (n.appendEntry payload).Owns := by
    intro _
    simp [appendEntry, RaftLog.lastTerm]
  exact hpush.maybeAdvanceCommit.sent (broadcastAppend_sentFrom _)

theorem owns_becomeLeader (n : RaftNode) : n.becomeLeader.Owns :=
  (owns_appendLocal n.win .noop).sent (broadcastAppend_sentFrom _)

theorem requestVotes_role (n : RaftNode) (t : Nat) (body : MessageBody) : (n.requestVotes t body).role = n.role := by
  unfold requestVotes
  have hfold : ∀ (ps : List NodeId) (x : RaftNode), (ps.foldl (fun x peer =>
      if peer = n.cfg.id then x else x.pushMsg { src := n.cfg.id, dst := peer, term := t, body }) x).role = x.role := by
    intro ps
    induction ps with
    | nil => exact fun _ => rfl
    | cons p ps ih =>
      intro x
      rw [List.foldl_cons, ih]
      split <;> rfl
  exact hfold _ _

theorem owns_campaign (n : RaftNode) : n.campaign.Owns := by
  have heq : n.campaign = if n.stand.countGranted ≥ n.stand.quorum then n.stand.becomeLeader
      else n.stand.requestVotes n.stand.hs.term
        (.requestVote n.stand.log.lastIndex n.stand.log.lastTerm) := rfl
  rw [heq]
  split
  · exact owns_becomeLeader _
  · exact owns_of_ne (by rw [requestVotes_role, stand_eq]; simp)

theorem owns_campaignPre (n : RaftNode) : n.campaignPre.Owns := by
  unfold campaignPre
  dsimp only
  split
  · exact owns_campaign _
  · exact owns_of_ne (by rw [requestVotes_role]; simp)

theorem Owns.tick (h : n.Owns) : n.tick.Owns := by
  unfold RaftNode.tick
  dsimp only
  split
  · split
    · refine Owns.sent ?_ (broadcastAppend_sentFrom _)
      exact h.congr rfl rfl rfl
    · exact h.congr rfl rfl rfl
  · rename_i hr
    split
    · split
      · split
        · exact owns_campaignPre _
        · exact owns_campaign _
      · exact owns_of_ne hr
    · exact owns_of_ne hr

theorem Owns.processReadAcks (h : n.Owns) : n.processReadAcks.Owns := by
  unfold RaftNode.processReadAcks
  split
  · exact h
  · split
    · exact h
    · split
      · exact h.congr rfl rfl rfl
      · exact h

theorem Owns.handleAppendResp (h : n.Owns) (src : NodeId) (success : Bool) (mi ci ctx : Nat) :
    (n.handleAppendResp src success mi ci ctx).Owns := by
  have hprs : ∀ prs, RaftNode.Owns { n with prs } := fun prs => h.congr rfl rfl rfl
  by_cases hr : n.role = .leader
  · cases hpr : n.prs.find? src with
    | none => rw [handleAppendResp_of_none fun _ => hpr]; exact h
    | some pr =>
      cases success with
      | true =>
        rw [handleAppendResp_eq hr hpr]
        exact (hprs _).maybeAdvanceCommit.processReadAcks.sent (sendRest_sentFrom _ _ _)
      | false =>
        rcases Nat.eq_zero_or_pos ci with rfl | hci
        · rw [handleAppendResp_stale hr hpr]; exact hprs _
        · rw [handleAppendResp_refused hr hpr hci]; exact (hprs _).sent (sendAppend_sentFrom _ _)
  · rw [handleAppendResp_of_none fun hl => absurd hl hr]; exact h

theorem Owns.handleInstallSnapshotResp (h : n.Owns) (src : NodeId) (li : Nat) :
    (n.handleInstallSnapshotResp src li).Owns := by
  unfold RaftNode.handleInstallSnapshotResp
  split
  · exact h
  · split
    · exact h
    · refine Owns.sent (Owns.maybeAdvanceCommit ?_) (sendAppend_sentFrom _ _)
      exact h.congr rfl rfl rfl

theorem Owns.dispatch (h : n.Owns) (hd : n.dispatch m = some n') : n'.Owns := by
  unfold RaftNode.dispatch at hd
  cases hb : m.body with
  | requestVote lli llt =>
    rw [hb] at hd
    cases hd
    unfold handleRequestVote
    dsimp only
    split
    · rw [setVote_eq]; exact h.congr rfl rfl rfl
    · exact h.congr rfl rfl rfl
  | requestVoteResp granted =>
    rw [hb] at hd
    cases hd
    unfold handleRequestVoteResp
    split
    · exact h
    · dsimp only
      split
      · exact owns_becomeLeader _
      · exact h.congr rfl rfl rfl
  | appendEntries prev prevTerm es lc ctx =>
    rw [hb] at hd
    exact owns_of_ne (by rw [(handleAppendEntries_heeds hd).role]; simp)
  | appendEntriesResp ok mi ci ctx => rw [hb] at hd; cases hd; exact h.handleAppendResp _ _ _ _ _
  | installSnapshot snap =>
    rw [hb] at hd
    cases hd
    exact owns_of_ne (by rw [(handleInstallSnapshot_heeds n m.src snap).role]; simp)
  | installSnapshotResp li => rw [hb] at hd; cases hd; exact h.handleInstallSnapshotResp _ _
  | preVote lli llt => rw [hb] at hd; cases hd; exact h.congr rfl rfl rfl
  | preVoteResp granted =>
    rw [hb] at hd
    cases hd
    unfold handlePreVoteResp
    split
    · split
      · exact owns_becomeFollower _ _ _
      · exact h
    · split
      · exact h
      · dsimp only
        split
        · exact owns_campaign _
        · exact h.congr rfl rfl rfl

theorem Owns.step (h : n.Owns) (hs : n.step m = some n') : n'.Owns := by
  unfold RaftNode.step at hs
  split at hs
  · exact h.dispatch hs
  · split at hs
    · exact (owns_becomeFollower _ _ _).dispatch hs
    · split at hs
      · cases hs
        unfold answerStale
        split <;> exact h.congr rfl rfl rfl
      · exact h.dispatch hs

theorem Owns.call (h : n.Owns) (hc : n.call c = some n') : n'.Owns := by
  cases c with
  | tick => cases hc; exact h.tick
  | step m => exact h.step hc
  | propose data =>
    cases hc
    unfold propose
    split
    · exact h
    · exact owns_appendLocal n _
  | proposeConfChange cc =>
    cases hc
    unfold proposeConfChange
    split
    · exact h
    · split
      · exact h
      · exact (owns_appendLocal n _).sent (syncProgressWithVoters_sentFrom _)
  | readIndex r =>
    cases hc
    unfold readIndex
    split
    · exact h
    · split
      · exact h
      · dsimp only
        split
        · exact h.congr rfl rfl rfl
        · refine Owns.sent ?_ (broadcastAppend_sentFrom _)
          exact h.congr rfl rfl rfl

end RaftNode

theorem lastTerm_compact {log : RaftLog} {idx term : Nat} (hlo : log.snapIndex < idx)
    (hterm : log.term idx = some term) : (log.compact idx term).lastTerm = log.lastTerm := by
  obtain ⟨-, hsnapt, hent⟩ := RaftLog.compact_eq term hlo
  unfold RaftLog.lastTerm
  rw [hent, hsnapt]
  unfold RaftLog.term at hterm
  rw [if_neg (by omega)] at hterm
  split at hterm
  · cases hterm
  · obtain ⟨e, he, rfl⟩ := Option.map_eq_some_iff.1 hterm
    have hlt := (List.getElem?_eq_some_iff.1 he).1
    rcases Nat.lt_or_ge (idx - log.snapIndex) log.entries.length with hmid | hend
    · rw [List.getLast?_drop, if_neg (by omega)]
      cases hlast : log.entries.getLast? with
      | none => rw [List.getLast?_eq_none_iff.1 hlast] at hmid; cases hmid
      | some x => rfl
    · have hlast : log.entries.getLast? = some e := by
        rw [List.getLast?_eq_getElem?, show log.entries.length - 1 = idx - log.snapIndex - 1 by omega, he]
      rw [List.drop_eq_nil_of_le hend, hlast]; rfl

theorem owns_of_run {ok : Cluster → Action → Prop} (cfg : NodeId → Config)
    (hr : Run voters ok (Cluster.init cfg voters) s) : ∀ i, (s.host i).raft.Owns := by
  refine hr.invariant (P := fun s => ∀ i, (s.host i).raft.Owns) (fun i hl => (by cases hl))
    fun {s t a} h _ he => ?_
  cases Cluster.exec_some he with
  | @call i c n' hdel hc =>
    refine forall_update (P := fun _ x => x.raft.Owns) ?_ h
    exact ((h i).call hc).congr rfl rfl rfl
  | idle => exact h
  | @compact i applied data snap n' hc =>
    obtain ⟨hlo, -, term, hterm, -, rfl⟩ := RaftNode.compact_some hc
    refine forall_update (P := fun _ x => x.raft.Owns) (fun hr => ?_) h
    exact (lastTerm_compact hlo hterm).trans (h i hr)
  | @restart i cfg n' hn =>
    refine forall_update (P := fun _ x => x.raft.Owns) ?_ h
    exact RaftNode.owns_of_ne (by simp [(RaftNode.new_some hn).1])

end RaftKv

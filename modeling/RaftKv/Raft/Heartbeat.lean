import RaftKv.Raft.Shape
import RaftKv.Raft.Lease

/-!
# No follower is silenced for good

A leader sends nothing to a follower whose snapshot transfer is pending, and nothing to one whose
previous index it cannot find a term for. Either could last forever: a transfer that was lost would
never be acknowledged. The way out is the retry of `send_append` after `election_tick_min` ticks, and
the heartbeat that comes to it.

While a leader has said nothing to `p`, the tick of its last snapshot to `p` stays where it was
(`Hushed`). So once `election_tick_min` ticks have passed no heartbeat can be held back any more, and
the next one is at most `heartbeat_tick` ticks away.

| here | there |
| --- | --- |
| `Addresses`  | a message for the peer in `Output` |
| `Hushed`     | what the calls of a leader do to `snapshot_sent_tick` and the clocks, other than `tick` |
| `Due`        | none of the early returns of `send_append` (`node.rs:485-510`) applies |
| `Reigns`     | a continuation in which the node stays leader of its term, with the number of its ticks |
-/

namespace RaftKv

open Relation RaftNode Function List

variable {voters : List NodeId} {hv : voters.Nodup} {g : Ghost} {s t u : Cluster} {i p q : NodeId}
  {n n' n'' n₀ : RaftNode}
  {c : Call} {m : Message} {k : Nat}

theorem Move.term_le (hm : Move c n₀ n n') : n.hs.term ≤ n'.hs.term := by
  cases hm with
  | stand _ => rw [stand_eq]; exact Nat.le_succ _
  | @follow t l _ =>
    rcases lt_or_ge n.hs.term t with hlt | hge
    · rw [becomeFollower_eq n l hlt]; exact le_of_lt hlt
    · rw [becomeFollower_same n l hge]; exact le_refl _
  | vote _ _ _ _ _ _ _ => rw [setVote_eq]; exact le_refl _
  | sync hr => rw [syncProgressWithVoters_sentFrom n]
  | _ => exact le_refl _

theorem Moves.term_le (h : Moves c n₀ n n') : n.hs.term ≤ n'.hs.term := by
  induction h with
  | refl => exact le_refl _
  | tail _ hm ih => exact le_trans ih hm.term_le

theorem RaftLog.exists_term {l : RaftLog} {idx : Nat} (hlo : l.snapIndex ≤ idx) (hhi : idx ≤ l.lastIndex) :
    ∃ t, l.term idx = some t := by
  unfold RaftLog.term
  split
  · exact ⟨_, rfl⟩
  · rw [if_neg (by omega)]
    have hlt : idx - l.snapIndex - 1 < l.entries.length := by
      rw [RaftLog.lastIndex] at hhi
      omega
    exact ⟨_, congrArg _ (getElem?_eq_getElem hlt)⟩

namespace RaftNode

/-! ## Saying nothing -/

/-- The output holds a message for `p`. -/
def Addresses (n : RaftNode) (p : NodeId) : Prop := ∃ m ∈ n.out.messages, m.src = n.cfg.id ∧ m.dst = p

/-- From `n` to `n'` no time passes, and a snapshot for `p` is stamped only together with a message for `p`. -/
structure Hushed (p : NodeId) (n n' : RaftNode) : Prop where
  cfg : n'.cfg = n.cfg
  tick : n'.tickCounter = n.tickCounter
  beat : n'.heartbeatElapsed = n.heartbeatElapsed
  messages : n.out.messages <+: n'.out.messages
  sent : n'.Addresses p ∨ ∀ {pr'}, n'.prs.find? p = some pr' →
    pr'.snapshotSentTick = 0 ∨ ∃ pr, n.prs.find? p = some pr ∧ pr'.snapshotSentTick = pr.snapshotSentTick

namespace Hushed

/-- Nothing about `p` is touched. -/
theorem congr (hcfg : n'.cfg = n.cfg) (htick : n'.tickCounter = n.tickCounter)
    (hbeat : n'.heartbeatElapsed = n.heartbeatElapsed) (hmsg : n.out.messages <+: n'.out.messages)
    (hprs : n'.prs.find? p = n.prs.find? p) : Hushed p n n' :=
  ⟨hcfg, htick, hbeat, hmsg, .inr fun {pr'} h => .inr ⟨pr', hprs ▸ h, rfl⟩⟩

theorem refl (p : NodeId) (n : RaftNode) : Hushed p n n := congr rfl rfl rfl prefix_rfl rfl

theorem addresses (h : Hushed p n n') (ha : n.Addresses p) : n'.Addresses p := by
  obtain ⟨m, hm, hsrc, hdst⟩ := ha
  exact ⟨m, h.messages.subset hm, h.cfg ▸ hsrc, hdst⟩

theorem trans (h : Hushed p n n') (h' : Hushed p n' n'') : Hushed p n n'' := by
  refine ⟨h'.cfg.trans h.cfg, h'.tick.trans h.tick, h'.beat.trans h.beat, h.messages.trans h'.messages, ?_⟩
  rcases h'.sent with ha | hs'
  · exact .inl ha
  · rcases h.sent with ha | hs
    · exact .inl (h'.addresses ha)
    · refine .inr fun {pr''} hpr'' => ?_
      rcases hs' hpr'' with hz | ⟨pr', hpr', heq'⟩
      · exact .inl hz
      · rcases hs hpr' with hz | ⟨pr, hpr, heq⟩
        · exact .inl (heq'.trans hz)
        · exact .inr ⟨pr, hpr, heq'.trans heq⟩

/-- A progress is replaced, with the old stamp. -/
theorem insert {pr pr' : Progress} (hpr : n.prs.find? q = some pr)
    (hsent : pr'.snapshotSentTick = pr.snapshotSentTick) : Hushed p n { n with prs := n.prs.insert q pr' } := by
  refine ⟨rfl, rfl, rfl, prefix_rfl, .inr fun {x} hx => .inr ?_⟩
  rw [OrdMap.find?_insert] at hx
  split at hx
  · rename_i hpq
    cases hx
    exact ⟨pr, hpq ▸ hpr, hsent⟩
  · exact ⟨x, hx, rfl⟩

theorem pushMsg (m : Message) : Hushed p n (n.pushMsg m) :=
  congr rfl rfl rfl (prefix_append _ _) rfl

theorem send (q : NodeId) (body : MessageBody) : Hushed p n (n.send q body) := pushMsg _

theorem sendAppend (n : RaftNode) (q : NodeId) : Hushed p n (n.sendAppend q) := by
  unfold RaftNode.sendAppend
  cases hpr : n.prs.find? q with
  | none => exact refl p n
  | some pr =>
    dsimp only
    split
    · exact refl p n
    · split
      · split
        · -- the one branch that stamps the progress, with the message that goes with it
          refine ⟨rfl, rfl, rfl, prefix_append _ _, ?_⟩
          by_cases hpq : p = q
          · exact .inl ⟨_, mem_append_right _ (mem_singleton.2 rfl), rfl, hpq.symm⟩
          · refine .inr fun {x} hx => .inr ⟨x, ?_, rfl⟩
            rwa [RaftNode.send, RaftNode.pushMsg, OrdMap.find?_insert, if_neg hpq] at hx
        · refine insert hpr ?_
          rfl
      · split
        · refine insert hpr ?_
          rfl
        · refine (insert hpr ?_).trans (send q _)
          split
          · split <;> rfl
          · split <;> rfl

theorem sendAll : ∀ (ps : List NodeId) (n : RaftNode), Hushed p n (ps.foldl RaftNode.sendAppend n)
  | [], n => refl p n
  | q :: ps, n => (sendAppend n q).trans (sendAll ps _)

theorem sync (n : RaftNode) : Hushed p n n.syncProgressWithVoters := by
  have heq := syncProgressWithVoters_sentFrom n
  have hout : n.syncProgressWithVoters.out = n.out := by
    unfold syncProgressWithVoters
    split <;> rfl
  refine ⟨by rw [heq], by rw [heq], by rw [heq], by rw [hout], .inr fun {pr'} hpr' => ?_⟩
  rcases sync_prs hpr' with hold | rfl
  · exact .inr ⟨pr', hold, rfl⟩
  · exact .inl rfl

theorem broadcastAppend (n : RaftNode) : Hushed p n n.broadcastAppend := (sync n).trans (sendAll _ _)

/-- A node that follows has no progress at all. -/
theorem becomeFollower (n : RaftNode) (t : Nat) (l : Option NodeId) : Hushed p n (n.becomeFollower t l) := by
  rcases lt_or_ge n.hs.term t with hlt | hge
  · rw [becomeFollower_eq n l hlt]
    exact ⟨rfl, rfl, rfl, prefix_rfl, .inr fun h => (by cases (OrdMap.find?_empty p).symm.trans h)⟩
  · rw [becomeFollower_same n l hge]
    exact ⟨rfl, rfl, rfl, prefix_rfl, .inr fun h => (by cases (OrdMap.find?_empty p).symm.trans h)⟩

theorem commitTo (n : RaftNode) (k : Nat) : Hushed p n (n.commitTo k) := congr rfl rfl rfl prefix_rfl rfl

theorem maybeAdvanceCommit (n : RaftNode) : Hushed p n n.maybeAdvanceCommit := by
  unfold RaftNode.maybeAdvanceCommit
  split
  · exact refl p n
  · split
    · exact refl p n
    · split
      · rename_i k _ h
        rcases advanceCommitTo_eq k (le_of_lt h.1) with heq | ⟨_, heq, _⟩
        · rw [heq]; exact commitTo n k
        · rw [heq]; exact (commitTo n k).trans (becomeFollower _ _ _)
      · exact refl p n

theorem appendLocal (n : RaftNode) (payload : EntryPayload) : Hushed p n (n.appendLocal payload).2 := by
  have hpush : Hushed p n (n.appendEntry payload) := congr rfl rfl rfl prefix_rfl rfl
  exact (hpush.trans (maybeAdvanceCommit _)).trans (broadcastAppend _)

theorem releaseReads (n : RaftNode) (ctx : Nat) : Hushed p n (n.releaseReads ctx) := congr rfl rfl rfl prefix_rfl rfl

theorem processReadAcks (n : RaftNode) : Hushed p n n.processReadAcks := by
  unfold RaftNode.processReadAcks
  split
  · exact refl p n
  · split
    · exact refl p n
    · split
      · exact releaseReads n _
      · exact refl p n

theorem readIndex (n : RaftNode) (r : Nat) : Hushed p n (n.readIndex r).2 := by
  have hreg : Hushed p n (n.register r) := congr rfl rfl rfl prefix_rfl rfl
  unfold RaftNode.readIndex
  split
  · exact refl p n
  · split
    · exact refl p n
    · dsimp only
      split
      · exact hreg.trans (releaseReads _ _)
      · exact hreg.trans (broadcastAppend _)

theorem sendRest (n : RaftNode) (src : NodeId) (li : Nat) : Hushed p n (n.sendRest src li) := by
  unfold RaftNode.sendRest
  split
  · exact sendAppend n src
  · exact refl p n

theorem handleAppendResp (hr : n.role = .leader) (src : NodeId) (success : Bool) (mi ci ctx : Nat) :
    Hushed p n (n.handleAppendResp src success mi ci ctx) := by
  cases hpr : n.prs.find? src with
  | none => rw [handleAppendResp_of_none fun _ => hpr]; exact refl p n
  | some pr =>
    cases success with
    | true =>
      rw [handleAppendResp_eq hr hpr]
      refine ((insert hpr ?_).trans (maybeAdvanceCommit _)).trans ((processReadAcks _).trans (sendRest _ _ _))
      rfl
    | false =>
      rcases Nat.eq_zero_or_pos ci with rfl | hci
      · rw [handleAppendResp_stale hr hpr]
        refine insert hpr ?_
        rfl
      · rw [handleAppendResp_refused hr hpr hci]
        refine (insert hpr ?_).trans (sendAppend _ _)
        rfl

theorem handleInstallSnapshotResp (n : RaftNode) (src : NodeId) (li : Nat) :
    Hushed p n (n.handleInstallSnapshotResp src li) := by
  unfold RaftNode.handleInstallSnapshotResp
  split
  · exact refl p n
  · cases hpr : n.prs.find? src with
    | none => exact refl p n
    | some pr =>
      refine (insert hpr ?_).trans ((maybeAdvanceCommit _).trans (sendAppend _ _))
      rfl

end Hushed

theorem dispatch_term_le {n' : RaftNode} (ht : isPreVote m.body = false → m.term = n.hs.term)
    (h : n.dispatch m = some n') : n.hs.term ≤ n'.hs.term := by
  have hmoves : Moves (.step m) n n n' := dispatch_moves (.inl rfl) (Untouched.refl n) ht h
  exact hmoves.term_le

/-- A message that leaves the leader in its term finds it still leading. -/
theorem Hushed.step (hr : n.role = .leader) (h : n.step m = some n') (hr' : n'.role = .leader)
    (ht : n'.hs.term = n.hs.term) : Hushed p n n' := by
  unfold RaftNode.step at h
  by_cases hpre : isPreVote m.body = true
  · unfold dispatch at h
    cases hb : m.body with
    | preVote lli llt => rw [hb] at h; cases h; exact .pushMsg _
    | preVoteResp granted =>
      rw [hb] at h
      cases h
      unfold handlePreVoteResp
      split
      · split
        · exact .becomeFollower n _ _
        · exact .refl p n
      · rw [if_pos (.inl (by simp [hr]))]
        exact .refl p n
    | _ => rw [hb] at hpre; cases hpre
  · rw [if_neg hpre] at h
    split at h
    · rename_i hgt
      have hterm : (n.becomeFollower m.term (announcedLeader m)).hs.term = m.term :=
        becomeFollower_hs_term (le_of_lt hgt)
      have hle := dispatch_term_le (fun _ => hterm.symm) h
      omega
    · split at h
      · cases h
        unfold answerStale
        split
        · exact .send _ _
        · exact .send _ _
        · exact .refl p n
      · unfold dispatch at h
        cases hb : m.body with
        | requestVote lli llt =>
          rw [hb] at h
          cases h
          unfold handleRequestVote
          dsimp only
          split
          · refine Hushed.trans ?_ (.send _ _)
            rw [setVote_eq]
            exact .congr rfl rfl rfl prefix_rfl rfl
          · exact .send _ _
        | requestVoteResp granted =>
          rw [hb] at h
          cases h
          unfold handleRequestVoteResp
          rw [if_pos (by simp [hr])]
          exact .refl p n
        | appendEntries prev prevTerm es lc ctx =>
          rw [hb] at h
          rw [(handleAppendEntries_heeds h).role] at hr'
          cases hr'
        | installSnapshot snap =>
          rw [hb] at h
          cases h
          rw [(handleInstallSnapshot_heeds n m.src snap).role] at hr'
          cases hr'
        | appendEntriesResp ok mi ci ctx => rw [hb] at h; cases h; exact .handleAppendResp hr _ _ _ _ _
        | installSnapshotResp li => rw [hb] at h; cases h; exact .handleInstallSnapshotResp n _ _
        | _ => rw [hb] at hpre; exact absurd rfl hpre

theorem Hushed.call (hr : n.role = .leader) (hc : n.call c = some n') (hr' : n'.role = .leader)
    (ht : n'.hs.term = n.hs.term) (hcall : c ≠ .tick) (hfix : ¬ c.changesConf) : Hushed p n n' := by
  cases c with
  | tick => exact absurd rfl hcall
  | step m => exact .step hr hc hr' ht
  | propose data =>
    cases hc
    unfold propose
    rw [if_neg (by simp [hr])]
    exact .appendLocal n _
  | proposeConfChange cc => exact absurd trivial hfix
  | readIndex r => cases hc; exact .readIndex n r

/-! ## Saying something -/

/-- `send_append` to `p` has no reason to return early. -/
structure Due (p : NodeId) (n : RaftNode) : Prop where
  progress : ∃ pr, n.prs.find? p = some pr ∧ 0 < pr.next ∧ pr.next ≤ n.log.lastIndex + 1 ∧
    (pr.pendingSnapshot = true → n.cfg.electionTickMin ≤ n.tickCounter - pr.snapshotSentTick)
  snapshot : 0 < n.log.snapIndex → ∃ snap, n.snapshot = some snap

theorem Due.sendAppend (h : n.Due p) : (n.sendAppend p).Addresses p := by
  obtain ⟨pr, hpr, hpos, hle, hpend⟩ := h.progress
  have haddr : ∀ (n₁ : RaftNode) (body : MessageBody), (n₁.send p body).Addresses p := fun n₁ body =>
    ⟨_, mem_append_right _ (mem_singleton.2 rfl), rfl, rfl⟩
  unfold RaftNode.sendAppend
  rw [hpr]
  dsimp only
  rw [if_neg fun hwait => not_lt.2 (hpend hwait.1) hwait.2]
  split
  · rename_i hbehind
    obtain ⟨snap, hsnap⟩ := h.snapshot (lt_of_lt_of_le hpos hbehind)
    rw [hsnap]
    exact haddr _ _
  · obtain ⟨prevTerm, hterm⟩ : ∃ t, n.log.term (pr.next - 1) = some t := RaftLog.exists_term (by omega) (by omega)
    rw [hterm]
    exact haddr _ _

theorem Due.sendOther (h : n.Due p) (hne : q ≠ p) : (n.sendAppend q).Due p := by
  have hsent := sendAppend_sentFrom n q
  have hprs : (n.sendAppend q).prs.find? p = n.prs.find? p := by
    rcases sendAppend_cases (c := .tick) n q with heq | ⟨_, _, _, _, _, heq | ⟨_, heq, _⟩⟩
    · rw [heq]
    · rw [heq]
      exact (OrdMap.find?_insert ..).trans (if_neg hne.symm)
    · rw [heq]
      exact (OrdMap.find?_insert ..).trans (if_neg hne.symm)
  obtain ⟨pr, hpr, hrest⟩ := h.progress
  refine ⟨⟨pr, hprs.trans hpr, ?_⟩, ?_⟩
  · rw [hsent]; exact hrest
  · rw [hsent]; exact h.snapshot

theorem Due.sendAll (ps : List NodeId) :
    ∀ {n : RaftNode}, n.Due p → p ∈ ps → (ps.foldl RaftNode.sendAppend n).Addresses p := by
  induction ps with
  | nil => exact fun _ hp => (by cases hp)
  | cons q ps ih =>
    intro n h hp
    by_cases hq : q = p
    · subst hq
      exact (Hushed.sendAll ps _).addresses h.sendAppend
    · exact ih (h.sendOther hq) ((mem_cons.1 hp).resolve_left fun he => hq he.symm)

/-- A broadcast reaches every peer that is due after the progress has been synchronised. -/
theorem Due.broadcast (h : n.syncProgressWithVoters.Due p) : n.broadcastAppend.Addresses p := by
  obtain ⟨pr, hpr, -⟩ := h.progress
  exact Due.sendAll _ h (OrdMap.mem_keys.2 ⟨pr, hpr⟩)

theorem tick_leader (hr : n.role = .leader) :
    n.tick = if n.cfg.heartbeatTick ≤ n.heartbeatElapsed + 1 then
        { n with tickCounter := n.tickCounter + 1, heartbeatElapsed := 0 }.broadcastAppend
      else { n with tickCounter := n.tickCounter + 1, heartbeatElapsed := n.heartbeatElapsed + 1 } := by
  unfold tick
  rw [if_pos hr]

/-! ## Stamps -/

/-- No snapshot was sent in the future. -/
structure Clocked (n : RaftNode) : Prop where
  stamp_le : ∀ {v pr}, n.prs.find? v = some pr → pr.snapshotSentTick ≤ n.tickCounter

theorem Clocked.congr (h : n.Clocked) (htick : n.tickCounter ≤ n'.tickCounter) (hprs : n'.prs = n.prs) : n'.Clocked :=
  ⟨fun hpr => le_trans (h.stamp_le (hprs ▸ hpr)) htick⟩

theorem clocked_of_empty (hprs : n.prs = ∅) : n.Clocked :=
  ⟨fun {v pr} hpr => by rw [hprs] at hpr; cases hpr⟩

theorem Clocked.insert (h : n.Clocked) {pr pr' : Progress} (hpr : n.prs.find? p = some pr)
    (hsent : pr'.snapshotSentTick ≤ Nat.max pr.snapshotSentTick n.tickCounter) :
    Clocked { n with prs := n.prs.insert p pr' } := by
  refine ⟨fun {v x} hx => ?_⟩
  rw [OrdMap.find?_insert] at hx
  split at hx
  · cases hx
    exact le_trans hsent (Nat.max_le.2 ⟨h.stamp_le hpr, le_refl _⟩)
  · exact h.stamp_le hx

theorem Clocked.move (h : n.Clocked) (hm : Move c n₀ n n') : n'.Clocked := by
  cases hm with
  | beat x _ _ => exact h.congr (Nat.le_succ _) rfl
  | wait _ _ => exact h.congr (Nat.le_succ _) rfl
  | stand _ => rw [stand_eq]; exact h.congr (le_refl _) rfl
  | win _ _ => exact ⟨fun hpr => by rw [win_prs hpr]; exact Nat.zero_le _⟩
  | @follow t l _ =>
    rcases lt_or_ge n.hs.term t with hlt | hge
    · rw [becomeFollower_eq n l hlt]; exact clocked_of_empty rfl
    · rw [becomeFollower_same n l hge]; exact clocked_of_empty rfl
  | vote _ _ _ _ _ _ _ => rw [setVote_eq]; exact h.congr (le_refl _) rfl
  | sync hr =>
    refine ⟨fun {v pr} hpr => ?_⟩
    rw [syncProgressWithVoters_sentFrom n]
    rcases sync_prs hpr with hold | rfl
    · exact h.stamp_le hold
    · exact Nat.zero_le _
  | pace hpr _ hpace => exact h.insert hpr hpace.sent_le
  | response _ _ _ _ hpr _ hpace => exact h.insert hpr hpace.sent_le
  | _ => exact h.congr (le_refl _) rfl

end RaftNode

theorem clocked_of_run {ok : Cluster → Action → Prop} (cfg : NodeId → Config)
    (hr : Run voters ok (Cluster.init cfg voters) s) : ∀ i, (s.host i).raft.Clocked := by
  refine hr.invariant (P := fun s => ∀ i, (s.host i).raft.Clocked) (fun i => RaftNode.clocked_of_empty rfl)
    fun {s t a} h _ he => ?_
  · cases Cluster.exec_some he with
    | @call i c n' hdel hc =>
      have hn : n'.Clocked := by
        have hmoves := call_moves hc
        clear hc he
        induction hmoves with
        | refl => exact h i
        | tail _ hm ih => exact ih.move hm
      refine forall_update (P := fun _ x => x.raft.Clocked) ?_ h
      exact hn.congr (le_refl _) rfl
    | idle => exact h
    | @compact i applied data snap n' hc =>
      obtain ⟨-, -, term, -, -, rfl⟩ := compact_some hc
      refine forall_update (P := fun _ x => x.raft.Clocked) ?_ h
      exact (h i).congr (le_refl _) rfl
    | @restart i cfg n' hn =>
      refine forall_update (P := fun _ x => x.raft.Clocked) ?_ h
      obtain ⟨log, _, rfl⟩ := Option.map_eq_some_iff.1 hn
      exact RaftNode.clocked_of_empty rfl

/-! ## A reign -/

/-- The ticks of node `i` in an action. -/
def Action.ticks (i : NodeId) (a : Action) : Nat :=
  match a with
  | .call j .tick => if j = i then 1 else 0
  | _ => 0

/-- A continuation of `s` in which node `i` stays leader of its term and is ticked `k` times; whatever else
happens is up to the hosts and the network. -/
inductive Reigns (voters : List NodeId) (i : NodeId) (s : Cluster) : Nat → Cluster → Prop
  | refl : Reigns voters i s 0 s
  | tail {k : Nat} {t u : Cluster} {a : Action} : Reigns voters i s k t → a.fixed → t.exec voters a = some u →
      (u.host i).raft.role = .leader → (u.host i).raft.hs.term = (t.host i).raft.hs.term →
      Reigns voters i s (k + a.ticks i) u

theorem Reigns.run (h : Reigns voters i s k t) : Run voters (fun _ a => a.fixed) s t := by
  induction h with
  | refl => exact .refl
  | tail _ hfix he _ _ ih => exact .tail ih hfix he

theorem Reigns.leader (h : Reigns voters i s k t) (hl : (s.host i).raft.role = .leader) :
    (t.host i).raft.role = .leader := by
  cases h with
  | refl => exact hl
  | tail _ _ _ hl' _ => exact hl'

/-- What the messages sent since `s` say. -/
def SpokenTo (s : Cluster) (i p : NodeId) (t : Cluster) : Prop := ∃ m ∈ t.net.drop s.net.length, m.src = i ∧ m.dst = p

/-- The leader `i` has been ticked `k` times since `s` and said nothing to `p`: the stamp of `p` is from before `s`,
and since `election_tick_min` ticks there has been no heartbeat. -/
structure Silent (s : Cluster) (i p : NodeId) (k : Nat) (n : RaftNode) : Prop where
  cfg : n.cfg = (s.host i).raft.cfg
  tick : n.tickCounter = (s.host i).raft.tickCounter + k
  sent : ∀ {pr}, n.prs.find? p = some pr → pr.snapshotSentTick ≤ (s.host i).raft.tickCounter
  beat : k - n.cfg.electionTickMin ≤ n.heartbeatElapsed
  short : 0 < k → n.heartbeatElapsed < n.cfg.heartbeatTick

theorem Silent.congr (h : Silent s i p k n) (hcfg : n'.cfg = n.cfg) (htick : n'.tickCounter = n.tickCounter)
    (hprs : n'.prs = n.prs) (hbeat : n'.heartbeatElapsed = n.heartbeatElapsed) : Silent s i p k n' := by
  refine ⟨hcfg.trans h.cfg, htick.trans h.tick, fun {pr} hpr => h.sent (hprs ▸ hpr), ?_, ?_⟩
  · rw [hcfg, hbeat]; exact h.beat
  · rw [hcfg, hbeat]; exact h.short

theorem Silent.hushed (h : Silent s i p k n) (hh : RaftNode.Hushed p n n') : n'.Addresses p ∨ Silent s i p k n' := by
  rcases hh.sent with ha | hs
  · exact .inl ha
  · refine .inr ⟨hh.cfg.trans h.cfg, hh.tick.trans h.tick, fun {pr'} hpr' => ?_, ?_, ?_⟩
    · rcases hs hpr' with hz | ⟨pr, hpr, heq⟩
      · rw [hz]; exact Nat.zero_le _
      · rw [heq]; exact h.sent hpr
    · rw [hh.cfg, hh.beat]; exact h.beat
    · rw [hh.cfg, hh.beat]; exact h.short

/-- A tick that sends no heartbeat brings the next one closer; one that does can only be hushed early on. -/
theorem Silent.tick_next (h : Silent s i p k n) (hr : n.role = .leader) (hw : Windows voters n)
    (hvot : n.voters = voters) (hpos : 0 < n.cfg.heartbeatTick) (hp : p ∈ voters) (hne : p ≠ n.cfg.id)
    (hsnap : 0 < n.log.snapIndex → ∃ snap, n.snapshot = some snap) :
    n.tick.Addresses p ∨ Silent s i p (k + 1) n.tick := by
  have hbeat := h.beat
  have htick := h.tick
  rw [RaftNode.tick_leader hr]
  split
  · -- a heartbeat
    have hn₁ : RaftNode.Hushed p { n with tickCounter := n.tickCounter + 1, heartbeatElapsed := 0 }
        { n with tickCounter := n.tickCounter + 1, heartbeatElapsed := 0 }.broadcastAppend := .broadcastAppend _
    by_cases hearly : k + 1 < n.cfg.electionTickMin
    · have hs : Silent s i p (k + 1) { n with tickCounter := n.tickCounter + 1, heartbeatElapsed := 0 } := by
        refine ⟨h.cfg, by rw [htick]; rfl, h.sent, ?_, fun _ => hpos⟩
        show k + 1 - n.cfg.electionTickMin ≤ 0
        omega
      exact hs.hushed hn₁
    · left
      refine RaftNode.Due.broadcast ⟨?_, ?_⟩
      · have hw' : Windows voters
            (syncProgressWithVoters { n with tickCounter := n.tickCounter + 1, heartbeatElapsed := 0 }) :=
          Windows.sync (n := { n with tickCounter := n.tickCounter + 1, heartbeatElapsed := 0 })
            (hw.congr rfl rfl (le_refl _)) hr hvot
        obtain ⟨pr, hpr⟩ := Option.isSome_iff_exists.1
          ((hw'.peers p).2 ⟨hp, by rw [syncProgressWithVoters_sentFrom]; exact hne⟩)
        obtain ⟨hnext, hle, -⟩ := hw'.window hpr
        refine ⟨pr, hpr, hnext, hle, fun hpend => ?_⟩
        rw [syncProgressWithVoters_sentFrom]
        show n.cfg.electionTickMin ≤ n.tickCounter + 1 - pr.snapshotSentTick
        rcases sync_prs hpr with hold | rfl
        · have := h.sent hold
          omega
        · cases hpend
      · rw [syncProgressWithVoters_sentFrom]
        exact hsnap
  · rename_i hdue
    refine .inr ⟨h.cfg, by rw [htick]; rfl, h.sent, ?_, fun _ => ?_⟩
    · show k + 1 - n.cfg.electionTickMin ≤ n.heartbeatElapsed + 1
      omega
    · exact Nat.lt_of_not_le hdue

theorem SpokenTo.mono (h : SpokenTo s i p t) (hnet : t.net <+: u.net) : SpokenTo s i p u := by
  obtain ⟨m, hm, hsrc, hdst⟩ := h
  exact ⟨m, (hnet.drop _).subset hm, hsrc, hdst⟩

/-- What a call puts into the output is on its way when the output has been drained. -/
theorem spokenTo_flush (hnet : s.net <+: t.net) (ha : n'.Addresses p) (hid : n'.cfg.id = i) :
    SpokenTo s i p (t.flush i n') := by
  obtain ⟨m, hm, hsrc, hdst⟩ := ha
  refine ⟨m, ?_, hsrc.trans hid, hdst⟩
  show m ∈ (t.net ++ n'.out.messages).drop s.net.length
  rw [drop_append_of_le_length hnet.length_le]
  exact mem_append_right _ hm

theorem Cluster.Exec.net_le {a : Action} (h : Cluster.Exec voters s a t) : s.net <+: t.net := by
  cases h with
  | call _ _ => exact prefix_append _ _
  | _ => exact prefix_rfl

/-- A call on the leader, other than a change of the configuration. -/
theorem Paced.silent_call (h : Paced voters hv g t) (hl : (t.host i).raft.role = .leader)
    (hs : Silent s i p k (t.host i).raft) (hpos : 0 < (t.host i).raft.cfg.heartbeatTick) (hp : p ∈ voters)
    (hne : p ≠ i) (hc : (t.host i).raft.call c = some n') (hfix : ¬ c.changesConf) (hl' : n'.role = .leader)
    (hterm : n'.hs.term = (t.host i).raft.hs.term) :
    n'.Addresses p ∨ Silent s i p (k + (Action.call i c).ticks i) n' := by
  by_cases htick : c = .tick
  · subst htick
    cases hc
    have hk : (Action.call i .tick).ticks i = 1 := if_pos rfl
    have hsnap : 0 < (t.host i).raft.log.snapIndex → ∃ snap, (t.host i).raft.snapshot = some snap := fun hpos =>
      let ⟨snap, hsnap, _⟩ := (h.shaped i).snapshot hpos
      ⟨snap, hsnap⟩
    rw [hk]
    exact hs.tick_next hl (h.windows i hl) ((h.inv.locals i).voters_fixed h.plain) hpos hp
      (by rw [(h.inv.locals i).id]; exact hne) hsnap
  · have hk : (Action.call i c).ticks i = 0 := by
      unfold Action.ticks
      cases c with
      | tick => exact absurd rfl htick
      | _ => rfl
    rw [hk]
    exact hs.hushed (.call hl hc hl' hterm htick hfix)

theorem Reigns.spoken_or_silent (cfg : NodeId → Config) (hv : voters.Nodup)
    (hr : Run voters (fun _ a => a.fixed) (Cluster.init cfg voters) s) (hl : (s.host i).raft.role = .leader)
    (hpos : 0 < (s.host i).raft.cfg.heartbeatTick) (hp : p ∈ voters) (hne : p ≠ i) (h : Reigns voters i s k t) :
    s.net <+: t.net ∧ (SpokenTo s i p t ∨ Silent s i p k (t.host i).raft) := by
  induction h with
  | refl =>
    refine ⟨prefix_rfl, .inr ⟨rfl, rfl, (clocked_of_run cfg hr i).stamp_le, ?_,
      fun hlt => absurd hlt (lt_irrefl 0)⟩⟩
    rw [Nat.zero_sub]
    exact Nat.zero_le _
  | @tail k t u a hreign hfix he hl' hterm ih =>
    obtain ⟨hnet, hor⟩ := ih
    have hexec := Cluster.exec_some he
    have hnet' := hexec.net_le
    refine ⟨hnet.trans hnet', ?_⟩
    rcases hor with hspoken | hs
    · exact .inl (hspoken.mono hnet')
    obtain ⟨g, hpaced⟩ := paced_of_run cfg voters hv (hr.trans hreign.run)
    have hlt := hreign.leader hl
    cases hexec with
    | @call j c n' hdel hc =>
      by_cases hj : j = i
      · subst hj
        have hself : ((t.flush j n').host j).raft = n'.takeOutput.2 := by
          rw [Cluster.flush, Cluster.flushTo_self]
        rw [hself] at hl' hterm ⊢
        rcases hpaced.silent_call hlt hs (hs.cfg ▸ hpos) hp hne hc (Action.not_changesConf hfix) hl' hterm with ha | hs'
        · refine .inl (spokenTo_flush hnet ha ?_)
          obtain ⟨g', hpaced'⟩ := hpaced.exec hfix he
          have hid := (hpaced'.inv.locals j).id
          rwa [hself] at hid
        · exact .inr (hs'.congr rfl rfl rfl rfl)
      · have hother : (t.flush j n').host i = t.host i := update_of_ne (Ne.symm hj) ..
        have hk : (Action.call j c).ticks i = 0 := by
          unfold Action.ticks
          cases c with
          | tick => exact if_neg hj
          | _ => rfl
        rw [hother, hk]
        exact .inr hs
    | idle => exact .inr hs
    | @compact j applied data snap n' hc =>
      by_cases hj : j = i
      · subst hj
        obtain ⟨-, -, term, -, -, rfl⟩ := compact_some hc
        rw [Cluster.compacted_self]
        exact .inr (hs.congr rfl rfl rfl rfl)
      · rw [show (t.compacted j applied snap n').host i = t.host i from update_of_ne (Ne.symm hj) ..]
        exact .inr hs
    | @restart j cfg' n' hn =>
      by_cases hj : j = i
      · subst hj
        have hself : (t.restarted j n').host j = { t.host j with raft := n' } := update_self ..
        rw [hself, (new_some hn).1] at hl'
        cases hl'
      · rw [show (t.restarted j n').host i = t.host i from update_of_ne (Ne.symm hj) ..]
        exact .inr hs

/-- **No follower is silenced for good.** A leader that stays leader says something to every other voter within
`election_tick_min + heartbeat_tick` of its ticks. -/
theorem never_silenced (cfg : NodeId → Config) (hv : voters.Nodup)
    (hr : Run voters (fun _ a => a.fixed) (Cluster.init cfg voters) s) (hl : (s.host i).raft.role = .leader)
    (hbeat : 1 ≤ (s.host i).raft.cfg.heartbeatTick) (hp : p ∈ voters) (hne : p ≠ i) (h : Reigns voters i s k t)
    (hk : (s.host i).raft.cfg.electionTickMin + (s.host i).raft.cfg.heartbeatTick ≤ k) : SpokenTo s i p t := by
  refine (h.spoken_or_silent cfg hv hr hl hbeat hp hne).2.resolve_right fun hs => ?_
  -- a silence this long has missed a heartbeat
  have hshort := hs.short (by omega)
  have hlong := hs.beat
  rw [hs.cfg] at hshort hlong
  omega

/-- Ticks alone leave a leader where it is. -/
theorem Reigns.ticked (h : Reigns voters i s k t) (hl : (s.host i).raft.role = .leader) :
    ∃ u, Reigns voters i s (k + 1) u := by
  have hlt := h.leader hl
  have htick : (t.host i).raft.tick.role = .leader ∧ (t.host i).raft.tick.hs = (t.host i).raft.hs := by
    rw [RaftNode.tick_leader hlt]
    split
    · rw [broadcastAppend_sentFrom]
      exact ⟨hlt, rfl⟩
    · exact ⟨hlt, rfl⟩
  have hk : (Action.call i .tick).ticks i = 1 := if_pos rfl
  have hself : ((t.flush i (t.host i).raft.tick).host i).raft = (t.host i).raft.tick.takeOutput.2 := by
    rw [Cluster.flush, Cluster.flushTo_self]
  refine ⟨_, hk ▸ h.tail (a := .call i .tick) trivial rfl ?_ ?_⟩
  · rw [hself]; exact htick.1
  · rw [hself]; exact congrArg HardState.term htick.2

theorem never_silenced_run :
    ∃ s t, Run [1, 2, 3] (fun _ a => a.fixed) (Cluster.init Config.quick [1, 2, 3]) s ∧
      ((s.host 1).raft.role = .leader ∧ (s.host 1).raft.cfg.heartbeatTick = 1 ∧
        (s.host 1).raft.cfg.electionTickMin = 1) ∧
      Reigns [1, 2, 3] 1 s 2 t ∧ SpokenTo s 1 3 t := by
  obtain ⟨s, hr, hP⟩ := Run.reached [1, 2, 3] (fun _ a => a.fixed) (Cluster.init Config.quick [1, 2, 3])
    (P := fun s => (s.host 1).raft.role = .leader ∧ (s.host 1).raft.cfg.heartbeatTick = 1 ∧
      (s.host 1).raft.cfg.electionTickMin = 1) Action.firstElection (by decide +kernel) (fun _ => by decide)
  have h₀ : Reigns [1, 2, 3] 1 s 0 s := .refl
  obtain ⟨t₁, h₁⟩ := h₀.ticked hP.1
  obtain ⟨t, h⟩ := h₁.ticked hP.1
  exact ⟨s, t, hr, hP, h, never_silenced Config.quick (by decide) hr hP.1 (by rw [hP.2.1]) (by decide) (by decide) h
    (by rw [hP.2.1, hP.2.2])⟩

end RaftKv

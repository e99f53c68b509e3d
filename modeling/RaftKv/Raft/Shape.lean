import RaftKv.Raft.ReadContexts

/-!
# The shape of a node

What the fields of a node have to do with each other, in every reachable state of a cluster with a
fixed membership: the log above its snapshot base, the commit index, the snapshot that is held for
slow followers, and the leader's view of each follower (`RaftNode.Shaped`).

The log part is a fact about one ledger (`Local.shaped`). The windows of a leader are kept by every
move (`Windows.move`): `send_append` never advances `next` beyond the log, and a response cannot do
so because what it acknowledges is a prefix of the leader's log (`Local.acked_le`).

| here | there |
| --- | --- |
| `RaftNode.Shaped`  | "`entries[0].index == snap_index + 1` always" (`log.rs:3`), and what the comments in `node.rs:46-75` say of the other fields |
| `Windows`          | `prs` of a leader: `next`, `inflight` (`node.rs:12-31`) |
-/

namespace RaftKv

open RaftNode

variable {voters : List NodeId} {hv : voters.Nodup} {g g' : Ghost} {s t : Cluster}
  {rec : Snapshot → List Entry → Prop} {D : Entry → Prop} {i : NodeId} {n n' n₀ : RaftNode}
  {base base' : List Entry} {c : Call} {m : Message}

structure RaftNode.Shaped (n : RaftNode) : Prop where
  contiguous : ∀ k e, n.log.entries[k]? = some e → e.index = n.log.snapIndex + 1 + k
  ascending : n.log.entries.Pairwise fun e e' => e.term ≤ e'.term
  terms : ∀ e ∈ n.log.entries, n.log.snapTerm ≤ e.term ∧ e.term ≤ n.hs.term
  snap_le : n.log.snapIndex ≤ n.commit
  commit_le : n.commit ≤ n.log.lastIndex
  snapshot : 0 < n.log.snapIndex → ∃ snap, n.snapshot = some snap ∧ snap.lastIndex = n.log.snapIndex ∧
    snap.lastTerm = n.log.snapTerm ∧ snap.voters = n.votersBase
  /-- A leader has a progress for each other voter, and for nobody else. -/
  peers : n.role = .leader → ∀ p, (n.prs.find? p).isSome ↔ p ∈ n.voters ∧ p ≠ n.cfg.id
  progress : n.role = .leader → ∀ p pr, n.prs.find? p = some pr → pr.matched ≤ n.log.lastIndex ∧ 1 ≤ pr.next ∧
    pr.next ≤ n.log.lastIndex + 1 ∧ pr.inflight ≤ n.cfg.maxInflight

/-! ## The log -/

theorem Local.pairwise_terms (h : Local voters hv g rec D i n base) :
    (base ++ n.log.entries).Pairwise fun e e' => e.term ≤ e'.term :=
  h.shared.sound.chain_pairwise h.log_chain

/-- The term of a snapshot base is that of its last entry. -/
theorem lastTermOf_le {e : Entry} {es : List Entry} (h : (base ++ es).Pairwise fun e e' => e.term ≤ e'.term)
    (he : e ∈ es) : lastTermOf base ≤ e.term := by
  rcases List.eq_nil_or_concat base with rfl | ⟨p, x, rfl⟩
  · exact Nat.zero_le _
  · rw [List.concat_eq_append, lastTermOf_concat]
    exact (List.pairwise_append.1 h).2.2 x (by simp) e he

theorem Local.terms_le (h : Local voters hv g rec D i n base) : ∀ e ∈ base ++ n.log.entries, e.term ≤ n.hs.term := by
  intro e he
  rw [← h.core.term_eq]
  rw [← h.core.log_eq] at he
  exact h.shared.sound.log_le i e he

/-- A leader's log reaches what its followers acknowledge. -/
theorem Local.acked_le (h : Local voters hv g rec D i n base) (hr : n.role = .leader) {v : NodeId} {k : Nat}
    (ha : AckedTo g v n.hs.term k) : k ≤ n.log.lastIndex := by
  obtain ⟨r, hreign, hl, -, -⟩ := h.role.leader hr
  rcases ha with rfl | ⟨p, hack, rfl⟩
  · exact Nat.zero_le _
  · obtain ⟨-, r', hreign', hp⟩ := h.shared.sound.ack_reign hack
    cases Ledger.Sound.reign_unique hreign hreign'
    rw [h.core.rel.lastIndex_eq, h.leader_log hreign hl]
    exact hp.length_le

theorem MsgOk.acked (h : MsgOk voters hv g rec m) : AckedTo g m.src m.term m.acked := by
  unfold MsgOk at h
  unfold Message.acked
  cases hb : m.body with
  | appendEntriesResp success matchIndex conflictIndex readCtx =>
    rw [hb] at h
    dsimp only
    split
    · rename_i hs
      exact h hs
    · exact .inl rfl
  | installSnapshotResp lastIndex =>
    rw [hb] at h
    exact h
  | _ => exact .inl rfl

/-! ## The windows of a leader -/

/-- The progress of a leader of `voters`, as far as it sends. -/
structure Windows (voters : List NodeId) (n : RaftNode) : Prop where
  peers : ∀ p, (n.prs.find? p).isSome ↔ p ∈ voters ∧ p ≠ n.cfg.id
  window : ∀ {p pr}, n.prs.find? p = some pr → 0 < pr.next ∧ pr.next ≤ n.log.lastIndex + 1 ∧
    pr.inflight ≤ n.cfg.maxInflight

theorem Windows.congr (h : Windows voters n) (hcfg : n'.cfg = n.cfg) (hprs : n'.prs = n.prs)
    (hlast : n.log.lastIndex ≤ n'.log.lastIndex) : Windows voters n' := by
  refine ⟨fun p => ?_, fun {p pr} hpr => ?_⟩
  · rw [hprs, hcfg]
    exact h.peers p
  · rw [hprs] at hpr
    rw [hcfg]
    obtain ⟨hpos, hle, hin⟩ := h.window hpr
    exact ⟨hpos, by omega, hin⟩

/-- The progress of a peer is replaced. -/
theorem Windows.insert (h : Windows voters n) {p : NodeId} {k : Nat} {pr pr' : Progress} (hpr : n.prs.find? p = some pr)
    (hpace : Paces n k pr pr') (hk : k ≤ n.log.lastIndex) : Windows voters { n with prs := n.prs.insert p pr' } := by
  refine ⟨fun q => ?_, fun {q qr} hqr => ?_⟩
  · rw [OrdMap.find?_insert]
    split
    · rename_i hq
      subst hq
      have hold := h.peers q
      rw [hpr] at hold
      exact hold
    · exact h.peers q
  · rw [OrdMap.find?_insert] at hqr
    split at hqr
    · cases hqr
      obtain ⟨hpos, hle, hin⟩ := h.window hpr
      refine ⟨hpace.next_pos hpos, le_trans hpace.next_le ?_, le_trans hpace.inflight_le ?_⟩
      · exact Nat.max_le.2 ⟨hle, Nat.succ_le_succ (Nat.max_le.2 ⟨le_refl _, hk⟩)⟩
      · exact Nat.max_le.2 ⟨hin, le_refl _⟩
    · exact h.window hqr

theorem windows_win (hvot : n.voters = voters) : Windows voters n.win := by
  refine ⟨fun p => ?_, fun {p pr} hpr => ?_⟩
  · have hkeys := OrdMap.isSome_find?_foldl_insert (fun _ peer => peer ≠ n.cfg.id) (Progress.new (n.log.lastIndex + 1))
      (P := fun peer => peer ≠ n.cfg.id) (fun _ _ h => h) (fun _ _ h => .inl h) p n.voters ∅
    rw [hvot] at hkeys
    rw [win, hvot]
    simpa using hkeys
  · rw [win_prs hpr]
    exact ⟨Nat.succ_pos _, le_refl _, Nat.zero_le _⟩

theorem Windows.sync (h : Windows voters n) (hr : n.role = .leader) (hvot : n.voters = voters) :
    Windows voters n.syncProgressWithVoters := by
  have heq : n.syncProgressWithVoters = { n with prs := n.syncProgressWithVoters.prs } := by
    unfold syncProgressWithVoters
    rw [if_neg (by simp [hr])]
  rw [heq]
  refine ⟨fun p => ?_, fun {p pr} hpr => ?_⟩
  · have hkeys := OrdMap.isSome_find?_foldl_insert (fun prs peer => peer ≠ n.cfg.id ∧ (OrdMap.find? prs peer).isNone)
      (Progress.new (n.log.lastIndex + 1)) (P := fun peer => peer ≠ n.cfg.id) (fun _ _ h => h.1)
        (fun prs peer h => ?_) p
      n.voters n.prs
    · unfold syncProgressWithVoters
      rw [if_neg (by simp [hr])]
      have hfilter : ∀ o : Option Progress, (o.filter fun _ => voters.contains p).isSome ↔ o.isSome ∧ p ∈ voters := by
        intro o
        cases o <;> simp [Option.filter]
      rw [OrdMap.find?_filter, hvot, hfilter]
      rw [hvot] at hkeys
      have hall := hkeys.trans (or_congr_left (h.peers p))
      constructor
      · rintro ⟨hmem, hp⟩
        exact (hall.1 hmem).elim id fun h' => ⟨hp, h'.2⟩
      · rintro ⟨hp, hne⟩
        exact ⟨hall.2 (.inl ⟨hp, hne⟩), hp⟩
    · cases hf : prs.find? peer with
      | none => exact .inl ⟨h, by simp⟩
      | some _ => exact .inr rfl
  · rcases sync_prs hpr with hold | rfl
    · exact h.window hold
    · exact ⟨Nat.succ_pos _, le_refl _, Nat.zero_le _⟩

/-- Every move of a leader keeps its windows. -/
theorem Windows.move (h : n.role = .leader → Windows voters n) (hl : Local voters hv g rec D i n base) (hp : Plain g)
    (hok : CallOk voters hv g rec i n₀ c) (hm : Move c n₀ n n') (hr : n'.role = .leader) : Windows voters n' := by
  have keep : n'.role = n.role → n'.cfg = n.cfg → n'.prs = n.prs → n.log.lastIndex ≤ n'.log.lastIndex →
    Windows voters n' :=
    fun hrole hcfg hprs hlast => (h (hrole ▸ hr)).congr hcfg hprs hlast
  cases hm with
  | preCampaign _ _ _ _ _ => cases hr
  | stand _ => cases hr
  | win _ _ => exact windows_win (hl.voters_fixed hp)
  | follow _ => cases hr
  | listen _ _ _ => cases hr
  | vote _ _ _ _ _ _ _ =>
    rw [setVote_eq] at hr ⊢
    exact (h hr).congr rfl rfl (le_refl _)
  | append hl' _ =>
    refine keep rfl rfl rfl ?_
    rw [appendEntry, RaftLog.lastIndex_push]
    exact Nat.le_succ _
  | adopt _ _ hf _ _ _ _ _ =>
    rw [show n.role = .leader from hr] at hf
    cases hf
  | install _ _ hf _ _ _ _ =>
    rw [show n.role = .leader from hr] at hf
    cases hf
  | sync hl' => exact (h hl').sync hl' (hl.voters_fixed hp)
  | pace hpr _ hpace => exact (h hr).insert hpr hpace (Nat.zero_le _)
  | response hstep ht hl' _ hpr _ hpace =>
    subst hstep
    have hacked := hok.2.acked
    rw [ht] at hacked
    exact (h hl').insert hpr hpace (hl.acked_le hl' hacked)
  | _ => exact keep rfl rfl rfl (le_refl _)

/-! ## The cluster -/

/-- A cluster with a fixed membership, and with leaders whose windows are in order. -/
structure Paced (voters : List NodeId) (hv : voters.Nodup) (g : Ghost) (s : Cluster) : Prop where
  inv : Inv voters hv g s
  plain : Plain g
  windows : ∀ i, (s.host i).raft.role = .leader → Windows voters (s.host i).raft

theorem paced_init (cfg : NodeId → Config) (voters : List NodeId) (hv : voters.Nodup) :
    Paced voters hv Ghost.init (Cluster.init cfg voters) :=
  ⟨Inv.init cfg voters hv, fun hr => (by cases hr), fun _ hr => (by cases hr)⟩

theorem Paced.moved (h : Paced voters hv g s) (hfix : ¬ c.changesConf)
    (hok : CallOk voters hv g s.Recorded i (s.host i).raft c) (hm : Moves c (s.host i).raft (s.host i).raft n')
    (hdur : Durable (s.host i).disk n') : ∃ g', Paced voters hv g' (s.flush i n') := by
  obtain ⟨g', -, hinv, hp, hw⟩ := h.inv.moved (P := fun g n => Plain g ∧
    (n.role = .leader → Windows voters n)) hok hm hdur
    ⟨h.plain, h.windows i⟩ fun g₁ g₂ n₁ n₂ base₁ base₂ hle hl hm hf hl' hP =>
      ⟨hf.plain hfix hP.1, Windows.move hP.2 hl hP.1 (hok.mono hle) hm⟩
  refine ⟨g', hinv, hp, ?_⟩
  refine forall_update (P := fun _ x => x.raft.role = .leader → Windows voters x.raft)
    (fun hr => ?_) h.windows
  exact (hw hr).congr rfl rfl (le_refl _)

theorem Paced.call (h : Paced voters hv g s) (hfix : ¬ c.changesConf)
    (hok : CallOk voters hv g s.Recorded i (s.host i).raft c) (hc : (s.host i).raft.call c = some n') :
    ∃ g', Paced voters hv g' (s.flush i n') :=
  h.moved hfix hok (call_moves hc) (h.inv.durable_call hc)

theorem Paced.exec {a : Action} (h : Paced voters hv g s) (hfix : a.fixed) (he : s.exec voters a = some t) :
    ∃ g', Paced voters hv g' t := by
  cases Cluster.exec_some he with
  | @call i c n' hdel hc =>
    exact h.call (Action.not_changesConf hfix) (h.inv.callOk hdel (confReady_of_fixed hfix)) hc
  | idle => exact ⟨g, h⟩
  | @compact i applied data snap n' hc =>
    obtain ⟨hlo, hhi, term, hterm, -, hn⟩ := compact_some hc
    refine ⟨g, h.inv.compact hc, h.plain, ?_⟩
    refine forall_update (P := fun _ x => x.raft.role = .leader → Windows voters x.raft)
      (fun hr => ?_) h.windows
    have hle : (s.host i).raft.commit ≤ (s.host i).raft.log.lastIndex := by
      rw [(h.inv.locals i).core.rel.lastIndex_eq]
      exact (h.inv.locals i).core.commit_le
    subst hn
    exact (h.windows i hr).congr rfl rfl (RaftLog.lastIndex_compact term hlo (le_trans hhi hle)).symm.le
  | @restart i cfg n' hn =>
    refine ⟨g, h.inv.restart rfl hn, h.plain, ?_⟩
    refine forall_update (P := fun _ x => x.raft.role = .leader → Windows voters x.raft)
      (fun hr => ?_) h.windows
    rw [show n'.role = .follower from (new_some hn).1] at hr
    cases hr

theorem paced_of_run (cfg : NodeId → Config) (voters : List NodeId) (hv : voters.Nodup)
    (hr : Run voters (fun _ a => a.fixed) (Cluster.init cfg voters) s) : ∃ g, Paced voters hv g s :=
  hr.invariant (P := fun s => ∃ g, Paced voters hv g s) ⟨_, paced_init cfg voters hv⟩ fun ⟨_, h⟩ hfix he =>
    h.exec hfix he

theorem Paced.shaped (h : Paced voters hv g s) (i : NodeId) : (s.host i).raft.Shaped := by
  have hl := h.inv.locals i
  have hrel := hl.core.rel
  have hmono := hl.pairwise_terms
  refine
    { contiguous := (s.host i).raft.log.contiguous
      ascending := (List.pairwise_append.1 hmono).2.1
      terms := fun e he => ⟨?_, hl.terms_le e (List.mem_append_right _ he)⟩
      snap_le := hrel.len ▸ hl.core.snap_le
      commit_le := hrel.lastIndex_eq ▸ hl.core.commit_le
      snapshot := fun hpos => ?_
      peers := fun hr p => ?_
      progress := fun hr p pr hpr => ?_ }
  · rw [hrel.term]
    exact lastTermOf_le hmono he
  · cases hs : (s.host i).raft.snapshot with
    | none =>
      rw [hrel.len, hl.core.snap_none hs] at hpos
      cases hpos
    | some snap =>
      obtain ⟨hok, -⟩ := hl.shared.recorded (hl.core.snap_some hs)
      exact ⟨snap, rfl, hok.index.trans hrel.len.symm, hok.term.trans hrel.term.symm,
        hok.voters_eq.trans hl.core.voters_eq.symm⟩
  · rw [hl.voters_fixed h.plain]
    exact (h.windows i hr).peers p
  · obtain ⟨-, -, -, -, hacked⟩ := hl.role.leader hr
    obtain ⟨hpos, hle, hin⟩ := (h.windows i hr).window hpr
    exact ⟨hl.acked_le hr (hacked hpr), hpos, hle, hin⟩

/-- The representation invariant of every node, with a fixed membership. -/
theorem representation_fixed (cfg : NodeId → Config) (voters : List NodeId) (hv : voters.Nodup)
    (hr : Run voters (fun _ a => a.fixed) (Cluster.init cfg voters) s) (i : NodeId) : (s.host i).raft.Shaped := by
  obtain ⟨g, h⟩ := paced_of_run cfg voters hv hr
  exact h.shaped i

/-- Node 1 leads with a compacted log and an entry that is not committed. -/
theorem representation_fixed_run :
    ∃ s, Run [1, 2, 3] (fun _ a => a.fixed) (Cluster.init Config.quick [1, 2, 3]) s ∧
      ((s.host 1).raft.role = .leader ∧ (s.host 1).raft.log.snapIndex = 1 ∧ (s.host 1).raft.log.lastIndex = 2) ∧
      (s.host 1).raft.Shaped := by
  obtain ⟨s, hr, hP⟩ := Run.reached [1, 2, 3] (fun _ a => a.fixed) (Cluster.init Config.quick [1, 2, 3])
    (P := fun s => (s.host 1).raft.role = .leader ∧ (s.host 1).raft.log.snapIndex = 1 ∧
      (s.host 1).raft.log.lastIndex = 2)
    (Action.firstCommit ++ [.call 1 (.propose [7]), .compact 1 1 []]) (by decide +kernel) (fun _ => by decide)
  exact ⟨s, hr, hP, representation_fixed Config.quick [1, 2, 3] (by decide) hr 1⟩

end RaftKv

import RaftKv.Raft.Matching

/-!
# The configuration is a function of the logical log

`voters` (`node.rs:142`) folds the conf changes of the entries in memory over `voters_base`. The base
is moved by `compact`, `handle_install_snapshot` and `RaftNode::new`; the log is cut by
`truncate_from`. Whatever a run does, also one in which configuration changes break the protocol,
the result is the fold over the whole logical log: `voters_base` is the configuration of the
snapshot, and a snapshot carries the configuration of the prefix it was taken of.

| here | there |
| --- | --- |
| `RaftNode.Seated`     | log base and `voters_base` are those of `snapshot`, or of an empty log |
| `Configured`          | every snapshot on a node, on disk or in flight was taken of some prefix |
| `Host.FollowsLog`     | `voters()` before and after `compact`, a restart and `truncate_from` |
-/

namespace RaftKv

open RaftNode Function RaftLog

variable {voters : List NodeId} {s t : Cluster} {i : NodeId} {n n' n₀ : RaftNode} {c : Call} {base : List Entry}

/-! ## One node -/

/-- The base of the log is what the snapshot says it is. -/
structure RaftNode.Seated (voters : List NodeId) (n : RaftNode) : Prop where
  fresh : n.snapshot = none → n.log.snapIndex = 0 ∧ n.log.snapTerm = 0 ∧ n.votersBase = voters
  snapped : ∀ {snap}, n.snapshot = some snap →
    n.log.snapIndex = snap.lastIndex ∧ n.log.snapTerm = snap.lastTerm ∧ n.votersBase = snap.voters

theorem RaftNode.Seated.congr (h : n.Seated voters) (hsnap : n'.snapshot = n.snapshot)
    (hvot : n'.votersBase = n.votersBase) (hidx : n'.log.snapIndex = n.log.snapIndex)
    (hterm : n'.log.snapTerm = n.log.snapTerm) : n'.Seated voters := by
  refine ⟨fun hn => ?_, fun {snap} hs => ?_⟩
  · rw [hidx, hterm, hvot]; exact h.fresh (hsnap ▸ hn)
  · rw [hidx, hterm, hvot]; exact h.snapped (hsnap ▸ hs)

theorem RaftNode.findNew_base : ∀ {es new : List Entry} {log log₁ : RaftLog} {commit : Nat},
    RaftNode.findNew log commit es = some (log₁, new) → log₁.snapIndex = log.snapIndex ∧ log₁.snapTerm = log.snapTerm
  | [], _, _, _, _, h => by cases h; exact ⟨rfl, rfl⟩
  | e :: es, new, log, log₁, commit, h => by
    unfold RaftNode.findNew at h
    split at h
    · split at h
      · exact findNew_base h
      · split at h
        · cases h; exact ⟨rfl, rfl⟩
        · cases h
    · cases h; exact ⟨rfl, rfl⟩

theorem RaftNode.Seated.move (h : n.Seated voters) (hm : Move c n₀ n n') : n'.Seated voters := by
  cases hm with
  | stand _ => rw [stand_eq]; exact h.congr rfl rfl rfl rfl
  | @follow t l _ =>
    rcases Nat.lt_or_ge n.hs.term t with hlt | hge
    · rw [becomeFollower_eq n l hlt]; exact h.congr rfl rfl rfl rfl
    · rw [becomeFollower_same n l hge]; exact h.congr rfl rfl rfl rfl
  | vote _ _ _ _ _ _ _ => rw [setVote_eq]; exact h.congr rfl rfl rfl rfl
  | sync hr =>
    rw [syncProgressWithVoters, if_neg (by simp [hr])]
    exact h.congr rfl rfl rfl rfl
  | adopt _ _ _ _ _ _ hfind hpush =>
    obtain ⟨-, hidx, hterm⟩ := pushAll_eq hpush
    obtain ⟨hidx', hterm'⟩ := RaftNode.findNew_base hfind
    exact h.congr rfl rfl (hidx.trans hidx') (hterm.trans hterm')
  | install _ _ _ _ _ _ _ => exact ⟨fun hn => (by cases hn), fun hs => by cases hs; exact ⟨rfl, rfl, rfl⟩⟩
  | _ => exact h.congr rfl rfl rfl rfl

/-- Every snapshot the node holds or hands out was taken of some prefix. -/
structure RaftNode.Carries (rec : Snapshot → List Entry → Prop) (n : RaftNode) : Prop where
  own : ∀ {snap}, n.snapshot = some snap → ∃ p, rec snap p
  sent : ∀ m ∈ n.out.messages, ∀ {snap}, m.body = .installSnapshot snap → ∃ p, rec snap p

theorem RaftNode.Carries.move {rec : Snapshot → List Entry → Prop} (h : n.Carries rec)
    (hin : ∀ m snap, c = .step m → m.body = .installSnapshot snap → ∃ p, rec snap p) (hm : Move c n₀ n n') :
    n'.Carries rec := by
  cases hm with
  | stand _ => rw [stand_eq]; exact ⟨h.own, h.sent⟩
  | @follow t l _ =>
    rcases Nat.lt_or_ge n.hs.term t with hlt | hge
    · rw [becomeFollower_eq n l hlt]; exact ⟨h.own, h.sent⟩
    · rw [becomeFollower_same n l hge]; exact ⟨h.own, h.sent⟩
  | vote _ _ _ _ _ _ _ => rw [setVote_eq]; exact ⟨h.own, h.sent⟩
  | sync hr =>
    rw [syncProgressWithVoters, if_neg (by simp [hr])]
    exact ⟨h.own, h.sent⟩
  | @install m s hstep _ _ _ hb _ _ => exact ⟨fun hs => by cases hs; exact hin m s hstep hb, h.sent⟩
  | @push m hsays =>
    refine ⟨h.own, fun m' hm' {snap} hb => ?_⟩
    rcases List.mem_append.1 hm' with hm' | hm'
    · exact h.sent m' hm' hb
    · rw [List.mem_singleton.1 hm'] at hb
      have hsays := hsays.2
      rw [hb] at hsays
      exact h.own hsays.2.2
  | _ => exact ⟨h.own, h.sent⟩

/-! ## The cluster -/

/-- What holds of a host, if `recd` has the snapshots with the prefixes that they stand for. -/
structure HostConfigured (voters : List NodeId) (recd : Snapshot → List Entry → Prop) (x : Host) : Prop where
  seated : x.raft.Seated voters
  own : ∀ {snap}, x.raft.snapshot = some snap → recd snap x.base
  bare : x.raft.snapshot = none → x.base = []
  drained : x.raft.out = {}
  durable : x.disk = x.raft.durable

structure Configured (voters : List NodeId) (s : Cluster) : Prop where
  hosts : ∀ i, HostConfigured voters s.Recorded (s.host i)
  net : ∀ m ∈ s.net, ∀ {snap}, m.body = .installSnapshot snap → ∃ p, s.Recorded snap p
  recorded : ∀ {snap p}, s.Recorded snap p → SnapOk voters snap p

theorem configured_init (cfg : NodeId → Config) (voters : List NodeId) :
    Configured voters (Cluster.init cfg voters) where
  hosts _ := ⟨⟨fun _ => ⟨rfl, rfl, rfl⟩, fun hs => (nomatch hs)⟩, fun hs => (nomatch hs), fun _ => rfl, rfl, rfl⟩
  net _ hm := by cases hm
  recorded hp := by cases hp

/-- The snapshot of node `i` stands for the prefix `p`. -/
def Cluster.StandsFor (s : Cluster) (i : NodeId) (p : List Entry) : Prop :=
  match (s.host i).raft.snapshot with
  | none => p = []
  | some snap => s.Recorded snap p

/-- Whichever prefix the snapshot stands for, it is a base of the log. -/
theorem Configured.rel_standsFor (h : Configured voters s) {p : List Entry} (hp : s.StandsFor i p) :
    LogRel p (s.host i).raft.log ∧ (s.host i).raft.votersBase = confOf voters p := by
  unfold Cluster.StandsFor at hp
  cases hs : (s.host i).raft.snapshot with
  | none =>
    rw [hs] at hp
    subst hp
    obtain ⟨hidx, hterm, hvot⟩ := (h.hosts i).seated.fresh hs
    exact ⟨⟨hidx, hterm⟩, hvot⟩
  | some snap =>
    rw [hs] at hp
    obtain ⟨hidx, hterm, hvot⟩ := (h.hosts i).seated.snapped hs
    have hok := h.recorded hp
    exact ⟨⟨hidx.trans hok.index, hterm.trans hok.term⟩, hvot.trans hok.voters_eq⟩

theorem Configured.standsFor (h : Configured voters s) (i : NodeId) : s.StandsFor i (s.host i).base := by
  unfold Cluster.StandsFor
  cases hs : (s.host i).raft.snapshot with
  | none => exact (h.hosts i).bare hs
  | some snap => exact (h.hosts i).own hs

theorem Configured.rel (h : Configured voters s) (i : NodeId) :
    LogRel (s.host i).base (s.host i).raft.log ∧ (s.host i).raft.votersBase = confOf voters (s.host i).base :=
  h.rel_standsFor (h.standsFor i)

theorem Configured.call (h : Configured voters s) (hdel : s.deliverable i c = true)
    (hc : (s.host i).raft.call c = some n') : Configured voters (s.flush i n') := by
  have hmoves := call_moves hc
  have hseated : n'.Seated voters := by
    clear hc
    induction hmoves with
    | refl => exact (h.hosts i).seated
    | tail _ hm ih => exact ih.move hm
  have hcarries : n'.Carries s.Recorded := by
    clear hc hseated
    induction hmoves with
    | refl =>
      refine ⟨fun hs => ⟨_, (h.hosts i).own hs⟩, fun m hm => ?_⟩
      rw [(h.hosts i).drained] at hm
      cases hm
    | tail _ hm ih =>
      refine ih.move (fun m snap hstep hb => ?_) hm
      subst hstep
      exact h.net m (Cluster.deliverable_step hdel).2 hb
  have hdur : Durable (s.host i).disk n' := by
    refine Durable.call (n := (s.host i).raft) ?_ hc fun _ => by rw [(h.hosts i).drained]
    unfold Durable
    rw [(h.hosts i).drained, (h.hosts i).durable]; rfl
  have hsnap : n'.out.snapshot.or (s.host i).raft.snapshot = n'.snapshot := by
    have := (durable_iff.1 hdur).2.1
    rwa [(h.hosts i).durable] at this
  refine ⟨forall_update (P := fun _ x => HostConfigured voters s.Recorded x) ?_ h.hosts, fun m hm => ?_, h.recorded⟩
  · refine ⟨⟨hseated.fresh, hseated.snapped⟩, fun {snap} hs => ?_, fun hs => ?_, rfl, hdur⟩
    · have hs : n'.snapshot = some snap := hs
      rw [← hsnap] at hs
      cases ho : n'.out.snapshot with
      | none => rw [ho] at hs; exact (h.hosts i).own hs
      | some snap' =>
        rw [ho] at hs
        cases hs
        obtain ⟨p, hp⟩ := hcarries.own (by rw [← hsnap, ho]; rfl)
        exact Cluster.prefixOf_recorded hp
    · have hs : n'.snapshot = none := hs
      rw [← hsnap, Option.or_eq_none_iff] at hs
      rw [hs.1]; exact (h.hosts i).bare hs.2
  · rcases List.mem_append.1 hm with hm | hm
    · exact h.net m hm
    · exact hcarries.sent m hm

variable {applied : Nat} {data : Bytes}

theorem Configured.compact (h : Configured voters s) {snap : Snapshot}
    (hc : (s.host i).raft.compact applied data = (some snap, n')) :
    Configured voters (s.compacted i applied snap n') := by
  obtain ⟨hlo, hhi, term, hterm, rfl, rfl⟩ := compact_some hc
  obtain ⟨hsnap, hsnapt, hent⟩ := compact_eq term hlo
  obtain ⟨hrel, hvot⟩ := h.rel i
  obtain ⟨hb, hle, hlast⟩ := hrel.term_some hterm
  refine ⟨forall_update (P := fun _ x => HostConfigured voters (s.compacted i applied _ _).Recorded x) ?_ fun j => ?_,
    fun m hm {snap'} hb' => ?_, fun {snap' p} hp => ?_⟩
  · refine ⟨⟨fun hs => (by cases hs), fun hs => by cases hs; exact ⟨hsnap, hsnapt, rfl⟩⟩, fun {snap'} hs => ?_,
      fun hs => (by cases hs), (h.hosts i).drained, ?_⟩
    · cases hs
      exact List.mem_append_right _ (List.mem_singleton.2 rfl)
    · rw [(h.hosts i).durable]
      unfold Persisted.compactTo RaftNode.durable
      rw [filter_index_gt (Nat.le_of_lt hlo), hent]
  · exact { h.hosts j with own := fun hs => List.mem_append_left _ ((h.hosts j).own hs) }
  · obtain ⟨p, hp⟩ := h.net m hm hb'
    exact ⟨p, List.mem_append_left _ hp⟩
  · rcases List.mem_append.1 hp with hp | hp
    · exact h.recorded hp
    · obtain ⟨rfl, rfl⟩ := Prod.mk.inj (List.mem_singleton.1 hp)
      exact ⟨(List.length_take_of_le hle).symm, hlast.symm, votersAt_eq hrel hvot hb⟩

theorem RaftNode.new_durable_some (hseat : n.Seated voters) (cfg : Config) :
    ∃ n', new cfg voters n.durable = some n' := by
  have hcontig := isContiguous_iff.2 n.log.contiguous
  unfold new RaftNode.durable
  cases hs : n.snapshot with
  | none =>
    rw [(hseat.fresh hs).1] at hcontig
    dsimp only
    rw [new_contiguous hcontig]
    exact ⟨_, rfl⟩
  | some snap =>
    rw [(hseat.snapped hs).1] at hcontig
    dsimp only
    rw [new_contiguous hcontig]
    exact ⟨_, rfl⟩

/-- What `RaftNode::new` makes of the disk of a node. -/
theorem RaftNode.new_durable {cfg : Config} (hseat : n.Seated voters) (hn : new cfg voters n.durable = some n') :
    n'.snapshot = n.snapshot ∧ n'.log.entries = n.log.entries ∧ n'.log.snapIndex = n.log.snapIndex ∧
      n'.log.snapTerm = n.log.snapTerm ∧ n'.votersBase = n.votersBase ∧ n'.hs = n.hs ∧ n'.out = {} := by
  cases hs : n.snapshot with
  | none =>
    obtain ⟨hidx, hterm, hvot⟩ := hseat.fresh hs
    simp only [RaftNode.durable, hs] at hn
    obtain ⟨log, hlog, rfl⟩ := Option.map_eq_some_iff.1 hn
    obtain ⟨h1, h2, h3⟩ := new_eq_some hlog
    exact ⟨rfl, h3, h1.trans hidx.symm, h2.trans hterm.symm, hvot.symm, rfl, rfl⟩
  | some snap =>
    obtain ⟨hidx, hterm, hvot⟩ := hseat.snapped hs
    simp only [RaftNode.durable, hs] at hn
    obtain ⟨log, hlog, rfl⟩ := Option.map_eq_some_iff.1 hn
    obtain ⟨h1, h2, h3⟩ := new_eq_some hlog
    exact ⟨rfl, h3, h1.trans hidx.symm, h2.trans hterm.symm, hvot.symm, rfl, rfl⟩

theorem Configured.restart (h : Configured voters s) {cfg : Config}
    (hn : new cfg voters (s.host i).disk = some n') : Configured voters (s.restarted i n') := by
  rw [(h.hosts i).durable] at hn
  obtain ⟨hsnap, hent, hidx, hterm, hvot, hhs, hout⟩ := RaftNode.new_durable (h.hosts i).seated hn
  refine ⟨forall_update (P := fun _ x => HostConfigured voters s.Recorded x) ?_ h.hosts, h.net, h.recorded⟩
  refine ⟨(h.hosts i).seated.congr hsnap hvot hidx hterm, fun hs => (h.hosts i).own (hsnap ▸ hs),
    fun hs => (h.hosts i).bare (hsnap ▸ hs), hout, ?_⟩
  rw [(h.hosts i).durable]
  unfold RaftNode.durable
  rw [hhs, hent, hsnap]

theorem Configured.exec {a : Action} (h : Configured voters s) (he : s.exec voters a = some t) :
    Configured voters t := by
  cases Cluster.exec_some he with
  | call hdel hc => exact h.call hdel hc
  | idle => exact h
  | compact hc => exact h.compact hc
  | restart hn => exact h.restart hn

theorem configured_of_run {ok : Cluster → Action → Prop} (cfg : NodeId → Config)
    (hr : Run voters ok (Cluster.init cfg voters) s) : Configured voters s :=
  hr.invariant (configured_init cfg voters) fun h _ he => h.exec he

/-! ## What a node calls its configuration -/

/-- `voters` of node `i` is the fold over its logical log, and none of the three operations that move the base
or cut the tail folds a change twice or loses one. -/
structure Cluster.FollowsLog (voters : List NodeId) (s : Cluster) (i : NodeId) (p : List Entry) : Prop where
  nodup : (s.host i).raft.voters.Nodup
  fold : (s.host i).raft.voters = confOf voters (p ++ (s.host i).raft.log.entries)
  compact : ∀ applied data, ((s.host i).raft.compact applied data).2.voters = (s.host i).raft.voters
  restart : ∀ cfg, ∃ n', new cfg voters (s.host i).disk = some n' ∧ n'.voters = (s.host i).raft.voters
  truncate : ∀ idx (h : (s.host i).raft.log.snapIndex < idx),
    { (s.host i).raft with log := (s.host i).raft.log.truncateFrom idx h }.voters =
      confOf voters ((p ++ (s.host i).raft.log.entries).take (idx - 1))

theorem RaftNode.compact_none (h : n.compact applied data = (none, n')) : n' = n := by
  unfold RaftNode.compact at h
  split at h
  · cases h; rfl
  · split at h
    · cases h; rfl
    · cases h

/-- `compact` moves entries from the log to the base; the fold over both stays. -/
theorem voters_compact (hrel : LogRel base n.log)
    (hvot : n.votersBase = confOf voters base) : (n.compact applied data).2.voters = n.voters := by
  cases hc : n.compact applied data with
  | mk out n' =>
    cases out with
    | none => rw [RaftNode.compact_none hc]
    | some snap =>
      obtain ⟨hlo, hhi, term, hterm, rfl, rfl⟩ := compact_some hc
      obtain ⟨hsnap, hsnapt, hent⟩ := compact_eq term hlo
      obtain ⟨hb, hle, hlast⟩ := hrel.term_some hterm
      have hbase : LogRel ((base ++ n.log.entries).take applied) (n.log.compact applied term) :=
        ⟨hsnap.trans (List.length_take_of_le hle).symm, hsnapt.trans hlast.symm⟩
      have hmoved : (base ++ n.log.entries).take applied ++ (n.log.compact applied term).entries =
          base ++ n.log.entries := by
        rw [hent, hrel.len, List.take_append, List.take_of_length_le hb, List.append_assoc, List.take_append_drop]
      rw [voters_eq hrel hvot, ← hmoved]
      exact voters_eq hbase (votersAt_eq hrel hvot hb)

/-- **The configuration is a function of the logical log.** -/
theorem voters_of_log (cfg : NodeId → Config) (hv : voters.Nodup)
    (hr : Run voters (fun _ _ => True) (Cluster.init cfg voters) s) (i : NodeId) :
    (∃ p, s.StandsFor i p) ∧ ∀ p, s.StandsFor i p → s.FollowsLog voters i p := by
  have h := configured_of_run cfg hr
  refine ⟨⟨_, h.standsFor i⟩, fun p hp => ?_⟩
  obtain ⟨hrel, hvot⟩ := h.rel_standsFor hp
  have hfold := voters_eq hrel hvot
  refine ⟨hfold ▸ confOf_nodup hv _, hfold, fun applied data => voters_compact hrel hvot, fun cfg => ?_,
    fun idx hidx => ?_⟩
  · rw [(h.hosts i).durable]
    obtain ⟨n', hn⟩ := RaftNode.new_durable_some (h.hosts i).seated cfg
    obtain ⟨-, hent, hidx, hterm, hvot', -⟩ := RaftNode.new_durable (h.hosts i).seated hn
    have hrel' : LogRel p n'.log := ⟨hidx.trans hrel.len, hterm.trans hrel.term⟩
    exact ⟨n', hn, by rw [voters_eq hrel' (hvot'.trans hvot), hent, hfold]⟩
  · have hcut : LogRel p ((s.host i).raft.log.truncateFrom idx hidx) := ⟨hrel.len, hrel.term⟩
    refine (voters_eq (n := { (s.host i).raft with log := (s.host i).raft.log.truncateFrom idx hidx }) hcut
      hvot).trans ?_
    have hlen := hrel.len
    have htake : (p ++ (s.host i).raft.log.entries).take (idx - 1) =
        p ++ (s.host i).raft.log.entries.take (idx - (s.host i).raft.log.snapIndex - 1) := by
      rw [List.take_append, List.take_of_length_le (by omega), hlen, Nat.sub_right_comm]
    rw [htake, entries_truncateFrom]

theorem voters_of_log_run :
    ∃ s, Run [1, 2, 3] (fun _ _ => True) (Cluster.init Config.quick [1, 2, 3]) s ∧
      ((s.host 1).raft.log.snapIndex = 1 ∧ (s.host 1).raft.voters = [1, 2, 3, 4]) ∧
      ∀ p, s.StandsFor 1 p → s.FollowsLog [1, 2, 3] 1 p := by
  obtain ⟨s, hr, hP⟩ := Run.reached [1, 2, 3] (fun _ _ => True) (Cluster.init Config.quick [1, 2, 3])
    (P := fun s => (s.host 1).raft.log.snapIndex = 1 ∧ (s.host 1).raft.voters = [1, 2, 3, 4])
    (Action.firstCommit ++ [.call 1 (.proposeConfChange (.addNode 4)), .compact 1 1 [], .restart 1 (Config.quick 1)])
    (by decide +kernel) (fun _ _ _ => trivial)
  exact ⟨s, hr, hP, (voters_of_log Config.quick (by decide) hr 1).2⟩

end RaftKv

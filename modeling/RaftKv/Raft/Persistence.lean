import RaftKv.Raft.Matching
import RaftKv.Raft.Shape

/-!
# What the disks and the network keep

Facts about whole runs, with crashes and restarts at any point, that the ledger (`Inv`) settles: a
vote that was granted stays on the voter's disk (`handle_request_vote`, `node.rs:725`), a leader only
appends to its log and all its batches are slices of it (`append_local`, `node.rs:390`, and
`send_append`, `node.rs:475`), and what a node hands out as committed is on the disks of a majority
(`maybe_advance_commit`, `node.rs:545`).
-/

namespace RaftKv

variable {voters : List NodeId} {hv : voters.Nodup} {g g' : Ghost} {s t : Cluster} {i j : NodeId}

/-! ## Votes -/

/-- A vote of the ledger is on the disk of a voter that is still in the term. -/
theorem Inv.vote_on_disk (h : Inv voters hv g s) {T : Nat} {c : NodeId} {lv : List Entry}
    (hvote : g.led.vote i T = some (c, lv)) :
    T ≤ (s.host i).disk.hardState.term ∧
      (T = (s.host i).disk.hardState.term → (s.host i).disk.hardState.votedFor = some c) := by
  have hcore := (h.locals i).core
  rw [h.durable i]
  refine ⟨hcore.term_eq ▸ (h.locals i).shared.sound.vote_term hvote, fun hterm => ?_⟩
  rw [hterm] at hvote
  cases hvf : (s.host i).raft.hs.votedFor with
  | none => cases hvote.symm.trans (hcore.vote_none hvf)
  | some c' =>
    obtain ⟨lv', hsome⟩ := hcore.vote_some hvf
    cases hvote.symm.trans hsome
    exact hvf

theorem Inv.granted (h : Inv voters hv g s) {m : Message} (hm : m ∈ s.net) (hb : m.body = .requestVoteResp true) :
    ∃ lv, g.led.vote m.src m.term = some (m.dst, lv) := by
  have hok := h.net m hm
  unfold MsgOk at hok
  rw [hb] at hok
  exact hok rfl

/-- No node's term on disk ever falls and its vote in a term never changes; a granted vote is on the disk of the voter
until its term ends, and nobody grants two votes in a term. Of the runs, the ledger covers those in which a leader
proposes a configuration change only when its commit index lies in its own term (`ConfReady`). -/
theorem votes_kept (cfg : NodeId → Config) (voters : List NodeId) (hv : voters.Nodup)
    (hs : Run voters ConfReady (Cluster.init cfg voters) s) (ht : Run voters ConfReady s t) :
    (∀ i, (s.host i).disk.hardState.term ≤ (t.host i).disk.hardState.term ∧
      ∀ c, (s.host i).disk.hardState.votedFor = some c →
        (s.host i).disk.hardState.term = (t.host i).disk.hardState.term → (t.host i).disk.hardState.votedFor = some c) ∧
    ∀ m ∈ t.net, m.body = .requestVoteResp true →
      m.term ≤ (t.host m.src).disk.hardState.term ∧
      (m.term = (t.host m.src).disk.hardState.term → (t.host m.src).disk.hardState.votedFor = some m.dst) ∧
      ∀ m' ∈ t.net, m'.body = .requestVoteResp true → m'.src = m.src → m'.term = m.term → m'.dst = m.dst := by
  obtain ⟨g, _, h⟩ := (Inv.init cfg voters hv).run (fun _ _ => id) hs
  obtain ⟨g', hle, h'⟩ := h.run (fun _ _ => id) ht
  refine ⟨fun i => ⟨?_, fun c hc hterm => ?_⟩, fun m hm hb => ?_⟩
  · rw [h.durable i, h'.durable i]
    have hgrow := hle.ext.term i
    rw [(h.locals i).core.term_eq, (h'.locals i).core.term_eq] at hgrow
    exact hgrow
  · rw [h.durable i] at hc hterm
    obtain ⟨lv, hvote⟩ := (h.locals i).core.vote_some hc
    exact (h'.vote_on_disk (hle.ext.vote hvote)).2 hterm
  · obtain ⟨lv, hvote⟩ := h'.granted hm hb
    obtain ⟨hterm, hdisk⟩ := h'.vote_on_disk hvote
    refine ⟨hterm, hdisk, fun m' hm' hb' hsrc hterm' => ?_⟩
    obtain ⟨lv', hvote'⟩ := h'.granted hm' hb'
    rw [hsrc, hterm', hvote] at hvote'
    exact (Prod.mk.inj (Option.some.inj hvote')).1.symm

/-- Node 2 restarts after it has voted for node 1. -/
theorem votes_kept_restarted :
    ∃ t, Run [1, 2, 3] ConfReady (Cluster.init Config.quick [1, 2, 3]) t ∧
      ({ src := 2, dst := 1, term := 1, body := .requestVoteResp true } ∈ t.net ∧ (t.host 2).raft.tickCounter = 0 ∧
        (t.host 2).disk.hardState.term = 1) ∧ (t.host 2).disk.hardState.votedFor = some 1 := by
  obtain ⟨t, hr, hm, htick, hterm⟩ := Run.reached [1, 2, 3] (fun _ a => a.fixed) (Cluster.init Config.quick [1, 2, 3])
    (P := fun t => { src := 2, dst := 1, term := 1, body := .requestVoteResp true } ∈ t.net ∧
      (t.host 2).raft.tickCounter = 0 ∧ (t.host 2).disk.hardState.term = 1)
    (Action.firstElection ++ [.restart 2 (Config.quick 2)]) (by decide +kernel) (fun _ => by decide)
  have hr' : Run [1, 2, 3] ConfReady (Cluster.init Config.quick [1, 2, 3]) t := hr.mono fun _ _ => confReady_of_fixed
  have hkept := (votes_kept Config.quick [1, 2, 3] (by decide) .refl hr').2 _ hm rfl
  exact ⟨t, hr', ⟨hm, htick, hterm⟩, hkept.2.1 hterm.symm⟩

/-! ## The log of a leader -/

/-- The batch `m` carries `e` as the entry at index `k`. -/
def Message.CarriesAt (m : Message) (k : Nat) (e : Entry) : Prop :=
  match m.body with
  | .appendEntries prev _ entries _ _ => prev < k ∧ entries[k - prev - 1]? = some e
  | _ => False

theorem Inv.carried (h : Inv voters hv g s) {m : Message} {k : Nat} {e : Entry} (hm : m ∈ s.net)
    (hc : m.CarriesAt k e) : ∃ r, g.led.reign m.term = some r ∧ r.leader = m.src ∧ r.log[k - 1]? = some e := by
  have hok := h.net m hm
  unfold MsgOk at hok
  unfold Message.CarriesAt at hc
  split at hc
  · rename_i prev prevTerm entries leaderCommit ctx hb
    rw [hb] at hok
    obtain ⟨r, p, -, hr, hl, ⟨x, hx⟩, hlen, -⟩ := hok
    refine ⟨r, hr, hl, ?_⟩
    rw [← hx, List.append_assoc, List.getElem?_append_right (by omega), hlen, show k - 1 - prev = k - prev - 1 by omega,
      List.getElem?_append_left (List.getElem?_eq_some_iff.1 hc.2).1]
    exact hc.2
  · exact hc.elim

/-- A leader never changes or drops an entry of its log, in memory, on disk or behind its snapshot, as long as it leads.
All batches of its term, whenever they are sent, come from it and carry the entries of its log. This is about runs
in which a leader proposes a configuration change only when its commit index lies in its own term (`ConfReady`);
without that, two nodes may lead one term. -/
theorem leader_appends_only (cfg : NodeId → Config) (voters : List NodeId) (hv : voters.Nodup)
    (hs : Run voters ConfReady (Cluster.init cfg voters) s) (ht : Run voters ConfReady s t)
    (hi : (s.host i).raft.role = .leader) :
    (∀ j, (t.host j).raft.role = .leader → (t.host j).raft.hs.term = (s.host i).raft.hs.term →
      j = i ∧ (s.host i).logical <+: (t.host j).logical) ∧
    ∀ m ∈ t.net, ∀ k e, m.term = (s.host i).raft.hs.term → m.CarriesAt k e →
      m.src = i ∧ ∀ e', (s.host i).logical[k - 1]? = some e' → e = e' := by
  obtain ⟨g, _, h⟩ := (Inv.init cfg voters hv).run (fun _ _ => id) hs
  obtain ⟨g', hle, h'⟩ := h.run (fun _ _ => id) ht
  obtain ⟨r₀, hr₀, hl₀, hlog₀⟩ := h.leader_reign hi
  obtain ⟨r, hr, hl, -, hgrow⟩ := hle.ext.reign hr₀
  refine ⟨fun j hj hterm => ⟨(h.leader_unique h' hle hi hj hterm.symm).symm, ?_⟩, fun m hm k e hterm hc => ?_⟩
  · obtain ⟨r', hr', -, hlog⟩ := h'.leader_reign hj
    rw [hterm, hr] at hr'
    cases hr'
    rw [Host.logical, Host.logical, hlog₀, hlog]
    exact hgrow
  · obtain ⟨r', hr', hl', he⟩ := h'.carried hm hc
    rw [hterm, hr] at hr'
    cases hr'
    refine ⟨hl'.symm.trans (hl.trans hl₀), fun e' he' => ?_⟩
    rw [Host.logical, hlog₀] at he'
    obtain ⟨x, hx⟩ := hgrow
    rw [← hx, List.getElem?_append_left (List.getElem?_eq_some_iff.1 he').1, he'] at he
    exact (Option.some.inj he).symm

/-- The first batch of node 1, which has taken a proposal since. -/
theorem leader_appends_only_proposed :
    ∃ s, Run [1, 2, 3] ConfReady (Cluster.init Config.quick [1, 2, 3]) s ∧
      ((s.host 1).raft.role = .leader ∧ (s.host 1).raft.hs.term = 1 ∧ Message.firstBatch ∈ s.net) ∧
      ∀ e, (s.host 1).logical[0]? = some e → ⟨1, 1, .noop⟩ = e := by
  obtain ⟨s, hr, hl, hterm, hm⟩ := Run.reached [1, 2, 3] (fun _ a => a.fixed) (Cluster.init Config.quick [1, 2, 3])
    (P := fun s => (s.host 1).raft.role = .leader ∧ (s.host 1).raft.hs.term = 1 ∧ Message.firstBatch ∈ s.net)
    (Action.firstElection ++ [.call 1 (.propose [7])]) (by decide +kernel) (fun _ => by decide)
  have hr' : Run [1, 2, 3] ConfReady (Cluster.init Config.quick [1, 2, 3]) s := hr.mono fun _ _ => confReady_of_fixed
  have hkept := (leader_appends_only Config.quick [1, 2, 3] (by decide) hr' .refl hl).2 _ hm 1 ⟨1, 1, .noop⟩ hterm.symm
  exact ⟨s, hr', ⟨hl, hterm, hm⟩, (hkept ⟨by decide, rfl⟩).2⟩

/-! ## Committed entries -/

/-- What was announced is in the logs of a majority: later leaders have it, so nobody was made to drop it. -/
theorem Inv.announced_on_majority (h : Inv voters hv g s) (hp : Plain g) {T : Nat} {p : List Entry} (hne : p ≠ [])
    (ha : Announced voters hv g T p) : ∃ Q, IsMajority voters Q ∧ ∀ v ∈ Q, p <+: (s.host v).logical := by
  have hsound := (h.locals 0).shared.sound
  obtain ⟨b, m, d, -, hC, hpm, -⟩ := ha.resolve_left hne
  obtain ⟨r, Q, hr, hd, -, -, -, hQ, hacks⟩ := id hC
  have hconf : confOf voters d = voters :=
    confOf_of_no_conf (List.countP_eq_zero.2 fun e he => by simp [hp hr e (hd.subset he)])
  refine ⟨Q, ?_, fun v hvQ => ?_⟩
  · have hQ' : IsMajority (confOf voters d) Q := hQ
    rwa [hconf] at hQ'
  · obtain ⟨m', hack, hmm'⟩ := hacks v hvQ
    rw [← h.logical_eq v]
    rcases hsound.ack_kept v b m m' hack hmm' with hkept | ⟨T', r', hlt, -, hr', hnot⟩
    · exact hpm.trans hkept
    · exact absurd (hsound.elected_complete hr' hC hlt) hnot

/-- Every entry that a node has handed out is, at all times since, on the disks of a majority of the voters: in the
log or behind the snapshot, where the entries that it replaced are those of `base`. -/
theorem delivered_on_majority (cfg : NodeId → Config) (voters : List NodeId) (hv : voters.Nodup)
    (hs : Run voters (fun _ a => a.fixed) (Cluster.init cfg voters) s) {d : Delivery} (hd : d ∈ s.delivered) :
    ∃ Q, IsMajority voters Q ∧ ∀ v ∈ Q, d.entry ∈ (s.host v).disk.entries ∨
      ∃ snap, (s.host v).disk.snapshot = some snap ∧ d.entry.index ≤ snap.lastIndex ∧
        (s.host v).base[d.entry.index - 1]? = some d.entry := by
  obtain ⟨g, h⟩ := paced_of_run cfg voters hv hs
  obtain ⟨p, ha, hidx⟩ := h.inv.delivered d hd
  obtain ⟨Q, hQ, hlogs⟩ := h.inv.announced_on_majority h.plain (by simp) ha
  refine ⟨Q, hQ, fun v hvQ => ?_⟩
  rw [h.inv.durable v]
  have hget : (s.host v).logical[p.length]? = some d.entry := by
    obtain ⟨x, hx⟩ := hlogs v hvQ
    rw [← hx]
    simp
  rcases Nat.lt_or_ge p.length (s.host v).base.length with hlt | hge
  · -- behind the snapshot
    rw [Host.logical, List.getElem?_append_left hlt] at hget
    rw [← (h.inv.locals v).core.rel.len] at hlt
    obtain ⟨snap, hsnap, hlast, -⟩ := (h.shaped v).snapshot (Nat.zero_lt_of_lt hlt)
    exact Or.inr ⟨snap, hsnap, by rw [hlast, hidx]; exact hlt, by rw [hidx]; exact hget⟩
  · rw [Host.logical, List.getElem?_append_right hge] at hget
    exact Or.inl (List.mem_of_getElem? hget)

/-- The no-op of node 1, which its leader has compacted away. -/
theorem delivered_on_majority_compacted :
    ∃ s d, Run [1, 2, 3] (fun _ a => a.fixed) (Cluster.init Config.quick [1, 2, 3]) s ∧
      (d ∈ s.delivered ∧ (s.host 1).disk.entries = []) ∧
      ∃ Q, IsMajority [1, 2, 3] Q ∧ ∀ v ∈ Q, d.entry ∈ (s.host v).disk.entries ∨
        ∃ snap, (s.host v).disk.snapshot = some snap ∧ d.entry.index ≤ snap.lastIndex ∧
          (s.host v).base[d.entry.index - 1]? = some d.entry := by
  obtain ⟨s, hr, hd, hnil⟩ := Run.reached [1, 2, 3] (fun _ a => a.fixed) (Cluster.init Config.quick [1, 2, 3])
    (P := fun s => ⟨1, 1, .leader, ⟨1, 1, .noop⟩⟩ ∈ s.delivered ∧ (s.host 1).disk.entries = [])
    (Action.firstCommit ++ [.compact 1 1 []]) (by decide +kernel) (fun _ => by decide)
  exact ⟨s, _, hr, ⟨hd, hnil⟩, delivered_on_majority Config.quick [1, 2, 3] (by decide) hr hd⟩

end RaftKv

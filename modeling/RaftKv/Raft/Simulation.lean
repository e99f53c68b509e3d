import RaftKv.Raft.SimReplication

/-!
# A call keeps the coupling

Commitment, and the one-step lemma `Local.move` over all moves; `Local.call` chains it over a whole
call of a node, whose other half is `Local.frame`: what a call on one node does to the others.
-/

namespace RaftKv

open Relation RaftNode List

variable {voters : List NodeId} {hv : voters.Nodup} {g g' : Ghost}
  {rec : Snapshot → List Entry → Prop} {D : Entry → Prop} {i : NodeId} {n n' n₀ : RaftNode}
  {base : List Entry} {c : Call} {conf : Prop}

/-! ## Commitment -/

variable {k : Nat} {p : NodeId}

theorem RaftNode.mem_newlyCommitted {e : Entry} :
    e ∈ n.newlyCommitted k ↔ ∃ idx, n.commit < idx ∧ idx ≤ k ∧ n.log.get idx = some e := by
  unfold newlyCommitted
  rw [mem_filterMap]
  refine exists_congr fun idx => ?_
  rw [mem_range'_1, and_assoc]
  constructor
  · rintro ⟨h1, h2, h3⟩; exact ⟨by omega, by omega, h3⟩
  · rintro ⟨h1, h2, h3⟩; exact ⟨by omega, by omega, h3⟩

/-- An entry within a committed prefix may be delivered. -/
theorem deliveredOk_of_get {T idx : Nat} {e : Entry} {log : RaftLog} (hrel : LogRel base log)
    (ha : Announced voters hv g T ((base ++ log.entries).take k)) (hidx : idx ≤ k) (he : log.get idx = some e) :
    DeliveredOk voters hv g T e := by
  obtain ⟨hlt, hget⟩ := hrel.get_eq.1 he
  have hlen := (List.getElem?_eq_some_iff.1 hget).1
  have hidx1 : idx - 1 + 1 = idx := by omega
  have htake : (base ++ log.entries).take idx = (base ++ log.entries).take (idx - 1) ++ [e] := by
    conv => lhs; rw [← hidx1]
    rw [take_add_one, hget]; rfl
  refine ⟨(base ++ log.entries).take (idx - 1), ?_, ?_⟩
  · rw [← htake]
    exact ha.anti (take_prefix_take_left hidx)
  · rw [RaftLog.get_index he, length_take_of_le (le_of_lt hlen)]; omega

theorem OutOk.commitTo {T : Nat} (hrel : LogRel base n.log)
    (ha : Announced voters hv g T ((base ++ n.log.entries).take k))
    (h : OutOk voters hv g rec D T base n.log n.commit n.out.messages n.out.committed n.out.snapshot) :
    OutOk voters hv g rec D T base n.log k n.out.messages (n.out.committed ++ n.newlyCommitted k) n.out.snapshot := by
  refine ⟨h.messages_ok, fun e he => ?_, h.snapshot_ok, fun {idx e} he hle => ?_⟩
  · rcases mem_append.1 he with he | he
    · exact h.committed_ok e he
    · obtain ⟨idx, _, hle, hget⟩ := mem_newlyCommitted.1 he
      exact deliveredOk_of_get hrel ha hle hget
  · by_cases hc : idx ≤ n.commit
    · exact (h.covered he hc).imp id fun hm => mem_append_left _ hm
    · exact .inr (mem_append_right _ (mem_newlyCommitted.2 ⟨idx, by omega, hle, he⟩))

theorem Local.commitTo (h : Local voters hv g rec D i n base) (hk : n.commit ≤ k)
    (hkl : k ≤ (base ++ n.log.entries).length)
    (ha : Announced voters hv g n.hs.term ((base ++ n.log.entries).take k)) :
    Local voters hv g rec D i (n.commitTo k) base := by
  have hc := h.core
  refine ⟨h.shared, h.id, ?_, ⟨fun hr => ?_, h.role.cand⟩, h.out.commitTo hc.rel ha⟩
  · exact ⟨hc.term_eq, hc.vote_some, hc.vote_none, hc.log_eq, hc.rel, hc.snap_none, hc.snap_some, hc.voters_eq,
      le_trans hc.snap_le hk, hkl, ha⟩
  · obtain ⟨r, hr', hl, hd, hp⟩ := h.role.leader hr
    exact ⟨r, hr', hl, le_trans hd hk, hp⟩

theorem announce_done (g : Ghost) (T k : Nat) : (g.announce T k).done T = Nat.max (g.done T) k :=
  Function.update_self ..

/-- The ledger follows a move of node `i` from `n` to `n'`, in a call on `n₀`. Commitment is announced by a
leader, when it reaches an entry of its own term; a vote is cast by a pre-candidate that stands, or on request. -/
structure Follows (c : Call) (n₀ : RaftNode) (i : NodeId) (g : Ghost) (n : RaftNode) (g' : Ghost) (n' : RaftNode) :
    Prop extends Frame c.changesConf i g g' where
  announces : g'.done = g.done ∨ ∃ k, n.commit < k ∧ n.log.term k = some n.hs.term ∧ n' = n.commitTo k ∧
    ∀ T, T ≠ n.hs.term → g'.done T = g.done T
  votes : g'.led.vote i = g.led.vote i ∨ n.role = .preCandidate ∨ n.cfg.preVote = false ∨
    ∃ m, c = .step m ∧ n₀.casts m = true ∧ n'.hs.term = m.term

/-- The leader announces what a quorum has acknowledged. -/
theorem Local.announce (h : Local voters hv g rec D i n base) {d : List Entry} (hr : n.role = .leader)
    (hk : n.commit ≤ k) (hkl : k ≤ (base ++ n.log.entries).length)
    (hC : Ledger.Committed (raftRules voters hv) g.led n.hs.term ((base ++ n.log.entries).take k) d) :
    ∃ g', Frame conf i g g' ∧ (∀ T, T ≠ n.hs.term → g'.done T = g.done T) ∧ g'.led = g.led ∧
      Local voters hv g' rec D i (n.commitTo k) base := by
  obtain ⟨r, hrt, hl, hd, hp⟩ := h.role.leader hr
  have hc := h.core
  have hf : Frame conf i g (g.announce n.hs.term k) := frame_announce hrt hl
  have ha : Announced voters hv (g.announce n.hs.term k) n.hs.term ((base ++ n.log.entries).take k) := by
    refine .inr ⟨n.hs.term, _, d, le_refl _, hC, prefix_refl _, ?_⟩
    rw [announce_done, length_take_of_le hkl]; exact le_max_right _ _
  have hother : ∀ T, T ≠ n.hs.term → (g.announce n.hs.term k).done T = g.done T :=
    fun T hT => Function.update_of_ne hT ..
  refine ⟨_, hf, hother, rfl, h.shared.step hf.toLe h.shared.sound h.shared.indexed (fun {T} hT => ?_), h.id, ?_,
    ⟨fun _ => ⟨r, hrt, hl, ?_, fun hpr => (hp hpr).mono hf.toLe⟩, h.role.cand⟩,
    OutOk.commitTo hc.rel ha (h.out.mono hf.toLe fun _ _ hr => hr)⟩
  · have hne : T ≠ n.hs.term := by
      rintro rfl
      rw [show g.led.reign n.hs.term = none from hT] at hrt; cases hrt
    rw [hother T hne]; exact h.shared.idle hT
  · exact ⟨hc.term_eq, hc.vote_some, hc.vote_none, hc.log_eq, hc.rel, hc.snap_none, hc.snap_some, hc.voters_eq,
      le_trans hc.snap_le hk, hkl, ha⟩
  · show (g.announce n.hs.term k).done n.hs.term ≤ k
    rw [announce_done]
    exact Nat.max_le.2 ⟨le_trans hd hk, le_refl _⟩

/-- The middle of the sorted match indexes is acknowledged by a quorum of the leader's configuration. -/
theorem Local.quorum_committed (h : Local voters hv g rec D i n base) (hr : n.role = .leader)
    (hkth : (n.matchIndexes.insertionSort (· ≥ ·))[n.quorum - 1]? = some k) (hk : n.commit < k)
    (ht : n.log.term k = some n.hs.term) (hself : g.led.ack i n.hs.term (base ++ n.log.entries)) :
    Ledger.Committed (raftRules voters hv) g.led n.hs.term ((base ++ n.log.entries).take k)
      (base ++ n.log.entries) := by
  obtain ⟨r, hrt, hl, _, hp⟩ := h.role.leader hr
  have hlog := h.leader_log hrt hl
  have hvot := voters_eq h.core.rel h.core.voters_eq
  obtain ⟨_, hkl, hlast⟩ := h.core.rel.term_some ht
  have hnodup : n.voters.Nodup := by rw [hvot]; exact confOf_nodup hv _
  have hmaj := isMajority_of_kth hnodup _ hkth
  rw [hvot] at hmaj
  refine ⟨r, _, hrt, by rw [hlog], take_prefix _ _, ?_, hlast, hmaj, fun v hv' => ?_⟩
  · intro hnil
    have := congrArg List.length hnil
    rw [length_take_of_le hkl] at this
    simp at this; omega
  · obtain ⟨_, hle⟩ := Finset.mem_filter.1 hv'
    by_cases hvi : v = n.cfg.id
    · rw [hvi, h.id]
      exact ⟨_, hself, take_prefix _ _⟩
    · rw [if_neg hvi] at hle
      cases hpr : n.prs.find? v with
      | none => rw [hpr] at hle; simp at hle; omega
      | some pr =>
        rw [hpr] at hle
        have hle : k ≤ pr.matched := hle
        rcases hp hpr with h0 | ⟨m, hack, hlen⟩
        · omega
        · -- both are prefixes of the leader's log
          obtain ⟨_, r', hr', hm⟩ := h.shared.sound.ack_reign hack
          cases Ledger.Sound.reign_unique hrt hr'
          refine ⟨m, hack, prefix_of_prefix_length_le (List.take_prefix _ _) (by rw [hlog]; exact hm) ?_⟩
          rw [length_take_of_le hkl]; omega

theorem Local.commitQuorum (h : Local voters hv g rec D i n base) (hr : n.role = .leader)
    (hkth : (n.matchIndexes.insertionSort (· ≥ ·))[n.quorum - 1]? = some k) (hk : n.commit < k)
    (ht : n.log.term k = some n.hs.term) :
    ∃ g', Follows c n₀ i g n g' (n.commitTo k) ∧ Local voters hv g' rec D i (n.commitTo k) base := by
  obtain ⟨r, hrt, hl, _, _⟩ := h.role.leader hr
  obtain ⟨_, hkl, _⟩ := h.core.rel.term_some ht
  have hlog := h.leader_log hrt hl
  obtain ⟨hf, hloc, hack⟩ := h.acknowledge hrt (by rw [← hlog]) (prefix_refl _)
  obtain ⟨g', hf', hdone, hled, hloc'⟩ := hloc.announce hr (le_of_lt hk) hkl
    (hloc.quorum_committed hr hkth hk ht hack)
  exact ⟨g', ⟨hf.toFrame.trans hf', .inr ⟨k, hk, ht, rfl, hdone⟩, .inl (by rw [hled]; exact hf.vote_same)⟩, hloc'⟩

theorem Local.commitFollow (h : Local voters hv g rec D i n base) {m : Message}
    (hm : MsgOk voters hv g rec m) (ht : m.term = n.hs.term) (hk : n.commit < k) (hcov : Covers n m k) :
    Local voters hv g rec D i (n.commitTo k) base := by
  -- in both cases the node holds a prefix of the leader's log that reaches `k`
  suffices hq : ∃ q p, q <+: base ++ n.log.entries ∧ k ≤ q.length ∧ q.take k <+: p ∧
      Announced voters hv g n.hs.term p by
    obtain ⟨q, p, hql, hkq, hqp, ha⟩ := hq
    have htake : (base ++ n.log.entries).take k = q.take k := by
      obtain ⟨x, hx⟩ := hql
      rw [← hx, take_append_of_le_length hkq]
    refine h.commitTo (le_of_lt hk) (le_trans hkq hql.length_le) ?_
    rw [htake]; exact ha.anti hqp
  unfold MsgOk at hm
  unfold Covers at hcov
  cases hb : m.body with
  | appendEntries prev prevTerm es lc ctx =>
    rw [hb] at hm hcov
    obtain ⟨r, p, q, hr, _, hp, hpl, hpt, hq, hql, ha⟩ := hm
    obtain ⟨hlc, hlast, hterm⟩ := hcov
    rw [← hpl, ← hpt] at hterm
    have hlen : k ≤ (p ++ es).length := by rw [length_append]; omega
    refine ⟨p ++ es, q, h.holds_batch hr hp rfl hterm, hlen, ?_, by rw [← ht]; exact ha⟩
    exact prefix_of_prefix_length_le ((List.take_prefix _ _).trans hp) hq
      (by rw [length_take_of_le hlen]; omega)
  | installSnapshot s =>
    rw [hb] at hm hcov
    obtain ⟨r, p, hr, _, hp, hrec, ha⟩ := hm
    obtain ⟨rfl, hterm⟩ := hcov
    obtain ⟨hok, _⟩ := h.shared.recorded hrec
    refine ⟨p, p, h.matched hr hp ?_, le_of_eq hok.index, take_prefix _ _, by rw [← ht]; exact ha⟩
    rw [← hok.index, ← hok.term]; exact hterm
  | preVote _ _ => rw [hb] at hcov; exact hcov.elim
  | preVoteResp _ => rw [hb] at hcov; exact hcov.elim
  | requestVote _ _ => rw [hb] at hcov; exact hcov.elim
  | requestVoteResp _ => rw [hb] at hcov; exact hcov.elim
  | appendEntriesResp _ _ _ _ => rw [hb] at hcov; exact hcov.elim
  | installSnapshotResp _ => rw [hb] at hcov; exact hcov.elim

/-! ## Progress -/

theorem RaftNode.sync_prs {pr : Progress} (h : n.syncProgressWithVoters.prs.find? p = some pr) :
    n.prs.find? p = some pr ∨ pr = Progress.new (n.log.lastIndex + 1) := by
  unfold syncProgressWithVoters at h
  split at h
  · exact .inl h
  · rw [OrdMap.find?_filter, Option.filter_eq_some_iff] at h
    exact OrdMap.find?_foldl_insert (fun prs peer => peer ≠ n.cfg.id ∧ (prs.find? peer).isNone)
      (Progress.new (n.log.lastIndex + 1)) n.voters n.prs h.1

/-- A new progress map whose matches are acknowledged. -/
theorem Local.withPrs (h : Local voters hv g rec D i n base) {prs : OrdMap NodeId Progress}
    (hp : n.role = .leader → ∀ {p pr}, prs.find? p = some pr →
      n.prs.find? p = some pr ∨ AckedTo g p n.hs.term pr.matched) :
    Local voters hv g rec D i { n with prs } base := by
  refine ⟨h.shared, h.id, h.core, ⟨fun hr => ?_, h.role.cand⟩, h.out⟩
  obtain ⟨r, hr', hl, hd, hold⟩ := h.role.leader hr
  exact ⟨r, hr', hl, hd, fun hpr => (hp hr hpr).elim (fun h' => hold h') fun h' => h'⟩

theorem Local.sync (h : Local voters hv g rec D i n base) (hr : n.role = .leader) :
    Local voters hv g rec D i n.syncProgressWithVoters base := by
  have heq : n.syncProgressWithVoters = { n with prs := n.syncProgressWithVoters.prs } := by
    unfold syncProgressWithVoters
    rw [if_neg (by simp [hr])]
  rw [heq]
  refine h.withPrs fun _ {p pr} hpr => ?_
  rcases sync_prs hpr with hold | rfl
  · exact .inl hold
  · exact .inr (.inl rfl)

theorem Local.pace (h : Local voters hv g rec D i n base) {pr pr' : Progress} (hpr : n.prs.find? p = some pr)
    (hs : SameProgress pr pr') : Local voters hv g rec D i { n with prs := n.prs.insert p pr' } base := by
  refine h.withPrs fun hr {q qr} hq => ?_
  rw [OrdMap.find?_insert] at hq
  split at hq
  · rename_i hqp
    cases hq
    obtain ⟨_, _, _, _, hold⟩ := h.role.leader hr
    rw [hqp, hs.matched]; exact .inr (hold hpr)
  · exact .inl hq

theorem Local.response (h : Local voters hv g rec D i n base) {m : Message} {pr pr' : Progress}
    (hm : MsgOk voters hv g rec m) (ht : m.term = n.hs.term) (hpr : n.prs.find? m.src = some pr)
    (hresp : Responds n m pr pr') : Local voters hv g rec D i { n with prs := n.prs.insert m.src pr' } base := by
  refine h.withPrs fun hr {q qr} hq => ?_
  rw [OrdMap.find?_insert] at hq
  split at hq
  · rename_i hqp
    cases hq
    obtain ⟨_, _, _, _, hold⟩ := h.role.leader hr
    rw [hqp]
    obtain ⟨_, hresp⟩ := hresp
    unfold MsgOk at hm
    cases hb : m.body with
    | appendEntriesResp success mi ci ctx =>
      rw [hb] at hresp hm
      rcases hresp.2 with heq | ⟨hs, heq⟩
      · rw [heq]; exact .inr (hold hpr)
      · rw [heq, ← ht]; exact .inr (hm hs)
    | installSnapshotResp li =>
      rw [hb] at hresp hm
      rcases hresp.2 with heq | heq
      · rw [heq]; exact .inr (hold hpr)
      · rw [heq, ← ht]; exact .inr hm
    | preVote _ _ => rw [hb] at hresp; exact hresp.elim
    | preVoteResp _ => rw [hb] at hresp; exact hresp.elim
    | requestVote _ _ => rw [hb] at hresp; exact hresp.elim
    | requestVoteResp _ => rw [hb] at hresp; exact hresp.elim
    | appendEntries _ _ _ _ _ => rw [hb] at hresp; exact hresp.elim
    | installSnapshot _ => rw [hb] at hresp; exact hresp.elim
  · exact .inl hq

/-- Where a leader's progress of `v` after a move comes from. -/
inductive ProgressFrom (c : Call) (n₀ n : RaftNode) (v : NodeId) : Progress → Prop
  | fresh (next : Nat) : ProgressFrom c n₀ n v (Progress.new next)
  | same {pr pr' : Progress} : n.role = .leader → n.prs.find? v = some pr → SameProgress pr pr' →
      ProgressFrom c n₀ n v pr'
  | response {m : Message} {pr pr' : Progress} : c = .step m → n = n₀ → n.role = .leader → m.term = n.hs.term →
      v = m.src → n.prs.find? v = some pr → Responds n m pr pr' → ProgressFrom c n₀ n v pr'

theorem progressFrom_insert {v : NodeId} {pr' pr'' : Progress} (hr : n.role = .leader)
    (hnew : ProgressFrom c n₀ n p pr') (h : (n.prs.insert p pr').find? v = some pr'') :
    ProgressFrom c n₀ n v pr'' := by
  rw [OrdMap.find?_insert] at h
  split at h
  · rename_i hvp
    cases h; rw [hvp]; exact hnew
  · exact .same hr h ⟨rfl, rfl, rfl⟩

/-- A node that leads after a move has the term it had before, and got each progress in one of three ways. -/
theorem Move.progress (hm : Move c n₀ n n') (hr : n'.role = .leader) :
    n'.hs.term = n.hs.term ∧ ∀ {v pr'}, n'.prs.find? v = some pr' → ProgressFrom c n₀ n v pr' := by
  have keep : n'.hs.term = n.hs.term → n'.prs = n.prs → n'.role = n.role →
      n'.hs.term = n.hs.term ∧ ∀ {v pr'}, n'.prs.find? v = some pr' → ProgressFrom c n₀ n v pr' :=
    fun ht hp hrole => ⟨ht, fun hpr => .same (hrole ▸ hr) (hp ▸ hpr) ⟨rfl, rfl, rfl⟩⟩
  cases hm with
  | preCampaign _ _ _ _ _ => cases hr
  | stand _ => cases hr
  | win _ _ =>
    refine ⟨rfl, fun hpr => ?_⟩
    rw [win_prs hpr]; exact .fresh _
  | follow _ => cases hr
  | listen _ _ _ => cases hr
  | vote _ _ _ _ _ _ _ =>
    rw [setVote_eq] at hr ⊢
    exact ⟨rfl, fun hpr => .same hr hpr ⟨rfl, rfl, rfl⟩⟩
  | sync hl =>
    refine ⟨by unfold syncProgressWithVoters; split <;> rfl, fun {v pr'} hpr => ?_⟩
    rcases sync_prs hpr with hold | rfl
    · exact .same hl hold ⟨rfl, rfl, rfl⟩
    · exact .fresh _
  | pace hpr hs => exact ⟨rfl, fun h => progressFrom_insert hr (.same hr hpr hs) h⟩
  | response hstep ht hl hn hpr hresp =>
    exact ⟨rfl, fun h => progressFrom_insert hl (.response hstep hn hl ht rfl hpr hresp) h⟩
  | _ => exact keep rfl rfl rfl

/-! ## Calls -/

/-- One move: the ledger follows, and the base changes only with a snapshot installed. -/
theorem Local.move (h : Local voters hv g rec D i n base) (hc : CallOk voters hv g rec i n₀ c)
    (hm : Move c n₀ n n') : ∃ g' base', Follows c n₀ i g n g' n' ∧ Local voters hv g' rec D i n' base' ∧
      (n'.out.snapshot = none → n.out.snapshot = none ∧ base' = base) := by
  have next : (∃ g', Quiet c.changesConf i g g' ∧ Local voters hv g' rec D i n' base) →
      n'.out.snapshot = n.out.snapshot → ∃ g' base', Follows c n₀ i g n g' n' ∧
        Local voters hv g' rec D i n' base' ∧ (n'.out.snapshot = none → n.out.snapshot = none ∧ base' = base) := by
    rintro ⟨g', hf, hl⟩ hsn
    exact ⟨g', base, ⟨hf.toFrame, .inl hf.done_same, .inl hf.vote_same⟩, hl,
      fun hnone => ⟨hsn.symm.trans hnone, rfl⟩⟩
  have stay : Local voters hv g rec D i n' base → n'.out.snapshot = n.out.snapshot →
      ∃ g' base', Follows c n₀ i g n g' n' ∧ Local voters hv g' rec D i n' base' ∧
        (n'.out.snapshot = none → n.out.snapshot = none ∧ base' = base) :=
    fun hl hsn => next ⟨g, Quiet.refl _ i g, hl⟩ hsn
  cases hm with
  | beat x _ _ => exact stay ⟨h.shared, h.id, h.core, h.role, h.out⟩ rfl
  | wait _ _ => exact stay ⟨h.shared, h.id, h.core, h.role, h.out⟩ rfl
  | rest _ _ _ => exact stay ⟨h.shared, h.id, h.core, h.role, h.out⟩ rfl
  | preCampaign _ _ _ _ _ =>
    exact stay (h.follower rfl rfl ⟨le_refl _, rfl, rfl, rfl, rfl, rfl, rfl⟩ rfl rfl (.inr rfl)) rfl
  | stand hstand =>
    obtain ⟨g', hf, hl⟩ := h.stand
    refine ⟨g', base, ⟨hf.toFrame, .inl hf.done_same, .inr ?_⟩, hl, fun hnone => ?_⟩
    · exact hstand.imp And.left fun h' => .inl h'.1
    · rw [stand_eq] at hnone; exact ⟨hnone, rfl⟩
  | win hr hq => exact next (h.win hr hq) rfl
  | follow ht =>
    refine next (h.follow ?_) (becomeFollower_untouched n _ _).installed
    rcases ht with ⟨rfl, _⟩ | ⟨_, _, _, hlt⟩
    · exact le_refl _
    · exact le_of_lt hlt
  | listen _ _ _ =>
    exact stay (h.follower rfl rfl ⟨le_refl _, rfl, rfl, rfl, rfl, rfl, rfl⟩ rfl rfl (.inl rfl)) rfl
  | @vote m lli llt hstep hb ht hcan hup hlog hn =>
    subst hstep
    obtain ⟨g', hf, hnew, hl⟩ := h.vote hc.2 hb ht hcan hup
    refine ⟨g', base, ⟨hf.toFrame, .inl hf.done_same, ?_⟩, hl, fun hnone => ?_⟩
    · rcases hnew with hsame | hnone
      · exact .inl hsame
      · refine .inr (.inr (.inr ⟨m, rfl, ?_, by rw [setVote_eq]; exact ht.symm⟩))
        simp only [casts, hb, Bool.and_eq_true, decide_eq_true_eq]
        refine ⟨?_, by rw [logUpToDate, ← hlog]; exact hup⟩
        rcases hn with rfl | hlt
        · exact .inr ⟨ht, hnone⟩
        · exact .inl (by rw [ht]; exact hlt)
    · rw [setVote_eq] at hnone; exact ⟨hnone, rfl⟩
  | count hstep hb => subst hstep; exact stay (h.count hc.2 hc.1 hb) rfl
  | append hr hp => exact next (h.append hc hr hp) rfl
  | adopt hstep ht hr _ hb hfits hf hp => subst hstep; exact next (h.adopt hc.2 ht hr hb hfits hf hp) rfl
  | install hstep ht hr _ hb hlt hterm =>
    subst hstep
    obtain ⟨g', base', hf, hl⟩ := h.install hc.2 ht hr hb hlt hterm
    exact ⟨g', base', ⟨hf.toFrame, .inl hf.done_same, .inl hf.vote_same⟩, hl, fun hnone => by cases hnone⟩
  | commitQuorum hr hk hlt ht =>
    obtain ⟨g', hf, hl⟩ := h.commitQuorum hr hk hlt ht
    exact ⟨g', base, hf, hl, fun hnone => ⟨hnone, rfl⟩⟩
  | commitFollow hstep ht hr hlt hcov => subst hstep; exact stay (h.commitFollow hc.2 ht hlt hcov) rfl
  | sync hr =>
    refine stay (h.sync hr) ?_
    unfold syncProgressWithVoters
    split <;> rfl
  | pace hpr hs => exact stay (h.pace hpr hs) rfl
  | response hstep ht _ _ hpr hresp => subst hstep; exact stay (h.response hc.2 ht hpr hresp) rfl
  | register _ _ _ _ => exact stay ⟨h.shared, h.id, h.core, h.role, h.out⟩ rfl
  | release _ _ => exact stay ⟨h.shared, h.id, h.core, h.role, h.out⟩ rfl
  | push hsay => exact next (h.speak hc hsay) rfl

/-- Each move of a call keeps `P`, given that the coupling holds before and after. -/
def MovesKeep (voters : List NodeId) (hv : voters.Nodup) (rec : Snapshot → List Entry → Prop) (D : Entry → Prop)
    (i : NodeId) (c : Call) (n₀ : RaftNode) (g : Ghost) (P : Ghost → RaftNode → Prop) : Prop :=
  ∀ ⦃g₁ g₂ n₁ n₂ base₁ base₂⦄, g.Le g₁ → Local voters hv g₁ rec D i n₁ base₁ → Move c n₀ n₁ n₂ →
    Follows c n₀ i g₁ n₁ g₂ n₂ → Local voters hv g₂ rec D i n₂ base₂ → P g₁ n₁ → P g₂ n₂

/-- A sequence of moves, with anything else `P` that they keep. -/
theorem Local.moves {P : Ghost → RaftNode → Prop} (h : Local voters hv g rec D i n base)
    (hc : CallOk voters hv g rec i n₀ c) (hm : Moves c n₀ n n') (hP : P g n)
    (hstep : MovesKeep voters hv rec D i c n₀ g P) :
    ∃ g' base', Frame c.changesConf i g g' ∧ Local voters hv g' rec D i n' base' ∧
      (n'.out.snapshot = none → n.out.snapshot = none ∧ base' = base) ∧ P g' n' := by
  induction hm with
  | refl => exact ⟨g, base, Frame.refl _ i g, h, fun hnone => ⟨hnone, rfl⟩, hP⟩
  | tail _ hm ih =>
    obtain ⟨g₁, base₁, hf₁, hl₁, hb₁, hP₁⟩ := ih
    obtain ⟨g₂, base₂, hf₂, hl₂, hb₂⟩ := hl₁.move (hc.mono hf₁.toLe) hm
    refine ⟨g₂, base₂, hf₁.trans hf₂.toFrame, hl₂, fun hnone => ?_, hstep hf₁.toLe hl₁ hm hf₂ hl₂ hP₁⟩
    obtain ⟨hnone₁, rfl⟩ := hb₂ hnone
    exact hb₁ hnone₁

end RaftKv

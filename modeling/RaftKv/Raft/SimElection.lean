import RaftKv.Raft.Calls
import RaftKv.Raft.Coupling

/-!
# Elections and messages in the ledger

Each move of a call is matched by steps of the ledger. This file has the moves that send messages
or change term, vote and role; `SimReplication` has those that change the log or the commit index,
and `Simulation` puts them together.
-/

namespace RaftKv

open Relation RaftNode List

variable {voters : List NodeId} {hv : voters.Nodup} {g g' : Ghost}
  {rec : Snapshot → List Entry → Prop} {D : Entry → Prop} {i : NodeId} {n n₀ : RaftNode}
  {base : List Entry} {c : Call} {conf : Prop}

/-! ## Committed prefixes -/

variable {r : Reign NodeId Entry} {q es : List Entry} {m : Message}

/-- What was announced by term `T` is in the log of every leader from then on. -/
theorem Announced.le_reign {T T' : Nat} {p : List Entry} (hs : Ledger.Sound (raftRules voters hv) g.led)
    (h : Announced voters hv g T p) (hr : g.led.reign T' = some r) (hT : T ≤ T') : p <+: r.log := by
  rcases h with rfl | ⟨b, m, d, hb, hC, hpm, _⟩
  · exact nil_prefix
  · rcases Nat.lt_or_eq_of_le (le_trans hb hT) with hlt | rfl
    · obtain ⟨x, hx, _⟩ := hs.reign_log hr
      exact hpm.trans ((hs.elected_complete hr hC hlt).trans ⟨x, hx.symm⟩)
    · obtain ⟨r', _, hr', hd, hmd, _⟩ := hC
      cases Ledger.Sound.reign_unique hr hr'
      exact hpm.trans (hmd.trans hd)

theorem Announced.comparable {T T' : Nat} {p : List Entry} (hs : Ledger.Sound (raftRules voters hv) g.led)
    (h : Announced voters hv g T p) (h' : Announced voters hv g T' q) : p <+: q ∨ q <+: p := by
  rcases h with rfl | ⟨b, m, d, _, hC, hpm, _⟩
  · exact .inl nil_prefix
  · rcases h' with rfl | ⟨b', m', d', _, hC', hqm, _⟩
    · exact .inr nil_prefix
    · rcases hs.committed_comparable hC hC' with hle | hle
      · exact prefix_or_prefix_of_prefix (hpm.trans hle) hqm
      · exact prefix_or_prefix_of_prefix hpm (hqm.trans hle)

namespace Local

/-- The logical log of a leader is its record in the ledger. -/
theorem leader_log (h : Local voters hv g rec D i n base)
    (hr : g.led.reign n.hs.term = some r) (hl : r.leader = i) : base ++ n.log.entries = r.log := by
  rw [← h.core.log_eq, ← hl]
  exact h.shared.sound.reign_own hr (by rw [hl]; exact h.core.term_eq)

theorem log_chain (h : Local voters hv g rec D i n base) :
    Ledger.Chain (raftRules voters hv) g.led (base ++ n.log.entries) := by
  rw [← h.core.log_eq]; exact h.shared.sound.log_chain i

/-- Log matching as the handlers use it: one term lookup decides about a whole prefix. -/
theorem matched (h : Local voters hv g rec D i n base) {T : Nat} (hr : g.led.reign T = some r) (hq : q <+: r.log)
    (ht : n.log.term q.length = some (lastTermOf q)) : q <+: base ++ n.log.entries := by
  obtain ⟨_, hle, hterm⟩ := h.core.rel.term_some ht
  have hqc := (h.shared.sound.reign_chain hr).anti hq
  have hlc := h.log_chain.anti (List.take_prefix q.length _)
  have heq := hqc.eq_of_term hlc (by rw [length_take]; omega) hterm.symm
  rw [heq]; exact take_prefix _ _

theorem base_announced (h : Local voters hv g rec D i n base) : Announced voters hv g n.hs.term base := by
  refine h.core.commit_ok.anti ?_
  exact prefix_of_prefix_length_le (prefix_append _ _) (List.take_prefix _ _)
    (by rw [length_take]; have := h.core.snap_le; have := h.core.commit_le; omega)

theorem indexed (h : Local voters hv g rec D i n base) : Indexed (base ++ n.log.entries) := by
  intro k e he
  have hk := (List.getElem?_eq_some_iff.1 he).1
  have htake : (base ++ n.log.entries).take (k + 1) = (base ++ n.log.entries).take k ++ [e] := by
    rw [take_add_one, he]; rfl
  obtain ⟨r, hr, hpr⟩ := h.log_chain _ e (htake ▸ take_prefix _ _)
  refine h.shared.indexed hr k e ?_
  have hlen : ((base ++ n.log.entries).take k).length = k := length_take_of_le (le_of_lt hk)
  obtain ⟨t, ht⟩ := hpr
  rw [← ht, append_assoc, getElem?_append_right (by omega), hlen]
  simp

end Local

theorem Shared.step (h : Shared voters hv g rec) (hle : g.Le g') (hs : Ledger.Sound (raftRules voters hv) g'.led)
    (hidx : ∀ {T r}, g'.led.reign T = some r → Indexed r.log) (hidle : ∀ {T}, g'.led.reign T = none → g'.done T = 0) :
    Shared voters hv g' rec where
  sound := hs
  indexed := hidx
  idle := hidle
  recorded hr := by
    obtain ⟨hok, T, ha⟩ := h.recorded hr
    exact ⟨hok, T, ha.mono hle⟩

/-- The snapshots taken of one prefix length stand for one prefix. -/
theorem Shared.recorded_unique (h : Shared voters hv g rec) {s s' : Snapshot} {p p' : List Entry}
    (hp : rec s p) (hp' : rec s' p') (hs : s.lastIndex = s'.lastIndex) : p = p' := by
  obtain ⟨hok, T, ha⟩ := h.recorded hp
  obtain ⟨hok', T', ha'⟩ := h.recorded hp'
  have hlen : p.length = p'.length := by rw [← hok.index, ← hok'.index, hs]
  rcases ha.comparable h.sound ha' with hle | hle
  · exact hle.eq_of_length hlen
  · exact (hle.eq_of_length hlen.symm).symm

/-! ## Acknowledgement -/

theorem Local.acknowledge (h : Local voters hv g rec D i n base) (hr : g.led.reign n.hs.term = some r)
    (hq : q <+: r.log) (hl : q <+: base ++ n.log.entries) : Quiet conf i g { g with led := g.led.acknowledge i q } ∧
    Local voters hv { g with led := g.led.acknowledge i q } rec D i n base ∧
    (g.led.acknowledge i q).ack i n.hs.term q := by
  have hf : Quiet conf i g { g with led := g.led.acknowledge i q } := frame_acknowledge q
  have hterm := h.core.term_eq
  have hs : Ledger.Sound (raftRules voters hv) (g.led.acknowledge i q) :=
    h.shared.sound.acknowledge (by rw [hterm]; exact hr) hq (by rw [h.core.log_eq]; exact hl)
  have hc := h.core
  refine ⟨hf, ⟨h.shared.step hf.toLe hs h.shared.indexed h.shared.idle, h.id, ?_, ?_, h.out.mono hf.toLe
    fun _ _ hr => hr⟩, ?_⟩
  · exact ⟨hc.term_eq, hc.vote_some, hc.vote_none, hc.log_eq, hc.rel, hc.snap_none, hc.snap_some, hc.voters_eq,
      hc.snap_le, hc.commit_le, hc.commit_ok.mono hf.toLe⟩
  · refine ⟨fun hrole => ?_, h.role.cand⟩
    obtain ⟨r', hr', hl', hd, hp⟩ := h.role.leader hrole
    exact ⟨r', hr', hl', hd, fun hpr => (hp hpr).mono hf.toLe⟩
  · rw [← hterm]; exact Ledger.acknowledge_ack i q

/-! ## Messages -/

/-- What the environment of a call provides. -/
def CallOk (voters : List NodeId) (hv : voters.Nodup) (g : Ghost) (rec : Snapshot → List Entry → Prop)
    (i : NodeId) (n₀ : RaftNode) : Call → Prop
  | .step m => m.dst = i ∧ MsgOk voters hv g rec m
  | .proposeConfChange _ => n₀.role = .leader → n₀.log.term n₀.commit = some n₀.hs.term
  | _ => True

theorem CallOk.mono (hle : g.Le g') (h : CallOk voters hv g rec i n₀ c) : CallOk voters hv g' rec i n₀ c := by
  cases c with
  | step m => exact ⟨h.1, h.2.mono hle fun _ _ hr => hr⟩
  | _ => exact h

theorem lastTermOf_append (p es : List Entry) : lastTermOf (p ++ es) = lastTermFrom (lastTermOf p) es := by
  rcases eq_nil_or_concat es with rfl | ⟨es, e, rfl⟩
  · simp [lastTermFrom]
  · rw [concat_eq_append, ← append_assoc, lastTermOf_concat]; simp [lastTermFrom]

/-- The batch of a leader's message continues its log. -/
theorem contig_of_reign {p : List Entry} (hi : Indexed r.log) (hp : p ++ es <+: r.log) : Contig p.length es := by
  intro k e he
  have := hi.anti hp (p.length + k) e (by rw [getElem?_append_right (by omega)]; simpa using he)
  omega

/-- An accepted batch is in the log. -/
theorem Local.holds_batch (h : Local voters hv g rec D i n base) {T k : Nat}
    {p : List Entry} (hr : g.led.reign T = some r) (hp : p ++ es <+: r.log) (hk : k = p.length + es.length)
    (ht : Contig p.length es → n.log.term k = some (lastTermFrom (lastTermOf p) es)) :
    p ++ es <+: base ++ n.log.entries := by
  refine h.matched hr hp ?_
  rw [length_append, ← hk, lastTermOf_append]
  exact ht (contig_of_reign (h.shared.indexed hr) hp)

theorem Local.pushMsg (h : Local voters hv g rec D i n base) (hm : MsgOk voters hv g rec m) :
    Local voters hv g rec D i (n.pushMsg m) base := by
  refine ⟨h.shared, h.id, h.core, h.role, fun m' hm' => ?_, h.out.committed_ok, h.out.snapshot_ok, h.out.covered⟩
  rcases mem_append.1 hm' with hm' | hm'
  · exact h.out.messages_ok m' hm'
  · rw [mem_singleton.1 hm']; exact hm

/-- The answer to an accepted batch acknowledges it. -/
theorem Local.answer (h : Local voters hv g rec D i n base) {mi ci ctx : Nat}
    (hm : MsgOk voters hv g rec m) (ha : Answers n m true mi ci ctx) :
    ∃ g', Quiet conf i g g' ∧ Local voters hv g' rec D i n base ∧ AckedTo g' i n.hs.term mi := by
  obtain ⟨prev, prevTerm, es, lc, hb, ha⟩ := ha
  unfold MsgOk at hm
  rw [hb] at hm
  obtain ⟨r, p, q, hr, _, hp, hpl, hpt, _⟩ := hm
  have hack : ∀ q', q' <+: r.log → q' <+: base ++ n.log.entries → q'.length = mi → m.term = n.hs.term →
      ∃ g', Quiet conf i g g' ∧ Local voters hv g' rec D i n base ∧ AckedTo g' i n.hs.term mi := by
    intro q' hq' hql hlen ht
    rw [ht] at hr
    obtain ⟨hf, hl, hk⟩ := h.acknowledge hr hq' hql
    exact ⟨_, hf, hl, .inr ⟨q', hk, hlen⟩⟩
  rcases ha with ⟨h0, _⟩ | ⟨h0, _⟩ | ⟨_, ht, hmi, _⟩ | ⟨_, ht, hmi, hterm⟩
  · cases h0
  · cases h0
  · -- the batch is below the snapshot base, which is committed
    refine hack base ?_ (prefix_append _ _) (by rw [hmi, h.core.rel.len]) ht
    exact h.base_announced.le_reign h.shared.sound (by rw [← ht]; exact hr) (le_refl _)
  · refine hack (p ++ es) hp ?_ (by rw [length_append, hpl, hmi]) ht
    refine h.holds_batch (k := mi) hr hp (by rw [hpl, hmi]) ?_
    rw [hpl, hpt]; exact hterm

theorem Local.commit_length (h : Local voters hv g rec D i n base) :
    ((base ++ n.log.entries).take n.commit).length = n.commit :=
  length_take_of_le h.core.commit_le

/-- A replicated batch is a piece of the leader's log. -/
theorem Local.replicates (h : Local voters hv g rec D i n base) {prev prevTerm lc ctx : Nat} (hsrc : m.src = i)
    (hb : m.body = .appendEntries prev prevTerm es lc ctx) (ht : m.term = n.hs.term) (hr : n.role = .leader)
    (hterm : n.log.term prev = some prevTerm) (hes : es = [] ∨ es = n.log.slice (prev + 1) n.cfg.maxBatchEntries)
    (hlc : lc = n.commit) : MsgOk voters hv g rec m := by
  obtain ⟨r, hrt, hl, _, _⟩ := h.role.leader hr
  have hlog := h.leader_log hrt hl
  obtain ⟨hlo, hle, hlast⟩ := h.core.rel.term_some hterm
  unfold MsgOk
  rw [hb]
  refine ⟨r, (base ++ n.log.entries).take prev, (base ++ n.log.entries).take n.commit, by rw [ht]; exact hrt,
    by rw [hl, hsrc], ?_, length_take_of_le hle, hlast, ?_, by rw [h.commit_length, hlc], ?_⟩
  · rw [← hlog]
    rcases hes with rfl | rfl
    · rw [append_nil]; exact take_prefix _ _
    · have hstart : base.length < prev + 1 := by omega
      exact h.core.rel.slice_le hstart
  · rw [← hlog]; exact take_prefix _ _
  · rw [ht]; exact h.core.commit_ok

/-- Every message a node sends is true of the ledger, which may record an acknowledgement for it. -/
theorem Local.speak (h : Local voters hv g rec D i n base) (hc : CallOk voters hv g rec i n₀ c)
    (hm : Says c n m) : ∃ g', Quiet conf i g g' ∧ Local voters hv g' rec D i (n.pushMsg m) base := by
  suffices hok : ∃ g', Quiet conf i g g' ∧ Local voters hv g' rec D i n base ∧ MsgOk voters hv g' rec m by
    obtain ⟨g', hf, hl, hok⟩ := hok
    exact ⟨g', hf, hl.pushMsg hok⟩
  have stay : MsgOk voters hv g rec m →
      ∃ g', Quiet conf i g g' ∧ Local voters hv g' rec D i n base ∧ MsgOk voters hv g' rec m :=
    fun hok => ⟨g, Quiet.refl _ i g, h, hok⟩
  obtain ⟨hsrc, hm⟩ := hm
  rw [h.id] at hsrc
  cases hb : m.body with
  | preVote lli llt => exact stay (by unfold MsgOk; rw [hb]; trivial)
  | preVoteResp granted => exact stay (by unfold MsgOk; rw [hb]; trivial)
  | requestVote lli llt =>
    rw [hb] at hm
    obtain ⟨ht, hr, rfl, rfl⟩ := hm
    refine stay ?_
    unfold MsgOk
    rw [hb, ht, hsrc]
    refine ⟨g.led.log i, (h.role.cand hr).1, ?_, ?_⟩
    · rw [h.core.log_eq, h.core.rel.lastIndex_eq]
    · rw [h.core.log_eq, h.core.rel.lastTerm_eq]
  | requestVoteResp granted =>
    rw [hb] at hm
    obtain ⟨ht, hg⟩ := hm
    refine stay ?_
    unfold MsgOk
    rw [hb, ht, hsrc]
    exact fun hgr => h.core.vote_some (hg hgr)
  | appendEntries prev prevTerm es lc ctx =>
    rw [hb] at hm
    obtain ⟨ht, hr, _, hterm, hes, hlc, _⟩ := hm
    exact stay (h.replicates hsrc hb ht hr hterm hes hlc)
  | installSnapshot s =>
    rw [hb] at hm
    obtain ⟨ht, hr, hs⟩ := hm
    obtain ⟨r, hrt, hl, _, _⟩ := h.role.leader hr
    refine stay ?_
    unfold MsgOk
    rw [hb, ht, hsrc]
    refine ⟨r, base, hrt, hl, ?_, h.core.snap_some hs, h.base_announced⟩
    rw [← h.leader_log hrt hl]; exact prefix_append _ _
  | appendEntriesResp success mi ci ctx =>
    rw [hb] at hm
    obtain ⟨ht, m₀, rfl, _, ha⟩ := hm
    cases success with
    | false =>
      refine stay ?_
      unfold MsgOk
      rw [hb]
      exact fun h' => by cases h'
    | true =>
      obtain ⟨g', hf, hl, hack⟩ := h.answer hc.2 ha
      refine ⟨g', hf, hl, ?_⟩
      unfold MsgOk
      rw [hb, ht, hsrc]
      exact fun _ => hack
  | installSnapshotResp li =>
    rw [hb] at hm
    obtain ⟨ht, m₀, s, rfl, _, ht₀, hb₀, _, rfl⟩ := hm
    have hok := hc.2
    unfold MsgOk at hok
    rw [hb₀] at hok
    obtain ⟨r, _, hr, _⟩ := hok
    rw [ht₀] at hr
    have hq := h.core.commit_ok.le_reign h.shared.sound hr (le_refl _)
    obtain ⟨hf, hl, hack⟩ := h.acknowledge hr hq (List.take_prefix _ _)
    refine ⟨_, hf, hl, ?_⟩
    unfold MsgOk
    rw [hb, ht, hsrc]
    exact .inr ⟨_, hack, h.commit_length⟩

/-! ## Elections -/

theorem Local.follower (h : Local voters hv g rec D i n base) {n' : RaftNode} (hid : n'.cfg.id = n.cfg.id)
    (hhs : n'.hs = n.hs) (hu : Untouched n n') (hvb : n'.votersBase = n.votersBase)
    (hms : n'.out.messages = n.out.messages) (hr : n'.role = .follower ∨ n'.role = .preCandidate) :
    Local voters hv g rec D i n' base := by
  refine ⟨h.shared, hid.trans h.id, ?_, ⟨fun h' => ?_, fun h' => ?_⟩, ?_⟩
  · rw [hhs, hu.log, hu.commit, hu.snapshot, hvb]; exact h.core
  · rw [h'] at hr; rcases hr with hr | hr <;> cases hr
  · rw [h'] at hr; rcases hr with hr | hr <;> cases hr
  · rw [hhs, hu.log, hu.commit, hms, hu.committed, hu.installed]; exact h.out

theorem Local.follow (h : Local voters hv g rec D i n base) {t : Nat} {l : Option NodeId} (ht : n.hs.term ≤ t) :
    ∃ g', Quiet conf i g g' ∧ Local voters hv g' rec D i (n.becomeFollower t l) base := by
  rcases Nat.lt_or_eq_of_le ht with hlt | rfl
  · have hterm := h.core.term_eq
    have hle : g.led.term i ≤ t := by rw [hterm]; exact ht
    have hf : Quiet conf i g _ := frame_raise hle
    have hs := h.shared.sound.raise hle
    have hc := h.core
    rw [becomeFollower_eq n l hlt]
    refine ⟨_, hf, h.shared.step hf.toLe hs h.shared.indexed h.shared.idle, h.id, ?_,
      ⟨fun h' => (by cases h'), fun h' => (by cases h')⟩, (h.out.mono hf.toLe fun _ _ hr => hr).le ht⟩
    refine ⟨Function.update_self .., fun h' => (by cases h'), fun _ => ?_, hc.log_eq, hc.rel, hc.snap_none,
      hc.snap_some, hc.voters_eq, hc.snap_le, hc.commit_le, (hc.commit_ok.mono hf.toLe).le ht⟩
    exact h.shared.sound.no_vote (by rw [hterm]; exact hlt)
  · refine ⟨g, Quiet.refl _ i g, ?_⟩
    rw [becomeFollower_same n l (le_refl _)]
    exact h.follower rfl rfl ⟨le_refl _, rfl, rfl, rfl, rfl, rfl, rfl⟩ rfl rfl (.inl rfl)

theorem Local.stand (h : Local voters hv g rec D i n base) :
    ∃ g', Steady conf i g g' ∧ Local voters hv g' rec D i n.stand base := by
  have hterm := h.core.term_eq
  have hf : Steady conf i g { g with led := g.led.stand i } := frame_stand h.shared.sound
  have hs := h.shared.sound.stand i
  have hc := h.core
  have hvote : (g.led.stand i).vote i (n.hs.term + 1) = some (i, g.led.log i) := by
    rw [← hterm]; exact Ledger.stand_vote i
  rw [stand_eq, h.id]
  refine ⟨_, hf, h.shared.step hf.toLe hs h.shared.indexed h.shared.idle, h.id, ?_,
    ⟨fun h' => (by cases h'), fun _ => ⟨?_, fun {r} hr hl => ?_, fun {v} hv' => ?_⟩⟩,
    (h.out.mono hf.toLe fun _ _ hr => hr).le (Nat.le_succ _)⟩
  · refine ⟨?_, fun {x} hx => ?_, fun h' => (by cases h'), hc.log_eq, hc.rel, hc.snap_none, hc.snap_some,
      hc.voters_eq, hc.snap_le, hc.commit_le, (hc.commit_ok.mono hf.toLe).le (Nat.le_succ _)⟩
    · rw [← hterm]; exact Ledger.stand_term i
    · cases hx; exact ⟨_, hvote⟩
  · rw [← hterm]; exact Ledger.stand_cand i
  · -- a leader of the new term would already have been in it
    have hle := (h.shared.sound.cand_term (h.shared.sound.reign_cand hr)).2
    rw [hl, hterm] at hle
    exact absurd hle (Nat.not_succ_le_self _)
  · rw [OrdMap.find?_insert] at hv'
    split at hv'
    · rename_i hvi
      rw [hvi]; exact ⟨_, hvote⟩
    · cases hv'

theorem Local.vote (h : Local voters hv g rec D i n base) {lli llt : Nat}
    (hm : MsgOk voters hv g rec m) (hb : m.body = .requestVote lli llt) (ht : m.term = n.hs.term)
    (hcan : n.hs.votedFor = none ∨ n.hs.votedFor = some m.src) (hup : n.logUpToDate lli llt = true) :
    ∃ g', Steady conf i g g' ∧ (g'.led.vote i = g.led.vote i ∨ n.hs.votedFor = none) ∧
      Local voters hv g' rec D i (n.setVote (some m.src)).resetElectionTimer base := by
  have hterm := h.core.term_eq
  have hc := h.core
  unfold MsgOk at hm
  rw [hb, ht] at hm
  obtain ⟨l, hl, rfl, rfl⟩ := hm
  rw [setVote_eq]
  rcases hcan with hnone | hsome
  · have hnone' : g.led.vote i (g.led.term i) = none := by rw [hterm]; exact hc.vote_none hnone
    have hf : Steady conf i g { g with led := g.led.castVote i m.src } := frame_castVote hnone'
    have hupd : Ledger.UpToDate (raftRules voters hv) l (g.led.log i) := by
      rw [hc.log_eq]
      unfold logUpToDate at hup
      rw [decide_eq_true_eq, hc.rel.lastTerm_eq, hc.rel.lastIndex_eq] at hup
      exact hup
    have hs := h.shared.sound.castVote hnone' (by rw [hterm]; exact hl) hupd
    refine ⟨_, hf, .inr hnone, h.shared.step hf.toLe hs h.shared.indexed h.shared.idle, h.id, ?_,
      ⟨fun hr => ?_, fun hr => ?_⟩, h.out.mono hf.toLe fun _ _ hr => hr⟩
    · refine ⟨hc.term_eq, fun {x} hx => ?_, fun h' => (by cases h'), hc.log_eq, hc.rel, hc.snap_none, hc.snap_some,
        hc.voters_eq, hc.snap_le, hc.commit_le, hc.commit_ok.mono hf.toLe⟩
      cases hx
      refine ⟨g.led.log i, ?_⟩
      show (g.led.castVote i m.src).vote i n.hs.term = _
      rw [← hterm]; exact Ledger.castVote_vote i m.src
    · obtain ⟨r, hr', hl', hd, hp⟩ := h.role.leader hr
      exact ⟨r, hr', hl', hd, fun hpr => (hp hpr).mono hf.toLe⟩
    · obtain ⟨h1, h2, h3⟩ := h.role.cand hr
      refine ⟨h1, h2, fun hv' => ?_⟩
      obtain ⟨lv, hlv⟩ := h3 hv'
      exact ⟨lv, hf.ext.vote hlv⟩
  · refine ⟨g, (Quiet.refl _ i g).toSteady, .inl rfl, h.shared, h.id, ?_, h.role, h.out⟩
    exact ⟨hc.term_eq, fun {x} hx => hc.vote_some (hsome.trans hx), fun h' => (by cases h'), hc.log_eq, hc.rel,
      hc.snap_none, hc.snap_some, hc.voters_eq, hc.snap_le, hc.commit_le, hc.commit_ok⟩

theorem Local.count (h : Local voters hv g rec D i n base) {granted : Bool} (hm : MsgOk voters hv g rec m)
    (hdst : m.dst = i) (hb : (m.body = .requestVoteResp granted ∧ m.term = n.hs.term ∧ n.role = .candidate) ∨
      (m.body = .preVoteResp true ∧ granted = true ∧ m.term = n.hs.term + 1 ∧ n.role = .preCandidate)) :
    Local voters hv g rec D i { n with votes := n.votes.insert m.src granted } base := by
  refine ⟨h.shared, h.id, h.core, ⟨h.role.leader, fun hr => ?_⟩, h.out⟩
  obtain ⟨h1, h2, h3⟩ := h.role.cand hr
  refine ⟨h1, h2, fun {v} hv' => ?_⟩
  rcases hb with ⟨hb, ht, _⟩ | ⟨_, _, _, hpre⟩
  · simp only [OrdMap.find?_insert] at hv'
    split at hv'
    · rename_i hvs
      cases hv'
      unfold MsgOk at hm
      rw [hb, ht, hdst] at hm
      rw [hvs]; exact hm rfl
    · exact h3 hv'
  · rw [show n.role = .candidate from hr] at hpre; cases hpre

end RaftKv

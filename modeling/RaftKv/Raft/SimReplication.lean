import RaftKv.Raft.SimElection

/-!
# Leadership, logs and commitment in the ledger

The moves that elect a leader (`Ledger.elect`), grow its log (`Ledger.extend`), replicate it
(`Ledger.accept`) and advance a commit index (`Ghost.announce`).
-/

namespace RaftKv

open Function List

variable {voters : List NodeId} {hv : voters.Nodup} {g g' : Ghost}
  {rec : Snapshot → List Entry → Prop} {D : Entry → Prop} {i : NodeId} {n n₀ : RaftNode}
  {base : List Entry} {c : Call} {conf : Prop}

/-! ## Winning -/

namespace RaftNode

/-- The voters counted by `count_granted`. -/
def grantedVoters (n : RaftNode) : Finset NodeId :=
  ((n.votes.toList.filter fun p => p.2 && n.voters.contains p.1).map Prod.fst).toFinset

theorem mem_grantedVoters {v : NodeId} (h : v ∈ n.grantedVoters) : n.votes.find? v = some true ∧ v ∈ n.voters := by
  unfold grantedVoters at h
  rw [mem_toFinset, mem_map] at h
  obtain ⟨⟨w, b⟩, hw, rfl⟩ := h
  rw [mem_filter, Bool.and_eq_true] at hw
  obtain ⟨hmem, rfl, hvot⟩ := hw
  exact ⟨OrdMap.find?_eq_some.2 hmem, contains_iff_mem.1 hvot⟩

theorem card_grantedVoters (n : RaftNode) : n.grantedVoters.card = n.countGranted := by
  have hnodup : ((n.votes.toList.filter fun p => p.2 && n.voters.contains p.1).map Prod.fst).Nodup :=
    List.Nodup.sublist (filter_sublist.map _) n.votes.nodup_keys
  unfold grantedVoters countGranted
  rw [toFinset_card_of_nodup hnodup, length_map]

theorem isMajority_granted (h : n.quorum ≤ n.countGranted) : IsMajority n.voters n.grantedVoters :=
  ⟨fun _ hv => (mem_grantedVoters hv).2, by rw [card_grantedVoters]; exact h⟩

theorem win_prs {p : NodeId} {pr : Progress} (h : n.win.prs.find? p = some pr) :
    pr = Progress.new (n.log.lastIndex + 1) := by
  rcases OrdMap.find?_foldl_insert (fun _ peer => peer ≠ n.cfg.id) (Progress.new (n.log.lastIndex + 1))
    n.voters ∅ h with h | rfl
  · rw [OrdMap.find?_empty] at h; cases h
  · rfl

end RaftNode

theorem Local.win (h : Local voters hv g rec D i n base) (hr : n.role = .candidate)
    (hq : n.quorum ≤ n.countGranted) : ∃ g', Quiet conf i g g' ∧ Local voters hv g' rec D i n.win base := by
  obtain ⟨hcand, hne, hvotes⟩ := h.role.cand hr
  have hterm := h.core.term_eq
  have hc := h.core
  have hQ : (raftRules voters hv).Quorum (g.led.log i) n.grantedVoters := by
    show IsMajority (confOf voters (g.led.log i)) _
    rw [hc.log_eq, ← voters_eq hc.rel hc.voters_eq]
    exact RaftNode.isMajority_granted hq
  have hvotes' : ∀ v ∈ n.grantedVoters, ∃ lv, g.led.vote v (g.led.term i) = some (i, lv) := by
    intro v hv'
    rw [hterm]; exact hvotes (RaftNode.mem_grantedVoters hv').1
  rw [← hterm] at hcand
  have hnone : g.led.reign (g.led.term i) = none := by
    cases hreign : g.led.reign (g.led.term i) with
    | none => rfl
    | some r =>
      have hl := h.shared.sound.winner_unique hcand hQ hvotes' hreign
      rw [hterm] at hreign
      exact absurd hl (hne hreign)
  have hf : Quiet conf i g { g with led := g.led.elect i n.grantedVoters } := frame_elect h.shared.sound hnone
  have hs := h.shared.sound.elect hnone hcand hQ hvotes'
  have hself : (g.led.elect i n.grantedVoters).reign (g.led.term i) =
      some { leader := i, elected := g.led.log i, log := g.led.log i, quorum := n.grantedVoters } :=
    update_self ..
  refine ⟨_, hf, h.shared.step hf.toLe hs (fun {T r} hr' => ?_) (fun {T} hr' => ?_), h.id, ?_,
    ⟨fun _ => ?_, fun h' => (by cases h')⟩, h.out.mono hf.toLe fun _ _ hr => hr⟩
  · by_cases hT : T = g.led.term i
    · subst hT
      rw [show _ = _ from hself] at hr'
      cases hr'
      rw [hc.log_eq]; exact h.indexed
    · rw [show (g.led.elect i n.grantedVoters).reign T = _ from update_of_ne hT ..] at hr'
      exact h.shared.indexed hr'
  · have hT : T ≠ g.led.term i := by
      rintro rfl
      rw [show _ = _ from hself] at hr'; cases hr'
    rw [show (g.led.elect i n.grantedVoters).reign T = _ from update_of_ne hT ..] at hr'
    exact h.shared.idle hr'
  · exact ⟨hc.term_eq, hc.vote_some, hc.vote_none, hc.log_eq, hc.rel, hc.snap_none, hc.snap_some,
      hc.voters_eq, hc.snap_le, hc.commit_le, hc.commit_ok.mono hf.toLe⟩
  · rw [hterm] at hself
    refine ⟨_, hself, rfl, ?_, fun hpr => Or.inl (by rw [RaftNode.win_prs hpr]; rfl)⟩
    show g.done n.hs.term ≤ n.commit
    rw [h.shared.idle (by rw [← hterm]; exact hnone)]; exact Nat.zero_le _

/-! ## Appending -/

variable {r : Reign NodeId Entry}

/-- A leader whose commit index is in its own term holds a commitment of that term. -/
theorem Local.committed_own (h : Local voters hv g rec D i n base)
    (hr : g.led.reign n.hs.term = some r) (ht : n.log.term n.commit = some n.hs.term) :
    ∃ m d, Ledger.Committed (raftRules voters hv) g.led n.hs.term m d ∧ d <+: r.log ∧ n.commit ≤ m.length := by
  obtain ⟨_, hle, hlast⟩ := h.core.rel.term_some ht
  have hpos : 0 < n.hs.term := (h.shared.sound.cand_term (h.shared.sound.reign_cand hr)).1
  have hlen := h.commit_length
  rcases h.core.commit_ok with hnil | ⟨b, m, d, hb, hC, hpm, _⟩
  · rw [hnil] at hlast
    rw [← hlast] at hpos
    exact absurd hpos (lt_irrefl _)
  · have hC' := hC
    obtain ⟨rb, _, hrb, hdr, hmd, hm0, hmb, _⟩ := hC'
    -- the last entry of the committed prefix is of the leader's term, so `m` ends in it
    have hbT : b = n.hs.term := by
      refine le_antisymm hb ?_
      obtain ⟨p, e, hpe⟩ := (eq_nil_or_concat ((base ++ n.log.entries).take n.commit)).resolve_left
        (fun hnil => by rw [hnil] at hlast; rw [← hlast] at hpos; exact absurd hpos (lt_irrefl _))
      rw [concat_eq_append] at hpe
      rw [hpe, lastTermOf_concat] at hlast
      have hmem : e ∈ rb.log := (hpm.trans (hmd.trans hdr)).subset (by rw [hpe]; simp)
      rw [← hlast]
      exact h.shared.sound.reign_le hrb e hmem
    subst hbT
    cases Ledger.Sound.reign_unique hr hrb
    exact ⟨m, d, hC, hdr, by rw [← hlen]; exact hpm.length_le⟩

/-- Above the commit index there is no configuration entry when a new one is proposed. -/
theorem Local.no_conf_above (h : Local voters hv g rec D i n base) {m z : List Entry}
    (hconf : ∀ e ∈ n.log.entries, e.isConf = true → e.index ≤ n.commit) (hm : n.commit ≤ m.length)
    (hz : base ++ n.log.entries = m ++ z) : z.countP Entry.isConf = 0 := by
  rw [countP_eq_zero]
  intro e he hce
  obtain ⟨k, hk⟩ := getElem?_of_mem he
  have hget : (base ++ n.log.entries)[m.length + k]? = some e := by
    rw [hz, getElem?_append_right (by omega)]; simpa using hk
  have hidx := h.indexed _ e hget
  have hsnap := h.core.snap_le
  have hmem : e ∈ n.log.entries := by
    rw [getElem?_append_right (by omega)] at hget
    exact mem_of_getElem? hget
  have := hconf e hmem hce
  omega

theorem Local.append (h : Local voters hv g rec D i n base) (hc : CallOk voters hv g rec i n₀ c)
    {payload : EntryPayload} (hr : n.role = .leader) (hp : MayAppend c n₀ n payload) :
    ∃ g', Quiet c.changesConf i g g' ∧ Local voters hv g' rec D i (n.appendEntry payload) base := by
  obtain ⟨r, hrt, hl, hd, hprs⟩ := h.role.leader hr
  have hterm := h.core.term_eq
  have hcore := h.core
  have hlog := h.leader_log hrt hl
  let e : Entry := { term := n.hs.term, index := n.log.lastIndex + 1, payload }
  have hrt' : g.led.reign (g.led.term i) = some r := by rw [hterm]; exact hrt
  have hconf : (raftRules voters hv).isConf e = true → ∃ m d z,
      Ledger.Committed (raftRules voters hv) g.led (g.led.term i) m d ∧ d <+: r.log ∧ r.log = m ++ z ∧
        z.countP (raftRules voters hv).isConf = 0 := by
    intro he
    cases payload with
    | noop => cases he
    | normal data => cases he
    | confChange cc =>
      obtain ⟨rfl, rfl, habove⟩ := hp
      obtain ⟨m, d, hC, hdr, hle⟩ := h.committed_own hrt (hc hr)
      have hmr : m <+: r.log := by
        obtain ⟨_, _, _, _, hmd, _⟩ := hC
        exact hmd.trans hdr
      obtain ⟨z, hz⟩ := hmr
      exact ⟨m, d, z, by rw [hterm]; exact hC, hdr, hz.symm, h.no_conf_above habove hle (hlog.trans hz.symm)⟩
  have hchange : e.isConf = true → c.changesConf := by
    intro he
    cases payload with
    | noop => cases he
    | normal data => cases he
    | confChange cc => obtain ⟨rfl, _⟩ := hp; trivial
  have hf : Quiet c.changesConf i g { g with led := g.led.extend i r e } := frame_extend hrt' hl hchange
  have hs := h.shared.sound.extend (e := e) hrt' hl hterm.symm hconf
  have hself : (g.led.extend i r e).reign (g.led.term i) = some { r with log := r.log ++ [e] } :=
    Ledger.extend_reign
  have hidx : e.index = r.log.length + 1 := by
    rw [← hlog, ← hcore.rel.lastIndex_eq]
  refine ⟨_, hf, h.shared.step hf.toLe hs (fun {T r'} hr' => ?_) (fun {T} hr' => ?_), h.id, ?_,
    ⟨fun _ => ?_, fun h' => ?_⟩, ?_⟩
  · by_cases hT : T = g.led.term i
    · subst hT
      rw [show _ = _ from hself] at hr'
      cases hr'
      exact Indexed.concat (h.shared.indexed hrt') hidx
    · rw [show (g.led.extend i r e).reign T = _ from update_of_ne hT ..] at hr'
      exact h.shared.indexed hr'
  · have hT : T ≠ g.led.term i := by
      rintro rfl
      rw [show _ = _ from hself] at hr'; cases hr'
    rw [show (g.led.extend i r e).reign T = _ from update_of_ne hT ..] at hr'
    exact h.shared.idle hr'
  · have htake : (base ++ (n.log.entries ++ [e])).take n.commit = (base ++ n.log.entries).take n.commit := by
      rw [← append_assoc, take_append_of_le_length hcore.commit_le]
    refine ⟨hcore.term_eq, hcore.vote_some, hcore.vote_none, ?_, ⟨hcore.rel.len, hcore.rel.term⟩, hcore.snap_none,
      hcore.snap_some, hcore.voters_eq, hcore.snap_le, ?_, ?_⟩
    · show (g.led.extend i r e).log i = base ++ (n.log.entries ++ [e])
      rw [Ledger.extend_log, hcore.log_eq, append_assoc]
    · show n.commit ≤ (base ++ (n.log.entries ++ [e])).length
      rw [← append_assoc, length_append]
      exact Nat.le_add_right_of_le hcore.commit_le
    · show Announced voters hv _ n.hs.term ((base ++ (n.log.entries ++ [e])).take n.commit)
      rw [htake]; exact hcore.commit_ok.mono hf.toLe
  · rw [hterm] at hself
    exact ⟨_, hself, hl, hd, fun hpr => (hprs hpr).mono hf.toLe⟩
  · rw [show n.role = .candidate from h'] at hr; cases hr
  · have ho := h.out.mono hf.toLe fun _ _ hr => hr
    refine ⟨ho.messages_ok, ho.committed_ok, ho.snapshot_ok, fun {idx x} hx hle => ho.covered ?_ hle⟩
    -- the new entry lies above the commit index
    have hx' : (n.log.push e rfl).get idx = some x := hx
    obtain ⟨h1, h2⟩ := RaftLog.get_eq_some.1 hx'
    rw [RaftLog.snapIndex_push] at h1 h2
    refine RaftLog.get_eq_some.2 ⟨h1, ?_⟩
    have hcl : n.commit ≤ n.log.lastIndex := by rw [hcore.rel.lastIndex_eq]; exact hcore.commit_le
    have hle' : idx ≤ n.commit := hle
    rw [RaftLog.entries_push, getElem?_append_left (by rw [RaftLog.lastIndex] at hcl; omega)] at h2
    exact h2

/-! ## Adopting a leader's batch -/

/-- The first loop of `handle_append_entries` in terms of logical logs: `q` is what has been compared,
and one equal term decides about everything before it. No committed entry conflicts (`hsafe`), so
the loop comes to an end. -/
theorem findNew_spec {log : RaftLog} {commit : Nat} (hrel : LogRel base log)
    (hcl : commit ≤ (base ++ log.entries).length) : ∀ {es q : List Entry}, base.length ≤ q.length →
    q <+: base ++ log.entries → Contig q.length es →
    (∀ a e b, es = a ++ e :: b → log.term e.index = some e.term → q ++ a ++ [e] <+: base ++ log.entries) →
    (∀ e ∈ es, e.index ≤ commit → log.term e.index = some e.term) →
    ∃ log₁ a new, RaftNode.findNew log commit es = some (log₁, new) ∧ es = a ++ new ∧ q ++ a <+: base ++ log.entries ∧
      ((new = [] ∧ log₁ = log) ∨
        (∃ e rest, new = e :: rest ∧ ¬ q ++ a ++ [e] <+: base ++ log.entries) ∧ commit ≤ (q ++ a).length ∧
          base ++ log₁.entries = q ++ a ∧ log₁.snapIndex = log.snapIndex ∧ log₁.snapTerm = log.snapTerm)
  | [], q, _, hq, _, _, _ => ⟨log, [], [], rfl, rfl, by simpa using hq, Or.inl ⟨rfl, rfl⟩⟩
  | e :: es, q, hb, hq, hcontig, hmatch, hsafe => by
    have hidx : e.index = q.length + 1 := hcontig 0 e rfl
    unfold RaftNode.findNew
    cases ht : log.term e.index with
    | none =>
      have hlen : (base ++ log.entries).length ≤ q.length := by
        rcases hrel.term_none ht with hlt | hlt <;> omega
      have heq : q = base ++ log.entries := hq.eq_of_length (le_antisymm hq.length_le hlen)
      refine ⟨log, [], e :: es, rfl, rfl, by simpa using hq, Or.inr ⟨⟨e, es, rfl, fun hp => ?_⟩, ?_, ?_, rfl, rfl⟩⟩
      · have := hp.length_le
        simp at this hlen; omega
      · simp; omega
      · simp [← heq]
    | some t =>
      dsimp only
      by_cases hte : t = e.term
      · have hqe : q ++ [e] <+: base ++ log.entries := by
          simpa using hmatch [] e es rfl (by rw [ht, hte])
        have hcontig' : Contig (q ++ [e]).length es := by
          intro k x hx
          have := hcontig (k + 1) x (by simpa using hx)
          simp only [length_append, length_singleton]; omega
        have hmatch' : ∀ a x b, es = a ++ x :: b → log.term x.index = some x.term →
            q ++ [e] ++ a ++ [x] <+: base ++ log.entries := by
          intro a x b hes hx
          simpa using hmatch (e :: a) x b (by rw [hes]; rfl) hx
        obtain ⟨log₁, a, new, hfind, rfl, hqa, hrest⟩ := findNew_spec hrel hcl (by simp; omega) hqe hcontig' hmatch'
          fun x hx => hsafe x (mem_cons_of_mem _ hx)
        rw [if_pos hte]
        refine ⟨log₁, e :: a, new, hfind, rfl, by simpa using hqa, ?_⟩
        simpa using hrest
      · have hne : ¬ q ++ [e] <+: base ++ log.entries := by
          -- a batch already in the log would have shown its own term
          intro hpe
          obtain ⟨_, _, hlast⟩ := hrel.term_some ht
          have htake := prefix_iff_eq_take.1 hpe
          rw [length_append, length_singleton, ← hidx] at htake
          rw [← htake, lastTermOf_concat] at hlast
          exact hte hlast.symm
        have hgt : commit < e.index := by
          by_contra hle
          rw [hsafe e (by simp) (by omega)] at ht
          exact hte (Option.some.inj ht).symm
        have hsnap : log.snapIndex < e.index := by rw [hrel.len]; omega
        rw [if_neg hte, dif_pos ⟨hgt, hsnap⟩]
        refine ⟨_, [], e :: es, rfl, rfl, by simpa using hq,
          Or.inr ⟨⟨e, es, rfl, by simpa using hne⟩, ?_, ?_, rfl, rfl⟩⟩
        · simp; omega
        · have htake := prefix_iff_eq_take.1 hq
          rw [take_append, take_of_length_le hb] at htake
          rw [RaftLog.entries_truncateFrom, hrel.len, append_nil,
            show e.index - base.length - 1 = q.length - base.length by omega]
          exact htake.symm

/-- What is left of a batch continues a prefix the node shares with the leader. -/
theorem Local.fits (h : Local voters hv g rec D i n base) {T prev prevTerm : Nat}
    {p es es' : List Entry} (hr : g.led.reign T = some r) (hT : n.hs.term ≤ T) (hp : p ++ es <+: r.log)
    (hpl : p.length = prev) (hpt : lastTermOf p = prevTerm) (hf : Fits n prev prevTerm es es') :
    ∃ q, q ++ es' = p ++ es ∧ base.length ≤ q.length ∧ q <+: base ++ n.log.entries := by
  rcases hf with ⟨hsnap, rfl, hterm⟩ | ⟨hlt, rfl, hcov⟩
  · refine ⟨p, rfl, by rw [← h.core.rel.len]; omega, ?_⟩
    exact h.matched hr ((prefix_append _ _).trans hp) (by rw [hpl, hpt]; exact hterm)
  · have hbr : base <+: r.log := h.base_announced.le_reign h.shared.sound hr hT
    have hlen := h.core.rel.len
    have hbp : base <+: p ++ es := prefix_of_prefix_length_le hbr hp (by simp; omega)
    refine ⟨base, ?_, le_refl _, prefix_append _ _⟩
    have htake := prefix_iff_eq_take.1 hbp
    have hdrop : es.drop (n.log.snapIndex - prev) = (p ++ es).drop base.length := by
      have hp0 : p.drop base.length = [] := drop_eq_nil_of_le (by omega)
      rw [drop_append, hp0, nil_append, hpl, hlen]
    rw [hdrop]
    conv => lhs; lhs; rw [htake]
    exact take_append_drop _ _

/-- The committed prefix of a node is in the log of every leader from its term on. -/
theorem Local.committed_le (h : Local voters hv g rec D i n base) {T : Nat} {q : List Entry}
    (hr : g.led.reign T = some r) (hT : n.hs.term ≤ T) (hq : q <+: r.log) (hle : q.length ≤ n.commit) :
    q <+: base ++ n.log.entries := by
  have hc : (base ++ n.log.entries).take n.commit <+: r.log := h.core.commit_ok.le_reign h.shared.sound hr hT
  refine (prefix_of_prefix_length_le hq hc ?_).trans (List.take_prefix _ _)
  rw [h.commit_length]; exact hle

/-- The first loop of `handle_append_entries` on a batch of the leader of term `T`. -/
theorem Local.findNew (h : Local voters hv g rec D i n base) {T prev prevTerm : Nat}
    {p es es' : List Entry} (hr : g.led.reign T = some r) (hT : n.hs.term ≤ T) (hp : p ++ es <+: r.log)
    (hpl : p.length = prev) (hpt : lastTermOf p = prevTerm) (hf : Fits n prev prevTerm es es') :
    ∃ log₁ a new, RaftNode.findNew n.log n.commit es' = some (log₁, new) ∧ a ++ new = p ++ es ∧
      a <+: base ++ n.log.entries ∧
      ((new = [] ∧ log₁ = n.log) ∨
        (∃ e rest, new = e :: rest ∧ ¬ a ++ [e] <+: base ++ n.log.entries) ∧ n.commit ≤ a.length ∧
          base ++ log₁.entries = a ∧ log₁.snapIndex = n.log.snapIndex ∧ log₁.snapTerm = n.log.snapTerm) := by
  obtain ⟨q, hq, hbq, hql⟩ := h.fits hr hT hp hpl hpt hf
  rw [← hq] at hp ⊢
  have hcontig := contig_of_reign (h.shared.indexed hr) hp
  have hlen : ∀ {a e b}, es' = a ++ e :: b → e.index = (q ++ a ++ [e]).length := by
    intro a e b hes
    rw [hcontig a.length e (by rw [hes]; simp)]; simp; omega
  have hle : ∀ {a e b}, es' = a ++ e :: b → q ++ a ++ [e] <+: r.log := fun {a e b} hes =>
    List.IsPrefix.trans ⟨b, by rw [hes]; simp⟩ hp
  have hmatch : ∀ a e b, es' = a ++ e :: b → n.log.term e.index = some e.term →
      q ++ a ++ [e] <+: base ++ n.log.entries := by
    intro a e b hes hterm
    refine h.matched hr (hle hes) ?_
    rw [← hlen hes, lastTermOf_concat]; exact hterm
  have hsafe : ∀ e ∈ es', e.index ≤ n.commit → n.log.term e.index = some e.term := by
    intro e he hc
    obtain ⟨a, b, hes⟩ := append_of_mem he
    have hpre := h.committed_le hr hT (hle hes) (by rw [← hlen hes]; exact hc)
    have hb : base.length ≤ e.index := by rw [hlen hes]; simp; omega
    rw [h.core.rel.term_eq hb (by rw [hlen hes]; exact hpre.length_le), hlen hes, ← prefix_iff_eq_take.1 hpre,
      lastTermOf_concat]
  obtain ⟨log₁, a, new, hfind, rfl, hqa, hrest⟩ := findNew_spec h.core.rel h.core.commit_le hbq hql hcontig hmatch hsafe
  exact ⟨log₁, q ++ a, new, hfind, append_assoc .., hqa, hrest⟩

/-- Replacing the log above the commit index. -/
theorem Local.replace (h : Local voters hv g rec D i n base) {m shared : List Entry} {log' : RaftLog}
    {new : List Entry} (hr : g.led.reign n.hs.term = some r) (hrole : n.role = .follower) (hm : m <+: r.log)
    (hnew : ¬ m <+: base ++ n.log.entries) (hlog : base ++ log'.entries = m) (hrel : LogRel base log')
    (hsm : shared <+: m) (hsl : shared <+: base ++ n.log.entries) (hcs : n.commit ≤ shared.length) :
    ∃ g', Quiet conf i g g' ∧ Local voters hv g' rec D i (n.adopt log' new) base := by
  have hterm := h.core.term_eq
  have hc := h.core
  have hf : Quiet conf i g { g with led := g.led.accept i m } := frame_accept m
  have hs := h.shared.sound.accept (v := i) (m := m) (by rw [hterm]; exact hr) hm
  have htake : m.take n.commit = (base ++ n.log.entries).take n.commit := by
    obtain ⟨x, rfl⟩ := hsm
    obtain ⟨y, hy⟩ := hsl
    rw [← hy, take_append_of_le_length hcs, take_append_of_le_length hcs]
  refine ⟨_, hf, h.shared.step hf.toLe hs h.shared.indexed h.shared.idle, h.id, ?_,
    ⟨fun h' => ?_, fun h' => ?_⟩, ?_⟩
  · refine ⟨hc.term_eq, hc.vote_some, hc.vote_none, ?_, hrel, hc.snap_none, hc.snap_some, hc.voters_eq, hc.snap_le,
      ?_, ?_⟩
    · show (g.led.accept i m).log i = base ++ log'.entries
      rw [hlog, Ledger.accept_log_new (by rw [hc.log_eq]; exact hnew)]
    · show n.commit ≤ (base ++ log'.entries).length
      rw [hlog]; exact le_trans hcs hsm.length_le
    · show Announced voters hv _ n.hs.term ((base ++ log'.entries).take n.commit)
      rw [hlog, htake]; exact hc.commit_ok.mono hf.toLe
  · rw [show n.role = .leader from h'] at hrole; cases hrole
  · rw [show n.role = .candidate from h'] at hrole; cases hrole
  · have ho := h.out.mono hf.toLe fun _ _ hr => hr
    refine ⟨ho.messages_ok, ho.committed_ok, ho.snapshot_ok, fun {idx x} hx hle => ho.covered ?_ hle⟩
    obtain ⟨hlt, hget⟩ := hrel.get_eq.1 hx
    have hle' : idx ≤ n.commit := hle
    refine hc.rel.get_eq.2 ⟨hlt, ?_⟩
    have h1 : (m.take n.commit)[idx - 1]? = m[idx - 1]? := getElem?_take_of_lt (by omega)
    have h2 : ((base ++ n.log.entries).take n.commit)[idx - 1]? = (base ++ n.log.entries)[idx - 1]? :=
      getElem?_take_of_lt (by omega)
    rwa [hlog, ← h1, htake, h2] at hget

theorem Local.adopt (h : Local voters hv g rec D i n base) {m : Message} {prev prevTerm lc ctx : Nat}
    {es es' new : List Entry} {log log' : RaftLog} (hm : MsgOk voters hv g rec m) (ht : m.term = n.hs.term)
    (hrole : n.role = .follower) (hb : m.body = .appendEntries prev prevTerm es lc ctx)
    (hfits : Fits n prev prevTerm es es') (hfind : RaftNode.findNew n.log n.commit es' = some (log, new))
    (hpush : RaftNode.pushAll log new = some log') :
    ∃ g', Quiet conf i g g' ∧ Local voters hv g' rec D i (n.adopt log' new) base := by
  unfold MsgOk at hm
  rw [hb, ht] at hm
  obtain ⟨r, p, _, hr, _, hp, hpl, hpt, _⟩ := hm
  obtain ⟨log₁, a, new₁, hfind₁, hsplit, hal, hrest⟩ := h.findNew hr (le_refl _) hp hpl hpt hfits
  cases hfind.symm.trans hfind₁
  rw [← hsplit] at hp
  rcases hrest with ⟨rfl, rfl⟩ | ⟨⟨e, rest, rfl, hdiv⟩, hca, hlog, hsnap, hsnapt⟩
  · cases hpush
    exact ⟨g, Quiet.refl _ i g, h.shared, h.id, h.core, h.role, h.out⟩
  · obtain ⟨hent, hsnap', hsnapt'⟩ := RaftNode.pushAll_eq hpush
    have hnew : ¬ a ++ e :: rest <+: base ++ n.log.entries := fun hp' =>
      hdiv (List.IsPrefix.trans ⟨rest, by simp⟩ hp')
    refine h.replace hr hrole hp hnew ?_ ⟨?_, ?_⟩ (prefix_append _ _) hal hca
    · rw [hent, ← append_assoc, hlog]
    · rw [hsnap', hsnap, h.core.rel.len]
    · rw [hsnapt', hsnapt, h.core.rel.term]

theorem Local.install (h : Local voters hv g rec D i n base) {m : Message} {s : Snapshot}
    (hm : MsgOk voters hv g rec m) (ht : m.term = n.hs.term) (hrole : n.role = .follower)
    (hb : m.body = .installSnapshot s) (hlt : n.commit < s.lastIndex)
    (hterm : n.log.term s.lastIndex ≠ some s.lastTerm) :
    ∃ g' base', Quiet conf i g g' ∧ Local voters hv g' rec D i (n.install s) base' := by
  unfold MsgOk at hm
  rw [hb, ht] at hm
  obtain ⟨r, p, hr, _, hp, hrec, hann⟩ := hm
  obtain ⟨hok, _⟩ := h.shared.recorded hrec
  have hc := h.core
  -- the snapshot reaches beyond the node's log, or contradicts it
  have hnew : ¬ p <+: base ++ n.log.entries := by
    intro hpl
    refine hterm ?_
    have hle := hpl.length_le
    have hsnap := hc.snap_le
    rw [hok.index, hok.term, hc.rel.term_eq (by rw [← hok.index]; omega) hle,
      ← prefix_iff_eq_take.1 hpl]
  have hf : Quiet conf i g { g with led := g.led.accept i p } := frame_accept p
  have hs := h.shared.sound.accept (v := i) (m := p) (by rw [hc.term_eq]; exact hr) hp
  have ho := h.out.mono hf.toLe fun _ _ hr => hr
  refine ⟨_, p, hf, h.shared.step hf.toLe hs h.shared.indexed h.shared.idle, h.id, ?_,
    ⟨fun h' => ?_, fun h' => ?_⟩, ho.messages_ok, ho.committed_ok, fun {s'} hs' => ?_, fun {idx e} hx _ => ?_⟩
  · refine ⟨hc.term_eq, hc.vote_some, hc.vote_none, ?_, ⟨hok.index, hok.term⟩, fun h' => (by cases h'),
      fun {s'} hs' => ?_, hok.voters_eq, le_of_eq hok.index.symm, ?_, ?_⟩
    · show (g.led.accept i p).log i = p ++ []
      rw [append_nil, Ledger.accept_log_new (by rw [hc.log_eq]; exact hnew)]
    · cases hs'; exact hrec
    · show s.lastIndex ≤ (p ++ []).length
      rw [append_nil, hok.index]
    · show Announced voters hv _ n.hs.term ((p ++ []).take s.lastIndex)
      rw [append_nil, hok.index, take_length]; exact hann.mono hf.toLe
  · rw [show n.role = .leader from h'] at hrole; cases hrole
  · rw [show n.role = .candidate from h'] at hrole; cases hrole
  · cases hs'; exact hrec
  · obtain ⟨_, hget⟩ := RaftLog.get_eq_some.1 hx
    cases hget

end RaftKv

import RaftKv.Raft.Logical

/-!
# Coupling the node with the ledger

What a node, a message and an output mean as facts about a ledger. A `Ghost` adds to the ledger how
far each leader has announced commitment. `Local` is the invariant of one node together with all
that it has put into its output; `Frame i` is what a call on node `i` leaves alone, so that the
invariants of the other nodes survive (`CoreRel.frame`, `RoleRel.frame`).

Everything is stated over the parts of the node it depends on, so that an update of the other
fields leaves it unchanged by definition.
-/

namespace RaftKv

open Function

structure Ghost where
  led : Ledger NodeId Entry
  /-- How far the leader of a term has announced commitment. -/
  done : Nat → Nat

/-- `g'` continues `g`. -/
structure Ghost.Le (g g' : Ghost) : Prop where
  ext : Ledger.Extends g.led g'.led
  done : ∀ T, g.done T ≤ g'.done T

theorem Ghost.Le.refl (g : Ghost) : g.Le g := ⟨Ledger.Extends.refl _, fun _ => le_refl _⟩

theorem Ghost.Le.trans {g g' g'' : Ghost} (h : g.Le g') (h' : g'.Le g'') : g.Le g'' :=
  ⟨h.ext.trans h'.ext, fun T => le_trans (h.done T) (h'.done T)⟩

/-- No leader has appended a configuration entry. -/
def Plain (g : Ghost) : Prop := ∀ {T r}, g.led.reign T = some r → ∀ e ∈ r.log, e.isConf = false

/-- `g'` continues `g`, with new configuration entries only if `conf`. -/
structure Ghost.Grows (conf : Prop) (g g' : Ghost) : Prop extends Ghost.Le g g' where
  plain : ¬ conf → Plain g → Plain g'

theorem Ghost.Grows.refl (conf : Prop) (g : Ghost) : g.Grows conf g := ⟨Ghost.Le.refl g, fun _ h => h⟩

theorem Ghost.Grows.trans {conf : Prop} {g g' g'' : Ghost} (h : g.Grows conf g') (h' : g'.Grows conf g'') :
    g.Grows conf g'' :=
  ⟨h.toLe.trans h'.toLe, fun hc hp => h'.plain hc (h.plain hc hp)⟩

section
variable (voters : List NodeId) (hv : voters.Nodup)

/-- `p` was committed and announced in a term at most `T`. -/
def Announced (g : Ghost) (T : Nat) (p : List Entry) : Prop :=
  p = [] ∨ ∃ b m d, b ≤ T ∧ Ledger.Committed (raftRules voters hv) g.led b m d ∧ p <+: m ∧ m.length ≤ g.done b

/-- `v` acknowledged the first `k` entries of the leader of term `T`. -/
def AckedTo (g : Ghost) (v : NodeId) (T k : Nat) : Prop := k = 0 ∨ ∃ m, g.led.ack v T m ∧ m.length = k

/-- An entry a node handed to its host by term `T`. -/
def DeliveredOk (g : Ghost) (T : Nat) (e : Entry) : Prop :=
  ∃ p, Announced voters hv g T (p ++ [e]) ∧ e.index = p.length + 1

/-- A snapshot describes the prefix `p`. -/
structure SnapOk (s : Snapshot) (p : List Entry) : Prop where
  index : s.lastIndex = p.length
  term : s.lastTerm = lastTermOf p
  voters_eq : s.voters = confOf voters p

/-- What a message in flight says; `rec` relates the snapshots taken so far to their prefixes. -/
def MsgOk (g : Ghost) (rec : Snapshot → List Entry → Prop) (m : Message) : Prop :=
  match m.body with
  | .requestVote lli llt => ∃ l, g.led.cand m.term m.src = some l ∧ l.length = lli ∧ lastTermOf l = llt
  | .requestVoteResp granted => granted = true → ∃ lv, g.led.vote m.src m.term = some (m.dst, lv)
  | .appendEntries prev prevTerm entries leaderCommit _ =>
    ∃ r p q, g.led.reign m.term = some r ∧ r.leader = m.src ∧ p ++ entries <+: r.log ∧ p.length = prev ∧
      lastTermOf p = prevTerm ∧ q <+: r.log ∧ q.length = leaderCommit ∧ Announced voters hv g m.term q
  | .appendEntriesResp success matchIndex _ _ => success = true → AckedTo g m.src m.term matchIndex
  | .installSnapshot s =>
    ∃ r p, g.led.reign m.term = some r ∧ r.leader = m.src ∧ p <+: r.log ∧ rec s p ∧
      Announced voters hv g m.term p
  | .installSnapshotResp lastIndex => AckedTo g m.src m.term lastIndex
  | .preVote _ _ | .preVoteResp _ => True

/-- The durable part of node `i`, its commit index and its snapshot base. -/
structure CoreRel (g : Ghost) (rec : Snapshot → List Entry → Prop) (i : NodeId) (base : List Entry)
    (hs : HardState) (log : RaftLog) (commit : Nat) (snapshot : Option Snapshot)
    (votersBase : List NodeId) : Prop where
  term_eq : g.led.term i = hs.term
  vote_some : ∀ {c}, hs.votedFor = some c → ∃ lv, g.led.vote i hs.term = some (c, lv)
  vote_none : hs.votedFor = none → g.led.vote i hs.term = none
  log_eq : g.led.log i = base ++ log.entries
  rel : LogRel base log
  snap_none : snapshot = none → base = []
  snap_some : ∀ {s}, snapshot = some s → rec s base
  voters_eq : votersBase = confOf voters base
  snap_le : base.length ≤ commit
  commit_le : commit ≤ (base ++ log.entries).length
  commit_ok : Announced voters hv g hs.term ((base ++ log.entries).take commit)

/-- What node `i` may rely on in its role. -/
structure RoleRel (g : Ghost) (i : NodeId) (term commit : Nat) (role : Role) (votes : OrdMap NodeId Bool)
    (prs : OrdMap NodeId Progress) : Prop where
  leader : role = .leader → ∃ r, g.led.reign term = some r ∧ r.leader = i ∧ g.done term ≤ commit ∧
    ∀ {p pr}, prs.find? p = some pr → AckedTo g p term pr.matched
  cand : role = .candidate → g.led.cand term i = some (g.led.log i) ∧
    (∀ {r}, g.led.reign term = some r → r.leader ≠ i) ∧
    ∀ {v}, votes.find? v = some true → ∃ lv, g.led.vote v term = some (i, lv)

/-- The output collected so far; `D` holds of what this incarnation delivered before. -/
structure OutOk (g : Ghost) (rec : Snapshot → List Entry → Prop) (D : Entry → Prop) (term : Nat)
    (base : List Entry) (log : RaftLog) (commit : Nat) (messages : List Message) (committed : List Entry)
    (snapshot : Option Snapshot) : Prop where
  messages_ok : ∀ m ∈ messages, MsgOk voters hv g rec m
  committed_ok : ∀ e ∈ committed, DeliveredOk voters hv g term e
  snapshot_ok : ∀ {s}, snapshot = some s → rec s base
  covered : ∀ {idx e}, log.get idx = some e → idx ≤ commit → D e ∨ e ∈ committed

/-- The part of the invariant that no single node owns. -/
structure Shared (g : Ghost) (rec : Snapshot → List Entry → Prop) : Prop where
  sound : Ledger.Sound (raftRules voters hv) g.led
  indexed : ∀ {T r}, g.led.reign T = some r → Indexed r.log
  idle : ∀ {T}, g.led.reign T = none → g.done T = 0
  recorded : ∀ {s p}, rec s p → SnapOk voters s p ∧ ∃ T, Announced voters hv g T p

structure Local (g : Ghost) (rec : Snapshot → List Entry → Prop) (D : Entry → Prop) (i : NodeId)
    (n : RaftNode) (base : List Entry) : Prop where
  shared : Shared voters hv g rec
  id : n.cfg.id = i
  core : CoreRel voters hv g rec i base n.hs n.log n.commit n.snapshot n.votersBase
  role : RoleRel g i n.hs.term n.commit n.role n.votes n.prs
  out : OutOk voters hv g rec D n.hs.term base n.log n.commit n.out.messages n.out.committed n.out.snapshot

end

/-- A call on node `i` changes nothing that the other nodes own. -/
structure Frame (conf : Prop) (i : NodeId) (g g' : Ghost) : Prop extends Ghost.Grows conf g g' where
  term : ∀ {j}, j ≠ i → g'.led.term j = g.led.term j
  log : ∀ {j}, j ≠ i → g'.led.log j = g.led.log j
  vote : ∀ {j}, j ≠ i → g'.led.vote j = g.led.vote j
  reign : ∀ {T r}, g'.led.reign T = some r → r.leader ≠ i → g.led.reign T = some r
  done_eq : ∀ {T r}, g'.led.reign T = some r → r.leader ≠ i → g'.done T = g.done T

variable {voters : List NodeId} {hv : voters.Nodup} {g g' g'' : Ghost}
  {rec rec' : Snapshot → List Entry → Prop} {D : Entry → Prop} {i : NodeId} {conf : Prop}

theorem Frame.refl (conf : Prop) (i : NodeId) (g : Ghost) : Frame conf i g g :=
  ⟨Ghost.Grows.refl conf g, fun _ => rfl, fun _ => rfl, fun _ => rfl, fun hr _ => hr, fun _ _ => rfl⟩

theorem Frame.trans (h : Frame conf i g g') (h' : Frame conf i g' g'') : Frame conf i g g'' where
  toGrows := h.toGrows.trans h'.toGrows
  term hj := (h'.term hj).trans (h.term hj)
  log hj := (h'.log hj).trans (h.log hj)
  vote hj := (h'.vote hj).trans (h.vote hj)
  reign hr hl := h.reign (h'.reign hr hl) hl
  done_eq hr hl := (h'.done_eq hr hl).trans (h.done_eq (h'.reign hr hl) hl)

theorem Frame.imp {conf' : Prop} (h : Frame conf i g g') (himp : conf → conf') : Frame conf' i g g' :=
  ⟨⟨h.toLe, fun hc => h.plain fun hc' => hc (himp hc')⟩, h.term, h.log, h.vote, h.reign, h.done_eq⟩

/-- A frame in which no commitment is announced. -/
structure Steady (conf : Prop) (i : NodeId) (g g' : Ghost) : Prop extends Frame conf i g g' where
  done_same : g'.done = g.done

/-- Neither a commitment is announced nor a vote cast. -/
structure Quiet (conf : Prop) (i : NodeId) (g g' : Ghost) : Prop extends Steady conf i g g' where
  vote_same : g'.led.vote i = g.led.vote i

theorem Quiet.refl (conf : Prop) (i : NodeId) (g : Ghost) : Quiet conf i g g := ⟨⟨Frame.refl conf i g, rfl⟩, rfl⟩

/-! ## Facts that survive -/

variable {T commit : Nat} {p base : List Entry} {sn : Option Snapshot} {j : NodeId}

section mono
variable (hle : g.Le g')
include hle

theorem Announced.mono (h : Announced voters hv g T p) : Announced voters hv g' T p := by
  rcases h with rfl | ⟨b, m, d, hb, hC, hp, hm⟩
  · exact .inl rfl
  · exact .inr ⟨b, m, d, hb, hle.ext.committed hC, hp, le_trans hm (hle.done b)⟩

theorem AckedTo.mono {v : NodeId} {k : Nat} (h : AckedTo g v T k) : AckedTo g' v T k := by
  rcases h with h | ⟨m, hm, hk⟩
  · exact .inl h
  · exact .inr ⟨m, hle.ext.ack hm, hk⟩

theorem DeliveredOk.mono {e : Entry} (h : DeliveredOk voters hv g T e) : DeliveredOk voters hv g' T e := by
  obtain ⟨p, hp, he⟩ := h
  exact ⟨p, hp.mono hle, he⟩

theorem MsgOk.mono (hrec : ∀ s p, rec s p → rec' s p) {m : Message} (h : MsgOk voters hv g rec m) :
    MsgOk voters hv g' rec' m := by
  unfold MsgOk at h ⊢
  cases hb : m.body with
  | requestVote lli llt =>
    rw [hb] at h
    obtain ⟨l, hl, h1, h2⟩ := h
    exact ⟨l, hle.ext.cand hl, h1, h2⟩
  | requestVoteResp granted =>
    rw [hb] at h
    intro hg
    obtain ⟨lv, hlv⟩ := h hg
    exact ⟨lv, hle.ext.vote hlv⟩
  | appendEntries prev prevTerm entries leaderCommit readCtx =>
    rw [hb] at h
    obtain ⟨r, p, q, hr, hl, hp, hpl, hpt, hq, hql, ha⟩ := h
    obtain ⟨r', hr', hl', _, hrr⟩ := hle.ext.reign hr
    exact ⟨r', p, q, hr', hl'.trans hl, hp.trans hrr, hpl, hpt, hq.trans hrr, hql, ha.mono hle⟩
  | appendEntriesResp success matchIndex conflictIndex readCtx =>
    rw [hb] at h
    exact fun hs => (h hs).mono hle
  | installSnapshot s =>
    rw [hb] at h
    obtain ⟨r, p, hr, hl, hp, hs, ha⟩ := h
    obtain ⟨r', hr', hl', _, hrr⟩ := hle.ext.reign hr
    exact ⟨r', p, hr', hl'.trans hl, hp.trans hrr, hrec s p hs, ha.mono hle⟩
  | installSnapshotResp lastIndex => rw [hb] at h; exact AckedTo.mono hle h
  | preVote _ _ => trivial
  | preVoteResp _ => trivial

theorem OutOk.mono (hrec : ∀ s p, rec s p → rec' s p) {term : Nat} {log : RaftLog} {ms : List Message} {es : List Entry}
    (h : OutOk voters hv g rec D term base log commit ms es sn) :
    OutOk voters hv g' rec' D term base log commit ms es sn :=
  ⟨fun m hm => (h.messages_ok m hm).mono hle hrec, fun e he => (h.committed_ok e he).mono hle,
    fun hs => hrec _ _ (h.snapshot_ok hs), h.covered⟩

end mono

theorem Announced.anti {p' : List Entry} (h : Announced voters hv g T p) (hp : p' <+: p) :
    Announced voters hv g T p' := by
  rcases h with rfl | ⟨b, m, d, hb, hC, hpm, hm⟩
  · exact .inl (List.prefix_nil.1 hp)
  · exact .inr ⟨b, m, d, hb, hC, hp.trans hpm, hm⟩

theorem Announced.le {T' : Nat} (h : Announced voters hv g T p) (hT : T ≤ T') : Announced voters hv g T' p := by
  rcases h with rfl | ⟨b, m, d, hb, hC, hp, hm⟩
  · exact .inl rfl
  · exact .inr ⟨b, m, d, le_trans hb hT, hC, hp, hm⟩

theorem OutOk.le {T' : Nat} {log : RaftLog} {ms : List Message}
    {es : List Entry} (h : OutOk voters hv g rec D T base log commit ms es sn)
    (hT : T ≤ T') : OutOk voters hv g rec D T' base log commit ms es sn := by
  refine ⟨h.messages_ok, fun e he => ?_, h.snapshot_ok, h.covered⟩
  obtain ⟨p, hp, hi⟩ := h.committed_ok e he
  exact ⟨p, hp.le hT, hi⟩

/-! ## The other nodes -/

theorem CoreRel.frame {hs : HardState} {log : RaftLog} {vb : List NodeId} (hf : Frame conf i g g')
    (hrec : ∀ s p, rec s p → rec' s p) (hj : j ≠ i) (h : CoreRel voters hv g rec j base hs log commit sn vb) :
    CoreRel voters hv g' rec' j base hs log commit sn vb where
  term_eq := (hf.term hj).trans h.term_eq
  vote_some hc := by rw [hf.vote hj]; exact h.vote_some hc
  vote_none hc := by rw [hf.vote hj]; exact h.vote_none hc
  log_eq := (hf.log hj).trans h.log_eq
  rel := h.rel
  snap_none := h.snap_none
  snap_some hs := hrec _ _ (h.snap_some hs)
  voters_eq := h.voters_eq
  snap_le := h.snap_le
  commit_le := h.commit_le
  commit_ok := h.commit_ok.mono hf.toLe

theorem RoleRel.frame {term : Nat} {role : Role} {votes : OrdMap NodeId Bool}
    {prs : OrdMap NodeId Progress} (hf : Frame conf i g g') (hj : j ≠ i)
    (h : RoleRel g j term commit role votes prs) : RoleRel g' j term commit role votes prs where
  leader hr := by
    obtain ⟨r, hrt, hl, hd, hp⟩ := h.leader hr
    obtain ⟨r', hr', hl', _, _⟩ := hf.ext.reign hrt
    have hlj : r'.leader = j := hl'.trans hl
    refine ⟨r', hr', hlj, ?_, fun hpr => (hp hpr).mono hf.toLe⟩
    rw [hf.done_eq hr' (by rw [hlj]; exact hj)]; exact hd
  cand hr := by
    obtain ⟨hc, hne, hvotes⟩ := h.cand hr
    refine ⟨?_, fun {r} hr' hl => ?_, fun hv' => ?_⟩
    · rw [hf.log hj]; exact hf.ext.cand hc
    · exact hne (hf.reign hr' (by rw [hl]; exact hj)) hl
    · obtain ⟨lv, hlv⟩ := hvotes hv'
      exact ⟨lv, hf.ext.vote hlv⟩

/-- The invariant of node `j` after a call on another node. -/
theorem Local.frame {n : RaftNode} (hf : Frame conf i g g') (hrec : ∀ s p, rec s p → rec' s p) (hj : j ≠ i)
    (hsh : Shared voters hv g' rec') (h : Local voters hv g rec D j n base) : Local voters hv g' rec' D j n base :=
  ⟨hsh, h.id, h.core.frame hf hrec hj, h.role.frame hf hj, h.out.mono hf.toLe hrec⟩

/-! ## Ledger steps as frames -/

section frames
variable {voters : List NodeId} {hv : voters.Nodup}

theorem frame_raise {t : Nat} (hle : g.led.term i ≤ t) : Quiet conf i g { g with led := g.led.raise i t } where
  ext := Ledger.raise_extends hle
  done _ := le_refl _
  plain _ hp := hp
  term hj := update_of_ne hj ..
  log _ := rfl
  vote _ := rfl
  reign hr _ := hr
  done_eq _ _ := rfl
  done_same := rfl
  vote_same := rfl

theorem frame_stand (hs : Ledger.Sound (raftRules voters hv) g.led) :
    Steady conf i g { g with led := g.led.stand i } where
  ext := Ledger.stand_extends hs i
  done _ := le_refl _
  plain _ hp := hp
  term hj := update_of_ne hj ..
  log _ := rfl
  vote {j} hj := by
    funext T
    exact if_neg (fun hc => hj hc.1)
  reign hr _ := hr
  done_eq _ _ := rfl
  done_same := rfl

theorem frame_castVote {c : NodeId} (hnone : g.led.vote i (g.led.term i) = none) :
    Steady conf i g { g with led := g.led.castVote i c } where
  ext := Ledger.castVote_extends hnone
  done _ := le_refl _
  plain _ hp := hp
  term _ := rfl
  log _ := rfl
  vote {j} hj := by
    funext T
    exact if_neg (fun hc => hj hc.1)
  reign hr _ := hr
  done_eq _ _ := rfl
  done_same := rfl

/-- What a node has in its log, some leader has appended. -/
theorem Plain.log (hp : Plain g) (hs : Ledger.Sound (raftRules voters hv) g.led) (v : NodeId) :
    ∀ e ∈ g.led.log v, e.isConf = false := by
  intro e he
  obtain ⟨p, x, hpx⟩ := List.append_of_mem he
  obtain ⟨r, hr, hpr⟩ := hs.log_chain v p e ⟨x, by rw [hpx]; simp⟩
  exact hp hr e (hpr.subset (by simp))

theorem frame_elect {Q : Finset NodeId} (hs : Ledger.Sound (raftRules voters hv) g.led)
    (hnone : g.led.reign (g.led.term i) = none) : Quiet conf i g { g with led := g.led.elect i Q } where
  ext := Ledger.elect_extends hnone
  done _ := le_refl _
  plain _ hp {T r} hr := by
    by_cases hT : T = g.led.term i
    · subst hT
      rw [show (g.led.elect i Q).reign _ = _ from update_self ..] at hr
      cases hr; exact hp.log hs i
    · rw [show (g.led.elect i Q).reign T = g.led.reign T from update_of_ne hT ..] at hr
      exact hp hr
  term _ := rfl
  log _ := rfl
  vote _ := rfl
  reign {T r} hr hl := by
    by_cases hT : T = g.led.term i
    · subst hT
      rw [show (g.led.elect i Q).reign _ = _ from update_self ..] at hr
      cases hr; exact absurd rfl hl
    · rwa [show (g.led.elect i Q).reign T = g.led.reign T from update_of_ne hT ..] at hr
  done_eq _ _ := rfl
  done_same := rfl
  vote_same := rfl

theorem frame_extend {r : Reign NodeId Entry} {e : Entry} (hr : g.led.reign (g.led.term i) = some r)
    (hl : r.leader = i) (he : e.isConf = true → conf) : Quiet conf i g { g with led := g.led.extend i r e } where
  ext := Ledger.extend_extends hr
  done _ := le_refl _
  plain hc hp {T r'} hr' := by
    by_cases hT : T = g.led.term i
    · subst hT
      rw [show (g.led.extend i r e).reign _ = _ from Ledger.extend_reign] at hr'
      cases hr'
      intro x hx
      rcases List.mem_append.1 hx with hx | hx
      · exact hp hr x hx
      · rw [List.mem_singleton.1 hx]
        exact Bool.eq_false_iff.2 fun h => hc (he h)
    · rw [show (g.led.extend i r e).reign T = g.led.reign T from update_of_ne hT ..] at hr'
      exact hp hr'
  term _ := rfl
  log hj := update_of_ne hj ..
  vote _ := rfl
  reign {T r'} hr' hl' := by
    by_cases hT : T = g.led.term i
    · subst hT
      rw [show (g.led.extend i r e).reign _ = _ from Ledger.extend_reign] at hr'
      cases hr'; exact absurd hl hl'
    · rwa [show (g.led.extend i r e).reign T = g.led.reign T from update_of_ne hT ..] at hr'
  done_eq _ _ := rfl
  done_same := rfl
  vote_same := rfl

theorem frame_accept (m : List Entry) : Quiet conf i g { g with led := g.led.accept i m } where
  ext := Ledger.accept_extends i m
  done _ := le_refl _
  plain _ hp := hp
  term _ := rfl
  log hj := Ledger.accept_log_of_ne hj
  vote _ := rfl
  reign hr _ := hr
  done_eq _ _ := rfl
  done_same := rfl
  vote_same := rfl

theorem frame_acknowledge (m : List Entry) : Quiet conf i g { g with led := g.led.acknowledge i m } where
  ext := Ledger.acknowledge_extends i m
  done _ := le_refl _
  plain _ hp := hp
  term _ := rfl
  log _ := rfl
  vote _ := rfl
  reign hr _ := hr
  done_eq _ _ := rfl
  done_same := rfl
  vote_same := rfl

/-- The leader of term `T` announces commitment up to `c`. -/
def Ghost.announce (g : Ghost) (T c : Nat) : Ghost :=
  { g with done := update g.done T (Nat.max (g.done T) c) }

theorem frame_announce {c : Nat} {r : Reign NodeId Entry} (hr : g.led.reign T = some r) (hl : r.leader = i) :
    Frame conf i g (g.announce T c) where
  ext := Ledger.Extends.refl _
  done T' := by
    by_cases hT : T' = T
    · subst hT
      rw [show (g.announce T' c).done T' = _ from update_self ..]; exact le_max_left _ _
    · rw [show (g.announce T c).done T' = _ from update_of_ne hT ..]
  plain _ hp := hp
  term _ := rfl
  log _ := rfl
  vote _ := rfl
  reign hr _ := hr
  done_eq {T' r'} hr' hl' := by
    have hT : T' ≠ T := by
      rintro rfl
      cases Ledger.Sound.reign_unique hr hr'
      exact hl' hl
    exact update_of_ne hT ..

end frames

end RaftKv

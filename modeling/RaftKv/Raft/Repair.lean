import RaftKv.Raft.OwnEntry
import RaftKv.Raft.Exchange

/-!
# Log repair

Each message of an exchange is answered by one, and each answer by at most one, so the exchange is a
single thread.

It ends because of the measure each message to the follower carries: a batch the follower will refuse
starts further down after every refusal; after a snapshot or a success everything the leader sends is
accepted, and each success raises what is acknowledged or, while the window is full, frees a slot.

`RaftLog::slice` adds `max_batch_entries` to a position (`log.rs:75`), which overflows for one close to
`usize::MAX` (`huge_batch_panics`). So the exchange goes through if and only if every batch of it is
cut without overflow.

| here | there |
| --- | --- |
| `Course`   | the leader leads and both are in its term |
| `Outbound` | a message from `send_append` (`node.rs:475-543`), with its measure |
| `Inbound`  | the follower's answer (`node.rs:750-859`, `node.rs:903-954`): accepted, refused, snapshot installed |
-/

namespace RaftKv

open Relation RaftNode

variable {voters : List NodeId} {hv : voters.Nodup} {g : Ghost} {s : Cluster} {i j : NodeId} {n n' : RaftNode}
  {T : Nat} {K : List Entry} {m m' : Message} {pr : Progress} {prev prevTerm : Nat} {es : List Entry}

/-! ## The course of a repair -/

/-- Node `i` leads term `T` with the log `K`, and node `j` is in the term. -/
structure Course (voters : List NodeId) (hv : voters.Nodup) (i j : NodeId) (T : Nat) (K : List Entry) (s : Cluster) :
    Prop where
  paced : ∃ g, Paced voters hv g s
  ne : j ≠ i
  leader : (s.host i).raft.role = .leader
  term : (s.host i).raft.hs.term = T
  peer : (s.host j).raft.hs.term = T
  log : (s.host i).logical = K
  batch : 0 < (s.host i).raft.cfg.maxBatchEntries
  window : 0 < (s.host i).raft.cfg.maxInflight
  /-- The entries are in a `Vec`. -/
  vec : (s.host i).raft.log.entries.length ≤ 2 ^ 63

/-- Where a batch of the leader starts, and what its progress says once it has been sent. -/
structure Batch (i j : NodeId) (K : List Entry) (s : Cluster) (pr : Progress) (prev prevTerm : Nat)
    (es : List Entry) : Prop where
  progress : (s.host i).raft.prs.find? j = some pr
  pending : pr.pendingSnapshot = false
  next : pr.next = prev + es.length + 1
  base : (s.host i).raft.log.snapIndex ≤ prev
  le : prev ≤ K.length
  term : lastTermOf (K.take prev) = prevTerm
  entries : K.take prev ++ es <+: K

/-- A message of the leader on its way to the follower, with its measure. -/
inductive Outbound (i j : NodeId) (T : Nat) (K : List Entry) (s : Cluster) : Nat × Nat × Nat → Message → Prop
  | batch {pr : Progress} {prev prevTerm lc ctx : Nat} {es : List Entry} : Batch i j K s pr prev prevTerm es →
      K.take prev <+: (s.host j).logical →
      Outbound i j T K s (0, K.length - prev, if es = [] then pr.inflight + 1 else 0)
        { src := i, dst := j, term := T, body := .appendEntries prev prevTerm es lc ctx }
  | probe {pr : Progress} {prev prevTerm lc ctx : Nat} {es : List Entry} : Batch i j K s pr prev prevTerm es →
      ¬ K.take prev <+: (s.host j).logical →
      Outbound i j T K s (prev + 2, 0, 0)
        { src := i, dst := j, term := T, body := .appendEntries prev prevTerm es lc ctx }
  | snapshot {pr : Progress} {snap : Snapshot} : (s.host i).raft.prs.find? j = some pr →
      pr.next ≤ (s.host i).raft.log.snapIndex → (s.host i).raft.snapshot = some snap →
      (s.host i).raft.log.snapIndex ≤ snap.lastIndex →
      Outbound i j T K s (1, 0, 0) { src := i, dst := j, term := T, body := .installSnapshot snap }

/-- The answer of the follower, with the measure of what it answers. -/
inductive Inbound (i j : NodeId) (T : Nat) (K : List Entry) (s : Cluster) : Nat × Nat × Nat → Message → Prop
  | accepted {pr : Progress} {prev prevTerm k ci ctx : Nat} {es : List Entry} : Batch i j K s pr prev prevTerm es →
      prev + es.length ≤ k →
      Inbound i j T K s (0, K.length - prev, if es = [] then pr.inflight + 1 else 0)
        { src := j, dst := i, term := T, body := .appendEntriesResp true k ci ctx }
  | refused {pr : Progress} {prev prevTerm mi ci ctx : Nat} {es : List Entry} : Batch i j K s pr prev prevTerm es →
      1 ≤ ci → ci ≤ prev →
      Inbound i j T K s (prev + 2, 0, 0) { src := j, dst := i, term := T, body := .appendEntriesResp false mi ci ctx }
  | installed {pr : Progress} {li : Nat} : (s.host i).raft.prs.find? j = some pr →
      pr.next ≤ (s.host i).raft.log.snapIndex → (s.host i).raft.log.snapIndex ≤ li →
      Inbound i j T K s (1, 0, 0) { src := j, dst := i, term := T, body := .installSnapshotResp li }

theorem Batch.other (h : Batch i j K s pr prev prevTerm es) (hij : i ≠ j) (n : RaftNode) :
    Batch i j K (s.flush j n) pr prev prevTerm es := by
  have hi := s.flush_other n hij
  exact ⟨hi ▸ h.progress, h.pending, h.next, hi ▸ h.base, h.le, h.term, h.entries⟩

/-- What answers `m`, if it is a rejection, answers a batch and points below its start. -/
def Hinted (m m' : Message) : Prop := ∀ mi ci ctx, m'.body = .appendEntriesResp false mi ci ctx →
  ∃ prev prevTerm es lc ctx', m.body = .appendEntries prev prevTerm es lc ctx' ∧ 1 ≤ ci ∧ ci ≤ prev

/-! ## The follower answers -/

theorem Course.reign (h : Course voters hv i j T K s) (hp : Paced voters hv g s) :
    ∃ r, g.led.reign T = some r ∧ r.log = K := by
  obtain ⟨r, hr, -, hlog⟩ := hp.inv.leader_reign h.leader
  exact ⟨r, h.term ▸ hr, hlog.symm.trans h.log⟩

/-- A step of the follower leaves the leader where it is. -/
theorem Course.follower (h : Course voters hv i j T K s) (hnet : m ∈ s.net) (hdst : m.dst = j)
    (hstep : (s.host j).raft.step m = some n') (hterm : n'.hs.term = T) : Course voters hv i j T K (s.flush j n') := by
  obtain ⟨g, hp⟩ := h.paced
  have hi := s.flush_other n' h.ne.symm
  have hj : ((s.flush j n').host j).raft.hs = n'.hs := by rw [Cluster.flush, Cluster.flushTo_self]; rfl
  refine ⟨hp.exec (a := .call j (.step m)) trivial (exec_step hnet hdst hstep), h.ne, ?_, ?_, ?_, ?_, ?_, ?_, ?_⟩
  · rw [hi]; exact h.leader
  · rw [hi]; exact h.term
  · rw [hj]; exact hterm
  · rw [hi]; exact h.log
  · rw [hi]; exact h.batch
  · rw [hi]; exact h.window
  · rw [hi]; exact h.vec

variable {es : List Entry} {ρ : (Nat × Nat × Nat) × Nat} {x y : Exchange}

/-- The follower answers a batch: it accepts what matches, and refuses with a hint what does not. -/
theorem Course.answers_batch (h : Course voters hv i j T K s) {prev prevTerm : Nat}
    (hb : Batch i j K s pr prev prevTerm es) (lc ctx : Nat) :
    ∃ n' ok k ci, (s.host j).raft.step
      { src := i, dst := j, term := T, body := .appendEntries prev prevTerm es lc ctx } =
        some n' ∧ n'.hs.term = T ∧
      n'.out.messages = [{ src := j, dst := i, term := T, body := .appendEntriesResp ok k ci ctx }] ∧
      ((K.take prev <+: (s.host j).logical ∧ ok = true ∧ prev + es.length ≤ k) ∨
        (¬ K.take prev <+: (s.host j).logical ∧ ok = false ∧ 1 ≤ ci ∧ ci ≤ prev)) := by
  obtain ⟨g, hp⟩ := h.paced
  obtain ⟨r, hr, rfl⟩ := h.reign hp
  have hloc := hp.inv.locals j
  have hdrained := hp.inv.drained j
  have hlen : (r.log.take prev).length = prev := List.length_take_of_le hb.le
  have hstep : (s.host j).raft.step { src := i, dst := j, term := T, body := .appendEntries prev prevTerm es lc ctx } =
      (s.host j).raft.handleAppendEntries i (r.log.take prev).length (lastTermOf (r.log.take prev)) es lc ctx := by
    rw [hlen, hb.term]
    exact step_same rfl h.peer.symm
  rw [hstep]
  rcases hloc.handleAppendEntries (Untouched.refl _) hr (le_of_eq h.peer) hb.entries i lc ctx with
    ⟨hno, hint, hlo, hhi, he⟩ | ⟨hyes, log', k, hk, -, -, he⟩
  · refine ⟨_, false, 0, hint, he, h.peer, ?_, Or.inr ⟨hno, rfl, hlo, hlen ▸ hhi⟩⟩
    refine messages_send hloc.id h.peer ?_ _
    rw [hdrained]
  · have hbeside := raiseCommit_beside
      (((s.host j).raft.listen i).adopt log'
        (missing ((s.host j).base ++ (s.host j).raft.log.entries) (r.log.take prev ++ es)))
      (Nat.min lc (r.log.take prev ++ es).length)
    refine ⟨_, true, k, 0, he, ?_, ?_, Or.inl ⟨hyes, rfl, ?_⟩⟩
    · exact (congrArg HardState.term hbeside.hs).trans h.peer
    · refine messages_send (hbeside.cfg ▸ hloc.id) ((congrArg HardState.term hbeside.hs).trans h.peer) ?_ _
      rw [hbeside.messages]
      show (s.host j).raft.out.messages = []
      rw [hdrained]
    · rw [List.length_append, hlen] at hk; exact hk

/-- The follower answers a snapshot: it has it, it has its last entry, or it takes it over. -/
theorem Course.answers_snapshot (h : Course voters hv i j T K s) (snap : Snapshot) :
    ∃ n' li, (s.host j).raft.step { src := i, dst := j, term := T, body := .installSnapshot snap } = some n' ∧
      n'.hs.term = T ∧ n'.out.messages = [{ src := j, dst := i, term := T, body := .installSnapshotResp li }] ∧
      snap.lastIndex ≤ li := by
  obtain ⟨g, hp⟩ := h.paced
  have hid := (hp.inv.locals j).id
  have hout : (s.host j).raft.out.messages = [] := by rw [hp.inv.drained j]
  rw [step_same rfl h.peer.symm, dispatch]
  dsimp only
  rw [handleInstallSnapshot_eq]
  split
  · rename_i hle
    exact ⟨_, _, rfl, h.peer, messages_send hid h.peer hout _, hle⟩
  · split
    · exact ⟨_, _, rfl, h.peer, messages_send hid h.peer hout _, le_refl _⟩
    · exact ⟨_, _, rfl, h.peer, messages_send hid h.peer hout _, le_refl _⟩

/-- Every message to the follower is answered, with the same measure. -/
theorem Course.answers (h : Course voters hv i j T K s) {μ : Nat × Nat × Nat} (ho : Outbound i j T K s μ m)
    (hnet : m ∈ s.net) :
    ∃ n' m', (s.host j).raft.step m = some n' ∧ n'.out.messages = [m'] ∧ Course voters hv i j T K (s.flush j n') ∧
      Inbound i j T K (s.flush j n') μ m' ∧ Hinted m m' := by
  have hi := fun n => s.flush_other n h.ne.symm
  cases ho with
  | @batch pr prev prevTerm lc ctx es hb hmatch =>
    obtain ⟨n', ok, k, ci, hstep, hterm, hmsg, ⟨-, rfl, hk⟩ | ⟨hno, -⟩⟩ := h.answers_batch hb lc ctx
    · refine ⟨n', _, hstep, hmsg, h.follower hnet rfl hstep hterm, .accepted (hb.other h.ne.symm n') hk, ?_⟩
      intro _ _ _ hbody
      cases hbody
    · exact absurd hmatch hno
  | @probe pr prev prevTerm lc ctx es hb hmiss =>
    obtain ⟨n', ok, k, ci, hstep, hterm, hmsg, ⟨hyes, -⟩ | ⟨-, rfl, hlo, hhi⟩⟩ := h.answers_batch hb lc ctx
    · exact absurd hyes hmiss
    · refine ⟨n', _, hstep, hmsg, h.follower hnet rfl hstep hterm, .refused (hb.other h.ne.symm n') hlo hhi, ?_⟩
      intro _ _ _ hbody
      cases hbody
      exact ⟨_, _, _, _, _, rfl, hlo, hhi⟩
  | @snapshot pr snap hpr hnext hsnap hlast =>
    obtain ⟨n', li, hstep, hterm, hmsg, hle⟩ := h.answers_snapshot snap
    refine ⟨n', _, hstep, hmsg, h.follower hnet rfl hstep hterm, .installed (hi n' ▸ hpr) (hi n' ▸ hnext) ?_, ?_⟩
    · rw [hi n']; exact le_trans hlast hle
    · intro _ _ _ hbody
      cases hbody

/-! ## The leader goes on -/

/-- What the leader has in office and log carries over to the next state. -/
theorem Course.leads (h : Course voters hv i j T K s) (hk : RaftNode.Keeps (s.host i).raft n')
    (hp : ∃ g, Paced voters hv g (s.flush i n')) : Course voters hv i j T K (s.flush i n') := by
  have hout : n'.out.snapshot = none := by
    obtain ⟨g, hp⟩ := h.paced
    rw [hk.installed, hp.inv.drained i]
  obtain ⟨hraft, hbase⟩ := s.flush_host i n' hout
  have hj := s.flush_other n' h.ne
  refine ⟨hp, h.ne, ?_, ?_, ?_, ?_, ?_, ?_, ?_⟩
  · rw [hraft]; exact hk.role.trans h.leader
  · rw [hraft]; exact (congrArg HardState.term hk.hs).trans h.term
  · rw [hj]; exact h.peer
  · rw [Host.logical, hraft, hbase, ← h.log]
    exact congrArg (fun l => (s.host i).base ++ RaftLog.entries l) hk.log
  · rw [hraft]; exact (congrArg Config.maxBatchEntries hk.cfg) ▸ h.batch
  · rw [hraft]; exact (congrArg Config.maxInflight hk.cfg) ▸ h.window
  · rw [hraft]; exact (congrArg RaftLog.entries hk.log) ▸ h.vec

/-- The measure of what `send_append` sends when the progress of the follower is `pr`: a snapshot, a batch that will
be refused, or one that will be accepted. -/
inductive Measured (K M : List Entry) (base window : Nat) (pr : Progress) : Nat × Nat × Nat → Prop
  | snapshot : pr.next ≤ base → Measured K M base window pr (1, 0, 0)
  | probe : base < pr.next → ¬ K.take (pr.next - 1) <+: M → Measured K M base window pr (pr.next - 1 + 2, 0, 0)
  | batch {c : Nat} : base < pr.next → K.take (pr.next - 1) <+: M →
      (pr.next ≤ K.length → c = 0 ∨ window ≤ pr.inflight ∧ c = pr.inflight - 1 + 1) →
      Measured K M base window pr (0, K.length - (pr.next - 1), c)

/-- The state after a message has been sent to the follower. -/
theorem Course.sent_state (h : Course voters hv i j T K s) (hk : RaftNode.Keeps (s.host i).raft n)
    (hmsg : n.out.messages = []) {pr' : Progress} {body : MessageBody}
    (hsent : n.sendAppend j = { n with prs := n.prs.insert j pr' }.send j body) :
    (n.sendAppend j).out.messages = [{ src := i, dst := j, term := T, body }] ∧
      ((s.flush i (n.sendAppend j)).host i).raft.prs.find? j = some pr' ∧
      ((s.flush i (n.sendAppend j)).host i).raft.log = (s.host i).raft.log ∧
      ((s.flush i (n.sendAppend j)).host i).raft.snapshot = (s.host i).raft.snapshot ∧
      (s.flush i (n.sendAppend j)).host j = s.host j := by
  obtain ⟨g, hp⟩ := h.paced
  have hout : (n.sendAppend j).out.snapshot = none := by
    rw [(sendAppend_sentFrom n j).keeps.installed, hk.installed, hp.inv.drained i]
  obtain ⟨hraft, -⟩ := s.flush_host i (n.sendAppend j) hout
  rw [hraft, hsent]
  refine ⟨?_, (OrdMap.find?_insert ..).trans (if_pos rfl), hk.log, hk.snapshot, s.flush_other _ h.ne⟩
  exact messages_send (n := { n with prs := n.prs.insert j pr' })
    ((congrArg Config.id hk.cfg).trans (hp.inv.locals i).id) ((congrArg HardState.term hk.hs).trans h.term) hmsg _

theorem Course.sends (h : Course voters hv i j T K s) (hk : RaftNode.Keeps (s.host i).raft n)
    (hmsg : n.out.messages = []) (hpr : n.prs.find? j = some pr) (hpend : pr.pendingSnapshot = false)
    (hpos : 0 < pr.next) (hle : pr.next ≤ K.length + 1) :
    ∃ m μ, (n.sendAppend j).out.messages = [m] ∧ Outbound i j T K (s.flush i (n.sendAppend j)) μ m ∧
      Measured K (s.host j).logical (s.host i).raft.log.snapIndex (s.host i).raft.cfg.maxInflight pr μ := by
  obtain ⟨g, hp⟩ := h.paced
  have hrel := (hp.inv.locals i).core.rel
  have hlen : (s.host i).raft.log.lastIndex = K.length := by rw [hrel.lastIndex_eq, ← h.log]; rfl
  rcases lt_or_ge (s.host i).raft.log.snapIndex pr.next with hnext | hnext
  · have hbase : (s.host i).base.length ≤ pr.next - 1 := by rw [← hrel.len]; omega
    have hterm : n.log.term (pr.next - 1) = some (lastTermOf (K.take (pr.next - 1))) := by
      rw [hk.log, ← h.log]
      exact hrel.term_eq hbase (by rw [← hrel.lastIndex_eq]; omega)
    obtain ⟨es, pr', hsent, hnext', hpend', -, hes⟩ := sendAppend_batch hpr hpend (hk.log ▸ hnext) hterm
    obtain ⟨hmsg', hpr', hlog', -, hj⟩ := h.sent_state hk hmsg hsent
    have hslice : K.take (pr.next - 1) ++ (s.host i).raft.log.slice pr.next n.cfg.maxBatchEntries <+: K := by
      rw [← h.log]
      exact hrel.slice_le (by rw [← hrel.len]; exact hnext)
    have hb : Batch i j K (s.flush i (n.sendAppend j)) pr' (pr.next - 1) (lastTermOf (K.take (pr.next - 1))) es := by
      refine ⟨hpr', hpend', by omega, by rw [hlog']; omega, by omega, rfl, ?_⟩
      rcases hes with rfl | ⟨rfl, -⟩
      · rw [hk.log]; exact hslice
      · rw [List.append_nil]; exact List.take_prefix _ _
    by_cases hmatch : K.take (pr.next - 1) <+: (s.host j).logical
    · refine ⟨_, _, hmsg', .batch hb (hj ▸ hmatch), .batch hnext hmatch fun hend => ?_⟩
      rcases hes with rfl | ⟨rfl, hfull, hin⟩
      · left
        refine if_neg ?_
        rw [hk.log, hk.cfg]
        exact RaftLog.slice_ne_nil hnext (by omega) h.batch
      · right
        rw [hin]
        exact ⟨hk.cfg ▸ hfull, rfl⟩
    · exact ⟨_, _, hmsg', .probe hb (hj ▸ hmatch), .probe hnext hmatch⟩
  · -- behind the base
    obtain ⟨snap, hsnap, hidx, -⟩ := (hp.shaped i).snapshot (lt_of_lt_of_le hpos hnext)
    have hsent := sendAppend_snapshot hpr hpend (hk.log ▸ hnext) (hk.snapshot.trans hsnap)
    obtain ⟨hmsg', hpr', hlog', hsnap', -⟩ := h.sent_state hk hmsg hsent
    refine ⟨_, _, hmsg', .snapshot hpr' ?_ (hsnap'.trans hsnap) ?_, .snapshot hnext⟩
    · rw [hlog']; exact hnext
    · rw [hlog', hidx]

/-- The order of the measures. -/
abbrev Below : Nat × Nat × Nat → Nat × Nat × Nat → Prop := Prod.Lex (· < ·) (Prod.Lex (· < ·) (· < ·))

/-- The leader has heard that the follower holds its whole log. -/
structure CaughtUp (i j : NodeId) (K : List Entry) (s : Cluster) : Prop where
  matched : ((s.host i).raft.prs.find? j).map Progress.matched = some K.length
  held : K <+: (s.host j).logical

/-- What the follower acknowledges it holds. -/
theorem Course.acked (h : Course voters hv i j T K s) (hnet : m ∈ s.net) (hsrc : m.src = j) (hterm : m.term = T) :
    m.acked ≤ K.length ∧ K.take m.acked <+: (s.host j).logical := by
  obtain ⟨g, hp⟩ := h.paced
  have hack := (hp.inv.net m hnet).acked
  rw [hsrc, hterm] at hack
  rcases Nat.eq_zero_or_pos m.acked with hz | hpos
  · rw [hz]; exact ⟨Nat.zero_le _, List.nil_prefix⟩
  · obtain ⟨a, r, hlen, ha, hr, har⟩ := hp.inv.acked_prefix hack hpos h.peer
    obtain ⟨r', hr', rfl⟩ := h.reign hp
    cases hr.symm.trans hr'
    rw [← hlen, ← List.prefix_iff_eq_take.1 har]
    exact ⟨har.length_le, ha⟩

theorem Course.plain (h : Course voters hv i j T K s) : ∀ e ∈ (s.host i).raft.log.entries, e.isConf = false := by
  obtain ⟨g, hp⟩ := h.paced
  intro e he
  refine Plain.log hp.plain (hp.inv.locals i).shared.sound i e ?_
  rw [hp.inv.logical_eq i]
  exact List.mem_append_right _ he

theorem Course.drained (h : Course voters hv i j T K s) : (s.host i).raft.out.messages = [] := by
  obtain ⟨g, hp⟩ := h.paced
  rw [hp.inv.drained i]

theorem Course.lastIndex (h : Course voters hv i j T K s) : (s.host i).raft.log.lastIndex = K.length := by
  obtain ⟨g, hp⟩ := h.paced
  rw [(hp.inv.locals i).core.rel.lastIndex_eq, ← h.log]; rfl

/-- A success: more is acknowledged, or a slot of the window is free again; nothing is left to send at the end. -/
theorem Course.proceeds_accepted (h : Course voters hv i j T K s) {prev prevTerm k : Nat}
    (hb : Batch i j K s pr prev prevTerm es) (hk : prev + es.length ≤ k) (hle : k ≤ K.length)
    (hheld : K.take k <+: (s.host j).logical) (ci ctx : Nat) :
    RaftNode.Keeps (s.host i).raft ((s.host i).raft.handleAppendResp j true k ci ctx) ∧
    ((((s.host i).raft.handleAppendResp j true k ci ctx).out.messages = [] ∧
        CaughtUp i j K (s.flush i ((s.host i).raft.handleAppendResp j true k ci ctx))) ∨
      ∃ m' μ', ((s.host i).raft.handleAppendResp j true k ci ctx).out.messages = [m'] ∧
        Outbound i j T K (s.flush i ((s.host i).raft.handleAppendResp j true k ci ctx)) μ' m' ∧
        Below μ' (0, K.length - prev, if es = [] then pr.inflight + 1 else 0)) := by
  have hnext := hb.next
  have hbase := hb.base
  have hlast := h.lastIndex
  rw [handleAppendResp_eq h.leader hb.progress]
  obtain ⟨hpr₁, hk₂, hmsg₂⟩ := countAck_replaced h.plain j pr k ctx
  rw [h.drained] at hmsg₂
  have hnext₁ : ((s.host i).raft.accepted pr k ctx).next = k + 1 := Nat.max_eq_right (by omega)
  generalize ((s.host i).raft.countAck j pr k ctx).processReadAcks = n₂ at hpr₁ hk₂ hmsg₂ ⊢
  refine ⟨hk₂.trans (sendRest_sentFrom _ _ _).keeps, ?_⟩
  unfold sendRest
  rw [hpr₁, Option.map_some]
  by_cases hmore : k + 1 ≤ K.length
  · right
    rw [if_pos (by rw [hnext₁, hlast]; exact decide_eq_true hmore)]
    obtain ⟨m', μ', hmsg', hout, hmeas⟩ := h.sends hk₂ hmsg₂ hpr₁ hb.pending (by omega) (by omega)
    refine ⟨m', μ', hmsg', hout, ?_⟩
    cases hmeas with
    | snapshot hbehind => omega
    | probe _ hmiss =>
      rw [hnext₁] at hmiss
      exact absurd hheld hmiss
    | @batch c _ _ hc =>
      rw [hnext₁, Nat.add_sub_cancel]
      refine .right _ ?_
      rcases lt_or_ge prev k with hlt | hge
      · exact .left _ _ (by omega)
      · -- an empty batch, while the window was full
        have hes : es = [] := List.length_eq_zero_iff.1 (by omega)
        have hwindow := h.window
        rw [show prev = k by omega, if_pos hes]
        have hin : ((s.host i).raft.accepted pr k ctx).inflight = pr.inflight - 1 := rfl
        omega
  · left
    rw [if_neg (by rw [hnext₁, hlast]; simpa using hmore)]
    have hout : n₂.out.snapshot = none := by
      obtain ⟨g, hp⟩ := h.paced
      rw [hk₂.installed, hp.inv.drained i]
    obtain ⟨hraft, -⟩ := s.flush_host i n₂ hout
    have hfull : k = K.length := by omega
    refine ⟨hmsg₂, ?_, ?_⟩
    · obtain ⟨g, hp⟩ := h.paced
      have hm := ((hp.shaped i).progress h.leader j pr hb.progress).1
      rw [hraft]
      rw [hpr₁, Option.map_some]
      unfold RaftNode.accepted
      dsimp only
      split
      · rw [hfull]
      · exact congrArg some (by omega)
    · rw [s.flush_other n₂ h.ne]
      rwa [hfull, List.take_length] at hheld

/-- A refusal: the next batch starts below the refused one. -/
theorem Course.proceeds_refused (h : Course voters hv i j T K s) {prev prevTerm ci : Nat}
    (hb : Batch i j K s pr prev prevTerm es) (hlo : 1 ≤ ci) (hhi : ci ≤ prev) (mi ctx : Nat) :
    RaftNode.Keeps (s.host i).raft ((s.host i).raft.handleAppendResp j false mi ci ctx) ∧
    ∃ m' μ', ((s.host i).raft.handleAppendResp j false mi ci ctx).out.messages = [m'] ∧
      Outbound i j T K (s.flush i ((s.host i).raft.handleAppendResp j false mi ci ctx)) μ' m' ∧
        Below μ' (prev + 2, 0, 0) := by
  have hle := hb.le
  have hlast := h.lastIndex
  have hnext : ((s.host i).raft.refused pr ci ctx).next = ci := by
    have hmax : max ci 1 = ci := Nat.max_eq_left hlo
    show min (max ci 1) ((s.host i).raft.log.lastIndex + 1) = ci
    rw [hmax]
    exact Nat.min_eq_left (by omega)
  obtain ⟨hpr, hk, hmsg⟩ := (RaftNode.Beside.refl
    { (s.host i).raft with prs := (s.host i).raft.prs.insert j ((s.host i).raft.refused pr ci ctx) }).replaced
  rw [handleAppendResp_refused h.leader hb.progress hlo]
  obtain ⟨m', μ', hmsg', hout, hmeas⟩ := h.sends hk (hmsg.trans h.drained) hpr hb.pending (by omega) (by omega)
  refine ⟨hk.trans (sendAppend_sentFrom _ _).keeps, m', μ', hmsg', hout, ?_⟩
  cases hmeas with
  | snapshot _ => exact .left _ _ (by omega)
  | probe _ _ => exact .left _ _ (by omega)
  | batch _ _ _ => exact .left _ _ (by omega)

/-- The snapshot has arrived: from its end on everything matches. -/
theorem Course.proceeds_installed (h : Course voters hv i j T K s) {li : Nat}
    (hpr : (s.host i).raft.prs.find? j = some pr) (hnext : pr.next ≤ (s.host i).raft.log.snapIndex)
    (hli : (s.host i).raft.log.snapIndex ≤ li) (hle : li ≤ K.length) (hheld : K.take li <+: (s.host j).logical) :
    RaftNode.Keeps (s.host i).raft ((s.host i).raft.handleInstallSnapshotResp j li) ∧
    ∃ m' μ', ((s.host i).raft.handleInstallSnapshotResp j li).out.messages = [m'] ∧
      Outbound i j T K (s.flush i ((s.host i).raft.handleInstallSnapshotResp j li)) μ' m' ∧ Below μ' (1, 0, 0) := by
  have hnext₁ : ((s.host i).raft.installed pr li).next = li + 1 := Nat.max_eq_right (by omega)
  have hbeside : RaftNode.Beside
      { (s.host i).raft with prs := (s.host i).raft.prs.insert j ((s.host i).raft.installed pr li) } _ :=
    maybeAdvanceCommit_beside h.plain
  obtain ⟨hpr₁, hk, hmsg⟩ := hbeside.replaced
  rw [handleInstallSnapshotResp_eq h.leader hpr]
  obtain ⟨m', μ', hmsg', hout, hmeas⟩ := h.sends hk (hmsg.trans h.drained) hpr₁ rfl (by omega) (by omega)
  refine ⟨hk.trans (sendAppend_sentFrom _ _).keeps, m', μ', hmsg', hout, ?_⟩
  cases hmeas with
  | snapshot hbehind => omega
  | probe _ hmiss =>
    rw [hnext₁] at hmiss
    exact absurd hheld hmiss
  | batch _ _ _ => exact .left _ _ (by omega)

/-- Every answer ends the exchange or is followed by a message with a smaller measure. -/
theorem Course.proceeds (h : Course voters hv i j T K s) {μ : Nat × Nat × Nat} (hi : Inbound i j T K s μ m)
    (hnet : m ∈ s.net) :
    ∃ n', (s.host i).raft.step m = some n' ∧ Course voters hv i j T K (s.flush i n') ∧
      ((n'.out.messages = [] ∧ CaughtUp i j K (s.flush i n')) ∨
        ∃ m' μ', n'.out.messages = [m'] ∧ Outbound i j T K (s.flush i n') μ' m' ∧ Below μ' μ) := by
  have hleads : ∀ {n'}, m.dst = i → (s.host i).raft.step m = some n' → RaftNode.Keeps (s.host i).raft n' →
      Course voters hv i j T K (s.flush i n') := fun {n'} hdst hstep hk => by
    obtain ⟨g, hp⟩ := h.paced
    exact h.leads hk (hp.exec (a := .call i (.step m)) trivial (exec_step hnet hdst hstep))
  cases hi with
  | @accepted pr prev prevTerm k ci ctx es hb hk =>
    obtain ⟨hle, hheld⟩ := h.acked hnet rfl rfl
    obtain ⟨hkeeps, hnext⟩ := h.proceeds_accepted hb hk hle hheld ci ctx
    have hstep := step_same (n := (s.host i).raft)
      (m := { src := j, dst := i, term := T, body := .appendEntriesResp true k ci ctx }) rfl h.term.symm
    exact ⟨_, hstep, hleads rfl hstep hkeeps, hnext⟩
  | @refused pr prev prevTerm mi ci ctx es hb hlo hhi =>
    obtain ⟨hkeeps, hnext⟩ := h.proceeds_refused hb hlo hhi mi ctx
    have hstep := step_same (n := (s.host i).raft)
      (m := { src := j, dst := i, term := T, body := .appendEntriesResp false mi ci ctx }) rfl h.term.symm
    exact ⟨_, hstep, hleads rfl hstep hkeeps, Or.inr hnext⟩
  | @installed pr li hpr hnext hli =>
    obtain ⟨hle, hheld⟩ := h.acked hnet rfl rfl
    obtain ⟨hkeeps, hnext⟩ := h.proceeds_installed hpr hnext hli hle hheld
    have hstep := step_same (n := (s.host i).raft)
      (m := { src := j, dst := i, term := T, body := .installSnapshotResp li }) rfl h.term.symm
    exact ⟨_, hstep, hleads rfl hstep hkeeps, Or.inr hnext⟩

/-! ## Where the source panics -/

/-- The follower cuts no batch. -/
theorem Course.answers_checked (h : Course voters hv i j T K s) {μ : Nat × Nat × Nat} (ho : Outbound i j T K s μ m) :
    (s.host j).raft.step? m = (s.host j).raft.step m := by
  cases ho with
  | batch _ _ =>
    rw [step?_same rfl h.peer.symm, step_same rfl h.peer.symm]
    exact handleAppendEntries?_eq ..
  | probe _ _ =>
    rw [step?_same rfl h.peer.symm, step_same rfl h.peer.symm]
    exact handleAppendEntries?_eq ..
  | snapshot _ _ _ _ =>
    rw [step?_same rfl h.peer.symm, step_same rfl h.peer.symm]
    exact handleInstallSnapshot?_eq ..

theorem Course.proceeds_checked (h : Course voters hv i j T K s) {μ : Nat × Nat × Nat} (hi : Inbound i j T K s μ m)
    (hstep : (s.host i).raft.step m = some n') : (s.host i).raft.step? m = if n'.Fits then some n' else none := by
  cases hi with
  | accepted hb _ =>
    rw [step_same rfl h.term.symm] at hstep
    cases hstep
    rw [step?_same rfl h.term.symm]
    exact handleAppendResp?_eq_ite h.leader hb.progress h.plain h.drained h.vec
  | refused hb _ _ =>
    rw [step_same rfl h.term.symm] at hstep
    cases hstep
    rw [step?_same rfl h.term.symm]
    exact handleAppendResp?_eq_ite h.leader hb.progress h.plain h.drained h.vec
  | installed hpr _ _ =>
    rw [step_same rfl h.term.symm] at hstep
    cases hstep
    rw [step?_same rfl h.term.symm]
    exact handleInstallSnapshotResp?_eq_ite h.leader hpr h.plain h.drained h.vec

theorem Inbound.fits {μ : Nat × Nat × Nat} (h : Inbound i j T K s μ m) (log : RaftLog) (max : Nat) :
    m.body.Fits log max := by
  cases h <;> trivial

/-! ## To the end of the exchange -/

theorem Outbound.between {μ : Nat × Nat × Nat} (h : Outbound i j T K s μ m) :
    m.dst = j ∧ Message.between i j m = true := by
  cases h <;> simp [Message.between]

theorem Inbound.between {μ : Nat × Nat × Nat} (h : Inbound i j T K s μ m) :
    m.dst = i ∧ Message.between i j m = true := by
  cases h <;> simp [Message.between]

theorem Outbound.hinted {μ : Nat × Nat × Nat} (h : Outbound i j T K s μ m') (m : Message) : Hinted m m' := by
  intro _ _ _ hbody
  cases h <;> cases hbody

theorem Cluster.mem_flush_net {k : NodeId} (hm : m ∈ n.out.messages) : m ∈ (s.flush k n).net :=
  List.mem_append_right _ hm

/-- One message is on the wire, one way or the other, or the leader knows that all is done. -/
inductive Stage (voters : List NodeId) (hv : voters.Nodup) (i j : NodeId) (T : Nat) (K : List Entry) :
    (Nat × Nat × Nat) × Nat → Exchange → Prop
  | outbound {s m μ} : Course voters hv i j T K s → m ∈ s.net → Outbound i j T K s μ m →
      Stage voters hv i j T K (μ, 2) ⟨s, [m]⟩
  | inbound {s m μ} : Course voters hv i j T K s → m ∈ s.net → Inbound i j T K s μ m →
      Stage voters hv i j T K (μ, 1) ⟨s, [m]⟩
  | settled {s μ} : Course voters hv i j T K s → CaughtUp i j K s → Stage voters hv i j T K (μ, 0) ⟨s, []⟩

theorem Stage.deliver (h : Stage voters hv i j T K ρ x) (hwire : x.wire ≠ []) :
    ∃ y ρ', x.deliver voters i j = some y ∧ Stage voters hv i j T K ρ' y ∧ Prod.Lex Below (· < ·) ρ' ρ ∧
      ∀ m ∈ x.wire, ∀ m' ∈ y.wire, Hinted m m' := by
  cases h with
  | @outbound s m μ hc hnet ho =>
    obtain ⟨n', m', hstep, hmsg, hc', hi, hhint⟩ := hc.answers ho hnet
    have hdel := Exchange.deliver_one (i := i) (j := j) voters hnet ho.between.1 hstep
      (by simpa [hmsg] using hi.between.2)
    rw [hmsg] at hdel
    refine ⟨_, _, hdel, .inbound hc' (Cluster.mem_flush_net (by simp [hmsg])) hi, .right _ (by decide), ?_⟩
    simpa using hhint
  | @inbound s m μ hc hnet hi =>
    obtain ⟨n', hstep, hc', ⟨hmsg, hset⟩ | ⟨m', μ', hmsg, ho, hbelow⟩⟩ := hc.proceeds hi hnet
    · have hdel := Exchange.deliver_one (i := i) (j := j) voters hnet hi.between.1 hstep (by simp [hmsg])
      rw [hmsg] at hdel
      exact ⟨_, (μ, 0), hdel, .settled hc' hset, .right _ (by decide), by simp⟩
    · have hdel := Exchange.deliver_one (i := i) (j := j) voters hnet hi.between.1 hstep
        (by simpa [hmsg] using ho.between.2)
      rw [hmsg] at hdel
      refine ⟨_, _, hdel, .outbound hc' (Cluster.mem_flush_net (by simp [hmsg])) ho, .left _ _ hbelow, ?_⟩
      intro m _ m'' hm''
      rw [List.mem_singleton.1 hm'']
      exact ho.hinted m
  | settled _ _ => exact absurd rfl hwire

theorem Exchange.wire_of_deliver (h : x.deliver voters i j = some y) : x.wire ≠ [] := by
  intro hnil
  rw [Exchange.deliver, hnil] at h
  cases h

theorem Exchange.wire_of_deliver? (h : x.deliver? i j = some y) : x.wire ≠ [] := by
  intro hnil
  rw [Exchange.deliver?, hnil] at h
  cases h

theorem Stage.deliveries (h : Stage voters hv i j T K ρ x)
    (hd : Deliveries voters i j x y) : ∃ ρ', Stage voters hv i j T K ρ' y := by
  induction hd with
  | refl => exact ⟨ρ, h⟩
  | @tail y z _ hstep ih =>
    obtain ⟨ρ', hy⟩ := ih
    obtain ⟨z', ρ'', hdel, hz, -⟩ := hy.deliver (Exchange.wire_of_deliver hstep)
    cases hdel.symm.trans hstep
    exact ⟨ρ'', hz⟩

/-- A delivery panics if and only if what it would put on the wire does not fit. -/
theorem Stage.deliver?_eq_ite (h : Stage voters hv i j T K ρ x)
    (hdel : x.deliver voters i j = some y) : x.deliver? i j = if y.Fits i then some y else none := by
  cases h with
  | @outbound s m μ hc hnet ho =>
    obtain ⟨n', m', hstep, hmsg, -, hi, -⟩ := hc.answers ho hnet
    have hbetween : ∀ m'' ∈ n'.out.messages, Message.between i j m'' = true := by simpa [hmsg] using hi.between.2
    cases (Exchange.deliver_one voters hnet ho.between.1 hstep hbetween).symm.trans hdel
    have hfits : Exchange.Fits i ⟨s.flush j n', n'.out.messages⟩ := by
      intro m'' hm''
      rw [hmsg] at hm''
      rw [List.mem_singleton.1 hm'']
      exact hi.fits _ _
    rw [if_pos hfits, Exchange.deliver?_one (p := True) ho.between.1
      (by rw [hc.answers_checked ho, hstep, if_pos trivial])
      hbetween, if_pos trivial]
  | @inbound s m μ hc hnet hi =>
    obtain ⟨n', hstep, -, hnext⟩ := hc.proceeds hi hnet
    have hbetween : ∀ m'' ∈ n'.out.messages, Message.between i j m'' = true := by
      rcases hnext with ⟨hmsg, -⟩ | ⟨m', μ', hmsg, ho, -⟩
      · simp [hmsg]
      · simpa [hmsg] using ho.between.2
    cases (Exchange.deliver_one voters hnet hi.between.1 hstep hbetween).symm.trans hdel
    rw [Exchange.deliver?_one hi.between.1 (hc.proceeds_checked hi hstep) hbetween]
    simp only [Exchange.fits_flush]
  | settled _ _ => cases hdel

/-- Without a panic the exchange is the one on unbounded numbers. -/
theorem Stage.unchecked (h : Stage voters hv i j T K ρ x) (hd : Deliveries? i j x y) : Deliveries voters i j x y := by
  induction hd with
  | refl => exact .refl
  | @tail y z _ hstep ih =>
    obtain ⟨ρ', hy⟩ := h.deliveries ih
    obtain ⟨z', -, hdel, -⟩ := hy.deliver (Exchange.wire_of_deliver? hstep)
    rw [hy.deliver?_eq_ite hdel] at hstep
    split at hstep
    · cases hstep
      exact ih.tail hdel
    · cases hstep

theorem Stage.checked (h : Stage voters hv i j T K ρ x)
    (hfit : ∀ z, Deliveries voters i j x z → z.Fits i) (hd : Deliveries voters i j x y) : Deliveries? i j x y := by
  induction hd with
  | refl => exact .refl
  | @tail y z hd hdel ih =>
    obtain ⟨ρ', hy⟩ := h.deliveries hd
    exact ih.tail ((hy.deliver?_eq_ite hdel).trans (if_pos (hfit z (hd.tail hdel))))

/-- An exchange that ends has met no batch that does not fit. -/
theorem Stage.fits_of_ends {z : Exchange} (h : Stage voters hv i j T K ρ x) (hx : x.Fits i) (hd : Deliveries? i j x y)
    (hnil : y.wire = []) (hz : Deliveries voters i j x z) : Deliveries? i j x z ∧ z.Fits i := by
  induction hz with
  | refl => exact ⟨.refl, hx⟩
  | @tail w z hw hdel ih =>
    have hwire := Exchange.wire_of_deliver hdel
    -- there is one way on from `w`, and `y` is not before it
    have hwy : Deliveries? i j w y := by
      rcases ReflTransGen.total_of_right_unique (fun _ _ _ ha hb => Option.some.inj (ha.symm.trans hb)) ih.1 hd with
        hwy | hyw
      · exact hwy
      · rcases hyw.cases_head with rfl | ⟨_, hstep, _⟩
        · exact .refl
        · exact absurd hnil (Exchange.wire_of_deliver? hstep)
    rcases hwy.cases_head with rfl | ⟨_, hstep, _⟩
    · exact absurd hnil hwire
    · obtain ⟨ρ', hstage⟩ := h.deliveries hw
      have hite := hstage.deliver?_eq_ite hdel
      rw [hstep] at hite
      split at hite
      · rename_i hfit
        cases hite
        exact ⟨ih.1.tail hstep, hfit⟩
      · cases hite

/-- The measure cannot fall for ever. -/
theorem Stage.ends (h : Stage voters hv i j T K ρ x) : ∃ y, Deliveries voters i j x y ∧ y.wire = [] := by
  have hwf : WellFounded (Prod.Lex Below ((· < ·) : Nat → Nat → Prop)) :=
    WellFounded.prod_lex (WellFounded.prod_lex Nat.lt_wfRel.wf (WellFounded.prod_lex Nat.lt_wfRel.wf Nat.lt_wfRel.wf))
      Nat.lt_wfRel.wf
  induction ρ using hwf.induction generalizing x with
  | _ ρ ih =>
    by_cases hwire : x.wire = []
    · exact ⟨x, .refl, hwire⟩
    · obtain ⟨y, ρ', hdel, hy, hlt, -⟩ := h.deliver hwire
      obtain ⟨z, hz, hnil⟩ := ih ρ' hlt hy
      exact ⟨z, .head hdel hz, hnil⟩

/-- The first message. -/
theorem Course.start (h : Course voters hv i j T K s) (hpr : (s.host i).raft.prs.find? j = some pr)
    (hpend : pr.pendingSnapshot = false) :
    (∃ ρ, Stage voters hv i j T K ρ (Exchange.start i j s)) ∧
      Exchange.start? i j s = if (Exchange.start i j s).Fits i then some (Exchange.start i j s) else none := by
  obtain ⟨g, hp⟩ := h.paced
  have hkeeps := (sendAppend_sentFrom (s.host i).raft j).keeps
  obtain ⟨hpos, hle, -⟩ := (hp.windows i h.leader).window hpr
  rw [h.lastIndex] at hle
  obtain ⟨m, μ, hmsg, hout, -⟩ := h.sends (RaftNode.Beside.refl _).toKeeps h.drained hpr hpend hpos hle
  have hdur : Durable (s.host i).disk ((s.host i).raft.sendAppend j) := by
    have hsent := sendAppend_sentFrom (s.host i).raft j
    unfold Durable
    rw [hsent, hp.inv.drained i, hp.inv.durable i]; rfl
  have hpaced := hp.moved (c := .tick) (by simp [Call.changesConf]) trivial (sendAppend_moves h.leader j) hdur
  have heq : Exchange.start i j s = ⟨s.flush i ((s.host i).raft.sendAppend j),
    ((s.host i).raft.sendAppend j).out.messages⟩ :=
    Exchange.after_flush (by simpa [hmsg] using hout.between.2)
  refine ⟨⟨(μ, 2), ?_⟩, ?_⟩
  · rw [heq, hmsg]
    exact .outbound (h.leads hkeeps hpaced) (Cluster.mem_flush_net (by simp [hmsg])) hout
  · unfold Exchange.start?
    rw [sendAppend?_eq_ite h.drained h.vec]
    simp only [heq, Exchange.fits_flush]
    split
    · exact congrArg some heq
    · rfl

/-- The follower has nothing that the leader lacks: whatever is of the leader's term comes from the leader. -/
theorem Course.held_eq (h : Course voters hv i j T K s) (hown : lastTermOf K = T) (hheld : K <+: (s.host j).logical) :
    (s.host j).logical = K := by
  obtain ⟨g, hp⟩ := h.paced
  obtain ⟨r, hr, rfl⟩ := h.reign hp
  have hloc := hp.inv.locals j
  obtain ⟨rest, hrest⟩ := hheld
  rcases List.eq_nil_or_concat rest with rfl | ⟨l, e, rfl⟩
  · rw [← hrest, List.append_nil]
  · exfalso
    rw [List.concat_eq_append] at hrest
    have hterm : e.term = T := by
      have hmem : e ∈ (s.host j).base ++ (s.host j).raft.log.entries := by
        show e ∈ (s.host j).logical
        simp [← hrest]
      have hle := hloc.terms_le e hmem
      have hmono : (r.log ++ (l ++ [e])).Pairwise fun e e' => e.term ≤ e'.term := by
        rw [hrest]; exact hloc.pairwise_terms
      have hge := lastTermOf_le hmono (e := e) (by simp)
      rw [h.peer] at hle
      omega
    obtain ⟨r', hr', hle⟩ := hloc.log_chain (r.log ++ l) e (by
      rw [List.append_assoc, hrest]; exact List.prefix_refl _)
    have hsame : g.led.reign e.term = some r' := hr'
    rw [hterm, hr] at hsame
    cases hsame
    have hlen := hle.length_le
    simp only [List.length_append, List.length_singleton] at hlen
    omega

theorem Course.repaired (h : Course voters hv i j T K s) (hown : lastTermOf K = T) (hs : CaughtUp i j K s) :
    Repaired i j s := by
  obtain ⟨g, hp⟩ := h.paced
  have hrel := (hp.inv.locals j).core.rel
  have heq := h.held_eq hown hs.held
  refine ⟨?_, ?_, ?_⟩
  · rw [h.lastIndex]; exact hs.matched
  · rw [h.lastIndex, hrel.lastIndex_eq, ← heq]; rfl
  · rw [h.log, ← heq, hrel.len]
    exact (List.drop_left ..).symm

theorem Stage.fits_of_roomy (h : Stage voters hv i j T K ρ x)
    (hroomy : (x.cluster.host i).raft.cfg.Roomy) (hd : Deliveries voters i j x y) : y.Fits i := by
  have hcfg : (y.cluster.host i).raft.cfg = (x.cluster.host i).raft.cfg := by
    induction hd with
    | refl => rfl
    | tail _ hdel ih => exact (Exchange.deliver_cfg hdel i).trans ih
  obtain ⟨ρ', hy⟩ := h.deliveries hd
  rw [← hcfg] at hroomy
  cases hy with
  | outbound hc _ _ => exact fun m _ => m.body.fits_of_le hc.vec hroomy
  | inbound hc _ _ => exact fun m _ => m.body.fits_of_le hc.vec hroomy
  | settled hc _ => exact fun m _ => m.body.fits_of_le hc.vec hroomy

/-- Every batch of the exchange on unbounded numbers is cut without overflow. -/
def SlicesFit (voters : List NodeId) (i j : NodeId) (s : Cluster) : Prop :=
  ∀ x, Deliveries voters i j (Exchange.start i j s) x → x.Fits i

/-- **Log repair converges.** In a cluster of fixed membership, let a leader send one `send_append` to another
member that is in its term, and let only what the two say to each other from then on be delivered, in order. If and
only if the batches are cut without overflow, there is nothing left to deliver after finitely many deliveries, and
both have the same log; otherwise the leader panics. They are for a `max_batch_entries` up to `2 ^ 63`. Every
rejection on the way answers a batch, with a hint between 1 and its start. -/
theorem repair_converges (cfg : NodeId → Config) (voters : List NodeId) (hv : voters.Nodup)
    (hr : Run voters (fun _ a => a.fixed) (Cluster.init cfg voters) s) (hl : (s.host i).raft.role = .leader)
    (hj : j ∈ voters) (hne : j ≠ i) (hterm : (s.host j).raft.hs.term = (s.host i).raft.hs.term)
    (hbatch : 1 ≤ (s.host i).raft.cfg.maxBatchEntries) (hwindow : 1 ≤ (s.host i).raft.cfg.maxInflight)
    (hvec : (s.host i).raft.log.entries.length ≤ 2 ^ 63)
    (hpend : ∀ pr, (s.host i).raft.prs.find? j = some pr → pr.pendingSnapshot = false) :
    ((∃ x y, Exchange.start? i j s = some x ∧ Deliveries? i j x y ∧ y.wire = [] ∧ Repaired i j y.cluster) ↔
        SlicesFit voters i j s) ∧
      ((s.host i).raft.cfg.Roomy → SlicesFit voters i j s) ∧
      ∀ x x' y, Exchange.start? i j s = some x → Deliveries? i j x x' → x'.deliver? i j = some y →
        ∀ m ∈ x'.wire, ∀ m' ∈ y.wire, Hinted m m' := by
  obtain ⟨g, hp⟩ := paced_of_run cfg voters hv hr
  have hcourse : Course voters hv i j (s.host i).raft.hs.term (s.host i).logical s :=
    ⟨⟨g, hp⟩, hne, hl, rfl, hterm, rfl, hbatch, hwindow, hvec⟩
  have hown : lastTermOf (s.host i).logical = (s.host i).raft.hs.term := by
    rw [← owns_of_run cfg hr i hl]
    exact (hp.inv.locals i).core.rel.lastTerm_eq.symm
  obtain ⟨pr, hpr⟩ := Option.isSome_iff_exists.1 (((hp.windows i hl).peers j).2
    ⟨hj, by rw [(hp.inv.locals i).id]; exact hne⟩)
  obtain ⟨⟨ρ, hstage⟩, hstart⟩ := hcourse.start hpr (hpend pr hpr)
  have hfirst : ∀ {x}, Exchange.start? i j s = some x → x = Exchange.start i j s ∧ x.Fits i := by
    intro x hx
    rw [hstart] at hx
    split at hx
    · rename_i hfit
      cases hx
      exact ⟨rfl, hfit⟩
    · cases hx
  refine ⟨⟨?_, fun hfit => ?_⟩, fun hroomy x hd => ?_, fun x x' y hx hd hdel => ?_⟩
  · rintro ⟨x, y, hx, hd, hnil, -⟩ z hz
    obtain ⟨rfl, hfit⟩ := hfirst hx
    exact (hstage.fits_of_ends hfit hd hnil hz).2
  · obtain ⟨y, hd, hnil⟩ := hstage.ends
    obtain ⟨ρ', hy⟩ := hstage.deliveries hd
    cases hy with
    | outbound => cases hnil
    | inbound => cases hnil
    | settled hc hset =>
      exact ⟨_, _, hstart.trans (if_pos (hfit _ .refl)), hstage.checked hfit hd, rfl, hc.repaired hown hset⟩
  · refine hstage.fits_of_roomy ?_ hd
    unfold Exchange.start Exchange.after
    rw [Cluster.flush, Cluster.flushTo_self]
    exact (sendAppend_cfg (n := (s.host i).raft) j).symm ▸ hroomy
  · obtain ⟨rfl, -⟩ := hfirst hx
    obtain ⟨ρ', hx'⟩ := hstage.deliveries (hstage.unchecked hd)
    obtain ⟨z, ρ'', hdel', -, -, hhint⟩ := hx'.deliver (Exchange.wire_of_deliver? hdel)
    rw [hx'.deliver?_eq_ite hdel'] at hdel
    split at hdel
    · cases hdel
      exact hhint
    · cases hdel

/-- Node 1 has an entry of term 1 when node 3 leads term 3 with one of term 2 below its own. -/
theorem repair_converges_run :
    ∃ s, Run [1, 2, 3] (fun _ a => a.fixed) (Cluster.init Config.quick [1, 2, 3]) s ∧
      ((s.host 3).raft.role = .leader ∧ (s.host 3).raft.log.entries.map Entry.term = [2, 3] ∧
        (s.host 1).raft.log.entries.map Entry.term = [1]) ∧
      ∃ x y, Exchange.start? 3 1 s = some x ∧ Deliveries? 3 1 x y ∧ y.wire = [] ∧ Repaired 3 1 y.cluster := by
  obtain ⟨s, hr, hP⟩ := Run.reached [1, 2, 3] (fun _ a => a.fixed) (Cluster.init Config.quick [1, 2, 3])
    (P := fun s => ((s.host 3).raft.role = .leader ∧ (s.host 3).raft.log.entries.map Entry.term = [2, 3] ∧
        (s.host 1).raft.log.entries.map Entry.term = [1]) ∧
      (s.host 1).raft.hs.term = (s.host 3).raft.hs.term ∧ 1 ≤ (s.host 3).raft.cfg.maxBatchEntries ∧
      1 ≤ (s.host 3).raft.cfg.maxInflight ∧ (s.host 3).raft.log.entries.length ≤ 2 ^ 63 ∧
      (s.host 3).raft.cfg.maxBatchEntries ≤ 2 ^ 63 ∧
      ((s.host 3).raft.prs.find? 1).all fun pr => pr.pendingSnapshot = false)
    (Action.firstElection ++
      [.call 2 .tick, .ask 2 3 2 0 0, .grant 3 2 2,
       .deliver 2 3 2 (.appendEntries 0 0 [{ term := 2, index := 1, payload := .noop }] 0 0),
       .call 3 .tick, .ask 3 2 3 1 2, .grant 2 3 3, .ask 3 1 3 1 2])
    (by decide +kernel) (fun _ => by decide)
  obtain ⟨hlogs, hterm, hbatch, hwindow, hvec, hroomy, hpend⟩ := hP
  obtain ⟨hiff, hfit, -⟩ := repair_converges Config.quick [1, 2, 3] (by decide) hr hlogs.1 (by decide) (by decide) hterm
    hbatch hwindow hvec fun pr hpr => by simpa [hpr] using hpend
  exact ⟨s, hr, hlogs, hiff.2 (hfit hroomy)⟩

namespace Action

/-- Node 1 of two leads; node 2 refuses a heartbeat, and its refusal is delayed. The no-op and `[7]` are acknowledged
and compacted, `[8]` arrives and its acknowledgement is lost. The late refusal brings the snapshot on, `[9]` is
proposed meanwhile, and the batch after the snapshot is lost. -/
def lateRefusal : List Action :=
  let entry (index : Nat) (payload : EntryPayload) : Entry := { term := 1, index, payload }
  [.call 1 .tick, ask 1 2 1 0 0, grant 2 1 1,
   .call 1 .tick, deliver 1 2 1 (.appendEntries 1 1 [] 0 0),
   deliver 1 2 1 (.appendEntries 0 0 [entry 1 .noop] 0 0), deliver 2 1 1 (.appendEntriesResp true 1 0 0),
   .compact 1 1 [],
   .call 1 (.propose [7]), deliver 1 2 1 (.appendEntries 1 1 [entry 2 (.normal [7])] 1 0),
   deliver 2 1 1 (.appendEntriesResp true 2 0 0), .compact 1 2 [],
   .call 1 (.propose [8]), deliver 1 2 1 (.appendEntries 2 1 [entry 3 (.normal [8])] 2 0),
   deliver 2 1 1 (.appendEntriesResp false 0 1 0),
   .call 1 (.propose [9]),
   deliver 1 2 1 (.installSnapshot { lastIndex := 2, lastTerm := 1, voters := [1, 2], data := [] }),
   deliver 2 1 1 (.installSnapshotResp 2)]

end Action

def Config.hugeBatch (i : NodeId) : Config := { Config.quick i with maxBatchEntries := 2 ^ 64 - 1 }

/-- An action that goes through in the model with panics. -/
def Cluster.Unpanicked (s : Cluster) : Action → Prop
  | .call i c => ((s.host i).raft.call? c).isSome = true
  | _ => True

instance (s : Cluster) (a : Action) : Decidable (s.Unpanicked a) := by
  unfold Cluster.Unpanicked
  split <;> infer_instance

/-- With `max_batch_entries = usize::MAX`: node 2 refuses the heartbeat after index 4 with the hint 4, and the leader,
whose log starts after index 2, adds `usize::MAX` to the position 1. -/
theorem huge_batch_panics :
    ∃ s x y, Run [1, 2] (fun s a => a.fixed ∧ s.Unpanicked a) (Cluster.init Config.hugeBatch [1, 2]) s ∧
      ((s.host 1).raft.role = .leader ∧ (s.host 2).raft.hs.term = (s.host 1).raft.hs.term ∧
        (s.host 1).raft.cfg.maxBatchEntries = 2 ^ 64 - 1 ∧ 1 ≤ (s.host 1).raft.cfg.maxInflight ∧
        ((s.host 1).raft.prs.find? 2).any fun pr => pr.pendingSnapshot = false) ∧
      Exchange.start? 1 2 s = some x ∧ x.deliver? 1 2 = some y ∧
      (y.wire.map Message.body = [.appendEntriesResp false 0 4 0] ∧ y.deliver? 1 2 = none) := by
  obtain ⟨s, hr, hlead, hstart⟩ := Runs.reached (Cluster.exec [1, 2]) (fun s a => a.fixed ∧ s.Unpanicked a)
    (Cluster.init Config.hugeBatch [1, 2]) Action.lateRefusal
    (P := fun s => ((s.host 1).raft.role = .leader ∧ (s.host 2).raft.hs.term = (s.host 1).raft.hs.term ∧
        (s.host 1).raft.cfg.maxBatchEntries = 2 ^ 64 - 1 ∧ 1 ≤ (s.host 1).raft.cfg.maxInflight ∧
        ((s.host 1).raft.prs.find? 2).any fun pr => pr.pendingSnapshot = false) ∧
      (Exchange.start? 1 2 s).any fun x => (x.deliver? 1 2).any fun y =>
        decide (y.wire.map Message.body = [.appendEntriesResp false 0 4 0] ∧ (y.deliver? 1 2).isNone))
          (by decide +kernel)
  obtain ⟨x, hx, hx'⟩ := (Option.any_eq_true _ _).1 hstart
  obtain ⟨y, hy, hy'⟩ := (Option.any_eq_true _ _).1 hx'
  obtain ⟨hwire, hnone⟩ := of_decide_eq_true hy'
  exact ⟨s, x, y, hr, hlead, hx, hy, hwire, Option.isNone_iff_eq_none.1 hnone⟩

end RaftKv

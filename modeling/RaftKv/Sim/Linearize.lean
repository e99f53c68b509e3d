import RaftKv.Raft.Proposed
import RaftKv.Sim.Replicas

/-!
# Writes and CAS are linearizable

The linearization is the committed log itself: the accepted commands in the order of the log. An
operation takes effect where its first copy stands that is not overtaken by a later one of its
client (`Executed`). It lies inside the operation's interval, because

* at the invocation no log holds the command, so all its copies are committed later (`invoked`);
* a response is made by a node that has applied the command, so its effective copy is committed by
  then (`returned`). A response for a repeated command carries the cached result of that copy, and
  one that says "stale" belongs to an operation that its client has left behind.

`Ordered H mark` is the account of this: `H` is the longest log that is committed anywhere, and `mark`
tells how much of it was committed at each stamp of the history.
-/

namespace RaftKv

open Function List

variable {W : Wire} {every : Nat} {voters : List NodeId} {hv : voters.Nodup} {g g' : Ghost} {s t : Sim} {i : NodeId}
  {H H' : List Entry} {x : OpResult} {c : Command} {cs : List Command}

/-! ## The sequential map -/

/-- A map, empty at first. -/
abbrev kvMap : SeqObject Op OpResult where
  State := Bytes → Option Bytes
  init _ := none
  apply m
    | .put key value => (update m key (some value), .ok)
    | .delete key => (update m key none, .ok)
    | .cas key expect new =>
      if m key = expect then (update m key new, .cas true (m key)) else (m, .cas false (m key))
    | .get key => (m, .value (m key))

/-- The map that the in-memory backend holds. -/
def MemBackend.view (b : MemBackend) : Bytes → Option Bytes := fun k => b.map.find? k

theorem MemBackend.view_set (b : MemBackend) (key : Bytes) (v : Option Bytes) :
    (Backend.set b key v).view = update b.view key v := by
  funext k
  cases v with
  | some v =>
    show (b.map.insert key v).find? k = _
    rw [OrdMap.find?_insert]
    by_cases hk : k = key
    · subst hk; simp
    · rw [if_neg hk, update_of_ne hk]; rfl
  | none =>
    show (b.map.erase key).find? k = _
    rw [OrdMap.find?_erase]
    by_cases hk : k = key
    · subst hk; simp
    · rw [if_neg hk, update_of_ne hk]; rfl

/-- Operations on the backend are operations on the map. -/
theorem kvMap_apply (b : MemBackend) (op : Op) :
    kvMap.apply b.view op = ((executeOn b op).2.view, (executeOn b op).1) := by
  cases op with
  | put key value => exact Prod.ext (b.view_set key (some value)).symm rfl
  | delete key => exact Prod.ext (b.view_set key none).symm rfl
  | cas key expect new =>
    have hget : Backend.get (StateMachine.new b).backend key = b.view key := rfl
    by_cases h : b.view key = expect
    · simp only [executeOn, StateMachine.execute, hget, if_pos h]
      exact Prod.ext (b.view_set key new).symm rfl
    · simp only [executeOn, StateMachine.execute, hget, if_neg h]
      exact Prod.ext rfl rfl
  | get key => rfl

theorem kvMap_foldl (rs : List (CallRecord Op OpResult)) (b : MemBackend) :
    rs.foldl (fun m r => (kvMap.apply m r.op).1) b.view = (rs.foldl (fun b r => (executeOn b r.op).2) b).view := by
  induction rs generalizing b with
  | nil => rfl
  | cons r rs ih =>
    rw [foldl_cons, kvMap_apply]
    exact ih _

/-! ## Commands and records -/

def OpRecord.command (r : OpRecord) : Command := { sessionId := sessionOf r.client, seq := r.seq, op := r.op }

/-- The commands the clients have invoked. -/
def Sim.invoked (s : Sim) : List Command := s.history.map OpRecord.command

/-- The entry holds no command, or one that was invoked. -/
def Known (W : Wire) (cs : List Command) (e : Entry) : Prop := ∀ c, e.command? W = some c → c ∈ cs

/-- `c` was executed in the log `H` and gave `x`. -/
def Executed (W : Wire) (H : List Entry) (c : Command) (x : OpResult) : Prop :=
  ∃ p q, commands W H = p ++ c :: q ∧ c.Fresh p ∧ x = resultAfter (⟨∅⟩ : MemBackend) p c

theorem Executed.mono (h : Executed W H c x) (hp : H <+: H') : Executed W H' c x := by
  obtain ⟨p, q, hc, hf, hx⟩ := h
  obtain ⟨z, rfl⟩ := hp
  exact ⟨p, q ++ commands W z, by rw [commands_append, hc]; simp, hf, hx⟩

theorem Executed.accepted (h : Executed W H c x) : c ∈ accepted (commands W H) := by
  obtain ⟨p, q, hc, hf, _⟩ := h
  rw [hc, accepted_of_fresh hf]
  simp

/-- Commands of one session have different seqs, in the order of their invocation. -/
def Distinct (cs : List Command) : Prop := cs.Pairwise fun a b => a.sessionId = b.sessionId → a.seq < b.seq

theorem Distinct.eq {a b : Command} (h : Distinct cs) (ha : a ∈ cs) (hb : b ∈ cs) (hs : a.sessionId = b.sessionId)
    (hq : a.seq = b.seq) : a = b := by
  induction cs with
  | nil => cases ha
  | cons x cs ih =>
    obtain ⟨hx, hcs⟩ := pairwise_cons.1 h
    rcases mem_cons.1 ha with rfl | ha'
    · rcases mem_cons.1 hb with rfl | hb'
      · rfl
      · have := hx b hb' hs
        omega
    · rcases mem_cons.1 hb with rfl | hb'
      · have := hx a ha' hs.symm
        omega
      · exact ih hcs ha' hb'

theorem Distinct.nodup (h : Distinct cs) : cs.Nodup :=
  h.imp fun hab hne => absurd (hab (congrArg _ hne)) (by rw [hne]; omega)

theorem sessionOf_inj {a b : Nat} (h : sessionOf a = sessionOf b) : a = b := by
  unfold sessionOf at h
  omega

/-! ## The invariant -/

/-- What holds of the clients and their history. -/
structure Clients (s : Sim) : Prop where
  distinct : Distinct s.invoked
  seq_le : ∀ r ∈ s.history, r.seq ≤ (s.client r.client).nextSeq
  cur : ∀ {cl cur}, (s.client cl).cur = some cur → cur.seq = (s.client cl).nextSeq ∧
    ∃ r, s.history[cur.histIdx]? = some r ∧ r.client = cl ∧ r.seq = cur.seq ∧ r.op = cur.op
  asked : ∀ {cl req}, (cl, req) ∈ s.requests → ∃ seq op, Sim.requestOf seq op = some req ∧
    { sessionId := sessionOf cl, seq, op } ∈ s.invoked
  stamps : ∀ r ∈ s.history, r.invoke ≤ s.stamp ∧ ∀ u, r.ret = some u → u ≤ s.stamp
  answered : ∀ r ∈ s.history, r.ret.isSome = r.result.isSome

/-- The history is explained by the log `H`, of which `mark k` entries were committed at stamp `k`. -/
structure Ordered (W : Wire) (H : List Entry) (mark : Nat → Nat) (s : Sim) : Prop where
  known : ∀ e ∈ H, Known W s.invoked e
  mono : ∀ {a b}, a ≤ b → b ≤ s.stamp → mark a ≤ mark b
  le : ∀ {a}, a ≤ s.stamp → mark a ≤ H.length
  invoked : ∀ r ∈ s.history, r.command ∉ commands W (H.take (mark r.invoke))
  returned : ∀ r ∈ s.history, ∀ {u y}, r.ret = some u → r.result = some y → Executed W (H.take (mark u)) r.command y
  sent : ∀ {i cl seq y}, (cl, CResp.writeDone seq y) ∈ (s.node i).sent →
    ∃ c ∈ s.invoked, c.sessionId = sessionOf cl ∧ (seq < c.seq ∨ (c.seq = seq ∧ Executed W H c y))

structure Linear (W : Wire) (voters : List NodeId) (hv : voters.Nodup) (g : Ghost) (H : List Entry) (mark : Nat → Nat)
    (s : Sim) : Prop where
  sync : InSync W voters hv g s
  holds : Holds (Known W s.invoked) s.cluster
  top : ∃ T, Announced voters hv g T H
  below : ∀ i, (g.led.log i).take (s.node i).applied <+: H
  clients : Clients s
  ordered : Ordered W H mark s

/-! ## Growing the log -/

theorem take_eq_of_isPrefixOf {α : Type} {l l' : List α} (h : l <+: l') {k : Nat} (hk : k ≤ l.length) :
    l'.take k = l.take k := by
  obtain ⟨z, rfl⟩ := h
  exact take_append_of_le_length hk

variable {mark : Nat → Nat} {cl : Cluster} {client : Nat} {y : OpResult}

theorem Ordered.extend (h : Ordered W H mark s) (hc : Clients s) (hp : H <+: H')
    (hk : ∀ e ∈ H', Known W s.invoked e) : Ordered W H' mark s where
  known := hk
  mono := h.mono
  le ha := (h.le ha).trans hp.length_le
  invoked r hr := by
    rw [take_eq_of_isPrefixOf hp (h.le (hc.stamps r hr).1)]
    exact h.invoked r hr
  returned r hr := by
    intro u y hu hy
    rw [take_eq_of_isPrefixOf hp (h.le ((hc.stamps r hr).2 u hu))]
    exact h.returned r hr hu hy
  sent hm := by
    obtain ⟨c, hcm, hs, hrest⟩ := h.sent hm
    exact ⟨c, hcm, hs, hrest.imp_right fun ⟨hq, he⟩ => ⟨hq, he.mono hp⟩⟩

/-- The entry at the commit index of a node was delivered, by the node or by one that took its snapshot. -/
theorem Inv.commit_delivered (h : Inv voters hv g cl) (i : NodeId) :
    (cl.host i).raft.commit = 0 ∨ ∃ d ∈ cl.delivered, d.entry.index = (cl.host i).raft.commit := by
  have hcore := (h.locals i).core
  rcases hcore.snap_le.eq_or_lt with hle | hlt
  · -- nothing is committed above the snapshot
    cases hs : (cl.host i).raft.snapshot with
    | none => rw [← hle, hcore.snap_none hs]; exact .inl rfl
    | some snap =>
      obtain ⟨d, hd, hidx⟩ := h.taken (hcore.snap_some hs)
      rw [← hle, ← ((h.locals i).shared.recorded (hcore.snap_some hs)).1.index]
      exact .inr ⟨d, hd, hidx⟩
  · obtain ⟨e, he, _⟩ := LogRel.take_base (cl.host i).raft.log _ hlt hcore.commit_le
    have hget : (cl.host i).raft.log.get (cl.host i).raft.commit = some e := by
      rw [← hcore.rel.len] at he hlt
      exact RaftLog.get_eq_some.2 ⟨hlt, he⟩
    rcases (h.locals i).out.covered hget le_rfl with ⟨d, hd, hde⟩ | hmem
    · exact .inr ⟨d, hd, hde ▸ RaftLog.get_index hget⟩
    · rw [h.drained i] at hmem; cases hmem

/-- All of the log has been delivered. -/
def Reached (H : List Entry) (cl : Cluster) : Prop := H = [] ∨ ∃ d ∈ cl.delivered, d.entry.index = H.length

theorem InSync.reached (h : InSync W voters hv g s) (i : NodeId) :
    Reached ((g.led.log i).take (s.node i).applied) s.cluster := by
  have hset := h.settled i
  unfold Reached
  rw [← length_eq_zero_iff, h.length_applied i]
  cases hup : (s.node i).up with
  | true => rw [hset.up_eq hup]; exact h.inv.commit_delivered i
  | false => exact .inl (hset.down_eq hup)

/-- What node `i` has applied is part of one log with everything before. -/
theorem InSync.exists_top (h : InSync W voters hv g' t) (hle : g.Le g') {T : Nat} (htop : Announced voters hv g T H)
    (i : NodeId) :
    ∃ H', H <+: H' ∧ (H' = H ∨ H' = (g'.led.log i).take (t.node i).applied) ∧
      (g'.led.log i).take (t.node i).applied <+: H' ∧ (∃ T, Announced voters hv g' T H') ∧
      ∀ e ∈ H', e ∈ H ∨ e ∈ g'.led.log i := by
  rcases (htop.mono hle).comparable (h.inv.locals i).shared.sound (h.announced i) with hp | hp
  · exact ⟨_, hp, .inr rfl, prefix_refl _, ⟨_, h.announced i⟩, fun e he => .inr (mem_of_mem_take he)⟩
  · exact ⟨H, prefix_refl H, .inl rfl, hp, ⟨T, htop.mono hle⟩, fun e he => .inl he⟩

/-- Node `i` has moved, the others have not. -/
theorem Linear.below_step (h : Linear W voters hv g H mark s) (h' : InSync W voters hv g' t)
    (hle : g.Le g') (hp : H <+: H') (hi : (g'.led.log i).take (t.node i).applied <+: H')
    (hother : ∀ j, j ≠ i → t.node j = s.node j) (j : NodeId) : (g'.led.log j).take (t.node j).applied <+: H' := by
  by_cases hj : j = i
  · subst hj; exact hi
  · have heq : (s.node j).applied = (t.node j).applied := by rw [hother j hj]
    rw [← h.sync.same_prefix h' hle heq]
    exact (h.below j).trans hp

/-! ## Responses -/

/-- A node answers with the result of the execution, or to a client that has moved on. -/
theorem AnswersIn.explained {sm : StateMachine MemBackend} {p es : List Entry} {cl seq : Nat}
    (h : AnswersIn W sm es (cl, .writeDone seq x)) (hall : applyAll W (StateMachine.new ⟨∅⟩) p = some sm)
    (hp : p ++ es <+: H) (hk : ∀ e ∈ H, Known W cs e) (hd : Distinct cs)
    (hsess : ∀ c ∈ cs, ∃ cl, c.sessionId = sessionOf cl) :
    ∃ c ∈ cs, c.sessionId = sessionOf cl ∧ (seq < c.seq ∨ (c.seq = seq ∧ Executed W H c x)) := by
  obtain ⟨es₁, e, es₂, sm₁, cmd, rfl, hall₁, hcmd, h0, hr⟩ := h
  obtain ⟨rfl, hdone⟩ := Prod.mk.inj hr
  obtain ⟨rfl, rfl⟩ := CResp.writeDone.inj hdone
  have hsub : ∀ e' ∈ p ++ (es₁ ++ e :: es₂), e' ∈ H := fun e' he => hp.subset he
  have hcs : cmd ∈ cs := hk e (hsub e (by simp)) cmd hcmd
  have hcl : cmd.sessionId = sessionOf (cmd.sessionId - 101) := by
    obtain ⟨cl, hcl⟩ := hsess cmd hcs
    rw [hcl]
    unfold sessionOf
    omega
  -- the state in which the command was applied is the one of the commands before it
  have hstate : applyAll W (StateMachine.new ⟨∅⟩) (p ++ es₁) = some sm₁ := by
    rw [applyAll_append, hall]; exact hall₁
  have htr := tracks_of_applyAll hstate
  have hcmds : ∃ q, commands W H = commands W (p ++ es₁) ++ cmd :: q := by
    obtain ⟨z, rfl⟩ := hp
    refine ⟨commands W es₂ ++ commands W z, ?_⟩
    have hone : commands W (e :: (es₂ ++ z)) = cmd :: commands W (es₂ ++ z) := by
      rw [commands, filterMap_cons_some hcmd]; rfl
    simp only [append_assoc, cons_append, commands_append, hone]
  rcases fresh_or_latest cmd (commands W (p ++ es₁)) with hf | ⟨_, p', d, hl, hle⟩
  · obtain ⟨q, hq⟩ := hcmds
    exact ⟨cmd, hcs, hcl, .inr ⟨rfl, _, q, hq, hf, (htr.apply_fresh hf).1⟩⟩
  · have hds : d ∈ cs := by
      obtain ⟨e', he', hd'⟩ := mem_commands.1 hl.mem
      refine hk e' (hsub e' ?_) d hd'
      rcases mem_append.1 he' with he' | he'
      · exact mem_append_left _ he'
      · exact mem_append_right _ (mem_append_left _ he')
    have hres := (htr.apply_latest h0 hl hle).1
    by_cases hseq : cmd.seq = d.seq
    · -- a repeated command: the result is that of its first copy
      obtain rfl : d = cmd := hd.eq hds hcs hl.session hseq.symm
      rw [if_pos rfl] at hres
      obtain ⟨q', hq', _⟩ := hl.split
      obtain ⟨q, hq⟩ := hcmds
      refine ⟨d, hcs, hcl, .inr ⟨rfl, p', q' ++ d :: q, ?_, .inr hl.first, by rw [hres]⟩⟩
      rw [hq, hq']
      simp
    · exact ⟨d, hds, hl.session.trans hcl, .inl (by omega)⟩

theorem Clients.session (c : Command) (h : c ∈ s.invoked) : ∃ cl, c.sessionId = sessionOf cl := by
  obtain ⟨r, _, rfl⟩ := mem_map.1 h
  exact ⟨r.client, rfl⟩

/-! ## Steps of the nodes -/

theorem requestOf_inj {seq seq' : Nat} {op op' : Op} {req : CReq} (h : Sim.requestOf seq op = some req)
    (h' : Sim.requestOf seq' op' = some req) : seq = seq' ∧ op = op' := by
  cases op with
  | put k v =>
    cases h
    cases op' with
    | put => cases h'; exact ⟨rfl, rfl⟩
    | cas | delete | get => cases h'
  | cas k e n =>
    cases h
    cases op' with
    | cas => cases h'; exact ⟨rfl, rfl⟩
    | put | delete | get => cases h'
  | delete | get => cases h

theorem Linear.supplies {c : Call} (h : Linear W voters hv g H mark s) (hs : s.Serves W i c) :
    Supplies (Known W s.invoked) c where
  noop term index := by
    intro cmd hcmd
    cases hcmd
  normal hd term index := by
    intro cmd hcmd
    obtain ⟨cl, seq, op, req, hreq, hop, rfl⟩ := hs.proposed hd
    obtain ⟨seq', op', hop', hmem⟩ := h.clients.asked hreq
    obtain ⟨rfl, rfl⟩ := requestOf_inj hop hop'
    have hde : some ({ sessionId := sessionOf cl, seq, op } : Command) = some cmd := by
      simpa [Entry.command?, W.command.de_ser, Except.toOption] using hcmd
    rw [← Option.some.inj hde]
    exact hmem
  fixed hc := by
    cases c with
    | proposeConfChange cc => exact hs.fixed
    | _ => exact hc
  message := by
    intro m hm
    subst hm
    exact h.holds.net m (Cluster.deliverable_step hs.deliverable).2

theorem Holds.maybeCompacted {K : Entry → Prop} {cl' : Cluster} {applied : Nat} {data : Bytes} (h : Holds K cl)
    (hm : MaybeCompacted cl i applied data cl') : Holds K cl' := by
  rcases hm with rfl | ⟨snap, n, hc, rfl⟩
  · exact h
  · exact h.compacted hc

/-- Node `i` moves: the committed log grows by what it has applied, and it may have sent more responses. -/
theorem Linear.step {x : SimNode} (h : Linear W voters hv g H mark s) (hle : g.Le g')
    (hsync : InSync W voters hv g' { s with cluster := cl, node := update s.node i x })
    (hholds : Holds (Known W s.invoked) cl) (hdel : s.cluster.delivered ⊆ cl.delivered)
    (hsent : ∀ H', (g'.led.log i).take x.applied <+: H' → (∀ e ∈ H', Known W s.invoked e) →
      ∀ {client seq y}, (client, CResp.writeDone seq y) ∈ x.sent → (client, CResp.writeDone seq y) ∈ (s.node i).sent ∨
        ∃ c ∈ s.invoked, c.sessionId = sessionOf client ∧ (seq < c.seq ∨ (c.seq = seq ∧ Executed W H' c y))) :
    ∃ H', H <+: H' ∧ (Reached H s.cluster → Reached H' cl) ∧
      Linear W voters hv g' H' mark { s with cluster := cl, node := update s.node i x } := by
  have hself : update s.node i x i = x := update_self ..
  obtain ⟨T, htop⟩ := h.top
  obtain ⟨H', hpre, hcase, hi, htop', hmem⟩ := hsync.exists_top hle htop i
  have hk : ∀ e ∈ H', Known W s.invoked e := by
    intro e he
    rcases hmem e he with he | he
    · exact h.ordered.known e he
    · exact hholds.log hsync.inv i e he
  have hord := h.ordered.extend h.clients hpre hk
  have hx : (g'.led.log i).take x.applied <+: H' := by
    have := hi
    dsimp only at this
    rwa [hself] at this
  have hreach : Reached H s.cluster → Reached H' cl := by
    rcases hcase with rfl | rfl
    · exact fun hr => hr.imp_right fun ⟨d, hd, hidx⟩ => ⟨d, hdel hd, hidx⟩
    · exact fun _ => hsync.reached i
  refine ⟨H', hpre, hreach, hsync, hholds, htop',
    h.below_step hsync hle hpre hi fun j hj => update_of_ne hj .., ?_, ?_⟩
  · exact ⟨h.clients.distinct, h.clients.seq_le, h.clients.cur, h.clients.asked, h.clients.stamps, h.clients.answered⟩
  · refine ⟨hk, hord.mono, hord.le, hord.invoked, hord.returned, fun {j client seq y} hm => ?_⟩
    dsimp only at hm
    by_cases hj : j = i
    · subst hj
      rw [hself] at hm
      rcases hsent H' hx hk hm with hold | hnew
      · exact hord.sent hold
      · exact hnew
    · rw [update_of_ne hj] at hm
      exact hord.sent hm

/-- The responses of a node that has applied nothing are the old ones, as far as writes go. -/
theorem old_or_read {x x' : SimNode} {seq : Nat} (h : ∀ r ∈ x'.sent, r ∈ x.sent ∨ r.2.isWriteDone = false)
    (hm : (client, CResp.writeDone seq y) ∈ x'.sent) : (client, CResp.writeDone seq y) ∈ x.sent := by
  rcases h _ hm with hold | hread
  · exact hold
  · cases hread

theorem Linear.withNode {x : SimNode} (h : Linear W voters hv g H mark s)
    (hx : Settled W g i (s.cluster.host i).raft x)
    (hsent : ∀ r ∈ x.sent, r ∈ (s.node i).sent ∨ r.2.isWriteDone = false) :
    ∃ H', H <+: H' ∧ (Reached H s.cluster → Reached H' s.cluster) ∧ Linear W voters hv g H' mark (s.withNode i x) :=
  h.step (Ghost.Le.refl g) (h.sync.withNode hx) h.holds (fun _ hd => hd) fun _ _ _ _ _ _ hm =>
    .inl (old_or_read hsent hm)

theorem MaybeCompacted.delivered {cl' : Cluster} {applied : Nat} {data : Bytes}
    (h : MaybeCompacted cl i applied data cl') : cl'.delivered = cl.delivered := by
  rcases h with rfl | ⟨_, _, _, rfl⟩
  · rfl
  · rfl

theorem Linear.call {c : Call} {n : RaftNode} {x : SimNode}
    (h : Linear W voters hv g H mark s) (hup : (s.node i).up = true) (hs : s.Serves W i c)
    (hc : (s.cluster.host i).raft.call c = some n) (hp : Sim.Processed W s i n x cl) :
    ∃ g' H', H <+: H' ∧ (Reached H s.cluster → Reached H' cl) ∧
      Linear W voters hv g' H' mark { s with cluster := cl, node := update s.node i x } := by
  obtain ⟨g', hle, hsync, happ, p, sm, htake, hall, hsent⟩ := h.sync.call hup hs hc hp
  have hholds : Holds (Known W s.invoked) cl :=
    (h.holds.call (h.sync.inv.drained i) (h.supplies hs) hc).maybeCompacted hp.cluster
  have hdel : s.cluster.delivered ⊆ cl.delivered := hp.cluster.delivered ▸ subset_append_left ..
  obtain ⟨H', h'⟩ := h.step hle hsync hholds hdel fun H' hpre hk client seq y hm => by
    rw [happ, htake] at hpre
    rcases hsent _ hm with hold | hans | hread
    · exact .inl hold
    · exact .inr (hans.explained hall hpre hk h.clients.distinct Clients.session)
    · cases hread
  exact ⟨g', H', h'⟩

theorem Linear.restart {cfg : Config} {raft : RaftNode} {x₀ : SimNode}
    (h : Linear W voters hv g H mark s) (hdown : (s.node i).up = false)
    (hn : RaftNode.new { cfg with id := i } voters (s.cluster.host i).disk = some raft)
    (hres : Restores W (s.cluster.host i).disk.snapshot (s.node i).sm x₀.sm)
    (happ : x₀.applied = ((s.cluster.host i).disk.snapshot.map Snapshot.lastIndex).getD (s.node i).applied)
    (hup : x₀.up = true) (hsent : x₀.sent = (s.node i).sent)
    (hp : ({ s with cluster := s.cluster.restarted i raft }.withNode i x₀).processOutput W every i raft = some t) :
    ∃ H', H <+: H' ∧ (Reached H s.cluster → Reached H' t.cluster) ∧ Linear W voters hv g H' mark t := by
  have hself : (update s.node i x₀ i).up = true := by rw [update_self]; exact hup
  have hraft : ((s.cluster.restarted i raft).host i).raft = raft := by
    have hhost : (s.cluster.restarted i raft).host i = { s.cluster.host i with raft := raft } := update_self ..
    rw [hhost]
  have hholds : Holds (Known W s.invoked) (s.cluster.restarted i raft) := h.holds.restarted (h.sync.inv.durable i) hn
  obtain ⟨H₀, hgrow, hreach, h₀⟩ := h.step (Ghost.Le.refl g) (h.sync.restart hn hres happ hdown hup) hholds
    (fun _ hd => hd) fun _ _ _ _ _ _ hm => .inl (hsent ▸ hm)
  obtain ⟨x, cl, hproc, rfl⟩ := Sim.processOutput_some hp
  obtain ⟨hsync, hold⟩ := h₀.sync.processed_empty hself hraft hproc
  have hflush : (s.cluster.restarted i raft).flush i raft = s.cluster.restarted i raft :=
    Cluster.flush_empty hraft (by rw [← hraft]; exact h₀.sync.inv.drained i)
  have hcl : MaybeCompacted ((s.cluster.restarted i raft).flush i raft) i x.applied (x.sm.snapshot W.payload) cl :=
    hproc.cluster
  rw [hflush] at hcl
  obtain ⟨H', hgrow', hreach', h'⟩ := h₀.step (Ghost.Le.refl g) hsync (hholds.maybeCompacted hcl)
    (hcl.delivered ▸ List.Subset.refl _) fun _ _ _ _ _ _ hm => .inl (old_or_read hold hm)
  exact ⟨H', hgrow.trans hgrow', fun hr => hreach' (hreach hr), h'⟩

/-! ## Steps of the clients -/

/-- The committed log at a new stamp is all of `H`. -/
theorem Ordered.marked (h : Ordered W H mark s) {a b : Nat} (hab : a ≤ b) (hb : b ≤ s.stamp + 1) :
    update mark (s.stamp + 1) H.length a ≤ update mark (s.stamp + 1) H.length b := by
  by_cases hb' : b = s.stamp + 1
  · subst hb'
    rw [update_self]
    by_cases ha : a = s.stamp + 1
    · subst ha; rw [update_self]
    · rw [update_of_ne ha]; exact h.le (by omega)
  · rw [update_of_ne hb', update_of_ne (by omega)]
    exact h.mono hab (by omega)

theorem Ordered.marked_le (h : Ordered W H mark s) {a : Nat} (ha : a ≤ s.stamp + 1) :
    update mark (s.stamp + 1) H.length a ≤ H.length := by
  have hm := h.marked ha le_rfl
  rwa [update_self] at hm

theorem Known.mono {e : Entry} {cs' : List Command} (h : Known W cs e) (hsub : ∀ c ∈ cs, c ∈ cs') : Known W cs' e :=
  fun c hc => hsub c (h c hc)

theorem Linear.wake {seq : Nat} {op : Op} (h : Linear W voters hv g H mark s)
    (hw : s.onClientWake client seq op = some t) : Linear W voters hv g H (update mark (s.stamp + 1) H.length) t := by
  obtain ⟨hidle, hseq, req, hreq, rfl⟩ := Sim.onClientWake_some hw
  -- every command of the client has a smaller seq than the new one
  have hlt : ∀ r ∈ s.history, r.client = client → r.seq < seq := by
    intro r hr hcl
    have := h.clients.seq_le r hr
    rw [hcl] at this
    omega
  have hnew : ({ sessionId := sessionOf client, seq, op } : Command) ∉ s.invoked := by
    intro hm
    obtain ⟨r, hr, hc⟩ := mem_map.1 hm
    have hcl : r.client = client := sessionOf_inj (congrArg Command.sessionId hc)
    have heq : r.seq = seq := congrArg Command.seq hc
    have := hlt r hr hcl
    omega
  have hinv : ∀ c ∈ s.invoked, c ∈ s.invoked ++ [({ sessionId := sessionOf client, seq, op } : Command)] :=
    fun c hc => mem_append_left _ hc
  set r₀ : OpRecord := { op, invoke := s.stamp + 1, ret := none, result := none, client, seq } with hr₀
  have hmap : (s.history ++ [r₀]).map OpRecord.command = s.invoked ++ [{ sessionId := sessionOf client, seq, op }] := by
    rw [map_append]; rfl
  refine ⟨h.sync.of_frame rfl rfl, ?_, h.top, h.below, ?_, ?_⟩
  · refine h.holds.mono fun e he => ?_
    show Known W ((s.history ++ [r₀]).map OpRecord.command) e
    rw [hmap]
    exact he.mono hinv
  · refine ⟨?_, ?_, ?_, ?_, ?_, ?_⟩
    · show Distinct ((s.history ++ [r₀]).map OpRecord.command)
      rw [hmap]
      refine pairwise_append.2 ⟨h.clients.distinct, pairwise_singleton .., fun a ha b hb hs => ?_⟩
      obtain rfl := mem_singleton.1 hb
      obtain ⟨r, hr, rfl⟩ := mem_map.1 ha
      exact hlt r hr (sessionOf_inj hs)
    · intro r hr
      show r.seq ≤ (update s.client client _ r.client).nextSeq
      by_cases hcl : r.client = client
      · rw [hcl, update_self]
        rcases mem_append.1 hr with hr | hr
        · exact (hlt r hr hcl).le
        · rw [mem_singleton.1 hr]
      · rw [update_of_ne hcl]
        rcases mem_append.1 hr with hr | hr
        · exact h.clients.seq_le r hr
        · rw [mem_singleton.1 hr] at hcl
          exact absurd rfl hcl
    · intro cl cur hcur
      dsimp only at hcur ⊢
      by_cases hcl : cl = client
      · subst hcl
        rw [update_self] at hcur ⊢
        obtain rfl := Option.some.inj hcur
        exact ⟨rfl, r₀, by simp, rfl, rfl, rfl⟩
      · rw [update_of_ne hcl] at hcur ⊢
        obtain ⟨hs, r, hr, hrest⟩ := h.clients.cur hcur
        exact ⟨hs, r, getElem?_append_left (List.getElem?_eq_some_iff.1 hr).1 ▸ hr, hrest⟩
    · intro cl req' hm
      show ∃ seq op, _ ∧ _ ∈ (s.history ++ [r₀]).map OpRecord.command
      rw [hmap]
      rcases mem_append.1 hm with hm | hm
      · obtain ⟨seq', op', hop, hmem⟩ := h.clients.asked hm
        exact ⟨seq', op', hop, hinv _ hmem⟩
      · obtain ⟨rfl, rfl⟩ := Prod.mk.inj (mem_singleton.1 hm)
        exact ⟨seq, op, hreq, by simp⟩
    · intro r hr
      rcases mem_append.1 hr with hr | hr
      · obtain ⟨hi, hu⟩ := h.clients.stamps r hr
        exact ⟨Nat.le_succ_of_le hi, fun u he => Nat.le_succ_of_le (hu u he)⟩
      · rw [mem_singleton.1 hr]
        exact ⟨le_rfl, fun u he => (by cases he)⟩
    · intro r hr
      rcases mem_append.1 hr with hr | hr
      · exact h.clients.answered r hr
      · rw [mem_singleton.1 hr]
        rfl
  · refine ⟨?_, h.ordered.marked, h.ordered.marked_le, ?_, ?_, ?_⟩
    · intro e he
      show Known W ((s.history ++ [r₀]).map OpRecord.command) e
      rw [hmap]
      exact (h.ordered.known e he).mono hinv
    · intro r hr
      rcases mem_append.1 hr with hr | hr
      · have hi := (h.clients.stamps r hr).1
        rw [update_of_ne (by omega)]
        exact h.ordered.invoked r hr
      · -- the new command is in no log, as nobody has invoked it before
        rw [mem_singleton.1 hr]
        rw [update_self, take_length]
        intro hm
        obtain ⟨e, he, hc⟩ := mem_commands.1 hm
        exact hnew (h.ordered.known e he _ hc)
    · intro r hr u y hu hy
      rcases mem_append.1 hr with hr | hr
      · have hle := (h.clients.stamps r hr).2 u hu
        rw [update_of_ne (by omega)]
        exact h.ordered.returned r hr hu hy
      · rw [mem_singleton.1 hr] at hu
        cases hu
    · intro j cl seq' y hm
      obtain ⟨c, hc, hrest⟩ := h.ordered.sent hm
      refine ⟨c, ?_, hrest⟩
      show c ∈ (s.history ++ [r₀]).map OpRecord.command
      rw [hmap]
      exact hinv c hc

/-- A response is dropped, or it completes the operation its client waits for. -/
theorem Sim.onClientResp_cases (s : Sim) (client : Nat) (resp : CResp) :
    s.onClientResp client resp = s ∨ ∃ cur x y, (s.client client).cur = some cur ∧ resp = .writeDone cur.seq x ∧
      Sim.accepts cur.op x = some y ∧ s.onClientResp client resp = s.completeOp client cur y := by
  unfold Sim.onClientResp
  split
  · rename_i cur seq x hcur
    split
    · rename_i hseq
      subst hseq
      split
      · rename_i y hy
        exact .inr ⟨cur, x, y, hcur, rfl, hy, rfl⟩
      · exact .inl rfl
    · exact .inl rfl
  · exact .inl rfl

/-- What the client records is what the execution of its command gave. -/
theorem accepts_executed (h : Executed W H c x) (hy : Sim.accepts c.op x = some y) : Executed W H c y := by
  obtain ⟨p, q, hc, hf, rfl⟩ := h
  refine ⟨p, q, hc, hf, ?_⟩
  unfold resultAfter executeOn at hy ⊢
  cases hop : c.op with
  | put key value =>
    rw [hop] at hy
    exact (Option.some.inj hy).symm
  | cas key expect new =>
    rw [hop] at hy
    simp only [StateMachine.execute] at hy ⊢
    split at hy
    · rename_i h'
      rw [if_pos h']
      exact (Option.some.inj hy).symm
    · rename_i h'
      rw [if_neg h']
      exact (Option.some.inj hy).symm
  | delete | get => rw [hop] at hy; cases hy

theorem mem_modify {α : Type} {l : List α} {k : Nat} {f : α → α} {a b : α} (ha : l[k]? = some a)
    (h : b ∈ l.modify k f) : b ∈ l ∨ b = f a := by
  obtain ⟨j, hj⟩ := mem_iff_getElem?.1 h
  rw [getElem?_modify] at hj
  by_cases hk : k = j
  · subst hk
    rw [ha] at hj
    exact .inr (by simpa using hj.symm)
  · simp only [if_neg hk] at hj
    exact .inl (mem_of_getElem? (by simpa using hj))

theorem completeOp_invoked (s : Sim) (client : Nat) (cur : CurOp) (y : OpResult) :
    (s.completeOp client cur y).invoked = s.invoked := by
  unfold Sim.invoked Sim.completeOp
  refine ext_getElem? fun k => ?_
  simp only [getElem?_map, getElem?_modify]
  by_cases hk : cur.histIdx = k
  · simp only [if_pos hk]
    cases s.history[k]? <;> rfl
  · simp only [if_neg hk]
    cases s.history[k]? <;> rfl

/-- The response a client accepts is the result of its own operation: a stale one has a smaller seq. -/
theorem Linear.accepted_result {cur : CurOp} {r : OpRecord} (h : Linear W voters hv g H mark s)
    (hm : (client, .writeDone cur.seq x) ∈ (s.node i).sent) (hcur : cur.seq = (s.client client).nextSeq)
    (hr : r ∈ s.history) (hc : r.client = client) (hs : r.seq = cur.seq) : Executed W H r.command x := by
  obtain ⟨c, hmem, hsess, hstale | ⟨hseq, he⟩⟩ := h.ordered.sent hm
  · obtain ⟨r', hr', rfl⟩ := mem_map.1 hmem
    have hle := h.clients.seq_le r' hr'
    rw [sessionOf_inj hsess, ← hcur] at hle
    exact absurd hstale (Nat.not_lt.2 hle)
  · have heq : c = r.command := by
      refine h.clients.distinct.eq hmem (mem_map_of_mem hr) ?_ (hseq.trans hs.symm)
      rw [hsess, ← hc]; rfl
    exact heq ▸ he

theorem Linear.complete {cur : CurOp}
    (h : Linear W voters hv g H mark s) (hm : (client, .writeDone cur.seq x) ∈ (s.node i).sent)
    (hcur : (s.client client).cur = some cur) (hy : Sim.accepts cur.op x = some y) :
    Linear W voters hv g H (update mark (s.stamp + 1) H.length) (s.completeOp client cur y) := by
  obtain ⟨hseq, r, hr, hc, hs, hop⟩ := h.clients.cur hcur
  have hrm : r ∈ s.history := mem_of_getElem? hr
  have hexec : Executed W H r.command y :=
    accepts_executed (h.accepted_result hm hseq hrm hc hs) (by rw [← hy, ← hop]; rfl)
  have hinv := completeOp_invoked s client cur y
  -- the records are those from before, one of them with its result
  have hrec : ∀ b ∈ (s.completeOp client cur y).history,
      b ∈ s.history ∨ b = { r with ret := some (s.stamp + 1), result := some y } := fun b hb => mem_modify hr hb
  have hnext : ∀ c, ((s.completeOp client cur y).client c).nextSeq = (s.client c).nextSeq := by
    intro c
    show (update s.client client _ c).nextSeq = _
    by_cases hcl : c = client
    · subst hcl; rw [update_self]
    · rw [update_of_ne hcl]
  refine ⟨h.sync.of_frame rfl rfl, by rw [hinv]; exact h.holds, h.top, h.below, ?_, ?_⟩
  · refine ⟨by rw [hinv]; exact h.clients.distinct, ?_, ?_, by rw [hinv]; exact h.clients.asked, ?_, ?_⟩
    · intro b hb
      rw [hnext]
      rcases hrec b hb with hb | rfl
      · exact h.clients.seq_le b hb
      · exact h.clients.seq_le r hrm
    · intro cl cur' hcur'
      rw [hnext]
      replace hcur' : (update s.client client { s.client client with cur := none } cl).cur = some cur' := hcur'
      by_cases hcl : cl = client
      · subst hcl
        rw [update_self] at hcur'
        cases hcur'
      · rw [update_of_ne hcl] at hcur'
        obtain ⟨hseq', r', hr', hrest⟩ := h.clients.cur hcur'
        refine ⟨hseq', r', ?_, hrest⟩
        -- another client waits for another record
        have hne : cur.histIdx ≠ cur'.histIdx := by
          intro heq
          rw [heq, hr'] at hr
          exact hcl (hrest.1.symm.trans ((congrArg OpRecord.client (Option.some.inj hr)).trans hc))
        show (s.history.modify _ _)[cur'.histIdx]? = _
        rw [getElem?_modify, hr']
        simp [hne]
    · intro b hb
      rcases hrec b hb with hb | rfl
      · obtain ⟨hi, hu⟩ := h.clients.stamps b hb
        exact ⟨Nat.le_succ_of_le hi, fun u he => Nat.le_succ_of_le (hu u he)⟩
      · refine ⟨Nat.le_succ_of_le (h.clients.stamps r hrm).1, fun u he => ?_⟩
        exact (Option.some.inj he).ge
    · intro b hb
      rcases hrec b hb with hb | rfl
      · exact h.clients.answered b hb
      · rfl
  · refine ⟨by rw [hinv]; exact h.ordered.known, h.ordered.marked, h.ordered.marked_le, ?_, ?_,
      by rw [hinv]; exact h.ordered.sent⟩
    · intro b hb
      have hold : ∀ b ∈ s.history,
          b.command ∉ commands W (H.take (update mark (s.stamp + 1) H.length b.invoke)) := by
        intro b hb
        have hi := (h.clients.stamps b hb).1
        rw [update_of_ne (by omega)]
        exact h.ordered.invoked b hb
      rcases hrec b hb with hb | rfl
      · exact hold b hb
      · exact hold r hrm
    · intro b hb u z hu hz
      rcases hrec b hb with hb | rfl
      · have hle := (h.clients.stamps b hb).2 u hu
        rw [update_of_ne (by omega)]
        exact h.ordered.returned b hb hu hz
      · -- the response comes from a node that has applied the command
        obtain rfl := Option.some.inj hu
        obtain rfl := Option.some.inj hz
        rw [update_self, take_length]
        exact hexec

/-! ## Runs -/

/-- The log and its marks grow, what was marked before stays. -/
theorem Linear.exec (h : Linear W voters hv g H mark s) (he : Sim.Exec W every voters s t) :
    ∃ g' H' mark', H <+: H' ∧ (Reached H s.cluster → Reached H' t.cluster) ∧
      (∀ a ≤ s.stamp, mark' a = mark a) ∧ Linear W voters hv g' H' mark' t := by
  have hold : ∀ k, ∀ a ≤ s.stamp, update mark (s.stamp + 1) k a = mark a :=
    fun k a ha => update_of_ne (by omega) ..
  cases he with
  | stay => exact ⟨g, H, mark, prefix_refl H, id, fun _ _ => rfl, h⟩
  | @call i c n x₀ _ hup hb hs hc hp =>
    have hself : (s.withNode i x₀).node i = x₀ := update_self ..
    obtain ⟨H₀, hp₀, hreach₀, h₀⟩ := h.withNode ((h.sync.settled i).bookkeeps hb) fun r hr => .inl (hb.sent_eq ▸ hr)
    obtain ⟨x, cl, hproc, rfl⟩ := Sim.processOutput_some hp
    obtain ⟨g', H', hp', hreach', h'⟩ := h₀.call (by rw [hself]; exact hb.up_eq.trans hup)
      ⟨hs.deliverable, hs.fixed, hs.proposed⟩ hc hproc
    exact ⟨g', H', mark, hp₀.trans hp', fun hr => hreach' (hreach₀ hr), fun _ _ => rfl, h'⟩
  | @reply i client x₀ resp hb hread =>
    have hset := (h.sync.settled i).bookkeeps hb
    obtain ⟨H', hp', hreach', h'⟩ := h.withNode (x := x₀.send client resp)
      ⟨hset.le, hset.state, hset.up_eq, hset.down_eq⟩
      fun r hr => by
        rcases mem_append.1 hr with hr | hr
        · exact .inl (hb.sent_eq ▸ hr)
        · rw [mem_singleton.1 hr]; exact .inr hread
    exact ⟨g, H', mark, hp', hreach', fun _ _ => rfl, h'⟩
  | wake hw =>
    have h' := h.wake hw
    obtain ⟨-, -, req, -, rfl⟩ := Sim.onClientWake_some hw
    exact ⟨g, H, _, prefix_refl H, id, hold _, h'⟩
  | @response i client resp hm =>
    have hcl := (s.onClientResp_frame client resp).1
    rcases s.onClientResp_cases client resp with hsame | ⟨cur, x, y, hcur, rfl, hy, hdone⟩
    · exact ⟨g, H, mark, prefix_refl H, hcl ▸ id, fun _ _ => rfl, by rw [hsame]; exact h⟩
    · exact ⟨g, H, _, prefix_refl H, hcl ▸ id, hold _, by rw [hdone]; exact h.complete hm hcur hy⟩
  | @crash i hup =>
    have hset := (h.sync.crash i).settled i
    have hcrash : s.crash i = s.withNode i ((s.crash i).node i) := by
      unfold Sim.crash Sim.withNode
      simp [hup]
    have hraft : (s.crash i).cluster = s.cluster := by unfold Sim.crash; simp [hup]
    rw [hraft] at hset
    obtain ⟨H', hp', hreach', h'⟩ := h.withNode hset fun r hr => .inl (by
      unfold Sim.crash at hr
      simpa [hup] using hr)
    exact ⟨g, H', mark, hp', hraft ▸ hreach', fun _ _ => rfl, hcrash ▸ h'⟩
  | restart hdown hn hres happ hup hsent hp =>
    obtain ⟨H', hp', hreach', h'⟩ := h.restart hdown hn hres happ hup hsent hp
    exact ⟨g, H', mark, hp', hreach', fun _ _ => rfl, h'⟩

theorem Linear.boot (W : Wire) (cfg : NodeId → Config) (voters : List NodeId) (hv : voters.Nodup) :
    Linear W voters hv Ghost.init [] (fun _ => 0) (Sim.boot cfg voters) where
  sync := InSync.boot W cfg voters hv
  holds := ⟨fun _ _ he => (by cases he), fun _ _ he => (by cases he), fun _ hm => (by cases hm),
    fun _ hp => (by cases hp)⟩
  top := ⟨_, (InSync.boot W cfg voters hv).announced 0⟩
  below _ := prefix_refl []
  clients :=
    { distinct := List.Pairwise.nil
      seq_le := fun _ hr => (by cases hr)
      cur := fun hc => (by cases hc)
      asked := fun hm => (by cases hm)
      stamps := fun _ hr => (by cases hr)
      answered := fun _ hr => (by cases hr) }
  ordered :=
    { known := fun _ he => (by cases he)
      mono := fun _ _ => le_rfl
      le := fun _ => le_rfl
      invoked := fun _ hr => (by cases hr)
      returned := fun _ hr => (by cases hr)
      sent := fun hm => (by cases hm) }

theorem Linear.runs (hv : voters.Nodup) (cfg : NodeId → Config)
    (hr : Runs (Sim.exec W every voters) (fun _ _ => True) (Sim.boot cfg voters) s) :
    ∃ g H mark, Linear W voters hv g H mark s :=
  hr.invariant (P := fun s => ∃ g H mark, Linear W voters hv g H mark s) ⟨_, _, _, Linear.boot W cfg voters hv⟩
    fun ⟨_, _, _, h⟩ _ he => by
      obtain ⟨g', H', mark', -, -, -, h'⟩ := h.exec (Sim.exec_some he)
      exact ⟨g', H', mark', h'⟩

/-! ## The linearization -/

theorem exists_order (rs : List OpRecord) : ∀ {cs : List Command}, (∀ c ∈ cs, c ∈ rs.map OpRecord.command) →
    ∃ order : List OpRecord, order.map OpRecord.command = cs ∧ ∀ r ∈ order, r ∈ rs
  | [], _ => ⟨[], rfl, by simp⟩
  | c :: cs, h => by
    obtain ⟨r, hr, hc⟩ := mem_map.1 (h c (by simp))
    obtain ⟨order, ho, hrs⟩ := exists_order rs fun c' hc' => h c' (mem_cons_of_mem _ hc')
    refine ⟨r :: order, by rw [map_cons, hc, ho], fun r' hr' => ?_⟩
    rcases mem_cons.1 hr' with rfl | hr'
    · exact hr
    · exact hrs r' hr'

section
variable {mark : Nat → Nat} {order : List OpRecord}

theorem Linear.known_command (h : Linear W voters hv g H mark s) (hc : c ∈ commands W H) : c ∈ s.invoked := by
  obtain ⟨e, he, hce⟩ := mem_commands.1 hc
  exact h.ordered.known e he c hce

theorem accepted_subset {cmds : List Command} (hc : c ∈ accepted cmds) : c ∈ cmds := by
  obtain ⟨p, q, rfl, _⟩ := mem_accepted hc
  simp

theorem Linear.nodup (h : Linear W voters hv g H mark s) : (accepted (commands W H)).Nodup := by
  refine accepted_nodup fun c hc h0 => ?_
  obtain ⟨cl, hcl⟩ := Clients.session c (h.known_command hc)
  unfold sessionOf at hcl
  omega

/-- An answered operation was executed, in the log as it was at the response. -/
theorem Linear.executed (h : Linear W voters hv g H mark s) {r : OpRecord} (hr : r ∈ s.history) {u : Nat}
    (hu : r.ret = some u) : ∃ y, r.result = some y ∧ Executed W (H.take (mark u)) r.command y := by
  have ha := h.clients.answered r hr
  rw [hu] at ha
  obtain ⟨y, hy⟩ := Option.isSome_iff_exists.1 ha.symm
  exact ⟨y, hy, h.ordered.returned r hr hu hy⟩

/-- If `b` was answered before `a` was invoked, the log of that time has the copy of `b` and none of `a`. -/
theorem Linear.real_time (h : Linear W voters hv g H mark s) (ho : order.map OpRecord.command = accepted (commands W H))
    (hs : ∀ r ∈ order, r ∈ s.history) : order.Pairwise fun a b => ¬ b.toCallRecord.Precedes a.toCallRecord := by
  refine pairwise_of_splits fun o₁ a o₂ hsplit b hb ⟨u, hu, hlt⟩ => ?_
  subst hsplit
  have ha : a ∈ s.history := hs a (by simp)
  obtain ⟨y, _, hexec⟩ := h.executed (hs b (by simp [hb])) hu
  have hle : mark u ≤ mark a.invoke := h.ordered.mono hlt.le (h.clients.stamps a ha).1
  have hb₁ : b.command ∈ accepted (commands W (H.take (mark a.invoke))) :=
    (hexec.mono (take_prefix_take_left hle)).accepted
  have hpre : accepted (commands W (H.take (mark a.invoke))) <+: accepted (commands W H) := by
    conv_rhs => rw [← take_append_drop (mark a.invoke) H, commands_append, accepted_append]
    exact prefix_append ..
  have ha₁ : a.command ∉ accepted (commands W (H.take (mark a.invoke))) :=
    fun hm => h.ordered.invoked a ha (accepted_subset hm)
  have hnd := h.nodup
  rw [← ho, map_append] at hpre hnd
  -- so `b` stands before `a`, where it cannot be twice
  have hbefore := (prefix_of_notMem hpre ha₁).subset hb₁
  refine (nodup_append.1 hnd).2.2 _ hbefore b.command ?_ rfl
  exact mem_cons_of_mem _ (mem_map_of_mem hb)

/-- The log explains every response. -/
theorem Linear.legal (h : Linear W voters hv g H mark s) (ho : order.map OpRecord.command = accepted (commands W H))
    (hs : ∀ r ∈ order, r ∈ s.history) : kvMap.Legal kvMap.init (order.map OpRecord.toCallRecord) := by
  have hinit : kvMap.init = (⟨∅⟩ : MemBackend).view := rfl
  rw [hinit]
  refine SeqObject.legal_of_splits fun rs₁ r' rs₂ hsplit y hy => ?_
  obtain ⟨o₁, o₂', rfl, rfl, hrest⟩ := map_eq_append_iff.1 hsplit
  obtain ⟨r, o₂, rfl, rfl, rfl⟩ := map_eq_cons_iff.1 hrest
  have hr : r ∈ s.history := hs r (by simp)
  have hans := h.clients.answered r hr
  rw [hy] at hans
  obtain ⟨u, hu⟩ := Option.isSome_iff_exists.1 hans
  obtain ⟨p, q, hcmds, hfresh, rfl⟩ := (h.ordered.returned r hr hu hy).mono (List.take_prefix _ H)
  -- the commands executed before it are those of the records before it
  have hnd := h.nodup
  rw [← ho, map_append] at hnd
  rw [hcmds, accepted_of_fresh hfresh, map_append] at ho
  obtain ⟨_, hnd₂, hdisj⟩ := nodup_append.1 hnd
  have hnot₁ : r.command ∉ o₁.map OpRecord.command := fun hm => hdisj _ hm _ (by simp) rfl
  obtain ⟨hp, _⟩ := (append_cons_inj_of_notMem hnot₁ (nodup_cons.1 hnd₂).1).1 ho
  rw [kvMap_foldl, kvMap_apply]
  show (executeOn _ r.op).1 = (executeOn (contents _ p) r.op).1
  have hfold : (o₁.map OpRecord.toCallRecord).foldl (fun b r => (executeOn b r.op).2) (⟨∅⟩ : MemBackend) =
      contents ⟨∅⟩ p := by
    unfold contents
    rw [← hp, foldl_map, foldl_map]
    rfl
  rw [hfold]

end

/-- In every run of the simulator, the history of writes and CAS operations is linearizable against a map that is
empty at first. -/
theorem writes_linearizable (W : Wire) (every : Nat) (cfg : NodeId → Config) (voters : List NodeId) (hv : voters.Nodup)
    (hr : Runs (Sim.exec W every voters) (fun _ _ => True) (Sim.boot cfg voters) s) :
    kvMap.Linearizable (s.history.map OpRecord.toCallRecord) := by
  obtain ⟨g, H, mark, h⟩ := Linear.runs hv cfg hr
  obtain ⟨order, ho, hs⟩ := exists_order s.history fun c hc => h.known_command (accepted_subset hc)
  have hdistinct : (s.history.map OpRecord.command).Nodup := h.clients.distinct.nodup
  have hnd : order.Nodup := List.Nodup.of_map _ (ho ▸ h.nodup)
  refine ⟨order.map OpRecord.toCallRecord,
    (s.history.filter fun r => r.command ∉ accepted (commands W H)).map OpRecord.toCallRecord, ?_, ?_,
    pairwise_map.2 (h.real_time ho hs), h.legal ho hs⟩
  · rw [← map_append]
    refine List.Perm.map _ ((perm_ext_iff_of_nodup ?_ (List.Nodup.of_map _ hdistinct)).2 fun r => ?_)
    · refine nodup_append.2 ⟨hnd, (List.Nodup.of_map _ hdistinct).filter _, fun a ha b hb hab => ?_⟩
      subst hab
      have hnot : a.command ∉ accepted (commands W H) := by simpa using (mem_filter.1 hb).2
      exact hnot (ho ▸ mem_map_of_mem ha)
    · rw [mem_append, mem_filter]
      constructor
      · rintro (hr | ⟨hr, _⟩)
        · exact hs r hr
        · exact hr
      · intro hr
        by_cases hc : r.command ∈ accepted (commands W H)
        · rw [← ho] at hc
          obtain ⟨r', hr', heq⟩ := mem_map.1 hc
          exact .inl (inj_on_of_nodup_map hdistinct (hs r' hr') hr heq ▸ hr')
        · exact .inr ⟨hr, by simpa using hc⟩
  · -- an operation that is not in the log was not answered
    intro r₀ hr₀
    obtain ⟨r, hr, rfl⟩ := mem_map.1 hr₀
    obtain ⟨hr, hnot⟩ := mem_filter.1 hr
    by_contra hne
    obtain ⟨u, hu⟩ := Option.ne_none_iff_exists'.1 hne
    obtain ⟨y, _, hexec⟩ := h.executed hr hu
    have hnot' : r.command ∉ accepted (commands W H) := by simpa using hnot
    exact hnot' (hexec.mono (List.take_prefix _ H)).accepted

/-- The write of client 0 is answered; then its CAS on the same key, sent to node 1 twice, is committed and answered. -/
def SimAction.swapped : List SimAction :=
  let cas : Command := ⟨101, 2, .cas [97] (some [1]) (some [2])⟩
  let entry (index : Nat) : Entry := { term := 1, index, payload := .normal (Wire.plain.command.ser cas) }
  SimAction.written ++
  [.response 1 0 (.writeDone 1 .ok), .wake 0 2 cas.op, .request 1 0 (.cas 2 [97] (some [1]) (some [2])),
   .request 1 0 (.cas 2 [97] (some [1]) (some [2])), receive 1 3 (.appendEntries 2 1 [entry 3] 2 0),
   receive 3 1 (.appendEntriesResp true 3 0 0), .response 1 0 (.writeDone 2 (.cas true (some [1])))]

theorem writes_linearizable_swapped :
    ∃ s, Runs (Sim.exec Wire.plain 9 [1, 2, 3]) (fun _ _ => True) (Sim.boot Config.quick [1, 2, 3]) s ∧
      s.history.map OpRecord.toCallRecord =
        [⟨.put [97] [1], 1, some 2, some .ok⟩,
         ⟨.cas [97] (some [1]) (some [2]), 3, some 4, some (.cas true (some [1]))⟩] ∧
      kvMap.Linearizable (s.history.map OpRecord.toCallRecord) := by
  obtain ⟨s, hr, h⟩ := Runs.reached (Sim.exec Wire.plain 9 [1, 2, 3]) (fun _ _ => True)
    (Sim.boot Config.quick [1, 2, 3]) SimAction.swapped
    (P := fun s => s.history.map OpRecord.toCallRecord =
      [⟨.put [97] [1], 1, some 2, some .ok⟩,
       ⟨.cas [97] (some [1]) (some [2]), 3, some 4, some (.cas true (some [1]))⟩]) (by decide +kernel)
  exact ⟨s, hr, h, writes_linearizable Wire.plain 9 Config.quick [1, 2, 3] (by decide) hr⟩

end RaftKv

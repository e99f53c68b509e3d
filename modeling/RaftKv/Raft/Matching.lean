import RaftKv.Raft.Safety

/-!
# Log matching and acknowledgements

A leader counts `matched` of a peer as replicated (`maybe_advance_commit`, `node.rs:545`), although
the peer may since have stepped stale batches, old snapshots, or restarted. `acked_never_retracted`
says that this is right for as long as the peer stays in the term: what it acknowledged is in its
logical log, whichever handler sent the acknowledgement and whatever was delivered since. It is the
log the leader has while it leads: one that has been deposed loses uncommitted entries before a peer
that has not heard of the new term (`deposed_leader_overwritten`).
`log_matching_fixed` is the property `check_log_matching` (`sim/src/cluster.rs:875`) samples, for
whole prefixes.

| here | there |
| --- | --- |
| `Host.logical`   | the entries of a node with the prefix its snapshot stands for |
| `Message.Acks`   | a successful `AppendEntriesResp` or an `InstallSnapshotResp`, with its index |
-/

namespace RaftKv

open RaftNode

variable {voters : List NodeId} {hv : voters.Nodup} {g g' : Ghost} {s t u : Cluster} {i j : NodeId}
  {n n' n₀ : RaftNode} {c : Call}

def Host.logical (h : Host) : List Entry := h.base ++ h.raft.log.entries

theorem Inv.logical_eq (h : Inv voters hv g s) (i : NodeId) : g.led.log i = (s.host i).logical :=
  (h.locals i).core.log_eq

/-! ## Acknowledgements -/

/-- `m` acknowledges the first `k` entries of the leader of its term. -/
def Message.Acks (m : Message) (k : Nat) : Prop :=
  match m.body with
  | .appendEntriesResp success matchIndex _ _ => success = true ∧ matchIndex = k
  | .installSnapshotResp lastIndex => lastIndex = k
  | _ => False

instance (m : Message) (k : Nat) : Decidable (m.Acks k) := by
  unfold Message.Acks
  split <;> infer_instance

/-- The response of `p` to the leader `l` of term `T` about its first `k` entries is among `net`. -/
def Responded (net : List Message) (p l : NodeId) (T k : Nat) : Prop :=
  ∃ m ∈ net, m.src = p ∧ m.dst = l ∧ m.term = T ∧ m.Acks k

instance (net : List Message) (p l : NodeId) (T k : Nat) : Decidable (Responded net p l T k) := by
  unfold Responded
  infer_instance

/-- Everything a leader has recorded was said in a response to it. -/
def Noted (net : List Message) (i : NodeId) (n : RaftNode) : Prop :=
  n.role = .leader → ∀ {p pr}, n.prs.find? p = some pr → pr.matched = 0 ∨ Responded net p i n.hs.term pr.matched

variable {net : List Message} {T k : Nat}

theorem Noted.mono {net' : List Message} (h : Noted net i n) (hsub : ∀ m ∈ net, m ∈ net') : Noted net' i n := by
  intro hr p pr hpr
  refine (h hr hpr).imp_right ?_
  rintro ⟨m, hm, hrest⟩
  exact ⟨m, hsub m hm, hrest⟩

theorem Noted.move (h : Noted net i n) (hstep : ∀ m, c = .step m → m ∈ net ∧ m.dst = i)
    (hm : Move c n₀ n n') : Noted net i n' := by
  intro hr p pr' hpr
  obtain ⟨hterm, hprs⟩ := hm.progress hr
  rw [hterm]
  cases hprs hpr with
  | fresh _ => exact .inl rfl
  | same hl hpr₀ hs => rw [hs.matched]; exact h hl hpr₀
  | @response m pr _ hc _ hl ht hsrc hpr₀ hresp =>
    obtain ⟨_, hresp⟩ := hresp
    obtain ⟨hnet, hdst⟩ := hstep m hc
    have hnew : m.Acks pr'.matched → Responded net p i n.hs.term pr'.matched :=
      fun hacks => ⟨m, hnet, hsrc.symm, hdst, ht, hacks⟩
    unfold Message.Acks at hnew
    cases hb : m.body with
    | appendEntriesResp success mi ci ctx =>
      rw [hb] at hresp hnew
      rcases hresp.2 with hsame | ⟨hok, hmi⟩
      · rw [hsame]; exact h hl hpr₀
      · exact .inr (hnew ⟨hok, hmi.symm⟩)
    | installSnapshotResp li =>
      rw [hb] at hresp hnew
      rcases hresp.2 with hsame | hli
      · rw [hsame]; exact h hl hpr₀
      · exact .inr (hnew hli.symm)
    | _ => rw [hb] at hresp; exact hresp.elim

theorem Noted.moves (h : Noted net i n) (hstep : ∀ m, c = .step m → m ∈ net ∧ m.dst = i)
    (hm : Moves c n₀ n n') : Noted net i n' := by
  induction hm with
  | refl => exact h
  | tail _ hm ih => exact ih.move hstep hm

theorem noted_exec {a : Action} (h : ∀ i, Noted s.net i (s.host i).raft) (he : s.exec voters a = some t) :
    ∀ i, Noted t.net i (t.host i).raft := by
  cases Cluster.exec_some he with
  | @call i c n' hdel hc =>
    have hgrow : ∀ j, Noted (s.flush i n').net j (s.host j).raft :=
      fun j => (h j).mono fun m hm => List.mem_append_left _ hm
    have hstep : ∀ m, c = .step m → m ∈ (s.flush i n').net ∧ m.dst = i := by
      rintro m rfl
      obtain ⟨hdst, hnet⟩ := Cluster.deliverable_step hdel
      exact ⟨List.mem_append_left _ hnet, hdst⟩
    refine forall_update (P := fun j x => Noted _ j x.raft) ?_ hgrow
    have hnew := (hgrow i).moves hstep (call_moves hc)
    exact hnew
  | idle => exact h
  | @compact i applied data snap n' hc =>
    obtain ⟨_, _, _, _, _, rfl⟩ := compact_some hc
    exact forall_update (P := fun j x => Noted _ j x.raft) (h i) h
  | @restart i cfg n' hn =>
    refine forall_update (P := fun j x => Noted _ j x.raft) (fun hr => ?_) h
    rw [show n'.role = .follower from (new_some hn).1] at hr
    cases hr

/-- What a node acknowledged in its present term is a prefix of its log and of the leader's. -/
theorem Inv.acked_prefix (h : Inv voters hv g s) {p : NodeId} (ha : AckedTo g p T k) (hk : 0 < k)
    (hterm : (s.host p).raft.hs.term = T) :
    ∃ a r, a.length = k ∧ a <+: (s.host p).logical ∧ g.led.reign T = some r ∧ a <+: r.log := by
  have hsound := (h.locals p).shared.sound
  rcases ha with rfl | ⟨a, hack, hlen⟩
  · omega
  · obtain ⟨_, r, hr, har⟩ := hsound.ack_reign hack
    refine ⟨a, r, hlen, ?_, hr, har⟩
    rw [← h.logical_eq p]
    rcases hsound.ack_kept p T a a hack (List.prefix_refl a) with hkept | ⟨T', _, hlt, hle, _⟩
    · exact hkept
    · -- only a leader of a later term takes anything away
      have hnow : g.led.term p = T := (h.locals p).core.term_eq.trans hterm
      rw [hnow] at hle
      exact absurd hle (Nat.not_le.2 hlt)

theorem Inv.responded_acked (h : Inv voters hv g s) {p l : NodeId} (hr : Responded s.net p l T k) :
    AckedTo g p T k := by
  obtain ⟨m, hm, rfl, _, rfl, hacks⟩ := hr
  have hok := h.net m hm
  unfold MsgOk at hok
  unfold Message.Acks at hacks
  cases hb : m.body with
  | appendEntriesResp success mi ci ctx =>
    rw [hb] at hok hacks
    obtain ⟨hs, rfl⟩ := hacks
    exact hok hs
  | installSnapshotResp li =>
    rw [hb] at hok hacks
    subst hacks
    exact hok
  | _ => rw [hb] at hacks; exact hacks.elim

theorem getElem?_of_prefix {α : Type} {a l l' : List α} (h : a <+: l) (h' : a <+: l') (hk : k < a.length) :
    ∃ e, l[k]? = some e ∧ l'[k]? = some e := by
  obtain ⟨x, rfl⟩ := h
  obtain ⟨y, rfl⟩ := h'
  refine ⟨a[k], ?_, ?_⟩
  · rw [List.getElem?_append_left hk, List.getElem?_eq_getElem hk]
  · rw [List.getElem?_append_left hk, List.getElem?_eq_getElem hk]

/-- Acknowledged entries are never retracted. Whatever the leader `l` has recorded of `p` in state `s` was said in
a response; and in every state `u` of the run, before `s` or after it, in which such a response has been sent and
`p` is still in the term, the two logical logs agree up to the recorded index. -/
theorem acked_never_retracted (cfg : NodeId → Config) (voters : List NodeId) (hv : voters.Nodup) {p l : NodeId}
    {pr : Progress} (hs : Run voters (fun _ a => a.fixed) (Cluster.init cfg voters) s)
    (hlead : (s.host l).raft.role = .leader) (hpr : (s.host l).raft.prs.find? p = some pr) :
    (0 < pr.matched → Responded s.net p l (s.host l).raft.hs.term pr.matched) ∧
    ∀ u, (Run voters (fun _ a => a.fixed) (Cluster.init cfg voters) u ∧ Run voters (fun _ a => a.fixed) u s ∨
        Run voters (fun _ a => a.fixed) s u) →
      Responded u.net p l (s.host l).raft.hs.term pr.matched → (u.host p).raft.hs.term = (s.host l).raft.hs.term →
      ∀ k, 1 ≤ k → k ≤ pr.matched →
        ∃ e, (u.host p).logical[k - 1]? = some e ∧ (s.host l).logical[k - 1]? = some e := by
  refine ⟨fun hpos => ?_, fun u hu hresp hterm k hk hkm => ?_⟩
  · have hnoted : ∀ i, Noted s.net i (s.host i).raft := hs.invariant (P := fun s => ∀ i, Noted s.net i (s.host i).raft)
      (fun i hr => by cases hr) fun h _ he => noted_exec h he
    exact (hnoted l hlead hpr).resolve_left (by omega)
  · have hready : ∀ (s : Cluster) (a : Action), a.fixed → ConfReady s a := fun _ _ => confReady_of_fixed
    rcases hu with ⟨h₀, hus⟩ | hsu
    · -- before the leader recorded it: its log has only grown since
      obtain ⟨g, _, hinv⟩ := (Inv.init cfg voters hv).run hready h₀
      obtain ⟨g', hle, hinv'⟩ := hinv.run hready hus
      obtain ⟨r', hr', _, hlog⟩ := hinv'.leader_reign hlead
      obtain ⟨a, r, hlen, hap, hr, har⟩ := hinv.acked_prefix (hinv.responded_acked hresp) (by omega) hterm
      obtain ⟨r'', hr'', _, _, hgrow⟩ := hle.ext.reign hr
      rw [hr'] at hr''
      cases hr''
      have hal : a <+: (s.host l).logical := by rw [Host.logical, hlog]; exact har.trans hgrow
      exact getElem?_of_prefix hap hal (by omega)
    · -- afterwards: the prefix is the one the leader counted
      obtain ⟨g, _, hinv⟩ := (Inv.init cfg voters hv).run hready hs
      obtain ⟨g', hle, hinv'⟩ := hinv.run hready hsu
      obtain ⟨r, hr, _, hlog⟩ := hinv.leader_reign hlead
      obtain ⟨_, _, _, _, hacked⟩ := (hinv.locals l).role.leader hlead
      rcases hacked hpr with h0 | ⟨a, hack, hlen⟩
      · omega
      · obtain ⟨_, r₀, hr₀, har⟩ := (hinv.locals l).shared.sound.ack_reign hack
        rw [hr] at hr₀
        cases hr₀
        obtain ⟨a', r', hlen', hap', hr', har'⟩ := hinv'.acked_prefix
          (.inr ⟨a, hle.ext.ack hack, hlen⟩) (by omega) hterm
        obtain ⟨r'', hr'', _, _, hgrow⟩ := hle.ext.reign hr
        rw [hr'] at hr''
        cases hr''
        have heq : a' = a :=
          (List.prefix_of_prefix_length_le har' (har.trans hgrow) (by omega)).eq_of_length (by omega)
        have hal : a <+: (s.host l).logical := by rw [Host.logical, hlog]; exact har
        rw [heq] at hap'
        exact getElem?_of_prefix hap' hal (by omega)

/-- Node 2 has acknowledged the no-op of node 1 and restarts. -/
theorem acked_never_retracted_run :
    ∃ s, Run [1, 2, 3] (fun _ a => a.fixed) (Cluster.init Config.quick [1, 2, 3]) s ∧
      ((s.host 2).raft.tickCounter = 0 ∧ ((s.host 1).raft.prs.find? 2).map Progress.matched = some 1) ∧
      ∃ e, (s.host 2).logical[0]? = some e ∧ (s.host 1).logical[0]? = some e := by
  obtain ⟨s, hr, hlead, htick, hpr, hterm⟩ := Run.reached [1, 2, 3] (fun _ a => a.fixed)
    (Cluster.init Config.quick [1, 2, 3])
    (P := fun s => (s.host 1).raft.role = .leader ∧ (s.host 2).raft.tickCounter = 0 ∧
      ((s.host 1).raft.prs.find? 2).map Progress.matched = some 1 ∧
      (s.host 2).raft.hs.term = (s.host 1).raft.hs.term)
    (Action.firstCommit ++ [.restart 2 (Config.quick 2)]) (by decide +kernel) (fun _ => by decide)
  obtain ⟨pr, hfind, hm⟩ := Option.map_eq_some_iff.1 hpr
  have hacked := acked_never_retracted Config.quick [1, 2, 3] (by decide) hr hlead hfind
  exact ⟨s, hr, ⟨htick, hpr⟩, hacked.2 s (.inr .refl) (hacked.1 (by omega)) hterm 1 (by omega) (by omega)⟩

namespace Action

/-- Node 1 of five leads term 1 with the votes of nodes 2 and 3, and node 2 acknowledges its no-op. -/
def noopAcked : List Action :=
  [.call 1 .tick, ask 1 2 1 0 0, grant 2 1 1, ask 1 3 1 0 0, grant 3 1 1,
   deliver 1 2 1 (.appendEntries 0 0 [{ term := 1, index := 1, payload := .noop }] 0 0),
   deliver 2 1 1 (.appendEntriesResp true 1 0 0)]

/-- Node 4 wins term 2 with the votes of nodes 3 and 5; its no-op reaches node 1 and not node 2. -/
def deposed : List Action :=
  [.call 4 .tick, .call 4 .tick, ask 4 3 2 0 0, grant 3 4 2, ask 4 5 2 0 0, grant 5 4 2,
   deliver 4 1 2 (.appendEntries 0 0 [{ term := 2, index := 1, payload := .noop }] 0 0)]

end Action

/-- Node 1 has recorded that node 2 holds its first entry, and is deposed. Node 2 is still in term 1 and holds the
entry; the log of node 1 has another one there. -/
theorem deposed_leader_overwritten :
    ∃ s u, Run [1, 2, 3, 4, 5] (fun _ a => a.fixed) (Cluster.init Config.quick [1, 2, 3, 4, 5]) s ∧
      Run [1, 2, 3, 4, 5] (fun _ a => a.fixed) s u ∧
      ((s.host 1).raft.role = .leader ∧ (s.host 1).raft.hs.term = 1 ∧
        ((s.host 1).raft.prs.find? 2).map Progress.matched = some 1) ∧
      (u.host 2).raft.hs.term = 1 ∧ (u.host 2).logical[0]? ≠ (u.host 1).logical[0]? := by
  obtain ⟨s, hs, hlead, hu⟩ := Run.reached [1, 2, 3, 4, 5] (fun _ a => a.fixed)
    (Cluster.init Config.quick [1, 2, 3, 4, 5])
    (P := fun s => ((s.host 1).raft.role = .leader ∧ (s.host 1).raft.hs.term = 1 ∧
        ((s.host 1).raft.prs.find? 2).map Progress.matched = some 1) ∧
      (s.execAll [1, 2, 3, 4, 5] Action.deposed).any (fun u => decide ((u.host 2).raft.hs.term = 1 ∧
        (u.host 2).logical[0]? ≠ (u.host 1).logical[0]?)) = true)
    Action.noopAcked (by decide +kernel) (fun _ => by decide)
  obtain ⟨u, hsu, hdiff⟩ := Run.reached [1, 2, 3, 4, 5] (fun _ a => a.fixed) s Action.deposed hu (fun _ => by decide)
  exact ⟨s, u, hs, hsu, hlead, hdiff⟩

/-! ## Log matching -/

/-- Logs that agree on the term of an entry are the same up to it. -/
theorem Inv.logical_take (h : Inv voters hv g s) {e e' : Entry}
    (hi : (s.host i).raft.log.get k = some e) (hj : (s.host j).raft.log.get k = some e') (ht : e.term = e'.term) :
    (s.host i).logical.take k = (s.host j).logical.take k := by
  obtain ⟨hlo, hget⟩ := (h.locals i).core.rel.get_eq.1 hi
  obtain ⟨hlo', hget'⟩ := (h.locals j).core.rel.get_eq.1 hj
  have hlen := (List.getElem?_eq_some_iff.1 hget).1
  have hlen' := (List.getElem?_eq_some_iff.1 hget').1
  have hsound := (h.locals i).shared.sound
  have hlast : ∀ {l : List Entry} {x : Entry}, l[k - 1]? = some x → l.take k = l.take (k - 1) ++ [x] := by
    intro l x hx
    conv => lhs; rw [show k = k - 1 + 1 by omega]
    rw [List.take_add_one, hx]; rfl
  have hpi : (s.host i).logical.take k <+: g.led.log i := by rw [h.logical_eq i]; exact List.take_prefix _ _
  have hpj : (s.host j).logical.take k <+: g.led.log j := by rw [h.logical_eq j]; exact List.take_prefix _ _
  have hci := (hsound.log_chain i).anti hpi
  have hcj := (hsound.log_chain j).anti hpj
  refine hci.eq_of_term hcj ?_ ?_
  · rw [List.length_take_of_le (by unfold Host.logical; omega), List.length_take_of_le (by unfold Host.logical; omega)]
  · rw [Host.logical, Host.logical, hlast hget, hlast hget', Ledger.lastTerm_concat, Ledger.lastTerm_concat]
    exact ht

/-- A snapshot boundary below the common entry has the term the other log gives it. -/
theorem Inv.boundary_term (h : Inv voters hv g s)
    (hk : (s.host i).raft.log.snapIndex ≤ k) (heq : (s.host i).logical.take k = (s.host j).logical.take k)
    (hT : (s.host j).raft.log.term (s.host i).raft.log.snapIndex = some T) : T = (s.host i).raft.log.snapTerm := by
  have hrel := (h.locals i).core.rel
  obtain ⟨_, _, hlast⟩ := (h.locals j).core.rel.term_some hT
  have htake : (s.host j).logical.take (s.host i).raft.log.snapIndex = (s.host i).base := by
    have := congrArg (List.take (s.host i).raft.log.snapIndex) heq
    rw [List.take_take, List.take_take, Nat.min_eq_left hk] at this
    rw [← this, Host.logical, hrel.len, List.take_left]
  rw [← hlast, hrel.term, show _ ++ _ = (s.host j).logical from rfl, htake]

/-- Log matching: two logs with entries of the same term at index `k` hold the same entries up to `k` wherever both
hold one, and the snapshot boundary of each has the term the other log gives it. -/
theorem log_matching_fixed (cfg : NodeId → Config) (voters : List NodeId) (hv : voters.Nodup)
    (hs : Run voters (fun _ a => a.fixed) (Cluster.init cfg voters) s) {k : Nat} {e e' : Entry}
    (hi : (s.host i).raft.log.get k = some e) (hj : (s.host j).raft.log.get k = some e') (ht : e.term = e'.term) :
    (∀ k', k' ≤ k → (s.host i).raft.log.snapIndex < k' → (s.host j).raft.log.snapIndex < k' →
      ∃ x, (s.host i).raft.log.get k' = some x ∧ (s.host j).raft.log.get k' = some x) ∧
    (∀ T, (s.host j).raft.log.term (s.host i).raft.log.snapIndex = some T → T = (s.host i).raft.log.snapTerm) ∧
    ∀ T, (s.host i).raft.log.term (s.host j).raft.log.snapIndex = some T → T = (s.host j).raft.log.snapTerm := by
  obtain ⟨g, _, h⟩ := (Inv.init cfg voters hv).run (fun _ _ => confReady_of_fixed) hs
  have heq := h.logical_take hi hj ht
  have hri := (h.locals i).core.rel
  have hrj := (h.locals j).core.rel
  obtain ⟨hlo, hget⟩ := hri.get_eq.1 hi
  obtain ⟨hlo', _⟩ := hrj.get_eq.1 hj
  have hlen := (List.getElem?_eq_some_iff.1 hget).1
  refine ⟨fun k' hk' hbi hbj => ?_, fun T hT => ?_, fun T hT => ?_⟩
  · obtain ⟨x, hx⟩ : ∃ x, (s.host i).logical[k' - 1]? = some x :=
      ⟨_, List.getElem?_eq_getElem (by unfold Host.logical; omega)⟩
    have hx' : (s.host j).logical[k' - 1]? = some x := by
      rw [← List.getElem?_take_of_lt (show k' - 1 < k by omega), ← heq, List.getElem?_take_of_lt (by omega)]
      exact hx
    rw [hri.len] at hbi
    rw [hrj.len] at hbj
    exact ⟨x, hri.get_eq.2 ⟨hbi, hx⟩, hrj.get_eq.2 ⟨hbj, hx'⟩⟩
  · exact h.boundary_term (by rw [hri.len]; omega) heq hT
  · exact h.boundary_term (by rw [hrj.len]; omega) heq.symm hT

/-- Nodes 1 and 2 hold the same two entries; node 1 has compacted the first. -/
theorem log_matching_fixed_run :
    ∃ s, Run [1, 2, 3] (fun _ a => a.fixed) (Cluster.init Config.quick [1, 2, 3]) s ∧
      ((s.host 1).raft.log.snapIndex = 1 ∧ (s.host 2).raft.log.snapIndex = 0) ∧
      (∀ k', k' ≤ 2 → (s.host 1).raft.log.snapIndex < k' → (s.host 2).raft.log.snapIndex < k' →
        ∃ x, (s.host 1).raft.log.get k' = some x ∧ (s.host 2).raft.log.get k' = some x) ∧
      (∀ T, (s.host 2).raft.log.term (s.host 1).raft.log.snapIndex = some T → T = (s.host 1).raft.log.snapTerm) ∧
      ∀ T, (s.host 1).raft.log.term (s.host 2).raft.log.snapIndex = some T → T = (s.host 2).raft.log.snapTerm := by
  let e : Entry := { term := 1, index := 2, payload := .normal [7] }
  obtain ⟨s, hr, hsnap, h1, h2⟩ := Run.reached [1, 2, 3] (fun _ a => a.fixed)
    (Cluster.init Config.quick [1, 2, 3])
    (P := fun s => ((s.host 1).raft.log.snapIndex = 1 ∧ (s.host 2).raft.log.snapIndex = 0) ∧
      (s.host 1).raft.log.get 2 = some e ∧ (s.host 2).raft.log.get 2 = some e)
    (Action.firstCommit ++ [.call 1 (.propose [7]), .deliver 1 2 1 (.appendEntries 1 1 [e] 1 0), .compact 1 1 []])
    (by decide +kernel) (fun _ => by decide)
  exact ⟨s, hr, hsnap, log_matching_fixed Config.quick [1, 2, 3] (by decide) hr h1 h2 rfl⟩

end RaftKv

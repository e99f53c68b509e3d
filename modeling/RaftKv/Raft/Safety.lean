import RaftKv.Raft.Reachable

/-!
# Safety of every run

State-machine safety, leader completeness and election safety over whole runs, read off the ledger
(`Inv`). With configuration changes election safety needs `ConfReady`: the check of
`propose_conf_change` (`node.rs:363`) refuses a change only while an older one is uncommitted in
the leader's own log, which does not stop a fresh leader from proposing one while a deposed leader
still holds another.
-/

namespace RaftKv

variable {voters : List NodeId} {hv : voters.Nodup} {g g' : Ghost} {s t : Cluster} {i j : NodeId}

/-- A leader is the leader its ledger records, with the recorded log. -/
theorem Inv.leader_reign (h : Inv voters hv g s) (hr : (s.host i).raft.role = .leader) :
    ∃ r, g.led.reign (s.host i).raft.hs.term = some r ∧ r.leader = i ∧
      (s.host i).base ++ (s.host i).raft.log.entries = r.log := by
  obtain ⟨r, hrt, hl, _⟩ := (h.locals i).role.leader hr
  exact ⟨r, hrt, hl, (h.locals i).leader_log hrt hl⟩

/-! ## State-machine safety -/

theorem Inv.delivered_unique (h : Inv voters hv g s) {d d' : Delivery} (hd : d ∈ s.delivered)
    (hd' : d' ∈ s.delivered) (hidx : d.entry.index = d'.entry.index) : d.entry = d'.entry := by
  obtain ⟨p, hp, hi⟩ := h.delivered d hd
  obtain ⟨p', hp', hi'⟩ := h.delivered d' hd'
  have hlen : (p ++ [d.entry]).length = (p' ++ [d'.entry]).length := by
    simp only [List.length_append, List.length_singleton]; omega
  have heq : p ++ [d.entry] = p' ++ [d'.entry] := by
    rcases hp.comparable (h.locals 0).shared.sound hp' with hle | hle
    · exact hle.eq_of_length hlen
    · exact (hle.eq_of_length hlen.symm).symm
  exact (List.append_inj' heq rfl).2 |> List.singleton_inj.1

theorem Inv.snapshot_term (h : Inv voters hv g s) {snap : Snapshot} (hs : snap ∈ s.snaps) {d : Delivery}
    (hd : d ∈ s.delivered) (hidx : d.entry.index = snap.lastIndex) : d.entry.term = snap.lastTerm := by
  have hsh := (h.locals 0).shared
  obtain ⟨p, hp⟩ := h.snaps snap hs
  obtain ⟨hok, T, ha⟩ := hsh.recorded hp
  obtain ⟨p', hp', hi'⟩ := h.delivered d hd
  have hlen : p.length = (p' ++ [d.entry]).length := by
    rw [← hok.index, ← hidx, hi']; simp
  have heq : p = p' ++ [d.entry] := by
    rcases ha.comparable hsh.sound hp' with hle | hle
    · exact hle.eq_of_length hlen
    · exact (hle.eq_of_length hlen.symm).symm
  rw [hok.term, heq, lastTermOf_concat]

/-- State-machine safety: all nodes, in all incarnations, deliver one entry at each index, and every
snapshot taken or installed ends in a delivered entry and has its term. -/
theorem state_machine_safety_fixed (cfg : NodeId → Config) (voters : List NodeId) (hv : voters.Nodup)
    (hs : Run voters (fun _ a => a.fixed) (Cluster.init cfg voters) s) :
    (∀ d ∈ s.delivered, ∀ d' ∈ s.delivered, d.entry.index = d'.entry.index → d.entry = d'.entry) ∧
    ∀ snap ∈ s.snaps, (∃ d ∈ s.delivered, d.entry.index = snap.lastIndex) ∧
      ∀ d ∈ s.delivered, d.entry.index = snap.lastIndex → d.entry.term = snap.lastTerm := by
  obtain ⟨g, _, h⟩ := (Inv.init cfg voters hv).run (fun _ _ => confReady_of_fixed) hs
  refine ⟨fun d hd d' hd' hidx => h.delivered_unique hd hd' hidx, fun snap hsnap => ⟨?_, fun d hd hidx => ?_⟩⟩
  · obtain ⟨p, hp⟩ := h.snaps snap hsnap
    exact h.taken hp
  · exact h.snapshot_term hsnap hd hidx

/-- A run with a delivery and a snapshot. -/
theorem state_machine_safety_fixed_run :
    ∃ s, Run [1, 2, 3] (fun _ a => a.fixed) (Cluster.init Config.quick [1, 2, 3]) s ∧
      (s.delivered ≠ [] ∧ s.snaps ≠ []) ∧
      (∀ d ∈ s.delivered, ∀ d' ∈ s.delivered, d.entry.index = d'.entry.index → d.entry = d'.entry) ∧
      ∀ snap ∈ s.snaps, (∃ d ∈ s.delivered, d.entry.index = snap.lastIndex) ∧
        ∀ d ∈ s.delivered, d.entry.index = snap.lastIndex → d.entry.term = snap.lastTerm := by
  obtain ⟨s, hr, hne⟩ := Run.reached [1, 2, 3] (fun _ a => a.fixed) (Cluster.init Config.quick [1, 2, 3])
    (P := fun s => s.delivered ≠ [] ∧ s.snaps ≠ []) (Action.firstCommit ++ [.compact 1 1 []]) (by decide +kernel)
      (fun _ => by decide)
  exact ⟨s, hr, hne, state_machine_safety_fixed Config.quick [1, 2, 3] (by decide) hr⟩

/-! ## Leader completeness -/

/-- What was delivered by term `d.term` is in the log of every leader of a later term, whenever that
leader led. -/
theorem Inv.leader_holds (hs : Inv voters hv g s) (ht : Inv voters hv g' t) (hle : g.Le g') {d : Delivery}
    (hd : d ∈ t.delivered) (hr : (s.host j).raft.role = .leader) (hterm : d.term < (s.host j).raft.hs.term) :
    (s.host j).raft.log.get d.entry.index = some d.entry ∨
      (d.entry.index ≤ (s.host j).raft.log.snapIndex ∧
        (s.host j).base[d.entry.index - 1]? = some d.entry) := by
  obtain ⟨r, hrt, hl, hlog⟩ := hs.leader_reign hr
  obtain ⟨r', hrt', _, hel, _⟩ := hle.ext.reign hrt
  obtain ⟨p, hp, hidx⟩ := ht.delivered d hd
  have hsound := (ht.locals 0).shared.sound
  -- the committed prefix is in the log the leader was elected with
  have hpl : p ++ [d.entry] <+: (s.host j).base ++ (s.host j).raft.log.entries := by
    rcases hp with hnil | ⟨b, m, d', hb, hC, hpm, _⟩
    · simp at hnil
    · have hmr := hsound.elected_complete hrt' hC (Nat.lt_of_le_of_lt hb hterm)
      obtain ⟨x, hx, _⟩ := (hs.locals 0).shared.sound.reign_log hrt
      rw [hel] at hmr
      rw [hlog, hx]
      exact hpm.trans (hmr.trans (List.prefix_append _ _))
  have hget : ((s.host j).base ++ (s.host j).raft.log.entries)[d.entry.index - 1]? = some d.entry := by
    obtain ⟨x, hx⟩ := hpl
    rw [← hx, hidx]
    simp
  have hrel := (hs.locals j).core.rel
  by_cases hsnap : d.entry.index ≤ (s.host j).raft.log.snapIndex
  · refine Or.inr ⟨hsnap, ?_⟩
    rw [hrel.len] at hsnap
    rwa [List.getElem?_append_left (by omega)] at hget
  · rw [hrel.len] at hsnap
    exact Or.inl (hrel.get_eq.2 ⟨by omega, hget⟩)

/-- Leader completeness: an entry a leader of term `T` newly commits is held by every leader of a
later term. A delivery by a leader is one of `maybe_advance_commit`, and `delivered` only grows, so
`s = t` is the case in which the later leader comes after the delivery. -/
theorem leader_completeness_fixed (cfg : NodeId → Config) (voters : List NodeId) (hv : voters.Nodup)
    (hs : Run voters (fun _ a => a.fixed) (Cluster.init cfg voters) s) (ht : Run voters (fun _ a => a.fixed) s t)
    {d : Delivery} (hd : d ∈ t.delivered) (_hlead : d.role = .leader) (hr : (s.host j).raft.role = .leader)
    (hterm : d.term < (s.host j).raft.hs.term) :
    (s.host j).raft.log.get d.entry.index = some d.entry ∨
      (d.entry.index ≤ (s.host j).raft.log.snapIndex ∧
        (s.host j).base[d.entry.index - 1]? = some d.entry) := by
  obtain ⟨g, _, h⟩ := (Inv.init cfg voters hv).run (fun _ _ => confReady_of_fixed) hs
  obtain ⟨g', hle, h'⟩ := h.run (fun _ _ => confReady_of_fixed) ht
  exact h.leader_holds h' hle hd hr hterm

/-- Node 2 leads term 2 after node 1 committed its no-op in term 1. -/
theorem leader_completeness_fixed_run :
    ∃ s, Run [1, 2, 3] (fun _ a => a.fixed) (Cluster.init Config.quick [1, 2, 3]) s ∧
      ((s.host 2).raft.role = .leader ∧ (s.host 2).raft.hs.term = 2) ∧
      ((s.host 2).raft.log.get 1 = some { term := 1, index := 1, payload := .noop } ∨
        (1 ≤ (s.host 2).raft.log.snapIndex ∧
          (s.host 2).base[1 - 1]? = some { term := 1, index := 1, payload := .noop })) := by
  let d : Delivery :=
    { node := 1, term := 1, role := .leader, entry := { term := 1, index := 1, payload := .noop } }
  obtain ⟨s, hr, hrole, hterm, hd⟩ := Run.reached [1, 2, 3] (fun _ a => a.fixed)
    (Cluster.init Config.quick [1, 2, 3])
    (P := fun s => (s.host 2).raft.role = .leader ∧ (s.host 2).raft.hs.term = 2 ∧ d ∈ s.delivered)
    (Action.firstCommit ++ [.call 2 .tick, .ask 2 3 2 1 1, .grant 3 2 2]) (by decide +kernel) (fun _ => by decide)
  exact ⟨s, hr, ⟨hrole, hterm⟩, leader_completeness_fixed Config.quick [1, 2, 3] (by decide) hr .refl hd rfl hrole
    (by rw [hterm]; decide)⟩

/-! ## Election safety -/

theorem Inv.leader_unique (hs : Inv voters hv g s) (ht : Inv voters hv g' t) (hle : g.Le g')
    (hi : (s.host i).raft.role = .leader) (hj : (t.host j).raft.role = .leader)
    (hterm : (s.host i).raft.hs.term = (t.host j).raft.hs.term) : i = j := by
  obtain ⟨r, hr, hl, _⟩ := hs.leader_reign hi
  obtain ⟨r', hr', hl', _⟩ := ht.leader_reign hj
  obtain ⟨r'', hr'', hl'', _, _⟩ := hle.ext.reign hr
  rw [hterm, hr'] at hr''
  cases hr''
  rw [← hl, ← hl'', hl']

/-- Election safety over a whole run: a term has one leader. -/
theorem election_safety_fixed (cfg : NodeId → Config) (voters : List NodeId) (hv : voters.Nodup)
    (hs : Run voters (fun _ a => a.fixed) (Cluster.init cfg voters) s) (ht : Run voters (fun _ a => a.fixed) s t)
    (hi : (s.host i).raft.role = .leader) (hj : (t.host j).raft.role = .leader)
    (hterm : (s.host i).raft.hs.term = (t.host j).raft.hs.term) : i = j := by
  obtain ⟨g, _, h⟩ := (Inv.init cfg voters hv).run (fun _ _ => confReady_of_fixed) hs
  obtain ⟨g', hle, h'⟩ := h.run (fun _ _ => confReady_of_fixed) ht
  exact h.leader_unique h' hle hi hj hterm

/-- A leader right after its election, and a tick later, with its no-op not yet committed. -/
theorem election_safety_fixed_run :
    ∃ s t, Run [1, 2, 3] (fun _ a => a.fixed) (Cluster.init Config.quick [1, 2, 3]) s ∧
      Run [1, 2, 3] (fun _ a => a.fixed) s t ∧
      ((s.host 1).raft.role = .leader ∧ (t.host 1).raft.role = .leader ∧ (t.host 1).raft.commit = 0) ∧
      (1 : NodeId) = 1 := by
  obtain ⟨s, hs, hrun⟩ := Run.reached [1, 2, 3] (fun _ a => a.fixed) (Cluster.init Config.quick [1, 2, 3])
    (P := fun s => (s.host 1).raft.role = .leader ∧ (s.host 1).raft.hs.term = 1 ∧
      (s.execAll [1, 2, 3] [.call 1 .tick]).any (fun t => decide ((t.host 1).raft.role = .leader ∧
        (t.host 1).raft.hs.term = 1 ∧ (t.host 1).raft.commit = 0)) = true)
    Action.firstElection (by decide +kernel) (fun _ => by decide)
  obtain ⟨h1, h2, hnext⟩ := hrun
  obtain ⟨t, ht, h3, h4, h5⟩ := Run.reached [1, 2, 3] (fun _ a => a.fixed) s _ hnext (fun _ => by decide)
  exact ⟨s, t, hs, ht, ⟨h1, h3, h5⟩,
    election_safety_fixed Config.quick [1, 2, 3] (by decide) hs ht h1 h3 (h2.trans h4.symm)⟩

/-! ## Membership changes -/

/-- Election safety while the membership changes, in every run in which a leader proposes a change
only when its commit index lies in its own term. -/
theorem election_safety_reconfig (cfg : NodeId → Config) (voters : List NodeId) (hv : voters.Nodup)
    (hs : Run voters ConfReady (Cluster.init cfg voters) s) (ht : Run voters ConfReady s t)
    (hi : (s.host i).raft.role = .leader) (hj : (t.host j).raft.role = .leader)
    (hterm : (s.host i).raft.hs.term = (t.host j).raft.hs.term) : i = j := by
  obtain ⟨g, _, h⟩ := (Inv.init cfg voters hv).run (fun _ _ hr => hr) hs
  obtain ⟨g', hle, h'⟩ := h.run (fun _ _ hr => hr) ht
  exact h.leader_unique h' hle hi hj hterm

/-- A leader that has committed its no-op adds node 4 and stays leader. -/
theorem election_safety_reconfig_run :
    ∃ s t, Run [1, 2, 3] ConfReady (Cluster.init Config.quick [1, 2, 3]) s ∧ Run [1, 2, 3] ConfReady s t ∧
      ((s.host 1).raft.role = .leader ∧ (t.host 1).raft.role = .leader ∧ (t.host 1).raft.voters = [1, 2, 3, 4]) ∧
      (1 : NodeId) = 1 := by
  obtain ⟨s, hs, hrun⟩ := Run.reached [1, 2, 3] (fun _ a => a.fixed) (Cluster.init Config.quick [1, 2, 3])
    (P := fun s => (s.host 1).raft.role = .leader ∧ (s.host 1).raft.hs.term = 1 ∧
      (s.host 1).raft.log.term (s.host 1).raft.commit = some 1 ∧
      (s.exec [1, 2, 3] (.call 1 (.proposeConfChange (.addNode 4)))).any (fun t =>
        decide ((t.host 1).raft.role = .leader ∧ (t.host 1).raft.hs.term = 1 ∧
          (t.host 1).raft.voters = [1, 2, 3, 4])) = true)
    Action.firstCommit (by decide +kernel) (fun _ => by decide)
  obtain ⟨h1, h2, hcommit, hnext⟩ := hrun
  obtain ⟨t, ht, hP⟩ := (Option.any_eq_true _ _).1 hnext
  obtain ⟨h3, h4, h5⟩ := of_decide_eq_true hP
  have hready : ConfReady s (.call 1 (.proposeConfChange (.addNode 4))) := fun _ => by rw [hcommit, h2]
  have hs' : Run [1, 2, 3] ConfReady (Cluster.init Config.quick [1, 2, 3]) s :=
    hs.mono fun _ _ => confReady_of_fixed
  have ht' : Run [1, 2, 3] ConfReady s t := .tail .refl hready ht
  exact ⟨s, t, hs', ht', ⟨h1, h3, h5⟩,
    election_safety_reconfig Config.quick [1, 2, 3] (by decide) hs' ht' h1 h3 (h2.trans h4.symm)⟩

/-- Node 1 leads term 1 of `[1, 2, 3, 4]` and appends the addition of node 5, which no other node
receives. Node 2 wins term 2 and removes node 1 before it has committed anything; nodes 2 and 3 hold
the removal. In term 3 node 1 wins with `{1, 4, 5}` of its five voters, node 3 with `{2, 3}` of its
three. -/
def crossedChanges : List Action :=
  let noop : Entry := { term := 2, index := 1, payload := .noop }
  let remove : Entry := { term := 2, index := 2, payload := .confChange (.removeNode 1) }
  [.call 1 .tick, .ask 1 2 1 0 0, .ask 1 3 1 0 0, .grant 2 1 1, .grant 3 1 1,
   .call 1 (.proposeConfChange (.addNode 5)),
   .call 2 .tick, .ask 2 3 2 0 0, .ask 2 4 2 0 0, .grant 3 2 2, .grant 4 2 2,
   .call 2 (.proposeConfChange (.removeNode 1)),
   .deliver 2 3 2 (.appendEntries 0 0 [noop] 0 0), .deliver 2 3 2 (.appendEntries 1 2 [remove] 0 0),
   .ask 2 1 2 0 0, .call 1 .tick, .ask 1 4 3 2 1, .ask 1 5 3 2 1, .grant 4 1 3, .grant 5 1 3,
   .call 3 .tick, .ask 3 2 3 2 2, .grant 2 3 3]

/-- Two leaders of term 3. -/
theorem crossedChanges_two_leaders :
    ∃ s, Run [1, 2, 3, 4] (fun _ _ => True) (Cluster.init Config.quick [1, 2, 3, 4]) s ∧
      (s.host 1).raft.role = .leader ∧ (s.host 1).raft.hs.term = 3 ∧
      (s.host 3).raft.role = .leader ∧ (s.host 3).raft.hs.term = 3 :=
  Run.reached _ _ _ crossedChanges (by decide +kernel) fun _ _ _ => trivial

end RaftKv

import RaftKv.Server.Servers

/-!
# The applied index and the state machine

After each `process_output` a server should be in step: its state machine is what the committed
log up to `applied` stands for (`Servers.InStep`). The source restores an installed snapshot first
and then applies every committed entry of the output (`core.rs:363-382`). That is right unless one
batch holds entries committed before the snapshot was installed: those are older than the snapshot,
and `applied` falls back to the last of them while the state machine stays at the snapshot
(`mixedTurn_out_of_step`). A server that is opened again starts with what its log store returns, which
has to be what its node had made durable (`Servers.Restores`).

The invariant is carried by `Handed`: the committed prefix of the node is what the server had
applied, or what the installed snapshot stands for, followed by the committed entries.
-/

namespace RaftKv

open Function

variable {V : Type} {C : Codec V} {W : Wire} {voters : List NodeId} {hv : voters.Nodup} {g g' : Ghost}
  {s t : Servers V} {i j : NodeId} {ls : LogStore V} {es : List Event} {cs : List Call} {c : Core} {r : Core.Processed}

namespace Servers

/-- No batch installs a snapshot behind committed entries, and no restart finds another log than the node's. -/
def Unmixed (W : Wire) (C : Codec V) (s : Servers V) (a : ServerAction) : Prop :=
  s.Restores C a ∧ match a with
    | .batch i es => (s.core i).unmixed W Output.committed es = true
    | .restart .. => True

instance (W : Wire) (C : Codec V) (s : Servers V) : DecidablePred (s.Unmixed W C)
  | .batch i es => inferInstanceAs (Decidable (_ ∧ (s.core i).unmixed W Output.committed es = true))
  | .restart .. => inferInstanceAs (Decidable (_ ∧ True))

end Servers

/-! ## The invariant -/

/-- The state machine stands for the committed prefix of the node's log in the ledger. -/
structure Stands (W : Wire) (g : Ghost) (i : NodeId) (c : Core) : Prop where
  applied_eq : c.applied = c.raft.commit
  state : stateAfter W ((g.led.log i).take c.raft.commit) = some c.sm

/-- A snapshot holds the state its prefix stands for. -/
def Faithful (W : Wire) (s : Servers V) : Prop :=
  ∀ ⦃snap p⦄, s.cluster.Recorded snap p → ∃ sm, stateAfter W p = some sm ∧ snap.data = sm.snapshot W.payload

/-- What all the servers satisfy between two turns. -/
structure Stable (W : Wire) (voters : List NodeId) (hv : voters.Nodup) (g : Ghost) (s : Servers V) : Prop where
  inv : Inv voters hv g s.cluster
  stands : ∀ i, Stands W g i (s.core i)
  faithful : Faithful W s

theorem Stable.init (W : Wire) (cfg : NodeId → Config) (every : NodeId → Nat) (voters : List NodeId)
    (hv : voters.Nodup) : Stable W voters hv Ghost.init (Servers.init cfg every voters : Servers V) where
  inv := Inv.init cfg voters hv
  stands _ := ⟨rfl, rfl⟩
  faithful _ _ hr := by cases hr

/-- The committed prefix of a server that did not move. -/
theorem Stands.grow (h : Stands W g i c) {c' : Core} (hc : c' = c) {D D' : Entry → Prop}
    {rec rec' : Snapshot → List Entry → Prop} {base base' : List Entry} (hl : Local voters hv g rec D i c.raft base)
    (hl' : Local voters hv g' rec' D' i c'.raft base') (hle : g.Le g') : Stands W g' i c' := by
  subst hc
  refine ⟨h.applied_eq, ?_⟩
  rw [← hl.committed_grows hl' hle (Nat.le_refl _)]
  exact h.state

theorem Core.Passed.commit_eq (hp : Core.Passed W c r) : r.core.raft.commit = c.raft.commit := by
  rcases hp.raft with ⟨_, hr⟩ | ⟨snap, _, hc⟩
  · rw [hr]; rfl
  · obtain ⟨_, _, _, _, _, hn⟩ := RaftNode.compact_some hc
    rw [hn]; rfl

/-- The snapshots recorded after a turn: those from before, and one of the log up to `applied`. -/
theorem Servers.recorded_after (hinv : Inv voters hv g' (s.after C i c r).cluster) (hp : Core.Passed W c r)
    {snap : Snapshot} {p : List Entry} (h : (s.after C i c r).cluster.Recorded snap p) :
    s.cluster.Recorded snap p ∨
      (p = (g'.led.log i).take r.core.applied ∧ snap.data = r.core.sm.snapshot W.payload) := by
  rcases hp.raft with ⟨hn, _⟩ | ⟨snap', hs, hc⟩
  · left
    have heq : (s.after C i c r).cluster.prefixes = s.cluster.prefixes := by
      show (s.clusterAfter i c r).prefixes = _
      unfold Servers.clusterAfter
      rw [hn]; rfl
    unfold Cluster.Recorded at h ⊢
    rwa [heq] at h
  · have heq : (s.after C i c r).cluster.prefixes = s.cluster.prefixes ++ [(snap', (s.after C i c r).base i)] := by
      show (s.clusterAfter i c r).prefixes = _ ++ [(_, ((s.clusterAfter i c r).host i).base)]
      unfold Servers.clusterAfter
      rw [hs]
      rw [Cluster.compacted_self]; rfl
    have hmem := h
    unfold Cluster.Recorded at hmem
    rw [heq] at hmem
    rcases List.mem_append.1 hmem with hold | hnew
    · exact Or.inl hold
    · right
      obtain ⟨rfl, hpe⟩ := Prod.mk.inj (List.mem_singleton.1 hnew)
      obtain ⟨_, _, _, _, hsnap, _⟩ := RaftNode.compact_some hc
      have hl := hinv.locals i
      have hlen : p.length = r.core.applied := by
        rw [← (hl.shared.recorded h).1.index, hsnap]
      refine ⟨?_, by rw [hsnap]⟩
      have hlog : g'.led.log i = (s.after C i c r).base i ++ _ := hl.core.log_eq
      rw [hlog, ← hpe, ← hlen, List.take_left]

/-- One turn of a server keeps everyone in step, and its applied index does not fall. -/
theorem Stable.turn (h : Stable W voters hv g s) (hu : s.Unmixed W C (.batch i es))
    (hdel : ∀ e ∈ es, s.deliverable i e = true) (hc : (s.core i).handleEvents W es = some c)
    (hr : c.processOutput W = some r) :
    ∃ g', Stable W voters hv g' (s.after C i c r) ∧ (s.core i).applied ≤ r.core.applied := by
  obtain ⟨cs, hq⟩ := Core.handleEvents_calls hc
  have hp := Core.processOutput_passed hr
  obtain ⟨happ, hst⟩ := h.stands i
  have hl₀ := h.inv.locals i
  obtain ⟨start, hstart⟩ : ∃ start, start = (g.led.log i).take (s.core i).raft.commit := ⟨_, rfl⟩
  have hout : (s.core i).raft.out = {} := h.inv.drained i
  have hhanded : Handed s.cluster.Recorded start i g (s.core i).raft := by
    rw [Handed, hout]
    exact ⟨start, fun _ => rfl, fun hs => (by cases hs), by rw [hstart, List.append_nil]⟩
  obtain ⟨g', base', hle, hl, ⟨hh, hmono⟩, hinv, -⟩ := h.inv.turn (C := C) hdel hq hr
    (P := fun g n => Handed s.cluster.Recorded start i g n ∧ (s.core i).raft.commit ≤ n.commit)
    ⟨hhanded, Nat.le_refl _⟩
    fun cs' call n₀ hpre hn₀ g₁ g₂ n₁ n₂ b₁ b₂ _ hl₁ hm hf hl₂ ⟨hh, hmono⟩ =>
      ⟨hh.move hf.toLe hl₁ hl₂ hm.commits (hq.apart hu.2 hpre hn₀), Nat.le_trans hmono hm.commits.commit_le⟩
  have hstartlen : start.length = c.applied := by
    rw [hq.applied_eq, happ, hstart, hl₀.core.log_eq]
    exact List.length_take_of_le hl₀.core.commit_le
  have hto : r.core.applied = c.raft.commit := hp.applied_eq.trans (hh.appliedTo hl hstartlen)
  have hstate : stateAfter W ((g'.led.log i).take c.raft.commit) = some r.core.sm := by
    obtain ⟨sm, hsn, hss, hall⟩ := hp.state
    exact hh.replay h.faithful (by rw [hstart, hq.sm_eq]; exact hst) ⟨hsn, hss⟩ hall
  have hself : (s.after C i c r).core i = r.core := update_self ..
  refine ⟨g', ⟨hinv, fun j => ?_, fun snap p hrec => ?_⟩, by rw [happ, hto]; exact hmono⟩
  · by_cases hj : j = i
    · subst hj
      rw [hself]
      refine ⟨by rw [hp.commit_eq]; exact hto, by rw [hp.commit_eq]; exact hstate⟩
    · have hother : (s.after C i c r).core j = s.core j := update_of_ne hj ..
      exact (h.stands j).grow hother (h.inv.locals j) (hinv.locals j) hle
  · rcases Servers.recorded_after hinv hp hrec with hold | ⟨rfl, hdata⟩
    · exact h.faithful hold
    · exact ⟨r.core.sm, by rw [hto]; exact hstate, hdata⟩

theorem Stable.reopen (h : Stable W voters hv g s) {cfg : Config} {every : Nat} {leftover : DbBackend}
    (hid : cfg.id = i) (hc : Core.start W cfg voters every (s.core i).raft.durable leftover = some c)
    (ls : LogStore V) : Stable W voters hv g (s.reopened i c ls) := by
  obtain ⟨hn, _, hnone, hsome⟩ := Core.start_some hc
  have hl := h.inv.locals i
  refine ⟨(h.inv.reopen ls hid hn).1, fun j => ?_, h.faithful⟩
  by_cases hj : j = i
  · subst hj
    have hself : update s.core j c j = c := update_self ..
    show Stands W g j (update s.core j c j)
    rw [hself]
    -- the node commits what its snapshot covers, and that is its base
    obtain ⟨hc₁, hc₂⟩ := Core.start_commit hc
    have hcommit : c.raft.commit = (s.base j).length := by
      rw [hc₁]
      cases hs : (s.core j).raft.snapshot with
      | none =>
        rw [show ((s.core j).raft.durable).snapshot = none from hs, show s.base j = [] from hl.core.snap_none hs]
        rfl
      | some snap =>
        rw [show ((s.core j).raft.durable).snapshot = some snap from hs]
        exact (hl.shared.recorded (hl.core.snap_some hs)).1.index
    refine ⟨hc₂, ?_⟩
    have hlog : g.led.log j = s.base j ++ _ := hl.core.log_eq
    rw [hcommit, hlog, List.take_left]
    cases hs : (s.core j).raft.snapshot with
    | none =>
      rw [hnone hs, show s.base j = [] from hl.core.snap_none hs]; rfl
    | some snap => exact FaithfulTo.restore h.faithful (hl.core.snap_some hs) (hsome hs)
  · have hother : update s.core i c j = s.core j := update_of_ne hj ..
    show Stands W g j (update s.core i c j)
    rw [hother]; exact h.stands j

theorem Stable.exec (h : Stable W voters hv g s) {a : ServerAction} (hu : s.Unmixed W C a)
    (he : s.exec W C voters a = some t) : ∃ g', Stable W voters hv g' t := by
  cases Servers.exec_some he with
  | batch hdel hc hr =>
    obtain ⟨g', h', _⟩ := h.turn hu hdel hc hr
    exact ⟨g', h'⟩
  | @restart _ _ _ _ _ ls _ ho hc =>
    cases hu.1.found ho
    exact ⟨g, h.reopen rfl hc ls⟩

namespace ServerAction

/-- What server 2 then receives: the no-op, the heartbeat that commits it, the snapshot. -/
def late : List Message :=
  let snapshot : Snapshot :=
    { lastIndex := 2, lastTerm := 1, voters := [1, 2, 3],
      data := (StateMachine.snapshot Wire.plain.payload (B := DbBackend)
        { backend := ⟨OrdMap.ofList [([97], [1])]⟩, sessions := OrdMap.ofList [(7, ⟨1, .ok⟩)] }) }
  [.appendEntries 0 0 [noop] 0 0, .appendEntries 1 1 [] 1 0, .installSnapshot snapshot].map
    fun body => { src := 1, dst := 2, term := 1, body }

end ServerAction

end RaftKv

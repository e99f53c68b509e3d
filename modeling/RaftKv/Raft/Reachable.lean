import RaftKv.Raft.Cluster
import RaftKv.Raft.Simulation

/-!
# The invariant of every run

`Inv g s` couples a whole cluster with one ledger: every node, every message in flight, every
delivery and every snapshot. `Inv.exec` is the step lemma over the three kinds of actions,
`Inv.run` the run lemma. Configuration changes are covered as long as a leader proposes them only
when its commit index lies in its own term (`ConfReady`); with fixed membership nothing is asked.
-/

namespace RaftKv

open RaftNode Function List RaftLog

variable {voters : List NodeId} {hv : voters.Nodup} {g g' : Ghost} {s t : Cluster}
  {rec rec' : Snapshot → List Entry → Prop} {D D' : Entry → Prop} {i : NodeId} {n n' : RaftNode}
  {base : List Entry}

variable {snap : Snapshot} {c : Call} {cfg : Config} {applied : Nat} {data : Bytes}

namespace Cluster

def Recorded (s : Cluster) (snap : Snapshot) (p : List Entry) : Prop := (snap, p) ∈ s.prefixes

def Delivered (s : Cluster) (e : Entry) : Prop := ∃ d ∈ s.delivered, d.entry = e

theorem prefixOf_recorded {p : List Entry} (h : s.Recorded snap p) : s.Recorded snap (s.prefixOf snap) := by
  unfold prefixOf
  cases hf : s.prefixes.find? fun q => q.1 = snap with
  | none => exact absurd (find?_eq_none.1 hf _ h) (by simp)
  | some q =>
    have hq := find?_some hf
    have hmem := mem_of_find?_eq_some hf
    simp only [decide_eq_true_eq] at hq
    rw [← hq]; exact hmem

end Cluster

structure Inv (voters : List NodeId) (hv : voters.Nodup) (g : Ghost) (s : Cluster) : Prop where
  locals : ∀ i, Local voters hv g s.Recorded s.Delivered i (s.host i).raft (s.host i).base
  drained : ∀ i, (s.host i).raft.out = {}
  durable : ∀ i, (s.host i).disk = (s.host i).raft.durable
  net : ∀ m ∈ s.net, MsgOk voters hv g s.Recorded m
  delivered : ∀ d ∈ s.delivered, DeliveredOk voters hv g d.term d.entry
  snaps : ∀ snap ∈ s.snaps, ∃ p, s.Recorded snap p
  taken : ∀ {snap p}, s.Recorded snap p → ∃ d ∈ s.delivered, d.entry.index = snap.lastIndex

/-- A leader proposes a configuration change only when its commit index lies in its own term. -/
def ConfReady (s : Cluster) : Action → Prop
  | .call i (.proposeConfChange _) => (s.host i).raft.role = .leader →
      (s.host i).raft.log.term (s.host i).raft.commit = some (s.host i).raft.hs.term
  | _ => True

theorem confReady_of_fixed {a : Action} (h : a.fixed) : ConfReady s a := by
  cases a with
  | call i c =>
    cases c with
    | proposeConfChange cc => exact h.elim
    | _ => trivial
  | _ => trivial

theorem Action.not_changesConf (h : (Action.call i c).fixed) : ¬ c.changesConf := by
  cases c with
  | proposeConfChange cc => exact h.elim
  | _ => exact fun h => h

/-! ## The start -/

def Ghost.init : Ghost := { led := Ledger.init, done := fun _ => 0 }

theorem Local.fresh (hid : cfg.id = i) (hsh : Shared voters hv Ghost.init rec) :
    Local voters hv Ghost.init rec D i (RaftNode.fresh cfg voters) [] := by
  refine ⟨hsh, hid, ?_, ⟨fun h' => (by cases h'), fun h' => (by cases h')⟩, ?_⟩
  · exact ⟨rfl, fun h' => (by cases h'), fun _ => rfl, rfl, ⟨rfl, rfl⟩, fun _ => rfl, fun h' => (by cases h'), rfl,
      Nat.le_refl _, Nat.le_refl _, Or.inl rfl⟩
  · refine ⟨fun m hm => (by cases hm), fun e he => (by cases he), fun h' => (by cases h'), fun {idx e} he _ => ?_⟩
    obtain ⟨_, hget⟩ := get_eq_some.1 he
    cases hget

theorem Inv.init (cfg : NodeId → Config) (voters : List NodeId) (hv : voters.Nodup) :
    Inv voters hv Ghost.init (Cluster.init cfg voters) where
  locals i := by
    have hsh : Shared voters hv Ghost.init (Cluster.init cfg voters).Recorded :=
      ⟨Ledger.init_sound, fun hr => (by cases hr), fun _ => rfl, fun hp => (by cases hp)⟩
    exact Local.fresh rfl hsh
  drained _ := rfl
  durable _ := rfl
  net m hm := by cases hm
  delivered d hd := by cases hd
  snaps snap hs := by cases hs
  taken hp := by cases hp

/-! ## Calls -/

theorem Local.weaken (h : Local voters hv g rec D i n base) (hD : ∀ e, D e → D' e) :
    Local voters hv g rec D' i n base :=
  ⟨h.shared, h.id, h.core, h.role, h.out.messages_ok, h.out.committed_ok, h.out.snapshot_ok,
    fun he hle => (h.out.covered he hle).imp (hD _) fun h' => h'⟩

/-- Once the output is handed over, its committed entries count as delivered. -/
theorem Local.take (h : Local voters hv g rec D i n base) (hD : ∀ e, D e → D' e)
    (hout : ∀ e ∈ n.out.committed, D' e) : Local voters hv g rec D' i n.takeOutput.2 base := by
  refine ⟨h.shared, h.id, h.core, h.role, fun m hm => (by cases hm), fun e he => (by cases he),
    fun h' => (by cases h'), fun {idx e} he hle => Or.inl ?_⟩
  exact (h.out.covered he hle).elim (hD e) (hout e)

theorem Inv.callOk (h : Inv voters hv g s) (hdel : s.deliverable i c = true)
    (hready : ConfReady s (.call i c)) : CallOk voters hv g s.Recorded i (s.host i).raft c := by
  cases c with
  | step m =>
    obtain ⟨hdst, hm⟩ := Cluster.deliverable_step hdel
    exact ⟨hdst, h.net m hm⟩
  | proposeConfChange cc => exact hready
  | _ => trivial

/-- The installed snapshot stands for the prefix that was recorded when it was taken. -/
theorem Inv.flush_base {h : Host} (hs : Shared voters hv g s.Recorded) {base' : List Entry} {sn : Option Snapshot}
    (hsome : ∀ {snap}, sn = some snap → s.Recorded snap base') (hnone : sn = none → base' = h.base) :
    (sn.map s.prefixOf).getD h.base = base' := by
  cases sn with
  | none => exact (hnone rfl).symm
  | some snap =>
    exact hs.recorded_unique (Cluster.prefixOf_recorded (hsome rfl)) (hsome rfl) rfl

/-- The output is handed over, and the disk agrees with the node. -/
theorem Inv.flushTo {conf : Prop} {base' : List Entry} {disk : Persisted} (h : Inv voters hv g s)
    (hf : Frame conf i g g') (hl : Local voters hv g' s.Recorded s.Delivered i n' base')
    (hbase : n'.out.snapshot = none → base' = (s.host i).base) (hdisk : disk = n'.durable) :
    Inv voters hv g' (s.flushTo i n' disk) := by
  have hle := hf.toLe
  have hD : ∀ e, s.Delivered e → (s.flushTo i n' disk).Delivered e := by
    rintro e ⟨d, hd, rfl⟩
    exact ⟨d, mem_append_left _ hd, rfl⟩
  have hDout : ∀ e ∈ n'.out.committed, (s.flushTo i n' disk).Delivered e := by
    intro e he
    refine ⟨_, mem_append_right _ (mem_map.2 ⟨e, he, rfl⟩), rfl⟩
  have hb : (n'.out.snapshot.map s.prefixOf).getD (s.host i).base = base' :=
    Inv.flush_base hl.shared hl.out.snapshot_ok hbase
  have hhost : ∀ j, j ≠ i → (s.flushTo i n' disk).host j = s.host j := fun j hj => update_of_ne hj ..
  have hself : (s.flushTo i n' disk).host i = { raft := n'.takeOutput.2, disk := disk, base := base' } := by
    rw [← hb]; exact s.flushTo_self ..
  refine ⟨fun j => ?_, fun j => ?_, fun j => ?_, fun m hm => ?_, fun d hd => ?_, fun snap hs => ?_,
    fun {snap p} hp => ?_⟩
  · by_cases hj : j = i
    · subst hj
      rw [hself]; exact hl.take hD hDout
    · rw [hhost j hj]
      exact ((h.locals j).frame hf (fun _ _ hr => hr) hj hl.shared).weaken hD
  · by_cases hj : j = i
    · subst hj; rw [hself]; rfl
    · rw [hhost j hj]; exact h.drained j
  · by_cases hj : j = i
    · subst hj; rw [hself]; exact hdisk
    · rw [hhost j hj]; exact h.durable j
  · rcases mem_append.1 hm with hm | hm
    · exact (h.net m hm).mono hle fun _ _ hr => hr
    · exact hl.out.messages_ok m hm
  · rcases mem_append.1 hd with hd | hd
    · exact (h.delivered d hd).mono hle
    · obtain ⟨e, he, rfl⟩ := mem_map.1 hd
      exact hl.out.committed_ok e he
  · rcases mem_append.1 hs with hs | hs
    · exact h.snaps snap hs
    · exact ⟨base', hl.out.snapshot_ok (Option.mem_toList.1 hs)⟩
  · obtain ⟨d, hd, hidx⟩ := h.taken hp
    exact ⟨d, mem_append_left _ hd, hidx⟩

/-- What the moves of a node do to the cluster once the output is drained, with anything else `P` that they keep. -/
theorem Inv.moved {P : Ghost → RaftNode → Prop} (h : Inv voters hv g s)
    (hok : CallOk voters hv g s.Recorded i (s.host i).raft c) (hm : Moves c (s.host i).raft (s.host i).raft n')
    (hdur : Durable (s.host i).disk n') (hP : P g (s.host i).raft)
    (hstep : MovesKeep voters hv s.Recorded s.Delivered i c (s.host i).raft g P) :
    ∃ g', Frame c.changesConf i g g' ∧ Inv voters hv g' (s.flush i n') ∧ P g' n' := by
  obtain ⟨g', base', hf, hl, hbase, hP'⟩ := (h.locals i).moves hok hm hP hstep
  exact ⟨g', hf, h.flushTo hf hl (fun hnone => (hbase hnone).2) hdur, hP'⟩

/-- What a call puts into the output is what its disk lacks. -/
theorem Inv.durable_call (h : Inv voters hv g s) (hc : (s.host i).raft.call c = some n') :
    Durable (s.host i).disk n' := by
  refine Durable.call (n := (s.host i).raft) ?_ hc fun _ => by rw [h.drained i]
  unfold Durable
  rw [h.drained i, h.durable i]; rfl

/-- A call, with anything else `P` that its moves keep. -/
theorem Inv.call {P : Ghost → RaftNode → Prop} (h : Inv voters hv g s)
    (hok : CallOk voters hv g s.Recorded i (s.host i).raft c) (hc : (s.host i).raft.call c = some n')
    (hP : P g (s.host i).raft) (hstep : MovesKeep voters hv s.Recorded s.Delivered i c (s.host i).raft g P) :
    ∃ g', Frame c.changesConf i g g' ∧ Inv voters hv g' (s.flush i n') ∧ P g' n' :=
  h.moved hok (call_moves hc) (h.durable_call hc) hP hstep

/-! ## Compaction -/

theorem filter_index_gt {log : RaftLog} {idx : Nat} (h : log.snapIndex ≤ idx) :
    log.entries.filter (fun e => e.index > idx) = log.entries.drop (idx - log.snapIndex) := by
  have hpos : ∀ (es : List Entry) (first k : Nat), Contig first es → first + k = idx →
      es.filter (fun e => e.index > idx) = es.drop k := by
    intro es
    induction es with
    | nil => intros; simp
    | cons e es ih =>
      intro first k hc hk
      have h0 : e.index = first + 1 := hc 0 e rfl
      have hc' : Contig (first + 1) es := fun j x hx => by
        rw [hc (j + 1) x (by simpa using hx)]; omega
      cases k with
      | zero =>
        have hall : ∀ x ∈ e :: es, x.index > idx := by
          intro x hx
          obtain ⟨j, hj⟩ := getElem?_of_mem hx
          have := hc j x hj
          omega
        rw [filter_eq_self.2 (by simpa using hall)]; rfl
      | succ k =>
        rw [filter_cons_of_neg (by simp; omega), ih (first + 1) k hc' (by omega)]; rfl
  exact hpos log.entries log.snapIndex _ log.contiguous (by omega)

/-- What a successful compaction did. -/
theorem RaftNode.compact_some (h : n.compact applied data = (some snap, n')) :
    n.log.snapIndex < applied ∧ applied ≤ n.commit ∧ ∃ term, n.log.term applied = some term ∧
      snap = { lastIndex := applied, lastTerm := term, voters := n.votersAt applied, data } ∧
      n' = { n with votersBase := n.votersAt applied, log := n.log.compact applied term, snapshot := some snap } := by
  unfold RaftNode.compact at h
  split at h
  · cases h
  · split at h
    · cases h
    · rename_i term hterm
      cases h
      exact ⟨by omega, by omega, term, hterm, rfl, rfl⟩

theorem Local.compact (h : Local voters hv g rec D i n base) (hout : n.out = {})
    (hc : n.compact applied data = (some snap, n')) (hnew : rec' snap ((base ++ n.log.entries).take applied))
    (hsh : Shared voters hv g rec') : Local voters hv g rec' D i n' ((base ++ n.log.entries).take applied) := by
  obtain ⟨hlo, hhi, term, hterm, rfl, rfl⟩ := RaftNode.compact_some hc
  obtain ⟨hsnap, hsnapt, hent⟩ := compact_eq term hlo
  obtain ⟨_, hle, hlast⟩ := h.core.rel.term_some hterm
  have hcore := h.core
  have hlen : ((base ++ n.log.entries).take applied).length = applied := length_take_of_le hle
  have hlog : (base ++ n.log.entries).take applied ++ n.log.entries.drop (applied - n.log.snapIndex) =
      base ++ n.log.entries := by
    have hb : base.length ≤ applied := by rw [← hcore.rel.len]; omega
    rw [take_append, take_of_length_le hb, append_assoc, hcore.rel.len, take_append_drop]
  have hrel : LogRel ((base ++ n.log.entries).take applied) (n.log.compact applied term) :=
    ⟨by rw [hsnap, hlen], by rw [hsnapt, hlast]⟩
  have hlog' : (base ++ n.log.entries).take applied ++ (n.log.compact applied term).entries =
      base ++ n.log.entries := by rw [hent, hlog]
  refine ⟨hsh, h.id, ?_, h.role, fun m hm => ?_, fun e he => ?_, fun {s'} hs' => ?_, fun {idx e} he hidx => ?_⟩
  · refine ⟨hcore.term_eq, hcore.vote_some, hcore.vote_none, ?_, hrel, fun h' => (by cases h'),
      fun {s'} hs' => ?_, votersAt_eq hcore.rel hcore.voters_eq (by rw [← hcore.rel.len]; omega), ?_, ?_, ?_⟩
    · rw [hlog']; exact hcore.log_eq
    · cases hs'; exact hnew
    · rw [hlen]; exact hhi
    · rw [hlog']; exact hcore.commit_le
    · rw [hlog']; exact hcore.commit_ok
  · rw [show _ = _ from congrArg Output.messages hout] at hm; cases hm
  · rw [show _ = _ from congrArg Output.committed hout] at he; cases he
  · rw [show _ = _ from congrArg Output.snapshot hout] at hs'; cases hs'
  · refine h.out.covered ?_ hidx
    obtain ⟨hlt, hget⟩ := hrel.get_eq.1 he
    rw [hlog'] at hget
    refine hcore.rel.get_eq.2 ⟨?_, hget⟩
    rw [← hcore.rel.len]; omega

theorem Inv.compact (h : Inv voters hv g s) (hc : (s.host i).raft.compact applied data = (some snap, n')) :
    Inv voters hv g (s.compacted i applied snap n') := by
  obtain ⟨t, ht⟩ : ∃ t, t = s.compacted i applied snap n' := ⟨_, rfl⟩
  rw [← ht]
  have hl := h.locals i
  obtain ⟨hlo, hhi, term, hterm, hsnap, hn'⟩ := RaftNode.compact_some hc
  obtain ⟨_, hle, hlast⟩ := hl.core.rel.term_some hterm
  have hrecs : ∀ snap' p, s.Recorded snap' p → t.Recorded snap' p := by
    intro snap' p hp
    rw [ht]; exact mem_append_left _ hp
  have hnew : t.Recorded snap (((s.host i).base ++ (s.host i).raft.log.entries).take applied) := by
    rw [ht]; exact mem_append_right _ (mem_singleton.2 rfl)
  have hcases : ∀ {snap' p}, t.Recorded snap' p → s.Recorded snap' p ∨
      (snap' = snap ∧ p = ((s.host i).base ++ (s.host i).raft.log.entries).take applied) := by
    intro snap' p hp
    rw [ht] at hp
    rcases mem_append.1 hp with hp | hp
    · exact Or.inl hp
    · exact Or.inr (Prod.mk.inj (mem_singleton.1 hp))
  have hdel : t.delivered = s.delivered := by rw [ht]; rfl
  have hD : t.Delivered = s.Delivered := by unfold Cluster.Delivered; rw [hdel]
  have hsh : Shared voters hv g t.Recorded := by
    refine ⟨hl.shared.sound, hl.shared.indexed, hl.shared.idle, fun {snap' p} hp => ?_⟩
    rcases hcases hp with hp | ⟨rfl, rfl⟩
    · exact hl.shared.recorded hp
    · refine ⟨⟨?_, ?_, ?_⟩, (s.host i).raft.hs.term, ?_⟩
      · rw [hsnap, length_take_of_le hle]
      · rw [hsnap, hlast]
      · rw [hsnap]; exact votersAt_eq hl.core.rel hl.core.voters_eq (by rw [← hl.core.rel.len]; omega)
      · exact hl.core.commit_ok.anti (take_prefix_take_left hhi)
  have hhost : ∀ j, j ≠ i → t.host j = s.host j := by
    intro j hj
    rw [ht]; exact update_of_ne hj ..
  have hself : t.host i = { raft := n', disk := (s.host i).disk.compactTo snap
                            base := ((s.host i).base ++ (s.host i).raft.log.entries).take applied } := by
    rw [ht]; exact s.compacted_self ..
  refine ⟨fun j => ?_, fun j => ?_, fun j => ?_, fun m hm => ?_, fun d hd => ?_, fun snap' hs => ?_,
    fun {snap' p} hp => ?_⟩
  · rw [hD]
    by_cases hj : j = i
    · subst hj
      rw [hself]; exact hl.compact (h.drained j) hc hnew hsh
    · rw [hhost j hj]
      exact (h.locals j).frame (Frame.refl False i g) hrecs hj hsh
  · by_cases hj : j = i
    · subst hj
      rw [hself]
      rw [hn']; exact h.drained j
    · rw [hhost j hj]; exact h.drained j
  · by_cases hj : j = i
    · subst hj
      rw [hself]
      rw [h.durable j, hn', hsnap]
      unfold Persisted.compactTo RaftNode.durable
      rw [filter_index_gt (Nat.le_of_lt hlo), (compact_eq term hlo).2.2]
    · rw [hhost j hj]; exact h.durable j
  · have hm' : m ∈ s.net := by rw [ht] at hm; exact hm
    exact (h.net m hm').mono (Ghost.Le.refl g) hrecs
  · rw [hdel] at hd; exact h.delivered d hd
  · have hs' : snap' ∈ s.snaps ++ [snap] := by rw [ht] at hs; exact hs
    rcases mem_append.1 hs' with hs' | hs'
    · obtain ⟨p, hp⟩ := h.snaps snap' hs'
      exact ⟨p, hrecs snap' p hp⟩
    · rw [mem_singleton.1 hs']; exact ⟨_, hnew⟩
  · rw [hdel]
    rcases hcases hp with hp | ⟨rfl, _⟩
    · exact h.taken hp
    · -- the entry at the compacted index has been delivered
      obtain ⟨e, he, _⟩ := LogRel.take_base (s.host i).raft.log applied (by rw [← hl.core.rel.len]; omega) hle
      have hget : (s.host i).raft.log.get applied = some e := by
        rw [← hl.core.rel.len] at he
        exact get_eq_some.2 ⟨hlo, he⟩
      rcases hl.out.covered hget hhi with ⟨d, hd, hde⟩ | hmem
      · refine ⟨d, hd, ?_⟩
        rw [hde, get_index hget, hsnap]
      · rw [h.drained i] at hmem; cases hmem

/-! ## Restart -/

theorem RaftNode.new_some {p : Persisted} (h : new cfg voters p = some n') : n'.role = .follower ∧ n'.out = {} := by
  obtain ⟨log, _, rfl⟩ := Option.map_eq_some_iff.1 h
  exact ⟨rfl, rfl⟩

/-- A node starts with its snapshot committed, and nothing above it. -/
theorem RaftNode.new_commit {p : Persisted} (h : new cfg voters p = some n') : n'.commit = n'.log.snapIndex := by
  obtain ⟨log, hlog, rfl⟩ := Option.map_eq_some_iff.1 h
  exact (new_eq_some hlog).1.symm

theorem Local.restart (h : Local voters hv g rec D i n base) (hid : cfg.id = i)
    (hn : new cfg voters n.durable = some n') :
    Local voters hv g rec D i n' base ∧ n'.out = {} ∧ n'.durable = n.durable := by
  have hc := h.core
  -- the snapshot, or its absence, is what the base stands for
  have hbase : ∃ vb, n'.hs = n.hs ∧ n'.log.entries = n.log.entries ∧ LogRel base n'.log ∧ n'.commit = base.length ∧
      n'.snapshot = n.snapshot ∧ n'.votersBase = vb ∧ vb = confOf voters base ∧ n'.role = .follower ∧
      n'.out = {} ∧ n'.cfg = cfg := by
    cases hs : n.snapshot with
    | none =>
      have hb := hc.snap_none hs
      subst hb
      simp only [RaftNode.durable, hs] at hn
      obtain ⟨log, hlog, rfl⟩ := Option.map_eq_some_iff.1 hn
      obtain ⟨h1, h2, h3⟩ := new_eq_some hlog
      exact ⟨_, rfl, h3, ⟨h1, h2⟩, rfl, rfl, rfl, rfl, rfl, rfl, rfl⟩
    | some sn =>
      obtain ⟨hok, _⟩ := h.shared.recorded (hc.snap_some hs)
      simp only [RaftNode.durable, hs] at hn
      obtain ⟨log, hlog, rfl⟩ := Option.map_eq_some_iff.1 hn
      obtain ⟨h1, h2, h3⟩ := new_eq_some hlog
      exact ⟨_, rfl, h3, ⟨h1.trans hok.index, h2.trans hok.term⟩, hok.index, rfl, rfl, hok.voters_eq, rfl, rfl, rfl⟩
  obtain ⟨vb, hhs, hent, hrel, hcommit, hsnap, hvb, hvbeq, hrole, hout, hcfg⟩ := hbase
  refine ⟨⟨h.shared, by rw [hcfg]; exact hid, ?_, ?_, ?_⟩, hout, ?_⟩
  · rw [hhs, hcommit, hsnap, hvb]
    refine ⟨hc.term_eq, hc.vote_some, hc.vote_none, by rw [hent]; exact hc.log_eq, hrel, hc.snap_none, hc.snap_some,
      hvbeq, Nat.le_refl _, by simp, ?_⟩
    rw [take_left]; exact h.base_announced
  · exact ⟨fun h' => (by rw [hrole] at h'; cases h'), fun h' => (by rw [hrole] at h'; cases h')⟩
  · rw [hout]
    refine ⟨fun m hm => (by cases hm), fun e he => (by cases he), fun h' => (by cases h'), fun {idx e} he hle => ?_⟩
    have := (hrel.get_eq.1 he).1
    omega
  · unfold RaftNode.durable
    rw [hhs, hent, hsnap]

theorem Inv.restart (h : Inv voters hv g s) (hid : cfg.id = i)
    (hn : new cfg voters (s.host i).disk = some n') : Inv voters hv g (s.restarted i n') := by
  rw [h.durable i] at hn
  obtain ⟨hl, hout, hdur⟩ := (h.locals i).restart hid hn
  have hself : (s.restarted i n').host i = { s.host i with raft := n' } := update_self ..
  have hhost : ∀ j, j ≠ i → (s.restarted i n').host j = s.host j := fun j hj => update_of_ne hj ..
  refine ⟨fun j => ?_, fun j => ?_, fun j => ?_, h.net, h.delivered, h.snaps, h.taken⟩
  · by_cases hj : j = i
    · subst hj; rw [hself]; exact hl
    · rw [hhost j hj]; exact h.locals j
  · by_cases hj : j = i
    · subst hj; rw [hself]; exact hout
    · rw [hhost j hj]; exact h.drained j
  · by_cases hj : j = i
    · subst hj
      rw [hself]
      rw [hdur]; exact h.durable j
    · rw [hhost j hj]; exact h.durable j

/-! ## Runs -/

theorem Inv.exec (h : Inv voters hv g s) {a : Action} (hready : ConfReady s a)
    (he : s.exec voters a = some t) : ∃ g', g.Le g' ∧ Inv voters hv g' t := by
  cases Cluster.exec_some he with
  | call hdel hc =>
    obtain ⟨g', hf, hinv, _⟩ := h.call (P := fun _ _ => True) (h.callOk hdel hready) hc trivial (by simp [MovesKeep])
    exact ⟨g', hf.toLe, hinv⟩
  | idle => exact ⟨g, Ghost.Le.refl g, h⟩
  | compact hc => exact ⟨g, Ghost.Le.refl g, h.compact hc⟩
  | restart hn => exact ⟨g, Ghost.Le.refl g, h.restart rfl hn⟩

theorem Inv.run {ok : Cluster → Action → Prop} (h : Inv voters hv g s) (hok : ∀ s a, ok s a → ConfReady s a)
    (hr : Run voters ok s t) : ∃ g', g.Le g' ∧ Inv voters hv g' t := by
  induction hr with
  | refl => exact ⟨g, Ghost.Le.refl g, h⟩
  | tail _ ha he ih =>
    obtain ⟨g₁, hle₁, h₁⟩ := ih
    obtain ⟨g₂, hle₂, h₂⟩ := h₁.exec (hok _ _ ha) he
    exact ⟨g₂, hle₁.trans hle₂, h₂⟩

end RaftKv

import RaftKv.Sim.Steps

/-!
# Replicas agree

A node reaches an applied index by applying entries, by restoring its own snapshot after a crash, or
by restoring a snapshot from the leader. In each case its state machine is the one the committed log
up to this index stands for (`Settled`), because snapshots are faithful; and committed prefixes of
one length are equal. So two nodes with the same applied index, at the same time or not, have the
same snapshot bytes (`replicas_agree`).
-/

namespace RaftKv

open RaftNode Function

variable {W : Wire} {every : Nat} {voters : List NodeId} {hv : voters.Nodup} {g g' : Ghost} {s t : Sim} {i j : NodeId}
  {n : RaftNode} {c : Call} {x : SimNode}

/-- The state machine of a host is what the log of its node stands for up to the applied index. A node that is up
has applied what is committed. -/
structure Settled (W : Wire) (g : Ghost) (j : NodeId) (n : RaftNode) (x : SimNode) : Prop where
  le : x.applied ≤ n.commit
  state : applyAll W (StateMachine.new ⟨∅⟩) ((g.led.log j).take x.applied) = some x.sm
  up_eq : x.up = true → x.applied = n.commit
  down_eq : x.up = false → x.applied = 0

/-- What holds between two steps of the simulator. -/
structure InSync (W : Wire) (voters : List NodeId) (hv : voters.Nodup) (g : Ghost) (s : Sim) : Prop where
  inv : Inv voters hv g s.cluster
  settled : ∀ i, Settled W g i (s.cluster.host i).raft (s.node i)
  faithful : FaithfulTo W (⟨∅⟩ : MemBackend) s.cluster.Recorded

theorem InSync.boot (W : Wire) (cfg : NodeId → Config) (voters : List NodeId) (hv : voters.Nodup) :
    InSync W voters hv Ghost.init (Sim.boot cfg voters) where
  inv := Inv.init cfg voters hv
  settled _ := ⟨le_refl _, rfl, fun _ => rfl, fun _ => rfl⟩
  faithful _ _ hr := by cases hr

/-- A host that did not move keeps its state while the ledger grows. -/
theorem Settled.grow {n' : RaftNode} {rec rec' : Snapshot → List Entry → Prop} {D D' : Entry → Prop}
    {base base' : List Entry} (h : Settled W g j n x) (hl : Local voters hv g rec D j n base)
    (hl' : Local voters hv g' rec' D' j n' base') (hle : g.Le g') (hn : n'.commit = n.commit) :
    Settled W g' j n' x := by
  have hgrow := hl.committed_grows hl' hle (le_of_eq hn.symm)
  have htake : (g'.led.log j).take x.applied = (g.led.log j).take x.applied := by
    rw [← Nat.min_eq_left h.le, ← List.take_take, ← List.take_take, hgrow]
  refine ⟨by rw [hn]; exact h.le, by rw [htake]; exact h.state, fun hup => by rw [hn]; exact h.up_eq hup, h.down_eq⟩

theorem Settled.bookkeeps {x' : SimNode} (h : Settled W g j n x) (hb : x.Bookkeeps x') : Settled W g j n x' := by
  obtain ⟨hu, hs, ha, _⟩ := hb
  exact ⟨by rw [ha]; exact h.le, by rw [ha, hs]; exact h.state, fun hup => by rw [ha]; exact h.up_eq (hu ▸ hup),
    fun hd => by rw [ha]; exact h.down_eq (hu ▸ hd)⟩

theorem InSync.withNode (h : InSync W voters hv g s) (hx : Settled W g i (s.cluster.host i).raft x) :
    InSync W voters hv g (s.withNode i x) := by
  refine ⟨h.inv, fun j => ?_, h.faithful⟩
  show Settled W g j (s.cluster.host j).raft (update s.node i x j)
  by_cases hj : j = i
  · subst hj
    rw [update_self]; exact hx
  · rw [update_of_ne hj]; exact h.settled j

/-! ## Processing an output -/

variable {cl : Cluster}

/-- Compaction keeps the invariant, and its snapshot is of the state that was applied. -/
theorem MaybeCompacted.keeps {cl' : Cluster} {applied : Nat} {sm : StateMachine MemBackend}
    (h : MaybeCompacted cl i applied (sm.snapshot W.payload) cl') (hinv : Inv voters hv g cl)
    (hf : FaithfulTo W (⟨∅⟩ : MemBackend) cl.Recorded)
    (hst : applyAll W (StateMachine.new ⟨∅⟩) ((g.led.log i).take applied) = some sm) :
    Inv voters hv g cl' ∧ FaithfulTo W (⟨∅⟩ : MemBackend) cl'.Recorded ∧
      ∀ j, (cl'.host j).raft.commit = (cl.host j).raft.commit := by
  rcases h with rfl | ⟨snap, n, hc, rfl⟩
  · exact ⟨hinv, hf, fun _ => rfl⟩
  · obtain ⟨_, _, term, _, hsnap, hn⟩ := compact_some hc
    refine ⟨hinv.compact hc, fun snap' p hr => ?_, fun j => ?_⟩
    · rcases List.mem_append.1 hr with hr | hr
      · exact hf hr
      · obtain ⟨rfl, rfl⟩ := Prod.mk.inj (List.mem_singleton.1 hr)
        rw [← (hinv.locals i).core.log_eq]
        exact ⟨sm, hst, by rw [hsnap]⟩
    · by_cases hj : j = i
      · subst hj
        rw [Cluster.compacted_self, hn]
      · have hother : (cl.compacted i applied snap n).host j = cl.host j := update_of_ne hj ..
        rw [hother]

/-- A node has processed an output: it is settled at the new commit index if its state is the one of the committed
prefix, and the others are as they were. -/
theorem Sim.Processed.synced (hp : Sim.Processed W s i n x cl) (hinv : Inv voters hv g' (s.cluster.flush i n))
    (hf : FaithfulTo W (⟨∅⟩ : MemBackend) s.cluster.Recorded) (happ : x.applied = n.commit)
    (hup : x.up = true) (hst : applyAll W (StateMachine.new ⟨∅⟩) ((g'.led.log i).take n.commit) = some x.sm)
    (hother : ∀ j, j ≠ i → Settled W g' j (s.cluster.host j).raft (s.node j)) :
    InSync W voters hv g' { s with cluster := cl, node := update s.node i x } := by
  have hst' : applyAll W (StateMachine.new ⟨∅⟩) ((g'.led.log i).take x.applied) = some x.sm := by rw [happ]; exact hst
  obtain ⟨hinv', hf', hcommit⟩ := hp.cluster.keeps hinv hf hst'
  refine ⟨hinv', fun j => ?_, hf'⟩
  show Settled W g' j (cl.host j).raft (update s.node i x j)
  by_cases hj : j = i
  · subst hj
    have hc : (cl.host j).raft.commit = n.commit := by
      rw [hcommit j]
      exact congrArg (fun h : Host => h.raft.commit) (s.cluster.flushTo_self ..)
    rw [update_self]
    exact ⟨le_of_eq (happ.trans hc.symm), hst', fun _ => happ.trans hc.symm,
      fun hd => (by rw [hup] at hd; cases hd)⟩
  · have hflush : (s.cluster.flush i n).host j = s.cluster.host j := update_of_ne hj ..
    have hc : (cl.host j).raft.commit = (s.cluster.host j).raft.commit := by rw [hcommit j, hflush]
    have hset := hother j hj
    rw [update_of_ne hj]
    exact ⟨by rw [hc]; exact hset.le, hset.state, fun hup => by rw [hc]; exact hset.up_eq hup, hset.down_eq⟩

/-- A call on a node that is up. -/
theorem InSync.call (h : InSync W voters hv g s) (hup : (s.node i).up = true) (hs : s.Serves W i c)
    (hc : (s.cluster.host i).raft.call c = some n) (hp : Sim.Processed W s i n x cl) :
    ∃ g', g.Le g' ∧ InSync W voters hv g' { s with cluster := cl, node := update s.node i x } ∧
      x.applied = n.commit ∧
      ∃ p sm, (g'.led.log i).take n.commit = p ++ n.out.committed ∧ applyAll W (StateMachine.new ⟨∅⟩) p = some sm ∧
        ∀ r ∈ x.sent, r ∈ (s.node i).sent ∨ AnswersIn W sm n.out.committed r ∨ r.2.isWriteDone = false := by
  have hset := h.settled i
  have hl := h.inv.locals i
  obtain ⟨g', hframe, hinv, hh, _, base', hl'⟩ :=
    h.inv.call_handed (h.inv.callOk hs.deliverable (confReady_of_fixed hs.fixed)) hc
  have hle : g.Le g' := hframe.toLe
  have happ₀ := hset.up_eq hup
  have hlen : ((g.led.log i).take (s.cluster.host i).raft.commit).length = (s.node i).applied := by
    rw [happ₀, hl.core.log_eq]
    exact List.length_take_of_le hl.core.commit_le
  have happ : x.applied = n.commit := hp.applied_eq.trans (hh.appliedTo hl' hlen)
  obtain ⟨sm, hres, hall, hsent⟩ := hp.state
  have hst₀ := hset.state
  rw [happ₀] at hst₀
  obtain ⟨p, htake, hpre⟩ := hh.restored h.faithful hst₀ hres
  refine ⟨g', hle, hp.synced hinv h.faithful happ (hp.up_eq.trans hup) (hh.replay h.faithful hst₀ hres hall)
    fun j hj => ?_, happ, p, sm, htake, hpre, hsent⟩
  have hsame : (s.cluster.flush i n).host j = s.cluster.host j := update_of_ne hj ..
  have hlj := hinv.locals j
  rw [hsame] at hlj
  exact (h.settled j).grow (h.inv.locals j) hlj hle rfl

/-! ## Crash and restart -/

theorem InSync.crash (h : InSync W voters hv g s) (i : NodeId) : InSync W voters hv g (s.crash i) := by
  unfold Sim.crash
  split
  · exact h
  · exact h.withNode (i := i) ⟨Nat.zero_le _, by rw [List.take_zero]; rfl, fun hup => (by cases hup), fun _ => rfl⟩

theorem Cluster.flush_empty (hn : (cl.host i).raft = n) (ho : n.out = {}) : cl.flush i n = cl := by
  have htake : n.takeOutput.2 = n := by
    unfold takeOutput
    rw [← ho]
  have hhost : (cl.flush i n).host = cl.host := by
    have hself : (cl.flush i n).host i = cl.host i := by
      unfold Cluster.flush
      rw [Cluster.flushTo_self, htake, ho, ← hn]; rfl
    funext j
    by_cases hj : j = i
    · subst hj; exact hself
    · exact update_of_ne hj ..
  have hrest : cl.flush i n = { cl with host := (cl.flush i n).host } := by
    unfold Cluster.flush Cluster.flushTo
    simp [ho]
  rw [hrest, hhost]

/-- A restarted node is back at its snapshot. -/
theorem InSync.restart (h : InSync W voters hv g s) {cfg : Config} {raft : RaftNode}
    (hn : new { cfg with id := i } voters (s.cluster.host i).disk = some raft)
    (hres : Restores W (s.cluster.host i).disk.snapshot (s.node i).sm x.sm)
    (happ : x.applied = ((s.cluster.host i).disk.snapshot.map Snapshot.lastIndex).getD (s.node i).applied)
    (hdown : (s.node i).up = false) (hup : x.up = true) :
    InSync W voters hv g ({ s with cluster := s.cluster.restarted i raft }.withNode i x) := by
  have hinv := h.inv.restart rfl hn
  have hl := h.inv.locals i
  have hself : (s.cluster.restarted i raft).host i = { s.cluster.host i with raft := raft } := update_self ..
  have happ₀ := (h.settled i).down_eq hdown
  have hsm₀ : (s.node i).sm = StateMachine.new ⟨∅⟩ := by
    have hst := (h.settled i).state
    rw [happ₀] at hst
    exact (Option.some.inj hst).symm
  have hcommit : raft.commit = (s.cluster.host i).base.length := by
    have hl' := hinv.locals i
    rw [hself] at hl'
    rw [new_commit hn, hl'.core.rel.len]
  have hsn : (s.cluster.host i).disk.snapshot = (s.cluster.host i).raft.snapshot := by
    rw [h.inv.durable i]; rfl
  have hlog : (g.led.log i).take (s.cluster.host i).base.length = (s.cluster.host i).base := by
    rw [hl.core.log_eq, List.take_left]
  rw [hsn] at hres happ
  -- the snapshot, or its absence, is what the base stands for
  have hat : x.applied = raft.commit ∧
      applyAll W (StateMachine.new ⟨∅⟩) (s.cluster.host i).base = some x.sm := by
    rw [hcommit]
    cases hs : (s.cluster.host i).raft.snapshot with
    | none =>
      rw [hs] at happ hres
      rw [hl.core.snap_none hs]
      exact ⟨happ.trans happ₀, by rw [hres.1 rfl, hsm₀]; rfl⟩
    | some snap =>
      rw [hs] at happ hres
      have hrec := hl.core.snap_some hs
      exact ⟨happ.trans (hl.shared.recorded hrec).1.index, h.faithful.restore hrec (hres.2 rfl)⟩
  have hsynced : InSync W voters hv g { s with cluster := s.cluster.restarted i raft, node := update s.node i x } := by
    refine ⟨hinv, fun j => ?_, h.faithful⟩
    show Settled W g j ((s.cluster.restarted i raft).host j).raft (update s.node i x j)
    by_cases hj : j = i
    · subst hj
      rw [hself, update_self]
      refine ⟨le_of_eq hat.1, ?_, fun _ => hat.1, fun hd => (by rw [hup] at hd; cases hd)⟩
      rw [hat.1, hcommit, hlog]
      exact hat.2
    · have hother : (s.cluster.restarted i raft).host j = s.cluster.host j := update_of_ne hj ..
      rw [hother, update_of_ne hj]
      exact h.settled j
  exact hsynced

/-- Processing an empty output changes at most the log's snapshot. -/
theorem InSync.processed_empty (h : InSync W voters hv g s) (hup : (s.node i).up = true)
    (hn : (s.cluster.host i).raft = n) (hp : Sim.Processed W s i n x cl) :
    InSync W voters hv g { s with cluster := cl, node := update s.node i x } ∧
      ∀ r ∈ x.sent, r ∈ (s.node i).sent ∨ r.2.isWriteDone = false := by
  have hset := h.settled i
  have ho : n.out = {} := by rw [← hn]; exact h.inv.drained i
  obtain ⟨sm, hres, hall, hsent⟩ := hp.state
  rw [ho] at hres hall hsent
  have hsm : x.sm = (s.node i).sm := by
    rw [← hres.1 rfl]
    exact (Option.some.inj hall).symm
  have happ : x.applied = (s.node i).applied := by
    have := hp.applied_eq
    rwa [ho] at this
  have hc : (s.node i).applied = n.commit := by rw [← hn]; exact hset.up_eq hup
  refine ⟨hp.synced ?_ h.faithful (happ.trans hc) (hp.up_eq.trans hup) ?_ fun j _ => h.settled j, fun r hr => ?_⟩
  · rw [Cluster.flush_empty hn ho]; exact h.inv
  · rw [hsm, ← hc]; exact hset.state
  · rcases hsent r hr with hr | hr | hr
    · exact Or.inl hr
    · obtain ⟨es₁, e, es₂, _, _, hes, _⟩ := hr
      exact absurd hes (by simp)
    · exact Or.inr hr

/-! ## Runs -/

theorem Sim.onClientResp_frame (s : Sim) (client : Nat) (resp : CResp) :
    (s.onClientResp client resp).cluster = s.cluster ∧ (s.onClientResp client resp).node = s.node := by
  unfold Sim.onClientResp
  split
  · split
    · split <;> exact ⟨rfl, rfl⟩
    · exact ⟨rfl, rfl⟩
  · exact ⟨rfl, rfl⟩

theorem InSync.of_frame (h : InSync W voters hv g s) (hc : t.cluster = s.cluster) (hn : t.node = s.node) :
    InSync W voters hv g t := by
  obtain ⟨hinv, hset, hf⟩ := h
  rw [← hc] at hinv hset hf
  rw [← hn] at hset
  exact ⟨hinv, hset, hf⟩

theorem Sim.onClientWake_some {client seq : Nat} {op : Op} (h : s.onClientWake client seq op = some t) :
    (s.client client).cur = none ∧ (s.client client).nextSeq < seq ∧ ∃ req, Sim.requestOf seq op = some req ∧
      t = { s with
        stamp := s.stamp + 1
        client := update s.client client
          { nextSeq := seq, cur := some { histIdx := s.history.length, seq, op } }
        requests := s.requests ++ [(client, req)]
        history := s.history ++ [{ op, invoke := s.stamp + 1, ret := none, result := none, client, seq }] } := by
  unfold Sim.onClientWake at h
  split at h
  · cases h
  · rename_i hidle
    obtain ⟨req, hreq, rfl⟩ := Option.map_eq_some_iff.1 h
    simp only [not_or, not_le] at hidle
    exact ⟨by simpa using hidle.1, hidle.2, req, hreq, rfl⟩

theorem InSync.exec (h : InSync W voters hv g s) (he : Sim.Exec W every voters s t) :
    ∃ g', g.Le g' ∧ InSync W voters hv g' t := by
  cases he with
  | stay => exact ⟨g, Ghost.Le.refl g, h⟩
  | @call i c n x₀ _ hup hb hs hc hp =>
    have h₀ : InSync W voters hv g (s.withNode i x₀) := h.withNode ((h.settled i).bookkeeps hb)
    have hself : (s.withNode i x₀).node i = x₀ := update_self ..
    obtain ⟨x, cl, hproc, rfl⟩ := Sim.processOutput_some hp
    obtain ⟨g', hle, hsync, _⟩ := h₀.call (by rw [hself]; exact hb.up_eq.trans hup)
      ⟨hs.deliverable, hs.fixed, hs.proposed⟩ hc hproc
    exact ⟨g', hle, hsync⟩
  | @reply i client x₀ resp hb _ =>
    refine ⟨g, Ghost.Le.refl g, h.withNode ?_⟩
    have hset := (h.settled i).bookkeeps hb
    exact ⟨hset.le, hset.state, hset.up_eq, hset.down_eq⟩
  | wake hw =>
    obtain ⟨_, _, req, _, rfl⟩ := Sim.onClientWake_some hw
    exact ⟨g, Ghost.Le.refl g, h.of_frame rfl rfl⟩
  | @response i client resp _ =>
    obtain ⟨hc, hn⟩ := s.onClientResp_frame client resp
    exact ⟨g, Ghost.Le.refl g, h.of_frame hc hn⟩
  | crash _ => exact ⟨g, Ghost.Le.refl g, h.crash _⟩
  | @restart i cfg raft x₀ _ hdown hn hres happ hup hsent hp =>
    have h₀ := h.restart hn hres happ hdown hup
    have hself : ({ s with cluster := s.cluster.restarted i raft }.withNode i x₀ : Sim).node i = x₀ := update_self ..
    have hraft : ((s.cluster.restarted i raft).host i).raft = raft := by
      have hhost : (s.cluster.restarted i raft).host i = { s.cluster.host i with raft := raft } := update_self ..
      rw [hhost]
    obtain ⟨x, cl, hproc, rfl⟩ := Sim.processOutput_some hp
    exact ⟨g, Ghost.Le.refl g, (h₀.processed_empty (by rw [hself]; exact hup) hraft hproc).1⟩

theorem InSync.runs (h : InSync W voters hv g s)
    (hr : Runs (Sim.exec W every voters) (fun _ _ => True) s t) : ∃ g', g.Le g' ∧ InSync W voters hv g' t :=
  hr.invariant (P := fun t => ∃ g', g.Le g' ∧ InSync W voters hv g' t) ⟨g, Ghost.Le.refl g, h⟩
    fun ⟨_, hle, h⟩ _ he => by
      obtain ⟨g', hle', h'⟩ := h.exec (Sim.exec_some he)
      exact ⟨g', hle.trans hle', h'⟩

theorem InSync.announced (h : InSync W voters hv g s) (i : NodeId) :
    Announced voters hv g (s.cluster.host i).raft.hs.term ((g.led.log i).take (s.node i).applied) := by
  have hl := h.inv.locals i
  rw [hl.core.log_eq]
  exact hl.core.commit_ok.anti (List.take_prefix_take_left (h.settled i).le)

theorem InSync.length_applied (h : InSync W voters hv g s) (i : NodeId) :
    ((g.led.log i).take (s.node i).applied).length = (s.node i).applied := by
  have hl := h.inv.locals i
  rw [hl.core.log_eq, List.length_take_of_le ((h.settled i).le.trans hl.core.commit_le)]

/-- Equal applied indexes stand for equal logs: both prefixes were announced as committed. -/
theorem InSync.same_prefix (h : InSync W voters hv g s) (h' : InSync W voters hv g' t) (hle : g.Le g')
    (heq : (s.node i).applied = (t.node j).applied) :
    (g.led.log i).take (s.node i).applied = (g'.led.log j).take (t.node j).applied := by
  have hlen := (h.length_applied i).trans (heq.trans (h'.length_applied j).symm)
  rcases ((h.announced i).mono hle).comparable (h'.inv.locals j).shared.sound (h'.announced j) with hp | hp
  · exact hp.eq_of_length hlen
  · exact (hp.eq_of_length hlen.symm).symm

/-- In every run, two nodes that have the same applied index, `i` at one time and `j` at the same time or later, have
identical snapshot bytes. -/
theorem replicas_agree (W : Wire) (every : Nat) (cfg : NodeId → Config) (voters : List NodeId) (hv : voters.Nodup)
    (hs : Runs (Sim.exec W every voters) (fun _ _ => True) (Sim.boot cfg voters) s)
    (ht : Runs (Sim.exec W every voters) (fun _ _ => True) s t) (heq : (s.node i).applied = (t.node j).applied) :
    (s.node i).sm.snapshot W.payload = (t.node j).sm.snapshot W.payload := by
  obtain ⟨g, _, h⟩ := (InSync.boot W cfg voters hv).runs hs
  obtain ⟨g', hle, h'⟩ := h.runs ht
  have hsm := (h.settled i).state
  rw [h.same_prefix h' hle heq, (h'.settled j).state] at hsm
  rw [Option.some.inj hsm]

/-! ### A run -/

namespace SimAction

/-- A message of term 1 is delivered. -/
def receive (src dst : Nat) (body : MessageBody) : SimAction := .deliver { src, dst, term := 1, body }

def noop : Entry := { term := 1, index := 1, payload := .noop }

/-- The entry for the first write of client 0, of 1 under the key 97. -/
def write : Entry := { term := 1, index := 2, payload := .normal (Wire.plain.command.ser ⟨101, 1, .put [97] [1]⟩) }

/-- Node 1 of `[1, 2, 3]` becomes leader and commits, with node 3, its no-op and the write. -/
def written : List SimAction :=
  [.tick 1, receive 1 3 (.requestVote 0 0), receive 3 1 (.requestVoteResp true),
   receive 1 3 (.appendEntries 0 0 [noop] 0 0), receive 3 1 (.appendEntriesResp true 1 0 0),
   .tick 1, .wake 0 1 (.put [97] [1]), .request 1 0 (.write 1 [97] [1]),
   receive 1 3 (.appendEntries 1 1 [write] 1 0), receive 3 1 (.appendEntriesResp true 2 0 0)]

/-- The snapshot that node 1 has taken of it. -/
def snapshot : Snapshot :=
  { lastIndex := 2, lastTerm := 1, voters := [1, 2, 3],
    data := StateMachine.snapshot Wire.plain.payload (B := MemBackend)
      { backend := ⟨OrdMap.ofList [([97], [1])]⟩, sessions := OrdMap.ofList [(101, ⟨1, .ok⟩)] } }

/-- Node 2, which has heard of nothing, is sent the snapshot. -/
def caughtUp : List SimAction :=
  written ++
  [.tick 1, receive 1 2 (.appendEntries 2 1 [] 2 0), receive 2 1 (.appendEntriesResp false 0 1 0),
   receive 1 2 (.installSnapshot snapshot)]

end SimAction

/-- Node 1 has applied the two entries, node 2 has restored the snapshot. -/
theorem replicas_agree_installed :
    ∃ s, Runs (Sim.exec Wire.plain 2 [1, 2, 3]) (fun _ _ => True) (Sim.boot Config.quick [1, 2, 3]) s ∧
      (s.node 1).applied = 2 ∧ (s.node 2).applied = 2 ∧
      (s.node 1).sm.snapshot Wire.plain.payload = (s.node 2).sm.snapshot Wire.plain.payload := by
  obtain ⟨s, hr, h1, h2⟩ := Runs.reached (Sim.exec Wire.plain 2 [1, 2, 3]) (fun _ _ => True)
    (Sim.boot Config.quick [1, 2, 3]) SimAction.caughtUp
    (P := fun s => (s.node 1).applied = 2 ∧ (s.node 2).applied = 2) (by decide +kernel)
  exact ⟨s, hr, h1, h2, replicas_agree Wire.plain 2 Config.quick [1, 2, 3] (by decide) hr .refl (h1.trans h2.symm)⟩

/-- In every run, two snapshots of one index that were ever taken or installed are the same, with their term, their
voters and their bytes, which are those of any node that has this applied index. -/
theorem snapshots_agree (W : Wire) (every : Nat) (cfg : NodeId → Config) (voters : List NodeId) (hv : voters.Nodup)
    (hs : Runs (Sim.exec W every voters) (fun _ _ => True) (Sim.boot cfg voters) s) {snap : Snapshot}
    (hsnap : snap ∈ s.cluster.snaps) :
    (∀ snap' ∈ s.cluster.snaps, snap'.lastIndex = snap.lastIndex → snap' = snap) ∧
      ∀ i, (s.node i).applied = snap.lastIndex → (s.node i).sm.snapshot W.payload = snap.data := by
  obtain ⟨g, _, h⟩ := (InSync.boot W cfg voters hv).runs hs
  have hsh := (h.inv.locals 0).shared
  obtain ⟨p, hrec⟩ := h.inv.snaps snap hsnap
  obtain ⟨hok, T, ha⟩ := hsh.recorded hrec
  obtain ⟨sm, hsm, hdata⟩ := h.faithful hrec
  -- a committed prefix of the same length is the same
  have huniq : ∀ {p' T'}, Announced voters hv g T' p' → p'.length = snap.lastIndex → p' = p := by
    intro p' T' ha' hlen
    rw [hok.index] at hlen
    rcases ha'.comparable hsh.sound ha with hp | hp
    · exact hp.eq_of_length hlen
    · exact (hp.eq_of_length hlen.symm).symm
  refine ⟨fun snap' hsnap' hidx => ?_, fun i hi => ?_⟩
  · obtain ⟨p', hrec'⟩ := h.inv.snaps snap' hsnap'
    obtain ⟨hok', T', ha'⟩ := hsh.recorded hrec'
    obtain ⟨sm', hsm', hdata'⟩ := h.faithful hrec'
    obtain rfl := huniq ha' (hok'.index.symm.trans hidx)
    rw [hsm] at hsm'
    cases hsm'
    calc snap' = ⟨p'.length, lastTermOf p', confOf voters p', sm.snapshot W.payload⟩ := by
          rw [← hok'.index, ← hok'.term, ← hok'.voters_eq, ← hdata']
      _ = snap := by rw [← hok.index, ← hok.term, ← hok.voters_eq, ← hdata]
  · have hst := (h.settled i).state
    rw [huniq (h.announced i) ((h.length_applied i).trans hi), hsm] at hst
    rw [hdata, Option.some.inj hst]

/-- Node 2 has installed the snapshot that node 1 has taken. -/
theorem snapshots_agree_installed :
    ∃ s, Runs (Sim.exec Wire.plain 2 [1, 2, 3]) (fun _ _ => True) (Sim.boot Config.quick [1, 2, 3]) s ∧
      (SimAction.snapshot ∈ s.cluster.snaps ∧ (s.node 2).applied = 2) ∧
      (s.node 2).sm.snapshot Wire.plain.payload = SimAction.snapshot.data := by
  obtain ⟨s, hr, h1, h2⟩ := Runs.reached (Sim.exec Wire.plain 2 [1, 2, 3]) (fun _ _ => True)
    (Sim.boot Config.quick [1, 2, 3]) SimAction.caughtUp
    (P := fun s => SimAction.snapshot ∈ s.cluster.snaps ∧ (s.node 2).applied = 2) (by decide +kernel)
  exact ⟨s, hr, ⟨h1, h2⟩, (snapshots_agree Wire.plain 2 Config.quick [1, 2, 3] (by decide) hr h1).2 2 h2⟩

end RaftKv

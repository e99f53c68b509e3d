import RaftKv.Raft.ReadContexts
import RaftKv.Server.Servers

/-!
# Reads under a leader lease

`handle_read` with `Consistency::LeaderLease` answers from the local state machine when the node
leads and its lease is valid (`core.rs:256-264`). `read_index` refuses to serve before the leader
has committed an entry of its own term (`node.rs:413`); the lease path has no such check, so a
fresh leader serves reads from a state that lacks what its predecessors committed
(`freshLease_stale_read`). Nor does the lease see the commitments of a later leader, and a later
leader that has stepped down again is not excluded by looking at who leads now.

With the entry at the applied index of the leader's own term, and no entry of a later term handed
out, the applied index is at or above everything that was handed out, provided that every restart
finds the log of its node (`Servers.Restores`): a server that comes back with another one may elect a
leader without the committed entries.
-/

namespace RaftKv

open Function

variable {V : Type} {C : Codec V} {W : Wire} {voters : List NodeId} {hv : voters.Nodup} {g g' g₀ g₁ g₂ : Ghost}
  {s t : Servers V} {i j : NodeId}
  {rec : Snapshot → List Entry → Prop} {D : Entry → Prop} {n n' n₀ n₁ n₂ : RaftNode} {base₁ base₂ : List Entry}
  {call : Call} {es : List Event} {c : Core} {r : Core.Processed}

/-- The condition under which `handle_read` serves a lease read. -/
def Core.servesLease (c : Core) : Bool := c.raft.isLeader && c.raft.leaseValid

theorem Core.handleRead_lease (h : c.servesLease = true) (req : ReadReq) (tx : Nat) :
    c.handleRead req .leaderLease tx = c.send tx (c.serveRead req) := by
  obtain ⟨hl, hv⟩ := Bool.and_eq_true_iff.1 h
  unfold Core.handleRead
  rw [if_neg (by simp [hl]), if_pos hv]

/-! ## Inside a batch -/

/-- A node leads after a move only if it led before, or was elected by it. -/
theorem Move.leads (hm : Move call n₀ n n') (hr : n'.role = .leader) :
    n'.hs.term = n.hs.term ∧ (n.role = .leader ∨ n.role = .candidate) := by
  cases hm.reads with
  | quiet hrole hterm => exact ⟨hterm, .inl (hrole.symm.trans hr)⟩
  | leave hne => exact absurd hr hne
  | win hc => exact ⟨rfl, .inr hc⟩
  | progress _ => exact ⟨rfl, .inl hr⟩
  | register _ _ hl => exact ⟨rfl, .inl hl⟩
  | release hl => exact ⟨rfl, .inl hl⟩
  | push _ => exact ⟨rfl, .inl hr⟩

theorem CommitMove.committed_mem (hm : CommitMove call n₀ n n') {e : Entry} (he : e ∈ n.out.committed) :
    e ∈ n'.out.committed := by
  cases hm with
  | keep _ hcom => rw [hcom]; exact he
  | commit _ => exact List.mem_append_left _ he
  | install _ _ _ => exact he

/-- What the moves of a batch keep, from the state `n₀` and the ledger `g₀` at its start. -/
structure Watched (g₀ : Ghost) (n₀ : RaftNode) (applied : Nat) (D : Entry → Prop) (g : Ghost) (n : RaftNode) :
    Prop where
  reaches : Reaches n (n.out.appliedTo applied)
  snap_le : n₀.log.snapIndex ≤ n.log.snapIndex
  /-- A leader led when the batch began, or nobody had led its term by then. -/
  led : n.role = .leader → (n₀.role = .leader ∧ n₀.hs.term = n.hs.term) ∨ g₀.led.reign n.hs.term = none
  /-- Every term with a commitment has an entry of its own among the committed ones. -/
  marked : ∀ b, 0 < g.done b → ∃ e, e.term = b ∧ (D e ∨ e ∈ n.out.committed)

theorem watched_moves {applied : Nat} {n₀' : RaftNode} :
    MovesKeep voters hv rec D i call n₀' g₀ (Watched g₀ n₀ applied D) := by
  intro g₁ g₂ n₁ n₂ base₁ base₂ hle h₁ hm hf h₂ h
  have hcm := hm.commits
  refine ⟨h.reaches.move h₁ h₂ hcm, le_trans h.snap_le ?_, fun hr => ?_, fun b hb => ?_⟩
  · cases hcm with
    | keep _ _ _ hs => exact le_of_eq hs.symm
    | commit _ => exact le_refl _
    | @install sn hlt =>
      rw [h₁.core.rel.len]
      exact le_trans h₁.core.snap_le (le_of_lt hlt)
  · obtain ⟨hterm, hold | hcand⟩ := hm.leads hr
    · rw [hterm]; exact h.led hold
    · -- the winner of an election is the first leader of the term
      right
      obtain ⟨ρ, hρ, hl, _⟩ := h₂.role.leader hr
      cases hnone : g₀.led.reign n₂.hs.term with
      | none => rfl
      | some ρ₀ =>
        obtain ⟨ρ₁, hρ₁, hl₁, _⟩ := hle.ext.reign hnone
        obtain ⟨ρ₂, hρ₂, hl₂, _⟩ := hf.ext.reign hρ₁
        cases Ledger.Sound.reign_unique hρ hρ₂
        rw [hterm] at hρ₁
        exact absurd (hl₂.symm.trans hl) ((h₁.role.cand hcand).2.1 hρ₁)
  · have hold : 0 < g₁.done b → ∃ e, e.term = b ∧ (D e ∨ e ∈ n₂.out.committed) := by
      intro hb₁
      obtain ⟨e, he, hcases⟩ := h.marked b hb₁
      exact ⟨e, he, hcases.imp_right hcm.committed_mem⟩
    rcases hf.announces with hsame | ⟨k, hlt, hterm, rfl, hother⟩
    · rw [hsame] at hb; exact hold hb
    · by_cases hT : b = n₁.hs.term
      · -- the leader has just committed its entry at `k`
        obtain ⟨hlo, hkl, hlast⟩ := h₁.core.rel.term_some hterm
        have hk : base₁.length < k := lt_of_le_of_lt h₁.core.snap_le hlt
        obtain ⟨e, he, htake⟩ := LogRel.take_base n₁.log k hk hkl
        have hget : n₁.log.get k = some e := by
          rw [← h₁.core.rel.len] at he hk
          exact RaftLog.get_eq_some.2 ⟨hk, he⟩
        rw [htake, lastTermOf_concat] at hlast
        refine ⟨e, hlast.trans hT.symm, .inr (List.mem_append_right _ ?_)⟩
        exact RaftNode.mem_newlyCommitted.2 ⟨k, hlt, le_refl _, hget⟩
      · rw [hother b hT] at hb; exact hold hb

/-! ## Between batches -/

/-- What all the servers satisfy between two turns. -/
structure Tracked (voters : List NodeId) (hv : voters.Nodup) (g : Ghost) (s : Servers V) : Prop where
  inv : Inv voters hv g s.cluster
  reaches : ∀ i, Reaches (s.core i).raft (s.core i).applied
  marked : ∀ b, 0 < g.done b → ∃ e, e.term = b ∧ s.cluster.Delivered e

theorem Tracked.init (cfg : NodeId → Config) (every : NodeId → Nat) (voters : List NodeId)
    (hv : voters.Nodup) : Tracked voters hv Ghost.init (Servers.init cfg every voters : Servers V) where
  inv := Inv.init cfg voters hv
  reaches _ := ⟨le_refl _, .inl rfl⟩
  marked _ hb := absurd hb (lt_irrefl 0)

theorem Tracked.watched (h : Tracked voters hv g s) (i : NodeId) :
    Watched g (s.core i).raft (s.core i).applied s.cluster.Delivered g (s.core i).raft := by
  have hout : (s.core i).raft.out = {} := h.inv.drained i
  refine ⟨by rw [hout]; exact h.reaches i, le_refl _, fun hr => .inl ⟨hr, rfl⟩, fun b hb => ?_⟩
  obtain ⟨e, he, hd⟩ := h.marked b hb
  exact ⟨e, he, .inl hd⟩

/-- The node and the ledger in the middle of a batch. -/
theorem Tracked.during (h : Tracked voters hv g s) (hdel : ∀ e ∈ es, s.deliverable i e = true)
    (hc : (s.core i).handleEvents W es = some c) :
    ∃ g' base', g.Le g' ∧ Local voters hv g' s.cluster.Recorded s.cluster.Delivered i c.raft base' ∧
      Watched g (s.core i).raft (s.core i).applied s.cluster.Delivered g' c.raft ∧ c.applied = (s.core i).applied := by
  obtain ⟨cs, hq⟩ := Core.handleEvents_calls hc
  obtain ⟨g', base', hf, hl, _, hw⟩ := (h.inv.locals i).calls hq.calls
    (fun call hcall => h.inv.serves_callOk (hq.serves hdel call hcall)) (h.watched i)
    fun _ _ _ _ _ => watched_moves
  exact ⟨g', base', hf.toLe, hl, hw, hq.applied_eq⟩

theorem Reaches.passed {applied : Nat} (h : Reaches c.raft (c.raft.out.appliedTo applied)) (happ : c.applied = applied)
    (hp : Core.Passed W c r) : Reaches r.core.raft r.core.applied := by
  rw [← happ, ← hp.applied_eq] at h
  rcases hp.raft with ⟨_, hr⟩ | ⟨snap, _, hc⟩
  · rw [hr]; exact h
  · obtain ⟨hlt, hle, _, _, _, hn⟩ := RaftNode.compact_some hc
    rcases h.2 with heq | hgone
    · refine ⟨by rw [hn]; exact hle, .inl ?_⟩
      rw [hn]; exact heq
    · exact absurd hgone (Nat.not_lt_of_lt hlt)

theorem Tracked.turn (h : Tracked voters hv g s) (hdel : ∀ e ∈ es, s.deliverable i e = true)
    (hc : (s.core i).handleEvents W es = some c) (hr : c.processOutput W = some r) :
    ∃ g', Tracked voters hv g' (s.after C i c r) := by
  obtain ⟨cs, hq⟩ := Core.handleEvents_calls hc
  have hp := Core.processOutput_passed hr
  obtain ⟨g', base', hle, hl, hw, hinv, -⟩ := h.inv.turn (C := C) hdel hq hr (h.watched i)
    fun _ _ _ _ _ => watched_moves
  refine ⟨g', hinv, fun j => ?_, fun b hb => ?_⟩
  · by_cases hj : j = i
    · subst hj
      rw [show (s.after C j c r).core j = r.core from update_self ..]
      exact hw.reaches.passed hq.applied_eq hp
    · rw [show (s.after C i c r).core j = s.core j from update_of_ne hj ..]
      exact h.reaches j
  · obtain ⟨e, he, hd⟩ := hw.marked b hb
    have hafter := s.delivered_after (C := C) i c r
    refine ⟨e, he, ?_⟩
    show ∃ d ∈ (s.after C i c r).delivered, d.entry = e
    rw [hafter]
    rcases hd with ⟨d, hd, rfl⟩ | hmem
    · exact ⟨d, List.mem_append_left _ hd, rfl⟩
    · exact ⟨_, List.mem_append_right _ (List.mem_map.2 ⟨e, hmem, rfl⟩), rfl⟩

theorem Tracked.exec (h : Tracked voters hv g s) {a : ServerAction} (hres : s.Restores C a)
    (he : s.exec W C voters a = some t) : ∃ g', Tracked voters hv g' t := by
  cases Servers.exec_some he with
  | batch hdel hc hr => exact h.turn hdel hc hr
  | @restart i _ _ _ c ls _ ho hc =>
    cases hres.found ho
    refine ⟨g, (h.inv.reopen ls rfl (Core.start_some hc).1).1, fun j => ?_, h.marked⟩
    show Reaches (update s.core i c j).raft (update s.core i c j).applied
    by_cases hj : j = i
    · subst hj
      rw [update_self, (Core.start_commit hc).2]
      exact ⟨le_refl _, .inl rfl⟩
    · rw [update_of_ne hj]; exact h.reaches j

/-! ## The read -/

/-- Everything handed out so far has been applied by a leader that has applied an entry of its own term. -/
theorem Tracked.applied_all (h : Tracked voters hv g s) (hdel : ∀ e ∈ es, s.deliverable i e = true)
    (hc : (s.core i).handleEvents W es = some c) (hr : c.raft.role = .leader)
    (hown : c.raft.log.term c.applied = some c.raft.hs.term)
    (hlate : ∀ d ∈ s.delivered, d.entry.term ≤ c.raft.hs.term) {d : Delivery} (hd : d ∈ s.delivered) :
    d.entry.index ≤ c.applied := by
  obtain ⟨g', base', hle, hl, hw, happ⟩ := h.during hdel hc
  obtain ⟨p, hann, hidx⟩ := h.inv.delivered d hd
  rcases hann with hnil | ⟨b, m, x, _, hC, hpm, hmb⟩
  · simp at hnil
  · have hlen : d.entry.index ≤ m.length := by
      have := hpm.length_le
      rw [List.length_append, List.length_singleton] at this
      omega
    refine le_trans hlen ?_
    have hb : b ≤ c.raft.hs.term := by
      obtain ⟨e, rfl, d', hd', rfl⟩ := h.marked b (by omega)
      exact hlate d' hd'
    rcases Nat.lt_or_eq_of_le hb with hlt | rfl
    · exact hl.earlier_committed hr hown (hle.ext.committed hC) hlt
    · -- committed in the leader's own term: by this node, before the batch began
      obtain ⟨ρ, _, hρ, _⟩ := hC
      rcases hw.led hr with ⟨hr₀, hT⟩ | hnone
      · obtain ⟨_, _, _, hdone, _⟩ := (h.inv.locals i).role.leader hr₀
        have hsnap : c.raft.log.snapIndex ≤ c.applied := by
          rw [hl.core.rel.len]; exact (hl.core.rel.term_some hown).1
        have hgone := (h.reaches i).2.resolve_right (by
          rw [← happ]; exact not_lt.2 (le_trans hw.snap_le hsnap))
        rw [happ, hgone]
        rw [← hT] at hmb
        exact le_trans hmb hdone
      · rw [hnone] at hρ; cases hρ

/-- In every run in which a server that is opened again finds what its node had made durable, a lease read is served
at or above every index handed out so far, in the middle of a batch too, if the leader has applied an entry of its
own term and no entry of a later term has been handed out. -/
theorem lease_read_sees_committed (W : Wire) (C : Codec V) (cfg : NodeId → Config) (every : NodeId → Nat)
    (voters : List NodeId) (hv : voters.Nodup)
    (hs : Runs (Servers.exec W C voters) (Servers.Restores C) (Servers.init cfg every voters) s)
    (hdel : ∀ e ∈ es, s.deliverable i e = true) (hc : (s.core i).handleEvents W es = some c)
    (hserve : c.servesLease = true) (hown : c.raft.log.term c.applied = some c.raft.hs.term)
    (hlate : ∀ d ∈ s.delivered, d.entry.term ≤ c.raft.hs.term) : ∀ d ∈ s.delivered, d.entry.index ≤ c.applied := by
  obtain ⟨g, h⟩ := hs.invariant (P := fun s => ∃ g, Tracked voters hv g s)
    ⟨Ghost.init, Tracked.init cfg every voters hv⟩ fun ⟨_, h⟩ hres he => h.exec hres he
  have hr : c.raft.role = .leader := of_decide_eq_true (Bool.and_eq_true_iff.1 hserve).1
  exact fun d hd => h.applied_all hdel hc hr hown hlate hd

/-- The leader has committed a write and serves a read, after server 3 was opened again. -/
theorem lease_read_sees_committed_run :
    ∃ s c, Runs (Servers.exec Wire.plain Codec.plain [1, 2, 3]) (Servers.Restores Codec.plain) ServerAction.start s ∧
      (s.core 1).handleEvents Wire.plain [.client (.get [97] .leaderLease) 1] = some c ∧
      c.replies = [(0, .ok), (1, .value (some [1]))] ∧ s.delivered.length = 3 ∧
      ∀ d ∈ s.delivered, d.entry.index ≤ c.applied := by
  obtain ⟨s, hr, hst, hserve, hown, hlate, hlen⟩ := Runs.reached (Servers.exec Wire.plain Codec.plain [1, 2, 3])
    (Servers.Restores Codec.plain) ServerAction.start
    (ServerAction.written ++ [.restart 3 (Config.quick 3) 100 ⟨∅⟩])
    (P := fun s => (((s.core 1).handleEvents Wire.plain [.client (.get [97] .leaderLease) 1]).map Core.replies =
        some [(0, .ok), (1, .value (some [1]))]) ∧
      (s.core 1).servesLease = true ∧ (s.core 1).raft.log.term (s.core 1).applied = some (s.core 1).raft.hs.term ∧
      (∀ d ∈ s.delivered, d.entry.term ≤ (s.core 1).raft.hs.term) ∧ s.delivered.length = 3) (by decide +kernel)
  obtain ⟨c, hc, hrep⟩ := Option.map_eq_some_iff.1 hst
  refine ⟨s, c, hr, hc, hrep, hlen, ?_⟩
  have happ : c.applied = (s.core 1).applied := by
    obtain ⟨_, hq⟩ := Core.handleEvents_calls hc
    exact hq.applied_eq
  rw [happ]
  have hnow : (s.core 1).handleEvents Wire.plain [] = some (s.core 1) := rfl
  exact lease_read_sees_committed Wire.plain Codec.plain Config.quick _ [1, 2, 3] (by decide) hr (by simp) hnow
    hserve hown hlate

namespace ServerAction

/-- Server 3 has the write, knows only the no-op to be committed, and becomes leader of term 2. Server 2 refuses
its first entries, which still counts for the lease. -/
def freshLease : List ServerAction :=
  written ++
  [.batch 3 [.tick], receive 3 2 2 (.requestVote 2 1), receive 2 3 2 (.requestVoteResp true),
   receive 3 2 2 (.appendEntries 2 1 [{ term := 2, index := 3, payload := .noop }] 1 0),
   receive 2 3 2 (.appendEntriesResp false 0 1 0)]

end ServerAction

/-- The client has its answer to the write, the fresh leader serves a lease read without it. No other server
leads a later term. -/
theorem freshLease_stale_read :
    ∃ s c, Runs (Servers.exec Wire.plain Codec.plain [1, 2, 3]) (fun _ _ => True) ServerAction.start s ∧
      (∀ j ∈ ([1, 2] : List NodeId), (s.core j).raft.isLeader = true →
        (s.core j).raft.hs.term ≤ (s.core 3).raft.hs.term) ∧
      (s.core 3).servesLease = true ∧ (s.core 1).replies = [(0, .ok)] ∧
      (s.core 3).handleEvents Wire.plain [.client (.get [97] .leaderLease) 1] = some c ∧
      c.replies = [(1, .value none)] ∧ ∃ d ∈ s.delivered, (s.core 3).applied < d.entry.index := by
  obtain ⟨s, hr, hlead, hserve, hrep, hst, hd⟩ := Runs.reached (Servers.exec Wire.plain Codec.plain [1, 2, 3])
    (fun _ _ => True) ServerAction.start ServerAction.freshLease
    (P := fun s =>
      (∀ j ∈ ([1, 2] : List NodeId), (s.core j).raft.isLeader = true →
        (s.core j).raft.hs.term ≤ (s.core 3).raft.hs.term) ∧
      (s.core 3).servesLease = true ∧ (s.core 1).replies = [(0, .ok)] ∧
      ((s.core 3).handleEvents Wire.plain [.client (.get [97] .leaderLease) 1]).map Core.replies =
        some [(1, .value none)] ∧
      ∃ d ∈ s.delivered, (s.core 3).applied < d.entry.index) (by decide +kernel)
  obtain ⟨c, hc, hrep'⟩ := Option.map_eq_some_iff.1 hst
  exact ⟨s, c, hr, hlead, hserve, hrep, hc, hrep', hd⟩

end RaftKv

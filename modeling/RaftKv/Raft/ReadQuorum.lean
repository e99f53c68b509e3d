import RaftKv.Raft.Configuration

/-!
# Who confirmed a released read

A read waits in `pending_reads` under its context until the leader knows that a quorum still follows
it. `process_read_acks` counts the voters whose recorded echo has reached the context, and the leader
itself if it is one of them. `read_index` has a shortcut: when the quorum is one it releases at once,
without counting anybody. The two agree exactly when that one confirmation is the leader's own.

| here | there |
| --- | --- |
| `confirmedBy`    | the voters behind a context: the leader as a voter, peers by `acked_read_ctx` |
| `released`       | what moved from `pending_reads` to `read_states` (`release_reads`, `node.rs:427`) |
| `countAck`       | `handle_append_resp` up to its call of `process_read_acks` (`node.rs:861-886`) |
| `Unasked`        | the shortcut of `read_index` (`node.rs:419`) taken by a leader that is not a voter |
-/

namespace RaftKv

open RaftNode

variable {voters : List NodeId} {s : Cluster} {i : NodeId}

namespace RaftNode

variable {n n' : RaftNode}

/-! ## Releases and their confirmations -/

/-- The members of `voters` that have confirmed the context `ctx`. -/
def confirmedBy (n : RaftNode) (ctx : Nat) : Finset NodeId :=
  n.voters.toFinset.filter fun v => v = n.cfg.id ∨ (n.prs.find? v).any (fun pr => ctx ≤ pr.ackedReadCtx) = true

/-- The reads pending in `n` that no longer are in `n'`, as (context, request, index). -/
def released (n n' : RaftNode) : List (Nat × Nat × Nat) := n.pendingReads.filter fun r => r ∉ n'.pendingReads

/-- `n'` hands out the reads it released, and a quorum of its voters has confirmed each. -/
structure Confirms (n n' : RaftNode) : Prop where
  moved : n'.out.readStates = n.out.readStates ++ (n.released n').map Prod.snd
  quorum : ∀ r ∈ n.released n', n'.quorum ≤ (n'.confirmedBy r.1).card

theorem released_releaseReads (n : RaftNode) (ctx : Nat) :
    n.released (n.releaseReads ctx) = n.pendingReads.filter fun r => r.1 ≤ ctx := by
  refine List.filter_congr fun r hr => ?_
  simp [releaseReads, hr]

/-- A call that neither takes a read from the queue nor answers one. -/
theorem Confirms.of_same (hpend : n'.pendingReads = n.pendingReads) (hout : n'.out.readStates = n.out.readStates) :
    Confirms n n' := by
  have hnone : n.released n' = [] := by
    refine List.filter_eq_nil_iff.2 fun r hr => ?_
    simp [hpend, hr]
  refine ⟨by simp [hnone, hout], fun r hr => ?_⟩
  rw [hnone] at hr
  cases hr

theorem confirms_releaseReads {ctx : Nat} :
    Confirms n (n.releaseReads ctx) ↔ ∀ r ∈ n.pendingReads, r.1 ≤ ctx → n.quorum ≤ (n.confirmedBy r.1).card := by
  constructor
  · intro h r hr hle
    refine h.quorum r ?_
    rw [released_releaseReads]
    exact List.mem_filter.2 ⟨hr, by simpa using hle⟩
  · intro h
    refine ⟨by rw [released_releaseReads]; rfl, fun r hr => ?_⟩
    rw [released_releaseReads] at hr
    exact h r (List.mem_filter.1 hr).1 (by simpa using (List.mem_filter.1 hr).2)

/-! ## The count -/

/-- Whoever has reached the `k`-th largest echo has confirmed every smaller context. -/
theorem card_confirmedBy (hv : n.voters.Nodup) {k ctx c : Nat} (hpos : 0 < ctx) (hle : c ≤ ctx)
    (hk : (n.readAcks.insertionSort (· ≥ ·))[k]? = some ctx) : k + 1 ≤ (n.confirmedBy c).card := by
  refine Nat.le_trans (card_of_kth hv _ hk) (Finset.card_le_card fun v hvm => ?_)
  obtain ⟨hmem, hack⟩ := Finset.mem_filter.1 hvm
  refine Finset.mem_filter.2 ⟨hmem, ?_⟩
  by_cases hself : v = n.cfg.id
  · exact .inl hself
  · rw [if_neg hself] at hack
    cases hpr : n.prs.find? v with
    | none =>
      rw [hpr] at hack
      exact absurd hack (by simp; omega)
    | some pr =>
      rw [hpr] at hack
      have hack : ctx ≤ pr.ackedReadCtx := hack
      right
      simp only [Option.any_some, decide_eq_true_eq]
      omega

theorem processReadAcks_confirms (hv : n.voters.Nodup) : Confirms n n.processReadAcks := by
  unfold processReadAcks
  split
  · exact .of_same rfl rfl
  · split
    · exact .of_same rfl rfl
    · rename_i ctx hk
      split
      · rename_i hpos
        refine confirms_releaseReads.2 fun r _ hle => ?_
        have hcard := card_confirmedBy hv hpos hle hk
        omega
      · exact .of_same rfl rfl

/-- Counting an answer leaves the configuration alone, also when the leader steps down. -/
theorem maybeAdvanceCommit_voters (n : RaftNode) : n.maybeAdvanceCommit.voters = n.voters := by
  unfold maybeAdvanceCommit
  split
  · rfl
  · split
    · rfl
    · split
      · rename_i k _ h
        rcases advanceCommitTo_eq k (Nat.le_of_lt h.1) with heq | ⟨_, heq, _⟩
        · rw [heq]; rfl
        · rw [heq, becomeFollower_same _ _ (by simp [commitTo])]; rfl
      · rfl

/-! ## The shortcut -/

/-- The leader releases on its own authority: one confirmation would do, but it is not a voter, and no voter's
recorded echo is above the counter. -/
def Unasked (n : RaftNode) : Prop :=
  n.quorum = 1 ∧ n.cfg.id ∉ n.voters ∧
    ∀ v ∈ n.voters, ((n.prs.find? v).map Progress.ackedReadCtx).getD 0 ≤ n.readCtxCounter

instance : Decidable n.Unasked := inferInstanceAs (Decidable (_ ∧ _ ∧ _))

theorem readIndex_ok_eq {r : Nat} (hr : n.role = .leader) (ht : n.log.term n.commit = some n.hs.term) :
    n.readIndex r = (.ok (),
      if n.quorum = 1 then (n.register r).releaseReads (n.readCtxCounter + 1) else (n.register r).broadcastAppend) := by
  unfold readIndex
  rw [if_neg (by simp [hr]), if_neg (by simp [ht])]
  exact (apply_ite _ _ _ _).symm

theorem confirmedBy_pos {c : Nat} : 0 < (n.confirmedBy c).card ↔
    n.cfg.id ∈ n.voters ∨ ∃ v ∈ n.voters, ∃ pr, n.prs.find? v = some pr ∧ c ≤ pr.ackedReadCtx := by
  rw [Finset.card_pos]
  constructor
  · rintro ⟨v, hv⟩
    obtain ⟨hmem, hv⟩ := Finset.mem_filter.1 hv
    rw [List.mem_toFinset] at hmem
    rcases hv with rfl | hv
    · exact .inl hmem
    · cases hpr : n.prs.find? v with
      | none => rw [hpr] at hv; cases hv
      | some pr => exact .inr ⟨v, hmem, pr, hpr, by simpa [hpr] using hv⟩
  · rintro (h | ⟨v, hv, pr, hpr, hle⟩)
    · exact ⟨_, Finset.mem_filter.2 ⟨List.mem_toFinset.2 h, .inl rfl⟩⟩
    · exact ⟨v, Finset.mem_filter.2 ⟨List.mem_toFinset.2 hv, .inr (by simp [hpr, hle])⟩⟩

/-- With a quorum of one, `read_index` has its confirmation unless nobody gave it. -/
theorem shortcut_confirms {r : Nat} (hq : n.quorum = 1) :
    Confirms (n.register r) ((n.register r).releaseReads (n.readCtxCounter + 1)) ↔ ¬ n.Unasked := by
  have hq' : (n.register r).quorum = 1 := hq
  rw [confirms_releaseReads, hq']
  constructor
  · rintro h ⟨-, hself, hlow⟩
    have hnew := h (n.readCtxCounter + 1, r, n.commit) (List.mem_append_right _ (List.mem_singleton.2 rfl))
      (Nat.le_refl _)
    rcases confirmedBy_pos.1 hnew with hin | ⟨v, hv, pr, hpr, hle⟩
    · exact hself hin
    · have hlow := hlow v hv
      rw [show n.prs.find? v = some pr from hpr] at hlow
      exact absurd (Nat.le_trans hle hlow) (Nat.not_succ_le_self _)
  · intro h rd _ hle
    refine confirmedBy_pos.2 ?_
    by_contra hc
    refine h ⟨hq, fun hin => hc (.inl hin), fun v hv => ?_⟩
    by_contra hgt
    cases hpr : n.prs.find? v with
    | none => rw [hpr] at hgt; exact hgt (Nat.zero_le _)
    | some pr =>
      rw [hpr] at hgt
      have hgt : ¬ pr.ackedReadCtx ≤ n.readCtxCounter := hgt
      exact hc (.inr ⟨v, hv, pr, hpr, by omega⟩)

theorem readIndex_confirms {r : Nat} (hr : n.role = .leader) (hok : (n.readIndex r).1 = .ok ()) :
    Confirms (n.register r) (n.readIndex r).2 ↔ ¬ n.Unasked := by
  have ht : n.log.term n.commit = some n.hs.term := by
    by_contra ht
    unfold readIndex at hok
    rw [if_neg (by simp [hr]), if_pos ht] at hok
    cases hok
  rw [readIndex_ok_eq hr ht]
  by_cases hq : n.quorum = 1
  · simp only [if_pos hq]
    exact shortcut_confirms hq
  · simp only [if_neg hq]
    have hsent := broadcastAppend_sentFrom (n.register r)
    refine ⟨fun _ hun => hq hun.1, fun _ => .of_same ?_ ?_⟩
    · rw [hsent]
    · rw [hsent]

end RaftNode

/-- **A released read was confirmed by a quorum of the voters**: always when the echoes are counted, and in
`read_index` exactly when the leader did not release on its own authority. -/
theorem read_confirmed (cfg : NodeId → Config) (hv : voters.Nodup)
    (hr : Run voters (fun _ _ => True) (Cluster.init cfg voters) s) (hl : (s.host i).raft.role = .leader) :
    (∀ r, ((s.host i).raft.readIndex r).1 = .ok () →
      (((s.host i).raft.register r).Confirms ((s.host i).raft.readIndex r).2 ↔ ¬ (s.host i).raft.Unasked)) ∧
    ∀ src pr mi ci ctx, (s.host i).raft.prs.find? src = some pr →
      (s.host i).raft.handleAppendResp src true mi ci ctx =
        ((s.host i).raft.countAck src pr mi ctx).processReadAcks.sendRest src (s.host i).raft.log.lastIndex ∧
      ((s.host i).raft.countAck src pr mi ctx).Confirms ((s.host i).raft.countAck src pr mi ctx).processReadAcks := by
  have h := configured_of_run cfg hr
  obtain ⟨hrel, hvot⟩ := h.rel i
  have hnodup : (s.host i).raft.voters.Nodup := voters_eq hrel hvot ▸ confOf_nodup hv _
  refine ⟨fun r hok => readIndex_confirms hl hok, fun src pr mi ci ctx hpr => ?_⟩
  refine ⟨handleAppendResp_eq hl hpr, processReadAcks_confirms ?_⟩
  unfold countAck
  rw [maybeAdvanceCommit_voters]
  exact hnodup

/-- Node 1 leads `[1, 2, 3]` and its no-op is committed: a read waits for the echoes. -/
theorem read_confirmed_run :
    ∃ s, Run [1, 2, 3] (fun _ _ => True) (Cluster.init Config.quick [1, 2, 3]) s ∧
      ((s.host 1).raft.role = .leader ∧ ((s.host 1).raft.readIndex 7).1 = .ok () ∧ ¬ (s.host 1).raft.Unasked) ∧
      ((s.host 1).raft.register 7).Confirms ((s.host 1).raft.readIndex 7).2 := by
  obtain ⟨s, hr, hP⟩ := Run.reached [1, 2, 3] (fun _ _ => True) (Cluster.init Config.quick [1, 2, 3])
    (P := fun s => (s.host 1).raft.role = .leader ∧ ((s.host 1).raft.readIndex 7).1 = .ok () ∧
      ¬ (s.host 1).raft.Unasked)
    Action.firstCommit (by decide +kernel) (fun _ _ _ => trivial)
  exact ⟨s, hr, hP, ((read_confirmed Config.quick (by decide) hr hP.1).1 7 hP.2.1).2 hP.2.2⟩

/-- Node 1 of `[1, 2]` commits its no-op, proposes its own removal and is asked to read: node 2 alone could confirm,
and it has not been asked. -/
theorem removed_leader_reads_unconfirmed :
    ∃ s, Run [1, 2] (fun _ _ => True) (Cluster.init Config.quick [1, 2]) s ∧ (s.host 1).raft.role = .leader ∧
      ((s.host 1).raft.readIndex 7).1 = .ok () ∧ ((s.host 1).raft.readIndex 7).2.out.readStates = [(7, 1)] ∧
      ((s.host 1).raft.register 7).released ((s.host 1).raft.readIndex 7).2 = [(1, 7, 1)] ∧
      ((s.host 1).raft.readIndex 7).2.quorum = 1 ∧ (((s.host 1).raft.readIndex 7).2.confirmedBy 1).card = 0 :=
  Run.reached [1, 2] (fun _ _ => True) (Cluster.init Config.quick [1, 2])
    (Action.firstCommit ++ [.call 1 (.proposeConfChange (.removeNode 1))]) (by decide +kernel) (fun _ _ _ => trivial)

end RaftKv

import RaftKv.Raft.Checked
import RaftKv.Raft.FollowerLog

/-!
# The consensus core never panics

By `Checked` a panic is a `none` of the model, as long as `max_batch_entries` is not huge: a conflict
with a committed entry or below the snapshot base, a batch that does not continue the log, or a
restart from entries with a gap. The invariant of a run excludes all three. What a leader sends is a
piece of the log of its reign, which contains everything committed on the receiver (`FollowerLog`);
what is on disk is the log of the node that wrote it.
-/

namespace RaftKv

open RaftNode

variable {voters : List NodeId} {hv : voters.Nodup} {g : Ghost} {s : Cluster}
  {rec : Snapshot → List Entry → Prop} {D : Entry → Prop} {i : NodeId} {n : RaftNode} {base : List Entry}

theorem Local.step_some (h : Local voters hv g rec D i n base) {m : Message} (hm : MsgOk voters hv g rec m) :
    ∃ n', n.step m = some n' := by
  unfold step
  cases hb : m.body with
  | appendEntries prev prevTerm es lc ctx =>
    unfold MsgOk at hm
    rw [hb] at hm
    obtain ⟨r, p, q, hr, -, hp, rfl, rfl, -⟩ := hm
    have hdispatch : ∀ {n₁ : RaftNode}, Untouched n n₁ → n.hs.term ≤ m.term → ∃ n', n₁.dispatch m = some n' := by
      intro n₁ hu hT
      unfold dispatch
      rw [hb]
      rcases h.handleAppendEntries hu hr hT hp m.src lc ctx with ⟨-, hint, -, -, he⟩ | ⟨-, log', k, -, -, -, he⟩
      · exact ⟨_, he⟩
      · exact ⟨_, he⟩
    rw [if_neg (by simp [isPreVote])]
    split
    · rename_i hgt
      exact hdispatch (becomeFollower_untouched n _ _) (Nat.le_of_lt hgt)
    · split
      · exact ⟨_, rfl⟩
      · exact hdispatch (Untouched.refl n) (by omega)
  | _ =>
    simp only [dispatch, hb]
    repeat' split
    all_goals exact ⟨_, rfl⟩

/-- The disk holds a snapshot and the entries that follow it. -/
theorem Local.new_some (h : Local voters hv g rec D i n base) (cfg : Config) :
    ∃ n', new cfg voters n.durable = some n' := by
  have hcontig := n.log.contiguous
  rw [h.core.rel.len] at hcontig
  unfold new durable
  cases hs : n.snapshot with
  | none =>
    rw [h.core.snap_none hs, List.length_nil] at hcontig
    dsimp only
    rw [RaftLog.new_contiguous (RaftLog.isContiguous_iff.2 hcontig)]
    exact ⟨_, rfl⟩
  | some snap =>
    obtain ⟨hok, -⟩ := h.shared.recorded (h.core.snap_some hs)
    rw [← hok.index] at hcontig
    dsimp only
    rw [RaftLog.new_contiguous (RaftLog.isContiguous_iff.2 hcontig)]
    exact ⟨_, rfl⟩

theorem Inv.call_some (h : Inv voters hv g s) {c : Call} (hdel : s.deliverable i c = true) :
    ∃ n', (s.host i).raft.call c = some n' := by
  cases c with
  | step m => exact (h.locals i).step_some (h.net m (Cluster.deliverable_step hdel).2)
  | _ => exact ⟨_, rfl⟩

/-- With a fixed membership no call, no compaction, no lease query and no restart panics, whatever the
configurations; a call of a node that sends batches of at most `2 ^ 63` entries, where `Config::new` says 64. -/
theorem never_panics (cfg : NodeId → Config) (voters : List NodeId) (hv : voters.Nodup)
    (hr : Run voters (fun _ a => a.fixed) (Cluster.init cfg voters) s) (i : NodeId) :
    ((s.host i).raft.cfg.Roomy → ∀ c, s.deliverable i c = true → ((s.host i).raft.call? c).isSome) ∧
    (∀ applied data, ((s.host i).raft.compact? applied data).isSome) ∧
    (s.host i).raft.leaseValid?.isSome ∧
    (∀ cfg' : Config, (new? { cfg' with id := i } voters (s.host i).disk).isSome) := by
  obtain ⟨g, -, h⟩ := (Inv.init cfg voters hv).run (fun _ _ => confReady_of_fixed) hr
  refine ⟨fun hroomy c hdel => ?_, fun applied data => ?_, ?_, fun cfg' => ?_⟩
  · rw [call?_eq hroomy]
    exact Option.isSome_iff_exists.2 (h.call_some hdel)
  · rw [compact?_eq]; rfl
  · rw [leaseValid?_eq]; rfl
  · rw [new?_eq, h.durable i]
    exact Option.isSome_iff_exists.2 ((h.locals i).new_some _)

/-- The first batch reaches node 2 again after it has compacted its log beyond it. -/
theorem never_panics_run :
    ∃ s, Run [1, 2, 3] (fun _ a => a.fixed) (Cluster.init Config.quick [1, 2, 3]) s ∧
      ((s.host 2).raft.log.snapIndex = 1 ∧ s.deliverable 2 (.step .firstBatch) = true) ∧
      ((s.host 2).raft.call? (.step .firstBatch)).isSome := by
  obtain ⟨s, hr, hP, hroomy⟩ := Run.reached [1, 2, 3] (fun _ a => a.fixed) (Cluster.init Config.quick [1, 2, 3])
    (P := fun s => ((s.host 2).raft.log.snapIndex = 1 ∧ s.deliverable 2 (.step .firstBatch) = true) ∧
      (s.host 2).raft.cfg.maxBatchEntries ≤ 2 ^ 63)
    (Action.firstCommit ++ [.call 1 .tick, .deliver 1 2 1 (.appendEntries 1 1 [] 1 0), .compact 2 1 []])
    (by decide +kernel) (fun _ => by decide)
  exact ⟨s, hr, hP, (never_panics Config.quick [1, 2, 3] (by decide) hr 2).1 hroomy _ hP.2⟩

end RaftKv

import RaftKv.Raft.Commits

/-!
# What a node hands out

A host that takes the output after every call sees the committed entries one after the other:
`advance_commit_to` (`node.rs:572`) collects the `log.get` hits of the new range and silently drops
a miss, and `handle_install_snapshot` (`node.rs:903`) moves the commit index without handing out
entries. `delivered_in_order` says that nothing is ever missed: what an output hands out continues
exactly where the host was, which is the snapshot index at the start and after an installed
snapshot.

| here | there |
| --- | --- |
| `Tracker.cursor`  | the host's position: `applied` of `SimNode` (`sim/src/cluster.rs`), as `process_output` moves it |
| `Output.resumes`  | where the entries of an output must start |
-/

namespace RaftKv

open Function RaftNode

variable {voters : List NodeId} {hv : voters.Nodup} {g : Ghost} {s : Cluster} {i : NodeId} {n' : RaftNode} {c : Call}

/-- A cluster, and how far the host of each node has been handed the log. -/
structure Tracker where
  cluster : Cluster
  cursor : NodeId → Nat

/-- The index behind which the entries of the output continue, for a host that is at `prev`. -/
def Output.resumes (o : Output) (prev : Nat) : Nat := (o.snapshot.map Snapshot.lastIndex).getD prev

namespace Tracker

def init (cfg : NodeId → Config) (voters : List NodeId) : Tracker := ⟨Cluster.init cfg voters, fun _ => 0⟩

/-- The host follows what it is handed; after a restart it is at the snapshot index. -/
def follow (x : Tracker) (t : Cluster) : Action → Tracker
  | .call i c =>
    match (x.cluster.host i).raft.call c with
    | some n => ⟨t, update x.cursor i (n.out.appliedTo (x.cursor i))⟩
    | none => { x with cluster := t }
  | .compact .. => { x with cluster := t }
  | .restart i _ => ⟨t, update x.cursor i (t.host i).raft.log.snapIndex⟩

def exec (voters : List NodeId) (x : Tracker) (a : Action) : Option Tracker :=
  (x.cluster.exec voters a).map fun t => x.follow t a

/-- Each host is where the commit index of its node is. -/
structure Level (voters : List NodeId) (hv : voters.Nodup) (x : Tracker) : Prop where
  inv : ∃ g, Inv voters hv g x.cluster
  cursor_eq : ∀ i, x.cursor i = (x.cluster.host i).raft.commit

end Tracker

/-! ## One output -/

/-- The entries of the output of one call are the ones from where it resumes to the new commit index. -/
theorem Inv.handed_range (h : Inv voters hv g s)
    (hok : CallOk voters hv g s.Recorded i (s.host i).raft c) (hc : (s.host i).raft.call c = some n') :
    n'.out.resumes (s.host i).raft.commit ≤ n'.commit ∧
    n'.out.committed.map Entry.index = List.range' (n'.out.resumes (s.host i).raft.commit + 1)
      (n'.commit - n'.out.resumes (s.host i).raft.commit) ∧
    (s.host i).raft.commit ≤ n'.commit := by
  have hl := h.locals i
  obtain ⟨g', _, _, hhand, hmono, base', hl'⟩ := h.call_handed hok hc
  obtain ⟨p, hnone, hsome, htake⟩ := hhand
  -- the length of what precedes the output
  have hp : p.length = n'.out.resumes (s.host i).raft.commit := by
    unfold Output.resumes
    cases hsn : n'.out.snapshot with
    | none =>
      rw [hnone hsn, List.length_take_of_le (by rw [hl.core.log_eq]; exact hl.core.commit_le)]; rfl
    | some sn => exact ((hl'.shared.recorded (hsome hsn)).1.index).symm
  have hcl : n'.commit ≤ (g'.led.log i).length := by rw [hl'.core.log_eq]; exact hl'.core.commit_le
  have hlen := congrArg List.length htake
  rw [List.length_take_of_le hcl, List.length_append] at hlen
  refine ⟨by omega, ?_, hmono⟩
  -- the log is indexed from 1, and so are its pieces
  have hidx : Indexed ((g'.led.log i).take n'.commit) := by
    rw [hl'.core.log_eq]
    exact Indexed.anti (fun _ _ => hl'.indexed _ _) (List.take_prefix _ _)
  have hmap := hidx.map_drop p.length
  rw [List.length_take_of_le hcl, htake, List.drop_left] at hmap
  rw [← hp]; exact hmap

theorem Output.appliedTo_of_range {o : Output} {prev k : Nat} (hle : o.resumes prev ≤ k)
    (h : o.committed.map Entry.index = List.range' (o.resumes prev + 1) (k - o.resumes prev)) :
    o.appliedTo prev = k := by
  unfold appliedTo
  rcases List.eq_nil_or_concat o.committed with hnil | ⟨es, e, hes⟩
  · rw [hnil] at h
    have hlen := congrArg List.length h
    simp only [List.map_nil, List.length_nil, List.length_range'] at hlen
    rw [hnil]
    show o.resumes prev = k
    omega
  · rw [hes, List.concat_eq_append] at h
    have hlen := congrArg List.length h
    simp only [List.length_append, List.length_map,
      List.length_singleton, List.length_range'] at hlen
    have hlast := congrArg List.getLast? h
    rw [List.map_append, List.map_singleton, List.getLast?_concat, List.getLast?_range',
      if_neg (by omega)] at hlast
    rw [hes, List.concat_eq_append, List.getLast?_concat]
    have := Option.some.inj hlast
    dsimp only
    omega

/-! ## Runs -/

namespace Tracker

variable {x y : Tracker} {a : Action}

theorem Level.init (cfg : NodeId → Config) (voters : List NodeId) (hv : voters.Nodup) :
    Level voters hv (Tracker.init cfg voters) :=
  ⟨⟨Ghost.init, Inv.init cfg voters hv⟩, fun _ => rfl⟩

theorem Level.handed (h : Level voters hv x) (hdel : x.cluster.deliverable i c = true)
    (hfix : (Action.call i c).fixed) (hc : (x.cluster.host i).raft.call c = some n') :
    n'.out.resumes (x.cursor i) ≤ n'.commit ∧
    n'.out.committed.map Entry.index =
      List.range' (n'.out.resumes (x.cursor i) + 1) (n'.commit - n'.out.resumes (x.cursor i)) ∧
    (x.cluster.host i).raft.commit ≤ n'.commit := by
  obtain ⟨g, hinv⟩ := h.inv
  rw [h.cursor_eq i]
  exact hinv.handed_range (hinv.callOk hdel (confReady_of_fixed hfix)) hc

theorem Level.exec (h : Level voters hv x) (hfix : a.fixed) (he : x.exec voters a = some y) : Level voters hv y := by
  obtain ⟨t, ht, rfl⟩ := Option.map_eq_some_iff.1 he
  obtain ⟨g, hinv⟩ := h.inv
  obtain ⟨g', _, hinv'⟩ := hinv.exec (confReady_of_fixed hfix) ht
  cases Cluster.exec_some ht with
  | @call i c n' hdel hc =>
    obtain ⟨hle, hrange, _⟩ := h.handed hdel hfix hc
    have hfollow : x.follow (x.cluster.flush i n') (.call i c) =
        ⟨x.cluster.flush i n', update x.cursor i n'.commit⟩ := by
      simp only [follow, hc, Output.appliedTo_of_range hle hrange]
    rw [hfollow]
    refine ⟨⟨g', hinv'⟩, fun j => ?_⟩
    show update x.cursor i n'.commit j = ((x.cluster.flush i n').host j).raft.commit
    by_cases hj : j = i
    · subst hj
      rw [Cluster.flush, Cluster.flushTo_self]; exact update_self ..
    · rw [update_of_ne hj,
        show (x.cluster.flush i n').host j = x.cluster.host j from update_of_ne hj ..]
      exact h.cursor_eq j
  | idle => exact ⟨⟨g', hinv'⟩, h.cursor_eq⟩
  | @compact i applied data snap n' hc =>
    obtain ⟨_, _, _, _, _, rfl⟩ := compact_some hc
    refine ⟨⟨g', hinv'⟩, ?_⟩
    exact forall_update (P := fun j k => x.cursor j = k.raft.commit) (h.cursor_eq i) h.cursor_eq
  | @restart i cfg n' hn =>
    refine ⟨⟨g', hinv'⟩, fun j => ?_⟩
    have hself : (x.cluster.restarted i n').host i = { x.cluster.host i with raft := n' } := update_self ..
    by_cases hj : j = i
    · subst hj
      have hcursor : (x.follow (x.cluster.restarted j n') (.restart j cfg)).cursor j =
          ((x.cluster.restarted j n').host j).raft.log.snapIndex := update_self ..
      rw [hcursor]
      show ((x.cluster.restarted j n').host j).raft.log.snapIndex = ((x.cluster.restarted j n').host j).raft.commit
      rw [hself]
      exact (new_commit hn).symm
    · have hcursor : (x.follow (x.cluster.restarted i n') (.restart i cfg)).cursor j = x.cursor j :=
        update_of_ne hj ..
      rw [hcursor, h.cursor_eq j]
      show _ = ((x.cluster.restarted i n').host j).raft.commit
      rw [show (x.cluster.restarted i n').host j = x.cluster.host j from update_of_ne hj ..]

end Tracker

/-- In every state of every run, whatever is called next: the output hands out exactly the indexes from where the
host is (or from the snapshot in the output) to the new commit index, and the commit index decreases at no action
but a restart. -/
theorem delivered_in_order {x : Tracker} (cfg : NodeId → Config) (voters : List NodeId) (hv : voters.Nodup)
    (hx : Runs (Tracker.exec voters) (fun _ a => a.fixed) (Tracker.init cfg voters) x) :
    (∀ i c n', x.cluster.deliverable i c = true → (Action.call i c).fixed → (x.cluster.host i).raft.call c = some n' →
      n'.out.resumes (x.cursor i) ≤ n'.commit ∧
      n'.out.committed.map Entry.index =
        List.range' (n'.out.resumes (x.cursor i) + 1) (n'.commit - n'.out.resumes (x.cursor i))) ∧
    ∀ a y, a.fixed → x.exec voters a = some y → ∀ i, (∀ cfg, a ≠ .restart i cfg) →
      (x.cluster.host i).raft.commit ≤ (y.cluster.host i).raft.commit := by
  have hlevel : Tracker.Level voters hv x := hx.invariant (Tracker.Level.init cfg voters hv)
    fun h hfix he => h.exec hfix he
  refine ⟨fun i c n' hdel hfix hc => ?_, fun a y hfix he i hne => ?_⟩
  · obtain ⟨hle, hrange, _⟩ := hlevel.handed hdel hfix hc
    exact ⟨hle, hrange⟩
  · obtain ⟨t, ht, rfl⟩ := Option.map_eq_some_iff.1 he
    have hcl : (x.follow t a).cluster = t := by
      unfold Tracker.follow
      split
      · split <;> rfl
      · rfl
      · rfl
    rw [hcl]
    cases Cluster.exec_some ht with
    | @call j c n' hdel hc =>
      obtain ⟨_, _, hmono⟩ := hlevel.handed hdel hfix hc
      exact forall_update (P := fun k h => (x.cluster.host k).raft.commit ≤ h.raft.commit) hmono
        (fun _ => Nat.le_refl _) i
    | idle => exact Nat.le_refl _
    | @compact j applied data snap n' hc =>
      obtain ⟨_, _, _, _, _, rfl⟩ := compact_some hc
      refine forall_update (P := fun k h => (x.cluster.host k).raft.commit ≤ h.raft.commit) ?_
        (fun _ => Nat.le_refl _) i
      exact Nat.le_refl _
    | @restart j cfg n' hn =>
      by_cases hj : i = j
      · exact absurd (by rw [hj]) (hne cfg)
      · rw [show (x.cluster.restarted j n').host i = x.cluster.host i from update_of_ne hj ..]

/-- The leader hands out its no-op when node 2 acknowledges it. -/
theorem delivered_in_order_run :
    ∃ x n', Runs (Tracker.exec [1, 2, 3]) (fun _ a => a.fixed) (Tracker.init Config.quick [1, 2, 3]) x ∧
      (x.cluster.host 1).raft.call (.step ⟨2, 1, 1, .appendEntriesResp true 1 0 0⟩) = some n' ∧
      n'.out.committed = [{ term := 1, index := 1, payload := .noop }] ∧
      n'.out.committed.map Entry.index =
        List.range' (n'.out.resumes (x.cursor 1) + 1) (n'.commit - n'.out.resumes (x.cursor 1)) := by
  obtain ⟨x, hr, hdel, hc⟩ := Runs.reached (Tracker.exec [1, 2, 3]) (fun _ a => a.fixed)
    (Tracker.init Config.quick [1, 2, 3])
    (Action.firstElection ++
      [.deliver 1 2 1 (.appendEntries 0 0 [{ term := 1, index := 1, payload := .noop }] 0 0)])
    (P := fun x => x.cluster.deliverable 1 (.step ⟨2, 1, 1, .appendEntriesResp true 1 0 0⟩) = true ∧
      ((x.cluster.host 1).raft.call (.step ⟨2, 1, 1, .appendEntriesResp true 1 0 0⟩)).map (fun n => n.out.committed) =
        some [{ term := 1, index := 1, payload := .noop }]) (by decide +kernel)
  obtain ⟨n', hn', hcom⟩ := Option.map_eq_some_iff.1 hc
  exact ⟨x, n', hr, hn', hcom,
    ((delivered_in_order Config.quick [1, 2, 3] (by decide) hr).1 1 _ n' hdel (by decide) hn').2⟩

end RaftKv

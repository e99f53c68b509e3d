import RaftKv.Server.Loop
import RaftKv.Server.Stored

/-!
# A cluster of servers

Any interleaving of turns of the event loops, with messages lost, duplicated, delayed and reordered
in between, and servers that crash and start again. Membership is fixed: `Core` never proposes a
configuration change.

| here | there |
| --- | --- |
| `ServerAction.batch`   | one turn of `Core::run` (`core.rs:127-147`): the drained queue, then `process_output` |
| `ServerAction.restart` | a crash followed by `Core::open`, with what `LogStore::open` returns |
| `Servers.store`        | `Core::log` |
| `Servers.net`          | the messages sent so far |

`Servers.cluster` is the cluster of raft nodes behind the servers, with the disk that each node would
need. The log store has that disk as long as the batches are such as it can store (`Kept`). The other
fields are history, as in `Cluster`.
-/

namespace RaftKv

open Function RaftNode

structure Servers (V : Type) where
  core : NodeId → Core
  store : NodeId → LogStore V
  base : NodeId → List Entry
  net : List Message
  delivered : List Delivery
  snaps : List Snapshot
  prefixes : List (Snapshot × List Entry)
  reads : List (NodeId × Nat × Nat)

inductive ServerAction where
  | batch (i : NodeId) (es : List Event)
  | restart (i : NodeId) (cfg : Config) (snapshotEvery : Nat) (leftover : DbBackend)

/-- A server started for the first time. -/
def Core.fresh (cfg : Config) (voters : List NodeId) (snapshotEvery : Nat) : Core :=
  { raft := RaftNode.fresh cfg voters, sm := StateMachine.new ⟨∅⟩, applied := 0, appliedSinceSnap := 0,
    snapshotEvery, pendingWrites := ∅, pendingReads := ∅, readyReads := [], nextReadId := 1, tick := 0, replies := [] }

theorem Core.start_empty (W : Wire) (cfg : Config) (voters : List NodeId) (snapshotEvery : Nat)
    (leftover : DbBackend) :
    Core.start W cfg voters snapshotEvery {} leftover = some (Core.fresh cfg voters snapshotEvery) := by
  have hr : (StateMachine.new leftover).restore W.payload ((StateMachine.new (⟨∅⟩ : MemBackend)).snapshot W.payload) =
      some (StateMachine.new ⟨∅⟩) := StateMachine.restore_snapshot W.payload _ (StateMachine.new (⟨∅⟩ : DbBackend))
  unfold Core.start
  dsimp only
  rw [hr]
  rfl

namespace Servers

variable {V : Type} (W : Wire) (C : Codec V)

def init (cfg : NodeId → Config) (snapshotEvery : NodeId → Nat) (voters : List NodeId) : Servers V where
  core i := Core.fresh { cfg i with id := i } voters (snapshotEvery i)
  store _ := LogStore.new V
  base _ := []
  net := []
  delivered := []
  snaps := []
  prefixes := []
  reads := []

def cluster (s : Servers V) : Cluster where
  host i := { raft := (s.core i).raft, disk := (s.core i).raft.durable, base := s.base i }
  net := s.net
  delivered := s.delivered
  snaps := s.snaps
  prefixes := s.prefixes
  reads := s.reads

/-- The servers `core` with their stores and the history of the cluster `cl`. -/
def upon (core : NodeId → Core) (store : NodeId → LogStore V) (cl : Cluster) : Servers V where
  core
  store
  base i := (cl.host i).base
  net := cl.net
  delivered := cl.delivered
  snaps := cl.snaps
  prefixes := cl.prefixes
  reads := cl.reads

/-- A peer message has been sent to this server. -/
def deliverable (s : Servers V) (i : NodeId) : Event → Bool
  | .peer m => s.cluster.deliverable i (.step m)
  | _ => true

/-- The raft nodes after the server `i`, in state `c` when its queue is drained, has processed the output. -/
def clusterAfter (s : Servers V) (i : NodeId) (c : Core) (r : Core.Processed) : Cluster :=
  let cl := s.cluster.flushTo i c.raft c.raft.durable
  match r.compacted with
  | some snap => cl.compacted i r.core.applied snap r.core.raft
  | none => cl

def after (s : Servers V) (i : NodeId) (c : Core) (r : Core.Processed) : Servers V :=
  upon (update s.core i r.core)
    (update s.store i ((s.store i).after C c.raft.out r.compacted)) (s.clusterAfter i c r)

/-- The server `i` is open again. -/
def reopened (s : Servers V) (i : NodeId) (c : Core) (ls : LogStore V) : Servers V :=
  { s with core := update s.core i c, store := update s.store i ls }

def exec (voters : List NodeId) (s : Servers V) : ServerAction → Option (Servers V)
  | .batch i es =>
    if es.all (s.deliverable i) then
      ((s.core i).handleEvents W es).bind fun c => (c.processOutput W).map fun r => s.after C i c r
    else none
  | .restart i cfg snapshotEvery leftover =>
    match LogStore.openStore C (s.store i).db with
    | .ok (ls, persisted) =>
      (Core.start W { cfg with id := i } voters snapshotEvery persisted leftover).map fun c => s.reopened i c ls
    | .error _ => none

/-- A server that is opened again finds in its log store what its node has made durable. -/
def Restores (s : Servers V) : ServerAction → Prop
  | .batch .. => True
  | .restart i .. =>
    match LogStore.openStore C (s.store i).db with
    | .ok (_, persisted) => persisted = (s.core i).raft.durable
    | .error _ => True

instance (s : Servers V) (a : ServerAction) : Decidable (s.Restores C a) := by
  unfold Restores
  split
  · infer_instance
  · split <;> infer_instance

/-- The log store can hold what the batch makes durable: no snapshot resets the log behind appended entries, and
the appended entries end at their highest index. -/
def Kept (s : Servers V) : ServerAction → Prop
  | .batch i es => (s.core i).unmixed W Output.append es = true ∧ ∀ c ∈ (s.core i).handleEvents W es,
      -- indexes are `u64` in the source
      c.raft.out.toStore.Aligned (s.core i).raft.durable ∧ ∀ e ∈ c.raft.out.append, e.index < 2 ^ 64
  | .restart .. => True

theorem Restores.found {C : Codec V} {s : Servers V} {i : NodeId} {cfg : Config} {every : Nat} {leftover : DbBackend}
    {ls : LogStore V} {p : Persisted} (h : s.Restores C (.restart i cfg every leftover))
    (ho : LogStore.openStore C (s.store i).db = .ok (ls, p)) : p = (s.core i).raft.durable := by
  simpa only [Restores, ho] using h

/-- What an action does when it succeeds. -/
inductive Exec (voters : List NodeId) (s : Servers V) : ServerAction → Servers V → Prop
  | batch {i : NodeId} {es : List Event} {c : Core} {r : Core.Processed} : (∀ e ∈ es, s.deliverable i e = true) →
      (s.core i).handleEvents W es = some c → c.processOutput W = some r →
      Exec voters s (.batch i es) (s.after C i c r)
  | restart {i : NodeId} {cfg : Config} {every : Nat} {leftover : DbBackend} {c : Core} {ls : LogStore V}
      {p : Persisted} : LogStore.openStore C (s.store i).db = .ok (ls, p) →
      Core.start W { cfg with id := i } voters every p leftover = some c →
      Exec voters s (.restart i cfg every leftover) (s.reopened i c ls)

variable {W C} {voters : List NodeId} {s t : Servers V}

theorem exec_some {a : ServerAction} (h : s.exec W C voters a = some t) : Exec W C voters s a t := by
  cases a with
  | batch i es =>
    simp only [exec] at h
    split at h
    · rename_i hdel
      obtain ⟨c, hc, h⟩ := Option.bind_eq_some_iff.1 h
      obtain ⟨r, hr, rfl⟩ := Option.map_eq_some_iff.1 h
      exact .batch (List.all_eq_true.1 hdel) hc hr
    · cases h
  | restart i cfg every leftover =>
    simp only [exec] at h
    split at h
    · rename_i ho
      obtain ⟨c, hc, rfl⟩ := Option.map_eq_some_iff.1 h
      exact .restart ho hc
    · cases h

end Servers

/-! ## The raft nodes behind the servers -/

variable {V : Type} {C : Codec V} {W : Wire} {voters : List NodeId} {hv : voters.Nodup} {g g' : Ghost}
  {s t : Servers V} {i : NodeId} {ls : LogStore V} {es : List Event} {cs : List Call} {c : Core} {r : Core.Processed}

theorem Core.Queue.serves (hq : Core.Queue W (s.core i) es c cs) (hdel : ∀ e ∈ es, s.deliverable i e = true) :
    ∀ call ∈ cs, s.cluster.Serves i call := by
  intro call hc
  rcases hq.served call hc with ⟨m, hm, rfl⟩ | ho
  · exact ⟨hdel _ hm, fun h => h⟩
  · cases call with
    | tick | propose | readIndex => exact ⟨rfl, fun h => h⟩
    | step | proposeConfChange => cases ho

theorem Servers.clusterAfter_self (hp : Core.Passed W c r) : ((s.clusterAfter i c r).host i).raft = r.core.raft := by
  unfold Servers.clusterAfter
  rcases hp.raft with ⟨hn, hr⟩ | ⟨snap, hs, _⟩
  · rw [hn, hr]
    exact congrArg Host.raft (s.cluster.flushTo_self ..)
  · rw [hs]
    exact congrArg Host.raft (Cluster.compacted_self ..)

theorem Servers.clusterAfter_other {j : NodeId} (hj : j ≠ i) : (s.clusterAfter i c r).host j = s.cluster.host j := by
  have hflush : (s.cluster.flushTo i c.raft c.raft.durable).host j = s.cluster.host j := update_of_ne hj ..
  unfold Servers.clusterAfter
  split
  · exact (update_of_ne hj ..).trans hflush
  · exact hflush

/-- The servers and the raft nodes move together. -/
theorem Servers.cluster_after (h : Inv voters hv g (s.clusterAfter i c r)) (hp : Core.Passed W c r) :
    (s.after C i c r).cluster = s.clusterAfter i c r := by
  have hhost : (s.after C i c r).cluster.host = (s.clusterAfter i c r).host := by
    funext j
    have hraft : ((s.after C i c r).core j).raft = ((s.clusterAfter i c r).host j).raft := by
      by_cases hj : j = i
      · subst hj
        rw [clusterAfter_self hp]
        exact congrArg Core.raft (update_self ..)
      · rw [clusterAfter_other hj]
        exact congrArg Core.raft (update_of_ne hj ..)
    show Host.mk _ _ _ = _
    rw [hraft, ← h.durable j]
    rfl
  unfold Servers.cluster at hhost ⊢
  dsimp only at hhost
  rw [hhost]; rfl

/-- A turn of the event loop, with anything else `P` that the moves of its calls keep. -/
theorem Inv.turn {P : Ghost → RaftNode → Prop} (h : Inv voters hv g s.cluster)
    (hdel : ∀ e ∈ es, s.deliverable i e = true) (hq : Core.Queue W (s.core i) es c cs)
    (hr : c.processOutput W = some r) (hP : P g (s.core i).raft)
    (hstep : ∀ ⦃cs' call n₀⦄, cs' ++ [call] <+: cs → (s.core i).raft.calls cs' = some n₀ →
      MovesKeep voters hv s.cluster.Recorded s.cluster.Delivered i call n₀ g P) :
    ∃ g' base', g.Le g' ∧ Local voters hv g' s.cluster.Recorded s.cluster.Delivered i c.raft base' ∧ P g' c.raft ∧
      Inv voters hv g' (s.after C i c r).cluster ∧ (s.after C i c r).cluster = s.clusterAfter i c r := by
  have hp := Core.processOutput_passed hr
  obtain ⟨g', base', hle, hl, hP', hflush⟩ := Inv.batch (i := i) h hq.calls (hq.serves hdel) hP hstep
  have hinv : Inv voters hv g' (s.clusterAfter i c r) := by
    unfold Servers.clusterAfter
    rcases hp.raft with ⟨hn, _⟩ | ⟨snap, hs, hc⟩
    · rw [hn]; exact hflush
    · rw [hs]
      have hcompact : ((s.cluster.flushTo i c.raft c.raft.durable).host i).raft.compact r.core.applied
          (r.core.sm.snapshot W.payload) = (some snap, r.core.raft) := by
        rw [Cluster.flushTo_self]; exact hc
      exact hflush.compact hcompact
  have heq := Servers.cluster_after (C := C) hinv hp
  exact ⟨g', base', hle, hl, hP', by rw [heq]; exact hinv, heq⟩

/-- What `Core::open` starts with. -/
theorem Core.start_some {cfg : Config} {every : Nat} {p : Persisted} {leftover : DbBackend}
    (h : Core.start W cfg voters every p leftover = some c) :
    new cfg voters p = some c.raft ∧ c.applied = (p.snapshot.map Snapshot.lastIndex).getD 0 ∧
      (p.snapshot = none → c.sm = StateMachine.new ⟨∅⟩) ∧
      (∀ {snap}, p.snapshot = some snap →
        (StateMachine.new leftover).restore W.payload snap.data = some c.sm) := by
  unfold Core.start at h
  obtain ⟨⟨sm, applied⟩, hrest, h⟩ := Option.bind_eq_some_iff.1 h
  obtain ⟨raft, hn, rfl⟩ := Option.map_eq_some_iff.1 h
  refine ⟨hn, ?_⟩
  cases hs : p.snapshot with
  | none =>
    rw [hs] at hrest
    have hempty : (StateMachine.new leftover).restore W.payload
        ((StateMachine.new (⟨∅⟩ : MemBackend)).snapshot W.payload) = some (StateMachine.new ⟨∅⟩) :=
      StateMachine.restore_snapshot W.payload _ (StateMachine.new (⟨∅⟩ : DbBackend))
    rw [hempty] at hrest
    cases hrest
    exact ⟨rfl, fun _ => rfl, fun h' => (by cases h')⟩
  | some snap =>
    rw [hs] at hrest
    obtain ⟨sm', hsm, hpair⟩ := Option.map_eq_some_iff.1 hrest
    cases hpair
    exact ⟨rfl, fun h' => (by cases h'), fun h' => (by cases h'; exact hsm)⟩

/-- Both the node and the server start at the snapshot. -/
theorem Core.start_commit {cfg : Config} {every : Nat} {p : Persisted} {leftover : DbBackend}
    (h : Core.start W cfg voters every p leftover = some c) :
    c.raft.commit = (p.snapshot.map Snapshot.lastIndex).getD 0 ∧ c.applied = c.raft.commit := by
  obtain ⟨hn, happ, _⟩ := Core.start_some h
  have hcommit : c.raft.commit = (p.snapshot.map Snapshot.lastIndex).getD 0 := by
    obtain ⟨log, _, heq⟩ := Option.map_eq_some_iff.1 hn
    rw [← heq]
    cases p.snapshot <;> rfl
  exact ⟨hcommit, happ.trans hcommit.symm⟩

theorem Servers.delivered_after (s : Servers V) (i : NodeId) (c : Core) (r : Core.Processed) :
    (s.after C i c r).delivered = s.delivered ++ c.raft.out.committed.map fun entry =>
      { node := i, term := c.raft.hs.term, role := c.raft.role, entry } := by
  show (s.clusterAfter i c r).delivered = _
  unfold Servers.clusterAfter
  split <;> rfl

theorem Inv.reopen (h : Inv voters hv g s.cluster) (ls : LogStore V) {cfg : Config} (hid : cfg.id = i)
    (hn : new cfg voters (s.core i).raft.durable = some c.raft) :
    Inv voters hv g (s.reopened i c ls).cluster ∧ c.raft.durable = (s.core i).raft.durable := by
  obtain ⟨_, _, hdur⟩ := (h.locals i).restart hid hn
  have heq : (s.reopened i c ls).cluster = s.cluster.restarted i c.raft := by
    have hhost : (s.reopened i c ls).cluster.host = (s.cluster.restarted i c.raft).host := by
      funext j
      by_cases hj : j = i
      · subst hj
        simp [Servers.cluster, Servers.reopened, Cluster.restarted, hdur]
      · simp [Servers.cluster, Servers.reopened, Cluster.restarted, hj]
    unfold Servers.cluster at hhost ⊢
    dsimp only at hhost
    rw [hhost]; rfl
  rw [heq]; exact ⟨h.restart (i := i) hid hn, hdur⟩

/-! ## The log stores -/

/-- Every log store holds what its node has to find there. -/
def Servers.Stocked (C : Codec V) (s : Servers V) : Prop := ∀ i, (s.store i).StandsFor C (s.core i).raft.durable

theorem Servers.Stocked.init (C : Codec V) (cfg : NodeId → Config) (every : NodeId → Nat) (voters : List NodeId) :
    (Servers.init cfg every voters : Servers V).Stocked C := fun _ => LogStore.standsFor_new C

/-- A node between two turns has nothing to append. -/
theorem Local.appends {rec : Snapshot → List Entry → Prop} {D : Entry → Prop} {n : RaftNode} {base : List Entry}
    (h : Local voters hv g rec D i n base) (hout : n.out = {}) : Appends n.durable n := by
  refine ⟨by rw [Durable, hout]; rfl, ?_, fun _ => by rw [hout]; trivial⟩
  rw [hout]
  show n.log.lastIndex = n.durable.lastIndex
  unfold Persisted.lastIndex RaftNode.durable
  cases hl : n.log.entries.getLast? with
  | some e =>
    rw [List.getLast?_eq_getElem?] at hl
    have hlt := (List.getElem?_eq_some_iff.1 hl).1
    have hidx := n.log.contiguous _ e hl
    show n.log.snapIndex + _ = e.index
    omega
  | none =>
    rw [RaftLog.lastIndex, List.getLast?_eq_none_iff.1 hl, h.core.rel.len]
    cases hs : n.snapshot with
    | none => rw [h.core.snap_none hs]; rfl
    | some snap => exact (h.shared.recorded (h.core.snap_some hs)).1.index.symm

theorem Servers.Stocked.turn (h : s.Stocked C) (hinv : Inv voters hv g s.cluster)
    (hinv' : Inv voters hv g' (s.clusterAfter i c r)) (hp : Core.Passed W c r) (hk : s.Kept W (.batch i es))
    (hc : (s.core i).handleEvents W es = some c) : (s.after C i c r).Stocked C := by
  intro j
  show (update s.store i _ j).StandsFor C (update s.core i _ j).raft.durable
  by_cases hj : j = i
  · subst hj
    rw [update_self, update_self]
    obtain ⟨cs, hq⟩ := Core.handleEvents_calls hc
    have hstart : Appends (s.core j).raft.durable (s.core j).raft := (hinv.locals j).appends (hinv.drained j)
    have ha := calls_keep hstart (fun _ _ _ hp => hq.apart hk.1 hp) hq.calls fun hr hm h => h.move hm hr
    obtain ⟨hal, hb⟩ := hk.2 c hc
    have hdur : (r.compacted.map c.raft.durable.compactTo).getD c.raft.durable = r.core.raft.durable := by
      rw [← clusterAfter_self hp, ← hinv'.durable j]
      unfold Servers.clusterAfter
      cases hr : r.compacted with
      | none => exact (congrArg Host.disk (Cluster.flushTo_self ..)).symm
      | some snap =>
        rw [Cluster.compacted_self, Cluster.flushTo_self]; rfl
    rw [← hdur]
    exact (h j).after ha hal hb r.compacted
  · rw [update_of_ne hj, update_of_ne hj]; exact h j

theorem Servers.Stocked.reopen (h : s.Stocked C) (hls : ls.StandsFor C (s.core i).raft.durable)
    (hdur : c.raft.durable = (s.core i).raft.durable) : (s.reopened i c ls).Stocked C := by
  intro j
  show (update s.store i ls j).StandsFor C (update s.core i c j).raft.durable
  by_cases hj : j = i
  · subst hj
    rw [update_self, update_self, hdur]; exact hls
  · rw [update_of_ne hj, update_of_ne hj]; exact h j

theorem Servers.Stocked.restores (h : s.Stocked C) (a : ServerAction) : s.Restores C a := by
  cases a with
  | batch => trivial
  | restart i =>
    simp only [Restores]
    split
    · rename_i ho
      exact ((h i).openStore ho).1
    · trivial

/-- If the log stores can hold the batches, every server finds there what its node has made durable. -/
theorem Servers.restores_of_kept (W : Wire) (C : Codec V) (cfg : NodeId → Config) (every : NodeId → Nat)
    (voters : List NodeId) (hv : voters.Nodup) {ok : Servers V → ServerAction → Prop}
    (hs : Runs (Servers.exec W C voters) ok (Servers.init cfg every voters) s)
    (hok : ∀ s a, ok s a → s.Kept W a) :
    Runs (Servers.exec W C voters) (fun s a => s.Restores C a ∧ ok s a) (Servers.init cfg every voters) s := by
  refine (hs.along (P := fun s => (∃ g, Inv voters hv g s.cluster) ∧ s.Stocked C)
    ⟨⟨Ghost.init, Inv.init cfg voters hv⟩, .init C cfg every voters⟩ ?_).mono fun s a h => ⟨h.1.2.restores a, h.2⟩
  rintro s t a ⟨⟨g, hinv⟩, h⟩ hk he
  cases Servers.exec_some he with
  | batch hdel hc hr =>
    obtain ⟨cs, hq⟩ := Core.handleEvents_calls hc
    obtain ⟨g', _, _, _, _, hinv', heq⟩ := hinv.turn (C := C) (P := fun _ _ => True) hdel hq hr trivial
      (by simp [MovesKeep])
    exact ⟨⟨g', hinv'⟩, h.turn hinv (heq ▸ hinv') (Core.processOutput_passed hr) (hok _ _ hk) hc⟩
  | @restart i _ _ _ c ls _ ho hc =>
    obtain ⟨rfl, hls⟩ := (h i).openStore ho
    obtain ⟨hinv', hdur⟩ := hinv.reopen ls rfl (Core.start_some hc).1
    exact ⟨⟨g, hinv'⟩, h.reopen hls hdur⟩

/-! ## Scenarios -/

namespace ServerAction

/-- The server `dst` handles a single message. -/
def receive (src dst term : Nat) (body : MessageBody) : ServerAction := .batch dst [.peer { src, dst, term, body }]

/-- Server 1 of `[1, 2, 3]` becomes leader of term 1 with the vote of server 3. -/
def elected : List ServerAction :=
  [.batch 1 [.tick], receive 1 3 1 (.requestVote 0 0), receive 3 1 1 (.requestVoteResp true)]

def noop : Entry := { term := 1, index := 1, payload := .noop }

/-- The entry for a write of 1 under the key 97 in session 7. -/
def write : Entry :=
  { term := 1, index := 2, payload := .normal (Wire.plain.command.ser ⟨7, 1, .put [97] [1]⟩) }

/-- With server 3 the leader commits its no-op and the write. -/
def written : List ServerAction :=
  elected ++
  [receive 1 3 1 (.appendEntries 0 0 [noop] 0 0), receive 3 1 1 (.appendEntriesResp true 1 0 0),
   .batch 1 [.tick],
   .batch 1 [.client (.put 7 1 [97] [1]) 0],
   receive 1 3 1 (.appendEntries 1 1 [write] 1 0), receive 3 1 1 (.appendEntriesResp true 2 0 0)]

/-- Server 1 compacts after two entries, the others do not. -/
def start : Servers (HardState ⊕ Snapshot ⊕ Entry) :=
  Servers.init Config.quick (fun i => if i = 1 then 2 else 100) [1, 2, 3]

end ServerAction

end RaftKv

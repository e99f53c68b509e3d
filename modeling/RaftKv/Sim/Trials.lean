import RaftKv.Raft.ReadWatch
import RaftKv.Sim.Linearize

/-!
# Clients that read

The simulator of `Sim.Hosts` together with the reads of its clients, so that the whole history of the
source is there. A client waits for one operation at a time, a write or a read; one counter stamps
the invocations and responses of both.

| here | there |
| --- | --- |
| `Trial.reads`, `Trial.sim.history` | the reads and the other operations in `Sim::history` |
| `Trial.onClientRead`  | `on_client_wake` (`cluster.rs:544`), for a read |
| `Trial.onReadDone`    | `on_client_resp` (`cluster.rs:699`), for `CResp::ReadDone` |

`Sim.Works` says what a step does to the nodes; `Works.reads` follows the reads of a node through it.
-/

namespace RaftKv

open Function

structure ReadRecord where
  client : Nat
  key : Bytes
  invoke : Nat
  ret : Option Nat
  value : Option (Option Bytes)
deriving DecidableEq, Repr

/-- The read as a call on a map. -/
def ReadRecord.call (r : ReadRecord) : CallRecord Op OpResult :=
  { op := .get r.key, invoke := r.invoke, ret := r.ret, result := r.value.map .value }

structure Trial where
  sim : Sim
  /-- The place in `reads` of the read a client waits for. -/
  reading : Nat → Option Nat
  reads : List ReadRecord

inductive TrialAction where
  | step (a : SimAction)
  | read (c : Nat) (key : Bytes)

namespace Trial

variable (W : Wire) (every : Nat)

def boot (cfg : NodeId → Config) (voters : List NodeId) : Trial where
  sim := Sim.boot cfg voters
  reading _ := none
  reads := []

/-- The stamp of the next event of the history. -/
def nextStamp (t : Trial) : Nat := t.sim.stamp + 1

/-- An idle client invokes a read. -/
def onClientRead (t : Trial) (c : Nat) (key : Bytes) : Option Trial :=
  if (t.sim.client c).cur.isSome ∨ (t.reading c).isSome then none
  else some
    { sim := { t.sim with stamp := t.nextStamp }
      reading := update t.reading c (some t.reads.length)
      reads := t.reads ++ [{ client := c, key, invoke := t.nextStamp, ret := none, value := none }] }

/-- The read that was invoked at `opTs` is answered; the client may have gone on since. -/
def onReadDone (t : Trial) (c opTs : Nat) (value : Option Bytes) : Trial :=
  match t.reading c with
  | some k =>
    if t.reads[k]?.map ReadRecord.invoke = some opTs then
      { sim := { t.sim with stamp := t.nextStamp }
        reading := update t.reading c none
        reads := t.reads.modify k fun r => { r with ret := some t.nextStamp, value := some value } }
    else t
  | none => t

/-- A read request was sent by its client, and a client that writes is idle. -/
def admits (t : Trial) : SimAction → Bool
  | .request _ c (.read opTs key) => t.reads.any fun r => r.client = c ∧ r.invoke = opTs ∧ r.key = key
  | .wake c .. => (t.reading c).isNone
  | _ => true

/-- What the clients learn from the action. -/
def heard (t : Trial) : SimAction → Trial
  | .response _ c (.readDone opTs value) => t.onReadDone c opTs value
  | _ => t

def exec (voters : List NodeId) (t : Trial) : TrialAction → Option Trial
  | .step a => if t.admits a then (t.sim.exec W every voters a).map fun sim => { t with sim }.heard a else none
  | .read c key => t.onClientRead c key

end Trial

/-! ## The reads of a node -/

variable {W : Wire} {every : Nat} {voters : List NodeId} {s t : Sim} {i j : NodeId} {n : RaftNode} {c : Call}
  {x x' : SimNode} {e : Entry} {es : List Entry} {a : SimAction}

def CResp.isReadDone : CResp → Bool
  | .readDone .. => true
  | _ => false

namespace SimNode

/-- The node has used the read numbers below `b`; what it owes satisfies `P`, the indexes its reads have got `R`, its
answers to reads `S`. -/
structure Reads (x : SimNode) (b : Nat) (P : Nat → Nat × Nat × Bytes → Prop) (R : Nat × Nat → Prop)
    (S : Nat × CResp → Prop) : Prop where
  next : b ≤ x.nextReadId
  pending : ∀ {rid v}, x.pendingReads.find? rid = some v → P rid v
  ready : ∀ p ∈ x.readyReads, R p
  sent : ∀ r ∈ x.sent, r.2.isReadDone = true → S r

variable {b : Nat} {P : Nat → Nat × Nat × Bytes → Prop} {R : Nat × Nat → Prop} {S : Nat × CResp → Prop}

theorem Reads.send (h : x.Reads b P R S) {cl : Nat} {resp : CResp} (hs : resp.isReadDone = true → S (cl, resp)) :
    (x.send cl resp).Reads b P R S := by
  refine ⟨h.next, h.pending, h.ready, fun r hr => ?_⟩
  rcases List.mem_append.1 hr with hr | hr
  · exact h.sent r hr
  · rw [List.mem_singleton.1 hr]; exact hs

theorem Reads.restoreSnapshot {sn : Option Snapshot} (h : x.Reads b P R S) (hx : x.restoreSnapshot W sn = some x') :
    x'.Reads b P R S := by
  cases sn with
  | none => cases hx; exact h
  | some snap =>
    obtain ⟨sm, -, rfl⟩ := Option.map_eq_some_iff.1 hx
    exact ⟨h.next, h.pending, h.ready, h.sent⟩

theorem Reads.answer (h : x.Reads b P R S) (cmd : Command) (result : OpResult) :
    (x.answer cmd result).Reads b P R S := by
  unfold SimNode.answer
  split
  · have h' : { x with waitingWrites := x.waitingWrites.filter (· ≠ (cmd.sessionId, cmd.seq)) }.Reads b P R S :=
      ⟨h.next, h.pending, h.ready, h.sent⟩
    exact h'.send fun hr => (by cases hr)
  · exact h

theorem Reads.applyEntry (h : x.Reads b P R S) (hx : x.applyEntry W e = some x') : x'.Reads b P R S := by
  unfold SimNode.applyEntry at hx
  obtain ⟨x₁, h₁, rfl⟩ := Option.map_eq_some_iff.1 hx
  have hx₁ : x₁.Reads b P R S := by
    split at h₁
    · split at h₁
      · rename_i cmd _
        have h' : { x with sm := (x.sm.apply cmd).2 }.Reads b P R S := ⟨h.next, h.pending, h.ready, h.sent⟩
        exact Option.some.inj h₁ ▸ h'.answer cmd (x.sm.apply cmd).1
      · cases h₁
    · cases h₁; exact h
  exact ⟨hx₁.next, hx₁.pending, hx₁.ready, hx₁.sent⟩

theorem Reads.applyCommitted (h : x.Reads b P R S) (hx : x.applyCommitted W es = some x') : x'.Reads b P R S := by
  induction es generalizing x with
  | nil => cases hx; exact h
  | cons e es ih =>
    obtain ⟨x₁, he, hrest⟩ := Option.bind_eq_some_iff.1 hx
    exact ih (h.applyEntry he) hrest

/-- A turn of the loop serves a read, leaves it waiting or finds that it is no longer owed. -/
theorem Reads.serveReady {rs : List (Nat × Nat)} (h : x.Reads b P R S) (hrs : ∀ p ∈ rs, R p)
    (hS : ∀ {rid idx v}, R (rid, idx) → P rid v → idx ≤ x.applied → S (v.1, .readDone v.2.1 (x.sm.read v.2.2))) :
    (x.serveReady rs).Reads b P R S := by
  induction rs generalizing x with
  | nil => exact h
  | cons p rest ih =>
    obtain ⟨rid, idx⟩ := p
    have hp := hrs (rid, idx) (by simp)
    have hrest := fun q hq => hrs q (List.mem_cons_of_mem _ hq)
    unfold SimNode.serveReady
    split
    · rename_i hidx
      split
      · rename_i cl opTs key hfind
        have h' : { x with pendingReads := x.pendingReads.erase rid }.Reads b P R S := by
          refine ⟨h.next, fun {rid' v} hv => ?_, h.ready, h.sent⟩
          rw [OrdMap.find?_erase] at hv
          split at hv
          · cases hv
          · exact h.pending hv
        exact ih (h'.send fun _ => hS hp (h.pending hfind) hidx) hrest hS
      · exact ih h hrest hS
    · refine ih ⟨h.next, h.pending, fun q hq => ?_, h.sent⟩ hrest hS
      rcases List.mem_append.1 hq with hq | hq
      · exact h.ready q hq
      · rw [List.mem_singleton.1 hq]; exact hp

end SimNode

/-! ## The reads in a step -/

namespace Sim

theorem processOutput_reads {b : Nat} {P : Nat → Nat × Nat × Bytes → Prop} {R : Nat × Nat → Prop}
    {S : Nat × CResp → Prop} (h : s.processOutput W every i n = some t) (hx : (s.node i).Reads b P R S)
    (hrs : ∀ p ∈ n.out.readStates, R p) (hS : ∀ {rid idx v}, R (rid, idx) → P rid v → idx ≤ (t.node i).applied →
      S (v.1, .readDone v.2.1 ((t.node i).sm.read v.2.2))) : (t.node i).Reads b P R S := by
  unfold processOutput at h
  obtain ⟨x₁, h₁, h⟩ := Option.bind_eq_some_iff.1 h
  obtain ⟨x₂, h₂, h⟩ := Option.map_eq_some_iff.1 h
  have hx₂ := (hx.restoreSnapshot h₁).applyCommitted h₂
  -- a node that compacts and one that does not
  have hcommon : ∀ x₃ : SimNode, x₃.Reads b P R S →
      t.node i = { x₃ with readyReads := [] }.serveReady (x₃.readyReads ++ n.out.readStates) →
        (t.node i).Reads b P R S := by
    intro x₃ h₃ ht
    obtain ⟨hsm, happ, -, -⟩ := SimNode.serveReady_same { x₃ with readyReads := [] } (x₃.readyReads ++ n.out.readStates)
    rw [ht, hsm, happ] at hS
    rw [ht]
    refine SimNode.Reads.serveReady ⟨h₃.next, h₃.pending, fun p hp => (by cases hp), h₃.sent⟩ (fun p hp => ?_) hS
    exact (List.mem_append.1 hp).elim (h₃.ready p) (hrs p)
  split at h
  · subst h
    exact hcommon { x₂ with appliedSinceSnap := 0 } ⟨hx₂.next, hx₂.pending, hx₂.ready, hx₂.sent⟩ (update_self ..)
  · subst h
    exact hcommon x₂ hx₂ (update_self ..)

/-- The node `i` owes the read `v` under the number `rid`: since before the action, or because the action is its
request and `read_index` has accepted it. -/
def Owes (s : Sim) (a : SimAction) (i : NodeId) (rid : Nat) (v : Nat × Nat × Bytes) : Prop :=
  (s.node i).pendingReads.find? rid = some v ∨
    (a = .request i v.1 (.read v.2.1 v.2.2) ∧ rid = (s.node i).nextReadId ∧
      ((s.cluster.host i).raft.readIndex rid).1 = .ok ())

/-- The node `i` has become `x` by the action `a`, except that it has still to process an output. -/
def Prepares (s : Sim) (a : SimAction) (i : NodeId) (x : SimNode) : Prop :=
  x.Reads (s.node i).nextReadId (s.Owes a i) (· ∈ (s.node i).readyReads) (· ∈ (s.node i).sent)

theorem Prepares.refl (s : Sim) (a : SimAction) (i : NodeId) : s.Prepares a i (s.node i) :=
  ⟨le_rfl, .inl, fun _ hp => hp, fun _ hr _ => hr⟩

/-- No answer to an old term raises the echo that a leader has recorded. -/
def NoStaleEcho (s : Sim) : SimAction → Prop
  | .deliver m => (s.node m.dst).up = true → RaftKv.NoStaleEcho s.cluster (.call m.dst (.step m))
  | _ => True

end Sim

/-- A step of a cluster in which only node `i` uses a read number, one below `b`. -/
def NumberedStep (i : NodeId) (b : Nat) (cl : Cluster) (act : Action) : Prop :=
  ReadStep cl act ∧ ∀ {j r}, act = .call j (.readIndex r) → j = i ∧ r < b

theorem NumberedStep.of_ne {b : Nat} {cl : Cluster} {act : Action} (h : ReadStep cl act)
    (hne : ∀ j r, act ≠ .call j (.readIndex r)) : NumberedStep i b cl act := ⟨h, fun ha => absurd ha (hne _ _)⟩

namespace Sim

/-- What an action without a stale echo does to the nodes. -/
inductive Works (W : Wire) (every : Nat) (voters : List NodeId) (s : Sim) (a : SimAction) (t : Sim) : Prop
  | quiet {i : NodeId} {x : SimNode} : s.Prepares a i x → t.cluster = s.cluster → t.node = update s.node i x →
      s.stamp ≤ t.stamp → Works W every voters s a t
  | output {i : NodeId} {x : SimNode} {c : Cluster} {n : RaftNode} : s.Prepares a i x →
      Run voters (NumberedStep i x.nextReadId) s.cluster (c.flush i n) →
      ({ s with cluster := c }.withNode i x).processOutput W every i n = some t → Works W every voters s a t

theorem Works.stay (hc : t.cluster = s.cluster) (hn : t.node = s.node) (hst : s.stamp ≤ t.stamp) :
    Works W every voters s a t :=
  .quiet (.refl s a 0) hc (hn.trans (update_eq_self 0 s.node).symm) hst

theorem Works.call (h : (s.withNode i x).call W every i c = some t) (hx : s.Prepares a i x)
    (hok : NumberedStep i x.nextReadId s.cluster (.call i c)) : Works W every voters s a t := by
  obtain ⟨hdel, n, hn, hp⟩ := call_some h
  refine .output (c := s.cluster) hx (Runs.tail .refl hok ?_) hp
  simp only [Cluster.exec, show s.cluster.deliverable i c = true from hdel,
    show (s.cluster.host i).raft.call c = some n from hn]
  rfl

theorem Works.reply (hx : s.Prepares a i x) (cl : Nat) {resp : CResp} (h : resp.isReadDone = false) :
    Works W every voters s a (s.withNode i (x.send cl resp)) :=
  .quiet (x := x.send cl resp) (SimNode.Reads.send hx fun hr => absurd (h.symm.trans hr) (by simp)) rfl rfl le_rfl

theorem tryPropose_works {cl : Nat} {cmd : Command} (h : s.tryPropose W every i cl cmd = some t) :
    Works W every voters s a t := by
  unfold tryPropose at h
  split at h
  · exact .call (x := { s.node i with waitingWrites := (s.node i).waitingWrites.insert (cmd.sessionId, cmd.seq) }) h
      ⟨le_rfl, .inl, fun _ hp => hp, fun _ hr _ => hr⟩ (.of_ne ⟨trivial, trivial⟩ (by simp))
  all_goals
    cases h
    exact .reply (.refl s a i) cl rfl

theorem onClientReq_works {cl : Nat} {req : CReq} (h : s.onClientReq W every i cl req = some t) :
    Works W every voters s (.request i cl req) t := by
  unfold onClientReq at h
  split at h
  · cases h; exact .stay rfl rfl le_rfl
  · cases req with
    | write => exact tryPropose_works h
    | cas => exact tryPropose_works h
    | read opTs key =>
      dsimp only at h
      split at h
      · rename_i hok
        rw [update_idem] at h
        refine .call (x := { s.node i with
            nextReadId := (s.node i).nextReadId + 1
            pendingReads := (s.node i).pendingReads.insert (s.node i).nextReadId (cl, opTs, key) }) h
          ⟨Nat.le_succ _, fun {rid v} hv => ?_, fun _ hp => hp, fun _ hr _ => hr⟩
          ⟨⟨trivial, trivial⟩, fun ha => ?_⟩
        · rw [OrdMap.find?_insert] at hv
          split at hv
          · rename_i hrid
            cases hv
            exact .inr ⟨rfl, hrid, hrid ▸ hok⟩
          · exact .inl hv
        · cases ha
          exact ⟨rfl, Nat.lt_succ_self _⟩
      all_goals
        cases h
        have hx : s.Prepares (.request i cl (.read opTs key)) i
          { s.node i with nextReadId := (s.node i).nextReadId + 1 } :=
          ⟨Nat.le_succ _, .inl, fun _ hp => hp, fun _ hr _ => hr⟩
        have hret := s.reply_withNode i { s.node i with nextReadId := (s.node i).nextReadId + 1 } cl
        exact hret _ ▸ Works.reply hx cl rfl

theorem restart_works {cfg : Config} (h : s.restart W every voters i cfg = some t) : Works W every voters s a t := by
  unfold restart at h
  split at h
  · cases h; exact .stay rfl rfl le_rfl
  · obtain ⟨raft, hn, h⟩ := Option.bind_eq_some_iff.1 h
    obtain ⟨x, hx, h⟩ := Option.bind_eq_some_iff.1 h
    have hprep : s.Prepares a i { x with up := true } := by
      split at hx
      · obtain ⟨sm, -, rfl⟩ := Option.map_eq_some_iff.1 hx
        exact ⟨le_rfl, .inl, fun _ hp => hp, fun _ hr _ => hr⟩
      · cases hx
        exact ⟨le_rfl, .inl, fun _ hp => hp, fun _ hr _ => hr⟩
    refine .output (c := s.cluster.restarted i raft) hprep ?_ h
    -- a node that has just been built has nothing to hand out
    have hraft : ((s.cluster.restarted i raft).host i).raft = raft := by
      rw [show (s.cluster.restarted i raft).host i = _ from update_self ..]
    rw [Cluster.flush_empty hraft (RaftNode.new_some hn).2]
    refine Runs.tail (a := .restart i cfg) .refl (.of_ne ⟨trivial, trivial⟩ (by simp)) ?_
    simp only [Cluster.exec, hn]
    rfl

theorem exec_works (h : s.exec W every voters a = some t) (hne : s.NoStaleEcho a) : Works W every voters s a t := by
  cases a with
  | tick i =>
    simp only [exec] at h
    split at h
    · rw [← s.withNode_self i] at h
      exact .call h (.refl ..) (.of_ne ⟨trivial, trivial⟩ (by simp))
    · cases h; exact .stay rfl rfl le_rfl
  | deliver m =>
    simp only [exec] at h
    split at h
    · rename_i hup
      rw [← s.withNode_self m.dst] at h
      exact .call h (.refl ..) (.of_ne ⟨trivial, hne hup⟩ (by simp))
    · cases h; exact .stay rfl rfl le_rfl
  | request i client req =>
    cases req with
    | read opTs key =>
      have h' : s.onClientReq W every i client (.read opTs key) = some t := h
      exact onClientReq_works h'
    | write | cas =>
      simp only [exec] at h
      split at h
      · exact onClientReq_works h
      · cases h
  | wake client seq op =>
    obtain ⟨-, -, req, -, rfl⟩ := onClientWake_some h
    exact .stay rfl rfl (Nat.le_succ _)
  | response i client resp =>
    simp only [exec] at h
    split at h
    · cases h
      obtain ⟨hc, hn⟩ := s.onClientResp_frame client resp
      refine .stay hc hn ?_
      rcases s.onClientResp_cases client resp with hsame | ⟨cur, x, y, -, -, -, hdone⟩
      · rw [hsame]
      · rw [hdone]; exact Nat.le_succ _
    · cases h
  | crash i =>
    cases h
    unfold crash
    split
    · exact .stay rfl rfl le_rfl
    · refine .quiet (i := i) ?_ rfl rfl le_rfl
      exact ⟨le_rfl, fun hv => (by cases hv), fun _ hp => (by cases hp), fun _ hr _ => hr⟩
  | restart i cfg => exact restart_works h

theorem Works.reads {P : NodeId → Nat → Nat × Nat × Bytes → Prop} {R : NodeId → Nat × Nat → Prop}
    {S : Nat × CResp → Prop} (h : Works W every voters s a t) (hP : ∀ {j rid v}, s.Owes a j rid v → P j rid v)
    (hR : ∀ {j p}, p ∈ (s.node j).readyReads ∨ (j, p) ∈ t.cluster.reads → R j p)
    (hold : ∀ {j}, ∀ r ∈ (s.node j).sent, r.2.isReadDone = true → S r)
    (hS : ∀ {j rid idx v}, R j (rid, idx) → P j rid v → idx ≤ (t.node j).applied →
      S (v.1, .readDone v.2.1 ((t.node j).sm.read v.2.2))) (j : NodeId) :
    (t.node j).Reads (s.node j).nextReadId (P j) (R j) S := by
  have hprep : ∀ {i x}, s.Prepares a i x → x.Reads (s.node i).nextReadId (P i) (R i) S := fun {i x} hx =>
    ⟨hx.next, fun hv => hP (hx.pending hv), fun p hp => hR (.inl (hx.ready p hp)),
      fun r hr hd => hold r (hx.sent r hr hd) hd⟩
  cases h with
  | @quiet i x hx _ hn _ =>
    rw [hn]
    by_cases hj : j = i
    · subst hj; rw [update_self]; exact hprep hx
    · rw [update_of_ne hj]; exact hprep (.refl s a j)
  | @output i x cl n hx _ hp =>
    by_cases hj : j = i
    · subst hj
      have hself : ({ s with cluster := cl }.withNode j x).node j = x := update_self ..
      refine processOutput_reads hp (by rw [hself]; exact hprep hx) (fun p hpm => hR (.inr ?_)) hS
      have hflush : (j, p) ∈ (cl.flush j n).reads := List.mem_append_right _ (List.mem_map.2 ⟨p, hpm, rfl⟩)
      obtain ⟨x', cl', hproc, rfl⟩ := processOutput_some hp
      rcases hproc.cluster with hcl | ⟨_, _, _, hcl⟩
      · rw [hcl]; exact hflush
      · rw [hcl]; exact hflush
    · obtain ⟨x', cl', -, rfl⟩ := processOutput_some hp
      have hother : update (update s.node i x) i x' j = s.node j := by
        rw [update_of_ne hj, update_of_ne hj]
      exact hother ▸ hprep (.refl s a j)

/-- An action is a few steps of the cluster, or none. -/
theorem Works.run (h : Works W every voters s a t) :
    ∃ i b, b ≤ (t.node i).nextReadId ∧ Run voters (NumberedStep i b) s.cluster t.cluster := by
  cases h with
  | @quiet i _ _ hc => exact ⟨i, 0, Nat.zero_le _, hc ▸ .refl⟩
  | @output i x cl n _ hrun hp =>
    have hself : ({ s with cluster := cl }.withNode i x).node i = x := update_self ..
    have hnext := processOutput_reads (b := x.nextReadId) (P := fun _ _ => True) (R := fun _ => True)
      (S := fun _ => True) hp
      ⟨by rw [hself], fun _ => trivial, fun _ _ => trivial, fun _ _ _ => trivial⟩ (fun _ _ => trivial) fun _ _ _ =>
        trivial
    obtain ⟨x', cl', hproc, rfl⟩ := processOutput_some hp
    refine ⟨i, x.nextReadId, hnext.next, hrun.trans ?_⟩
    rcases hproc.cluster with rfl | ⟨snap, n', hc, rfl⟩
    · exact .refl
    · refine Runs.tail (a := .compact i x'.applied (x'.sm.snapshot W.payload)) .refl
        (.of_ne ⟨trivial, trivial⟩ (by simp)) ?_
      have hc' : ((cl.flush i n).host i).raft.compact x'.applied (x'.sm.snapshot W.payload) = (some snap, n') := hc
      simp only [Cluster.exec, hc']
      rfl

theorem Works.stamp_le (h : Works W every voters s a t) : s.stamp ≤ t.stamp := by
  cases h with
  | quiet _ _ _ hst => exact hst
  | output _ _ hp =>
    obtain ⟨x, cl, -, rfl⟩ := processOutput_some hp
    exact le_rfl

end Sim

end RaftKv

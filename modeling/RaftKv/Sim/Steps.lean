import RaftKv.Sim.Hosts

/-!
# What a step of the simulator does

One inversion lemma for each function of `Sim.Hosts`: `processOutput_some` says what a node has done
when it has processed an output, and `exec_some` what an action can be. Later modules use these and
do not unfold the simulator again.
-/

namespace RaftKv

open Function

variable {W : Wire} {every : Nat} {voters : List NodeId} {s t : Sim} {i : NodeId} {n : RaftNode} {c : Call}
  {x x' : SimNode} {e : Entry} {es : List Entry} {r : Nat × CResp}

/-! ## One node -/

/-- `r` is the response to a command of `es`, applied to the state `sm` with what precedes it. -/
def AnswersIn (W : Wire) (sm : StateMachine MemBackend) (es : List Entry) (r : Nat × CResp) : Prop :=
  ∃ es₁ e es₂ sm₁ cmd, es = es₁ ++ e :: es₂ ∧ applyAll W sm es₁ = some sm₁ ∧ e.command? W = some cmd ∧
    cmd.sessionId ≠ 0 ∧ r = (cmd.sessionId - 101, .writeDone cmd.seq (sm₁.apply cmd).1)

/-- No write is answered: the response is a retry or the value of a read. -/
def CResp.isWriteDone : CResp → Bool
  | .writeDone .. => true
  | _ => false

namespace SimNode

theorem restoreSnapshot_some {sn : Option Snapshot} (h : x.restoreSnapshot W sn = some x') :
    Restores W sn x.sm x'.sm ∧ x'.applied = (sn.map Snapshot.lastIndex).getD x.applied ∧ x'.up = x.up ∧
      x'.sent = x.sent := by
  cases sn with
  | none => cases h; exact ⟨⟨fun _ => rfl, fun hs => (by cases hs)⟩, rfl, rfl, rfl⟩
  | some snap =>
    obtain ⟨sm, hsm, rfl⟩ := Option.map_eq_some_iff.1 h
    exact ⟨⟨fun hs => (by cases hs), fun hs => (by cases hs; exact hsm)⟩, rfl, rfl, rfl⟩

theorem answer_same (x : SimNode) (cmd : Command) (result : OpResult) :
    (x.answer cmd result).sm = x.sm ∧ (x.answer cmd result).up = x.up ∧
      ∀ r ∈ (x.answer cmd result).sent, r ∈ x.sent ∨
        (cmd.sessionId ≠ 0 ∧ r = (cmd.sessionId - 101, .writeDone cmd.seq result)) := by
  unfold answer
  split
  · rename_i h
    refine ⟨rfl, rfl, fun r hr => ?_⟩
    rcases List.mem_append.1 hr with hr | hr
    · exact .inl hr
    · exact .inr ⟨h.1, List.mem_singleton.1 hr⟩
  · exact ⟨rfl, rfl, fun r hr => .inl hr⟩

theorem applyEntry_some (h : x.applyEntry W e = some x') :
    x'.applied = e.index ∧ e.applyTo W x.sm = some x'.sm ∧ x'.up = x.up ∧
      ∀ r ∈ x'.sent, r ∈ x.sent ∨ ∃ cmd, e.command? W = some cmd ∧ cmd.sessionId ≠ 0 ∧
        r = (cmd.sessionId - 101, .writeDone cmd.seq (x.sm.apply cmd).1) := by
  unfold applyEntry at h
  obtain ⟨x₁, h₁, rfl⟩ := Option.map_eq_some_iff.1 h
  unfold Entry.applyTo Entry.command?
  cases hp : e.payload with
  | normal data =>
    simp only [hp] at h₁
    cases hd : W.command.de data with
    | ok cmd =>
      simp only [hd] at h₁
      cases h₁
      obtain ⟨hsm, hup, hsent⟩ := answer_same { x with sm := (x.sm.apply cmd).2 } cmd (x.sm.apply cmd).1
      refine ⟨rfl, ?_, hup, fun r hr => (hsent r hr).imp_right fun ⟨h0, hr⟩ => ⟨cmd, by simp only [hd]; rfl, h0, hr⟩⟩
      simp only [hd]
      exact congrArg some hsm.symm
    | error x => simp only [hd] at h₁; cases h₁
  | noop | confChange =>
    simp only [hp] at h₁
    cases h₁
    exact ⟨rfl, rfl, rfl, fun r hr => .inl hr⟩

theorem applyCommitted_some (h : x.applyCommitted W es = some x') :
    x'.applied = (es.getLast?.map Entry.index).getD x.applied ∧ applyAll W x.sm es = some x'.sm ∧ x'.up = x.up ∧
      ∀ r ∈ x'.sent, r ∈ x.sent ∨ AnswersIn W x.sm es r := by
  induction es generalizing x with
  | nil => cases h; exact ⟨rfl, rfl, rfl, fun r hr => .inl hr⟩
  | cons e es ih =>
    obtain ⟨x₁, he, hrest⟩ := Option.bind_eq_some_iff.1 h
    obtain ⟨ha₁, hs₁, hu₁, hr₁⟩ := applyEntry_some he
    obtain ⟨ha, hs, hu, hr⟩ := ih hrest
    have hcons : ∀ es', applyAll W x.sm (e :: es') = applyAll W x₁.sm es' := by
      intro es'
      show (e.applyTo W x.sm).bind _ = _
      rw [hs₁]; rfl
    refine ⟨?_, by rw [hcons]; exact hs, hu.trans hu₁, fun r hmem => ?_⟩
    · rw [ha, ha₁, List.getLast?_cons]
      cases es.getLast? <;> rfl
    · rcases hr r hmem with hmem | ⟨es₁, e', es₂, sm₁, cmd, rfl, hall, hcmd, h0, rfl⟩
      · rcases hr₁ r hmem with hmem | ⟨cmd, hcmd, h0, rfl⟩
        · exact .inl hmem
        · exact .inr ⟨[], e, es, x.sm, cmd, rfl, rfl, hcmd, h0, rfl⟩
      · exact .inr ⟨e :: es₁, e', es₂, sm₁, cmd, rfl, by rw [hcons]; exact hall, hcmd, h0, rfl⟩

theorem serveReady_same (x : SimNode) (ready : List (Nat × Nat)) :
    (x.serveReady ready).sm = x.sm ∧ (x.serveReady ready).applied = x.applied ∧ (x.serveReady ready).up = x.up ∧
      ∀ r ∈ (x.serveReady ready).sent, r ∈ x.sent ∨ r.2.isWriteDone = false := by
  induction ready generalizing x with
  | nil => exact ⟨rfl, rfl, rfl, fun r hr => .inl hr⟩
  | cons p rest ih =>
    unfold serveReady
    split
    · split
      · obtain ⟨h1, h2, h3, h4⟩ := ih _
        refine ⟨h1, h2, h3, fun r hr => ?_⟩
        rcases h4 r hr with hr | hr
        · rcases List.mem_append.1 hr with hr | hr
          · exact .inl hr
          · rw [List.mem_singleton.1 hr]; exact .inr rfl
        · exact .inr hr
      · exact ih x
    · exact ih _

/-- Only what the node owes to clients differs. -/
structure Bookkeeps (x x' : SimNode) : Prop where
  up_eq : x'.up = x.up
  sm_eq : x'.sm = x.sm
  applied_eq : x'.applied = x.applied
  sent_eq : x'.sent = x.sent

theorem Bookkeeps.refl (x : SimNode) : x.Bookkeeps x := ⟨rfl, rfl, rfl, rfl⟩

end SimNode

/-! ## The output of a call -/

/-- A cluster in which the node `i` may have taken a snapshot of the state `sm` at `applied`. -/
def MaybeCompacted (cl : Cluster) (i : NodeId) (applied : Nat) (data : Bytes) (cl' : Cluster) : Prop :=
  cl' = cl ∨ ∃ snap n, (cl.host i).raft.compact applied data = (some snap, n) ∧ cl' = cl.compacted i applied snap n

theorem Cluster.compact_cases (cl : Cluster) (i : NodeId) (applied : Nat) (data : Bytes) :
    MaybeCompacted cl i applied data (cl.compact i applied data) := by
  unfold Cluster.compact
  split
  · rename_i snap n h
    exact .inr ⟨snap, n, h, rfl⟩
  · exact .inl rfl

namespace Sim

/-- What `process_output` has done when the node `i`, in state `n` after its call, is at `x`. -/
structure Processed (W : Wire) (s : Sim) (i : NodeId) (n : RaftNode) (x : SimNode) (cl : Cluster) : Prop where
  applied_eq : x.applied = n.out.appliedTo (s.node i).applied
  up_eq : x.up = (s.node i).up
  state : ∃ sm, Restores W n.out.snapshot (s.node i).sm sm ∧ applyAll W sm n.out.committed = some x.sm ∧
    ∀ r ∈ x.sent, r ∈ (s.node i).sent ∨ AnswersIn W sm n.out.committed r ∨ r.2.isWriteDone = false
  cluster : MaybeCompacted (s.cluster.flush i n) i x.applied (x.sm.snapshot W.payload) cl

theorem processOutput_some (h : s.processOutput W every i n = some t) :
    ∃ x cl, Processed W s i n x cl ∧ t = { s with cluster := cl, node := update s.node i x } := by
  unfold processOutput at h
  obtain ⟨x₁, h₁, h⟩ := Option.bind_eq_some_iff.1 h
  obtain ⟨x₂, h₂, h⟩ := Option.map_eq_some_iff.1 h
  obtain ⟨hres, ha₁, hu₁, hs₁⟩ := SimNode.restoreSnapshot_some h₁
  obtain ⟨ha₂, hall, hu₂, hs₂⟩ := SimNode.applyCommitted_some h₂
  -- what is common to a node that compacts and one that does not
  have hcommon : ∀ (x₃ : SimNode) (cl : Cluster), x₃.sm = x₂.sm → x₃.applied = x₂.applied → x₃.up = x₂.up →
      x₃.sent = x₂.sent → MaybeCompacted (s.cluster.flush i n) i x₂.applied (x₂.sm.snapshot W.payload) cl →
      Processed W s i n ({ x₃ with readyReads := [] }.serveReady (x₃.readyReads ++ n.out.readStates)) cl := by
    intro x₃ cl hsm happ hup hsent hcl
    obtain ⟨k1, k2, k3, k4⟩ := SimNode.serveReady_same { x₃ with readyReads := [] } (x₃.readyReads ++ n.out.readStates)
    have happ' := k2.trans happ
    have hsm' := k1.trans hsm
    refine ⟨?_, ((k3.trans hup).trans hu₂).trans hu₁, ⟨x₁.sm, hres, by rw [hall, hsm'], fun r hr => ?_⟩, ?_⟩
    · rw [happ', ha₂, ha₁]
      unfold Output.appliedTo
      cases n.out.committed.getLast? <;> rfl
    · rcases k4 r hr with hr | hr
      · rcases hs₂ r (hsent ▸ hr) with hr | hr
        · exact .inl (hs₁ ▸ hr)
        · exact .inr (.inl hr)
      · exact .inr (.inr hr)
    · rw [happ', hsm']; exact hcl
  split at h
  · subst h
    exact ⟨_, _, hcommon { x₂ with appliedSinceSnap := 0 } _ rfl rfl rfl rfl (Cluster.compact_cases ..), rfl⟩
  · subst h
    exact ⟨_, _, hcommon x₂ _ rfl rfl rfl rfl (.inl rfl), rfl⟩

/-! ## Actions -/

/-- The calls a node of the simulator makes: a message that was sent to it, a command of a client, its own. -/
structure Serves (W : Wire) (s : Sim) (i : NodeId) (c : Call) : Prop where
  deliverable : s.cluster.deliverable i c = true
  fixed : (Action.call i c).fixed
  proposed : ∀ {data}, c = .propose data → ∃ client seq op req, (client, req) ∈ s.requests ∧
    requestOf seq op = some req ∧ data = W.command.ser { sessionId := sessionOf client, seq, op }

/-- The node `i` of `s` put to `x`. -/
def withNode (s : Sim) (i : NodeId) (x : SimNode) : Sim := { s with node := update s.node i x }

/-- What an action does when it succeeds. -/
inductive Exec (W : Wire) (every : Nat) (voters : List NodeId) (s : Sim) : Sim → Prop
  | stay : Exec W every voters s s
  /-- A call on a node that is up, after it has noted what it will owe to a client. -/
  | call {i : NodeId} {c : Call} {n : RaftNode} {x : SimNode} {t : Sim} : (s.node i).up = true →
      (s.node i).Bookkeeps x → Serves W s i c → (s.cluster.host i).raft.call c = some n →
      (s.withNode i x).processOutput W every i n = some t → Exec W every voters s t
  | reply {i : NodeId} {c : Nat} {x : SimNode} {resp : CResp} : (s.node i).Bookkeeps x → resp.isWriteDone = false →
      Exec W every voters s (s.withNode i (x.send c resp))
  | wake {c seq : Nat} {op : Op} {t : Sim} : s.onClientWake c seq op = some t → Exec W every voters s t
  | response {i : NodeId} {c : Nat} {resp : CResp} : (c, resp) ∈ (s.node i).sent →
      Exec W every voters s (s.onClientResp c resp)
  | crash {i : NodeId} : (s.node i).up = true → Exec W every voters s (s.crash i)
  | restart {i : NodeId} {cfg : Config} {raft : RaftNode} {x : SimNode} {t : Sim} : (s.node i).up = false →
      RaftNode.new { cfg with id := i } voters (s.cluster.host i).disk = some raft →
      Restores W (s.cluster.host i).disk.snapshot (s.node i).sm x.sm →
      x.applied = ((s.cluster.host i).disk.snapshot.map Snapshot.lastIndex).getD (s.node i).applied →
      x.up = true → x.sent = (s.node i).sent →
      ({ s with cluster := s.cluster.restarted i raft }.withNode i x).processOutput W every i raft = some t →
      Exec W every voters s t

theorem withNode_self (s : Sim) (i : NodeId) : s.withNode i (s.node i) = s := by
  unfold withNode
  rw [update_eq_self]

theorem withNode_twice (s : Sim) (i : NodeId) (x x' : SimNode) : (s.withNode i x).withNode i x' = s.withNode i x' := by
  unfold withNode
  rw [update_idem]

theorem reply_withNode (s : Sim) (i : NodeId) (x : SimNode) (c : Nat) (resp : CResp) :
    (s.withNode i x).reply i c resp = s.withNode i (x.send c resp) := by
  have hx : (s.withNode i x).node i = x := update_self ..
  rw [reply, hx]
  exact s.withNode_twice i x _

theorem call_some (h : s.call W every i c = some t) :
    s.cluster.deliverable i c = true ∧ ∃ n, (s.cluster.host i).raft.call c = some n ∧
      s.processOutput W every i n = some t := by
  unfold call at h
  split at h
  · rename_i hdel
    exact ⟨hdel, Option.bind_eq_some_iff.1 h⟩
  · cases h

theorem tryPropose_exec {client seq : Nat} {op : Op} {req : CReq} (hup : (s.node i).up = true)
    (hreq : (client, req) ∈ s.requests) (hop : requestOf seq op = some req)
    (h : s.tryPropose W every i client { sessionId := sessionOf client, seq, op } = some t) :
    Exec W every voters s t := by
  unfold tryPropose at h
  split at h
  · obtain ⟨hdel, n, hn, hp⟩ := call_some h
    refine .call hup (x := { s.node i with waitingWrites := (s.node i).waitingWrites.insert (sessionOf client, seq) })
      ⟨rfl, rfl, rfl, rfl⟩ ⟨hdel, trivial, fun hd => ?_⟩ hn hp
    cases hd
    exact ⟨client, seq, op, req, hreq, hop, rfl⟩
  · cases h; exact .reply (.refl _) rfl
  · cases h; exact .reply (.refl _) rfl

theorem onClientReq_exec {client : Nat} {req : CReq}
    (hreq : (∃ opTs key, req = .read opTs key) ∨ (client, req) ∈ s.requests)
    (h : s.onClientReq W every i client req = some t) : Exec W every voters s t := by
  unfold onClientReq at h
  split at h
  · cases h; exact .stay
  · rename_i hdown
    have hup : (s.node i).up = true := by simpa using hdown
    cases req with
    | write seq key value =>
      have hmem := hreq.resolve_left fun ⟨_, _, h'⟩ => (by cases h')
      exact tryPropose_exec hup hmem rfl h
    | cas seq key expect new =>
      have hmem := hreq.resolve_left fun ⟨_, _, h'⟩ => (by cases h')
      exact tryPropose_exec hup hmem rfl h
    | read opTs key =>
      dsimp only at h
      split at h
      · obtain ⟨hdel, n, hn, hp⟩ := call_some h
        refine .call hup (x := { s.node i with
            nextReadId := (s.node i).nextReadId + 1
            pendingReads := (s.node i).pendingReads.insert (s.node i).nextReadId (client, opTs, key) })
          ⟨rfl, rfl, rfl, rfl⟩ ⟨hdel, trivial, fun hd => (by cases hd)⟩ hn ?_
        rw [← s.withNode_twice i { s.node i with nextReadId := (s.node i).nextReadId + 1 }]
        exact hp
      all_goals
        cases h
        have hret := s.reply_withNode i { s.node i with nextReadId := (s.node i).nextReadId + 1 } client
        exact hret _ ▸ .reply ⟨rfl, rfl, rfl, rfl⟩ rfl

theorem restart_exec {cfg : Config} (h : s.restart W every voters i cfg = some t) : Exec W every voters s t := by
  unfold restart at h
  split at h
  · cases h; exact .stay
  · rename_i hup
    obtain ⟨raft, hn, h⟩ := Option.bind_eq_some_iff.1 h
    obtain ⟨x, hx, h⟩ := Option.bind_eq_some_iff.1 h
    have hdown : (s.node i).up = false := by simpa using hup
    cases hs : (s.cluster.host i).disk.snapshot with
    | none =>
      rw [hs] at hx
      cases hx
      refine .restart hdown hn (x := { s.node i with up := true }) ?_ (by rw [hs]; rfl) rfl rfl h
      rw [hs]
      exact ⟨fun _ => rfl, fun h' => (by cases h')⟩
    | some snap =>
      rw [hs] at hx
      obtain ⟨sm, hsm, rfl⟩ := Option.map_eq_some_iff.1 hx
      refine .restart hdown hn (x := { s.node i with sm, applied := snap.lastIndex, up := true }) ?_ (by rw [hs]; rfl)
        rfl rfl h
      rw [hs]
      exact ⟨fun h' => (by cases h'), fun h' => (by cases h'; exact hsm)⟩

theorem exec_some {a : SimAction} (h : s.exec W every voters a = some t) : Exec W every voters s t := by
  have hcall : ∀ i c, (Action.call i c).fixed → (∀ {data}, c ≠ .propose data) → (s.node i).up = true →
      s.call W every i c = some t → Exec W every voters s t := by
    intro i c hfix hnp hup hc
    obtain ⟨hdel, n, hn, hp⟩ := call_some hc
    rw [← s.withNode_self i] at hp
    exact .call hup (.refl _) ⟨hdel, hfix, fun hd => absurd hd hnp⟩ hn hp
  cases a with
  | tick i =>
    simp only [exec] at h
    split at h
    · rename_i hup
      exact hcall i .tick trivial (fun h' => (by cases h')) hup h
    · cases h; exact .stay
  | deliver m =>
    simp only [exec] at h
    split at h
    · rename_i hup
      exact hcall m.dst (.step m) trivial (fun h' => (by cases h')) hup h
    · cases h; exact .stay
  | request i client req =>
    cases req with
    | read opTs key => exact onClientReq_exec (.inl ⟨opTs, key, rfl⟩) h
    | write | cas =>
      simp only [exec] at h
      split at h
      · rename_i hmem
        exact onClientReq_exec (.inr hmem) h
      · cases h
  | wake client seq op => exact .wake h
  | response i client resp =>
    simp only [exec] at h
    split at h
    · rename_i hmem
      cases h
      exact .response hmem
    · cases h
  | crash i =>
    cases h
    cases hup : (s.node i).up with
    | true => exact .crash hup
    | false =>
      have hsame : s.crash i = s := by unfold crash; simp [hup]
      rw [hsame]; exact .stay
  | restart i cfg => exact restart_exec h

end Sim

end RaftKv

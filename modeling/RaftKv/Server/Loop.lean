import RaftKv.Kvsm.Replay
import RaftKv.Server.Core

/-!
# One turn of the event loop

The server handles a queue of events and then takes the output once. `Queue` says what the queue
does: a batch of calls on the raft node, and nothing to the state machine. `Passed` says what
`process_output` does with the collected output: it restores the snapshot, applies the committed
entries to the restored state and may compact the log at the index it has reached.

`unmixed` is the condition under which this is the right order: no snapshot is installed while
entries wait in the output, since the source persists and restores the snapshot first and handles
the entries after (`core.rs:357-382`).
-/

namespace RaftKv

open RaftNode

/-! ## What events change

Between two calls of `process_output` only the raft node moves, by calls; the state machine and the
applied index stay. -/

/-- A call the server makes of itself, not for a message. -/
def Call.own : Call → Bool
  | .tick | .propose _ | .readIndex _ => true
  | _ => false

/-- The event resets the node to a snapshot. -/
def Event.resets (n : RaftNode) : Event → Bool
  | .peer m => (Call.step m).resets n
  | _ => false

namespace Core

variable {W : Wire} {c c' c₁ c₂ : Core}

/-- No event of the queue resets the node while entries wait in the part `f` of its output. -/
def unmixed (W : Wire) (f : Output → List Entry) (c : Core) : List Event → Bool
  | [] => true
  | e :: es => (!e.resets c.raft || (f c.raft.out).isEmpty) && (c.handleEvent W e).all fun c => c.unmixed W f es

/-- At most one call, with a property. -/
def Makes (n n' : RaftNode) (P : Call → Prop) : Prop :=
  n' = n ∨ ∃ call, n.call call = some n' ∧ P call

theorem proposeWrite_makes (c : Core) (sessionId seq : Nat) (op : Op) (tx : Nat) :
    Makes c.raft (c.proposeWrite W sessionId seq op tx).raft (fun call => call.own = true) ∧
    (c.proposeWrite W sessionId seq op tx).sm = c.sm ∧ (c.proposeWrite W sessionId seq op tx).applied = c.applied := by
  unfold proposeWrite
  split
  · exact ⟨.inl rfl, rfl, rfl⟩
  · dsimp only
    split <;> rename_i hp <;>
    · refine ⟨.inr ⟨.propose (W.command.ser { sessionId, seq, op }), ?_, rfl⟩, rfl, rfl⟩
      exact congrArg (fun r => some r.2) hp

theorem handleRead_makes (c : Core) (req : ReadReq) (consistency : Consistency) (tx : Nat) :
    Makes c.raft (c.handleRead req consistency tx).raft (fun call => call.own = true) ∧
    (c.handleRead req consistency tx).sm = c.sm ∧ (c.handleRead req consistency tx).applied = c.applied := by
  unfold handleRead
  cases consistency with
  | stale => exact ⟨.inl rfl, rfl, rfl⟩
  | leaderLease =>
    dsimp only
    split
    · exact ⟨.inl rfl, rfl, rfl⟩
    · split <;> exact ⟨.inl rfl, rfl, rfl⟩
  | linearizable =>
    dsimp only
    split <;> rename_i hp <;>
    · refine ⟨.inr ⟨.readIndex c.nextReadId, ?_, rfl⟩, rfl, rfl⟩
      exact congrArg (fun r => some r.2) hp

/-- An event makes one step for a message, and at most one call of the server's own otherwise. -/
theorem handleEvent_makes {e : Event} (h : c.handleEvent W e = some c') :
    Makes c.raft c'.raft (fun call => (∃ m, e = .peer m ∧ call = .step m) ∨ call.own = true) ∧
    c'.sm = c.sm ∧ c'.applied = c.applied := by
  have hown : ∀ {n' : RaftNode}, Makes c.raft n' (fun call => call.own = true) →
      Makes c.raft n' (fun call => (∃ m, e = .peer m ∧ call = .step m) ∨ call.own = true) :=
    fun hm => hm.imp_right fun ⟨call, hc, ho⟩ => ⟨call, hc, .inr ho⟩
  cases e with
  | tick =>
    cases h
    exact ⟨hown (.inr ⟨.tick, rfl, rfl⟩), rfl, rfl⟩
  | peer m =>
    obtain ⟨raft, hr, rfl⟩ := Option.map_eq_some_iff.1 h
    exact ⟨.inr ⟨.step m, hr, .inl ⟨m, rfl, rfl⟩⟩, rfl, rfl⟩
  | client req tx =>
    cases h
    cases req with
    | put | delete | cas =>
      obtain ⟨hm, hsm, happ⟩ := proposeWrite_makes c (W := W) _ _ _ tx
      exact ⟨hown hm, hsm, happ⟩
    | get | scan =>
      obtain ⟨hm, hsm, happ⟩ := handleRead_makes c _ _ tx
      exact ⟨hown hm, hsm, happ⟩
    | status => exact ⟨hown (.inl rfl), rfl, rfl⟩

/-- The calls `cs` that the queue `es` makes on the node of `c`, which leave it as in `c'`. -/
structure Queue (W : Wire) (c : Core) (es : List Event) (c' : Core) (cs : List Call) : Prop where
  calls : c.raft.calls cs = some c'.raft
  sm_eq : c'.sm = c.sm
  applied_eq : c'.applied = c.applied
  served : ∀ call ∈ cs, (∃ m, .peer m ∈ es ∧ call = .step m) ∨ call.own = true
  apart : ∀ {f}, c.unmixed W f es = true → ∀ ⦃cs' call n₀⦄, cs' ++ [call] <+: cs → c.raft.calls cs' = some n₀ →
    call.resets n₀ = true → f n₀.out = []

theorem resets_not_own {call : Call} {n : RaftNode} (h : call.resets n = true) : call.own = false := by
  cases call with
  | step m => rfl
  | proposeConfChange cc => rfl
  | tick | propose | readIndex => cases h

theorem handleEvents_calls {es : List Event} (h : c.handleEvents W es = some c') : ∃ cs, Queue W c es c' cs := by
  induction es generalizing c with
  | nil =>
    cases h
    exact ⟨[], rfl, rfl, rfl, by simp, fun _ _ _ _ hp => by simp at hp⟩
  | cons e es ih =>
    obtain ⟨c₁, he, h⟩ := Option.bind_eq_some_iff.1 h
    obtain ⟨cs, hq⟩ := ih h
    obtain ⟨hmakes, hsm, happ⟩ := handleEvent_makes he
    have hserved : ∀ call ∈ cs, (∃ m, .peer m ∈ e :: es ∧ call = .step m) ∨ call.own = true := by
      intro call hc
      refine (hq.served call hc).imp_left ?_
      rintro ⟨m, hm, rfl⟩
      exact ⟨m, by simp [hm], rfl⟩
    have hrest : ∀ {f}, c.unmixed W f (e :: es) = true →
        (e.resets c.raft = true → f c.raft.out = []) ∧ c₁.unmixed W f es = true := by
      intro f hu
      simpa [unmixed, he, imp_iff_not_or] using hu
    rcases hmakes with hraft | ⟨call₁, hcall, hs₁⟩
    · refine ⟨cs, by rw [← hraft]; exact hq.calls, hq.sm_eq.trans hsm, hq.applied_eq.trans happ, hserved, fun hu => ?_⟩
      rw [← hraft]; exact hq.apart (hrest hu).2
    · refine ⟨call₁ :: cs, ?_, hq.sm_eq.trans hsm, hq.applied_eq.trans happ, fun call hc => ?_,
        fun hu cs' call n₀ hp hn₀ hr => ?_⟩
      · show (c.raft.call call₁).bind _ = _
        rw [hcall]; exact hq.calls
      · rcases List.mem_cons.1 hc with rfl | hc
        · refine hs₁.imp_left ?_
          rintro ⟨m, rfl, rfl⟩
          exact ⟨m, by simp, rfl⟩
        · exact hserved call hc
      · cases cs' with
        | nil =>
          obtain rfl : call = call₁ := by simpa using hp
          cases hn₀
          rcases hs₁ with ⟨m, rfl, rfl⟩ | ho
          · exact (hrest hu).1 hr
          · rw [resets_not_own hr] at ho; cases ho
        | cons call' cs' =>
          obtain ⟨rfl, hrun⟩ : call' = call₁ ∧ cs' ++ [call] <+: cs := by
            rwa [List.cons_append, List.cons_prefix_cons] at hp
          obtain ⟨n, hn, hn₀⟩ := Option.bind_eq_some_iff.1 hn₀
          rw [hcall] at hn; cases hn
          exact hq.apart (hrest hu).2 hrun hn₀ hr

end Core

/-! ## What the output changes -/

/-- The state machine that a log stands for. -/
def stateAfter (W : Wire) (es : List Entry) : Option (StateMachine DbBackend) :=
  applyAll W (StateMachine.new ⟨∅⟩) es

namespace Core

variable {W : Wire} {c c' c₁ c₂ : Core}

/-- The state machine is restored from a snapshot or not at all. -/
theorem restoreSnapshot_some {sn : Option Snapshot} (h : c.restoreSnapshot W sn = some c') :
    c'.raft = c.raft ∧ c'.applied = (sn.map Snapshot.lastIndex).getD c.applied ∧
      (sn = none → c'.sm = c.sm) ∧ (∀ {snap}, sn = some snap → c.sm.restore W.payload snap.data = some c'.sm) := by
  cases sn with
  | none => cases h; exact ⟨rfl, rfl, fun _ => rfl, fun hs => (by cases hs)⟩
  | some snap =>
    obtain ⟨sm, hsm, rfl⟩ := Option.map_eq_some_iff.1 h
    exact ⟨rfl, rfl, fun hs => (by cases hs), fun hs => (by cases hs; exact hsm)⟩

theorem answerWrite_sm (c : Core) (cmd : Command) (result : OpResult) :
    (c.answerWrite cmd result).raft = c.raft ∧ (c.answerWrite cmd result).sm = c.sm := by
  unfold answerWrite
  split <;> exact ⟨rfl, rfl⟩

theorem applyEntry_some {e : Entry} (h : c.applyEntry W e = some c') :
    c'.raft = c.raft ∧ c'.applied = e.index ∧ e.applyTo W c.sm = some c'.sm := by
  unfold applyEntry at h
  obtain ⟨c₁, h₁, rfl⟩ := Option.map_eq_some_iff.1 h
  unfold Entry.applyTo
  cases hp : e.payload with
  | normal data =>
    simp only [hp] at h₁
    split at h₁
    · rename_i cmd hcmd
      cases h₁
      obtain ⟨hr, hs⟩ := answerWrite_sm { c with sm := (c.sm.apply cmd).2 } cmd (c.sm.apply cmd).1
      refine ⟨hr, rfl, ?_⟩
      simp only [hcmd]
      exact congrArg some hs.symm
    · cases h₁
  | noop | confChange =>
    simp only [hp] at h₁
    cases h₁
    exact ⟨rfl, rfl, rfl⟩

theorem applyCommitted_some {es : List Entry} (h : c.applyCommitted W es = some c') :
    c'.raft = c.raft ∧ c'.applied = (es.getLast?.map Entry.index).getD c.applied ∧ applyAll W c.sm es = some c'.sm := by
  induction es generalizing c with
  | nil => cases h; exact ⟨rfl, rfl, rfl⟩
  | cons e es ih =>
    obtain ⟨c₁, he, h⟩ := Option.bind_eq_some_iff.1 h
    obtain ⟨hr₁, ha₁, hs₁⟩ := applyEntry_some he
    obtain ⟨hr, ha, hs⟩ := ih h
    refine ⟨hr.trans hr₁, ?_, ?_⟩
    · rw [ha, ha₁, List.getLast?_cons]
      cases es.getLast? <;> rfl
    · show (e.applyTo W c.sm).bind _ = _
      rw [hs₁]; exact hs

theorem serveReady_same (c : Core) (ready : List (Nat × Nat)) :
    (c.serveReady ready).raft = c.raft ∧ (c.serveReady ready).sm = c.sm ∧
      (c.serveReady ready).applied = c.applied := by
  induction ready generalizing c with
  | nil => exact ⟨rfl, rfl, rfl⟩
  | cons r rest ih =>
    unfold serveReady
    refine ⟨(ih _).1.trans ?_, (ih _).2.1.trans ?_, (ih _).2.2.trans ?_⟩ <;>
    · split
      · split <;> rfl
      · rfl

/-- A compaction is one of the node at the applied index, with the state machine's snapshot. -/
theorem maybeCompact_cases (c : Core) : (c.maybeCompact W).2.sm = c.sm ∧ (c.maybeCompact W).2.applied = c.applied ∧
    (((c.maybeCompact W).1 = none ∧ (c.maybeCompact W).2.raft = c.raft) ∨
      c.raft.compact c.applied (c.sm.snapshot W.payload) = ((c.maybeCompact W).1, (c.maybeCompact W).2.raft)) := by
  unfold maybeCompact
  split
  · exact ⟨rfl, rfl, .inr rfl⟩
  · exact ⟨rfl, rfl, .inl ⟨rfl, rfl⟩⟩

/-- What `process_output` does to the server. -/
structure Passed (W : Wire) (c : Core) (r : Processed) : Prop where
  messages_eq : r.messages = c.raft.out.messages
  applied_eq : r.core.applied = c.raft.out.appliedTo c.applied
  state : ∃ sm, (c.raft.out.snapshot = none → sm = c.sm) ∧
    (∀ {snap}, c.raft.out.snapshot = some snap → c.sm.restore W.payload snap.data = some sm) ∧
    applyAll W sm c.raft.out.committed = some r.core.sm
  raft : (r.compacted = none ∧ r.core.raft = c.raft.takeOutput.2) ∨ ∃ snap, r.compacted = some snap ∧
    c.raft.takeOutput.2.compact r.core.applied (r.core.sm.snapshot W.payload) = (some snap, r.core.raft)

theorem isEmpty_eq {o : Output} (h : o.isEmpty = true) : o = {} := by
  cases o
  simp only [Output.isEmpty, Bool.and_eq_true, List.isEmpty_iff, Option.isNone_iff_eq_none] at h
  simp [h]

theorem compact_none {n n' : RaftNode} {applied : Nat} {data : Bytes} (h : n.compact applied data = (none, n')) :
    n' = n := by
  unfold compact at h
  split at h
  · cases h; rfl
  · split at h
    · cases h; rfl
    · cases h

theorem processOutput_passed {r : Processed} (h : c.processOutput W = some r) : Passed W c r := by
  unfold processOutput at h
  dsimp only at h
  split at h
  · rename_i he
    have ho : c.raft.out = {} := isEmpty_eq he
    cases h
    refine ⟨by rw [ho], by rw [ho]; rfl, ⟨c.sm, fun _ => rfl, fun hs => ?_, by rw [ho]; rfl⟩, .inl ⟨rfl, rfl⟩⟩
    rw [ho] at hs; cases hs
  · obtain ⟨c₁, h₁, h⟩ := Option.bind_eq_some_iff.1 h
    obtain ⟨c₂, h₂, rfl⟩ := Option.map_eq_some_iff.1 h
    obtain ⟨hr₁, ha₁, hnone, hsome⟩ := restoreSnapshot_some h₁
    obtain ⟨hr₂, ha₂, hs₂⟩ := applyCommitted_some h₂
    obtain ⟨hsm, happ, hraft⟩ := maybeCompact_cases (W := W) c₂
    obtain ⟨hr, hs, ha⟩ := serveReady_same { (c₂.maybeCompact W).2 with readyReads := [] }
      ((c₂.maybeCompact W).2.readyReads ++ c.raft.takeOutput.1.readStates)
    have hs' := hs.trans hsm
    have ha' := ha.trans happ
    have htaken : c₂.raft = c.raft.takeOutput.2 := hr₂.trans hr₁
    refine ⟨rfl, ha'.trans ?_, ⟨c₁.sm, hnone, hsome, hs₂.trans (congrArg some hs'.symm)⟩, ?_⟩
    · rw [ha₂, ha₁]
      unfold Output.appliedTo takeOutput
      cases c.raft.out.committed.getLast? <;> rfl
    · rw [hs', ha', hr, ← htaken]
      rcases hraft with hraft | hraft
      · exact .inl hraft
      · cases hsn : (c₂.maybeCompact W).1 with
        | none =>
          rw [hsn] at hraft
          exact .inl ⟨rfl, compact_none hraft⟩
        | some snap =>
          rw [hsn] at hraft
          exact .inr ⟨snap, rfl, hraft⟩

/-- One pass leaves the output empty, so the loop of the source ends after it. -/
theorem processOutput_drained {r : Processed} (h : c.processOutput W = some r) : r.core.raft.out = {} := by
  rcases (processOutput_passed h).raft with ⟨_, hr⟩ | ⟨snap, _, hr⟩
  · rw [hr]; rfl
  · obtain ⟨_, _, _, _, _, hn⟩ := compact_some hr
    rw [hn]; rfl

end Core

end RaftKv

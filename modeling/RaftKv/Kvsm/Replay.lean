import RaftKv.Kvsm.ExactlyOnce
import RaftKv.Raft.Commits

/-!
# The state a log stands for

A host feeds the committed entries to its state machine: a normal entry holds an encoded command,
the others do nothing. `applyAll` is the state after a list of entries, and the hosts of both the
server (`server/src/core.rs:371`) and the simulator (`sim/src/cluster.rs:430`) are measured against
it.

A snapshot is `Faithful` when it holds the state of the prefix it was taken of. Then it does not
matter which way a host reached an index: `Handed.replay` says that restoring the snapshot of an
output, if there is one, and applying its committed entries gives the state of the committed prefix.
-/

namespace RaftKv

variable {B : Type} [Backend B] {W : Wire} {b : B} {sm sm' sm₀ sm₁ : StateMachine B} {es es' : List Entry}

/-- The effect of an entry on a state machine: a normal entry is a command, the others are none. -/
def Entry.applyTo (W : Wire) (sm : StateMachine B) (e : Entry) : Option (StateMachine B) :=
  match e.payload with
  | .normal data =>
    match W.command.de data with
    | .ok cmd => some (sm.apply cmd).2
    | .error _ => none
  | _ => some sm

/-- The entries in order, each once. -/
def applyAll (W : Wire) (sm : StateMachine B) (es : List Entry) : Option (StateMachine B) :=
  es.foldlM (Entry.applyTo W) sm

theorem applyAll_append (W : Wire) (sm : StateMachine B) (es es' : List Entry) :
    applyAll W sm (es ++ es') = (applyAll W sm es).bind fun sm => applyAll W sm es' := List.foldlM_append

/-! ## The commands of a log -/

/-- The command an entry holds. -/
def Entry.command? (W : Wire) (e : Entry) : Option Command :=
  match e.payload with
  | .normal data => (W.command.de data).toOption
  | _ => none

/-- The commands of a log, in order. -/
def commands (W : Wire) (es : List Entry) : List Command := es.filterMap (Entry.command? W)

@[simp] theorem commands_nil (W : Wire) : commands W [] = [] := rfl

theorem commands_append (W : Wire) (es es' : List Entry) :
    commands W (es ++ es') = commands W es ++ commands W es' := List.filterMap_append ..

theorem mem_commands {c : Command} : c ∈ commands W es ↔ ∃ e ∈ es, e.command? W = some c := List.mem_filterMap

theorem Entry.applyTo_some {e : Entry} (h : e.applyTo W sm = some sm') :
    (e.command? W = none ∧ sm' = sm) ∨ ∃ c, e.command? W = some c ∧ sm' = (sm.apply c).2 := by
  unfold applyTo at h
  unfold command?
  cases hp : e.payload with
  | normal data =>
    simp only [hp] at h
    cases hd : W.command.de data with
    | ok c =>
      simp only [hd] at h
      cases h
      exact Or.inr ⟨c, by simp only [hd]; rfl, rfl⟩
    | error x => simp only [hd] at h; cases h
  | noop | confChange =>
    simp only [hp] at h
    cases h
    exact Or.inl ⟨rfl, rfl⟩

/-- The state after a log is the one its commands account for. -/
theorem applyAll_tracks {cmds : List Command} (ht : Tracks b cmds sm) (h : applyAll W sm es = some sm') :
    Tracks b (cmds ++ commands W es) sm' := by
  induction es generalizing cmds sm with
  | nil =>
    cases h
    rw [commands_nil, List.append_nil]; exact ht
  | cons e es ih =>
    obtain ⟨sm₁, he, hes⟩ := Option.bind_eq_some_iff.1 h
    rcases Entry.applyTo_some he with ⟨hc, rfl⟩ | ⟨c, hc, rfl⟩
    · rw [commands, List.filterMap_cons_none hc]
      exact ih ht hes
    · have := ih (ht.apply c) hes
      rw [commands, List.filterMap_cons_some hc]
      rwa [List.append_assoc] at this

theorem tracks_of_applyAll (h : applyAll W (StateMachine.new b) es = some sm) : Tracks b (commands W es) sm := by
  have := applyAll_tracks (Tracks.init b) h
  rwa [List.nil_append] at this

/-! ## Snapshots -/

/-- Every recorded snapshot holds the state its prefix stands for. -/
def FaithfulTo (W : Wire) (b : B) (rec : Snapshot → List Entry → Prop) : Prop :=
  ∀ ⦃snap p⦄, rec snap p → ∃ sm, applyAll W (StateMachine.new b) p = some sm ∧ snap.data = sm.snapshot W.payload

/-- What a host does with the snapshot of an output before it applies the committed entries. -/
def Restores (W : Wire) (sn : Option Snapshot) (sm sm' : StateMachine B) : Prop :=
  (sn = none → sm' = sm) ∧ ∀ {snap}, sn = some snap → sm.restore W.payload snap.data = some sm'

section hosts
variable [LawfulBackend B] {rec : Snapshot → List Entry → Prop} {g : Ghost} {i : NodeId} {n : RaftNode}
  {start : List Entry}

/-- A recorded snapshot restores the state of its prefix, over any other state. -/
theorem FaithfulTo.restore (h : FaithfulTo W b rec) {snap : Snapshot} {p : List Entry} (hp : rec snap p)
    (hr : sm.restore W.payload snap.data = some sm') : applyAll W (StateMachine.new b) p = some sm' := by
  obtain ⟨sm₀, hst, hdata⟩ := h hp
  rw [hdata, StateMachine.restore_snapshot] at hr
  rw [hst, hr]

/-- The committed entries of an output are applied to the state of what precedes them. -/
theorem Handed.restored (h : Handed rec start i g n) (hf : FaithfulTo W b rec)
    (hstart : applyAll W (StateMachine.new b) start = some sm₀) (hr : Restores W n.out.snapshot sm₀ sm₁) :
    ∃ p, (g.led.log i).take n.commit = p ++ n.out.committed ∧ applyAll W (StateMachine.new b) p = some sm₁ := by
  obtain ⟨p, hnone, hsome, htake⟩ := h
  refine ⟨p, htake, ?_⟩
  cases hs : n.out.snapshot with
  | none => rw [hnone hs, hr.1 hs]; exact hstart
  | some snap => exact hf.restore (hsome hs) (hr.2 hs)

/-- The state after the output is processed. -/
theorem Handed.replay (h : Handed rec start i g n) (hf : FaithfulTo W b rec)
    (hstart : applyAll W (StateMachine.new b) start = some sm₀) (hr : Restores W n.out.snapshot sm₀ sm₁)
    (hall : applyAll W sm₁ n.out.committed = some sm) :
    applyAll W (StateMachine.new b) ((g.led.log i).take n.commit) = some sm := by
  obtain ⟨p, htake, hprefix⟩ := h.restored hf hstart hr
  rw [htake, applyAll_append, hprefix]
  exact hall

end hosts

end RaftKv

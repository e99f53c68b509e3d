import Mathlib.Data.List.TakeWhile
import RaftKv.Raft.Calls
import RaftKv.Raft.Logical

/-!
# What one Output makes durable

| here | there |
| --- | --- |
| `Persisted.appendOne`  | the loop body over `out.append` (`sim/src/cluster.rs:420-426`): truncate from the entry's index, then append |
| `Persisted.persist`    | step (1) of `process_output` (`sim/src/cluster.rs:406-427`): hard state, snapshot, append |
| `Persisted.compactTo`  | what the host stores for a compaction (`sim/src/cluster.rs:460-463`) |
| `RaftNode.calls`       | the calls the server makes between two `take_output` (`server/src/core.rs:126-148`) |

`Durable d n` says that persisting the output collected in `n` over the durable copy `d` yields the
node's own hard state, snapshot and entries. Every move keeps it, except the installation of a
snapshot behind appended entries: the output has one `snapshot` and one `append` field, and the
host persists the snapshot first.
-/

namespace RaftKv

open Relation RaftNode

namespace Persisted

def appendOne (entries : List Entry) (e : Entry) : List Entry :=
  entries.takeWhile (fun x => x.index < e.index) ++ [e]

def persist (d : Persisted) (o : Output) : Persisted :=
  let d := match o.hardState with
    | some hs => { d with hardState := hs }
    | none => d
  let d := match o.snapshot with
    | some s => { d with snapshot := some s, entries := [] }
    | none => d
  { d with entries := o.append.foldl appendOne d.entries }

def compactTo (d : Persisted) (s : Snapshot) : Persisted :=
  { d with snapshot := some s, entries := d.entries.filter fun e => e.index > s.lastIndex }

theorem persist_eq (d : Persisted) (o : Output) :
    d.persist o =
      { hardState := o.hardState.getD d.hardState
        snapshot := o.snapshot.or d.snapshot
        entries := o.append.foldl appendOne (if o.snapshot.isSome then [] else d.entries) } := by
  unfold persist
  cases o.hardState <;> cases o.snapshot <;> rfl

end Persisted

/-- What a node needs to find on disk after a crash. -/
def RaftNode.durable (n : RaftNode) : Persisted :=
  { hardState := n.hs, entries := n.log.entries, snapshot := n.snapshot }

/-- The durable copy `d` agrees with `n` once the output collected so far is persisted. -/
def Durable (d : Persisted) (n : RaftNode) : Prop := d.persist n.out = n.durable

theorem durable_iff {d : Persisted} {n : RaftNode} : Durable d n ↔
    n.out.hardState.getD d.hardState = n.hs ∧ n.out.snapshot.or d.snapshot = n.snapshot ∧
      n.out.append.foldl Persisted.appendOne (if n.out.snapshot.isSome then [] else d.entries) = n.log.entries := by
  unfold Durable RaftNode.durable
  rw [Persisted.persist_eq]
  constructor
  · intro h
    injection h with h1 h2 h3
    exact ⟨h1, h3, h2⟩
  · rintro ⟨h1, h2, h3⟩
    rw [h1, h2, h3]

/-! ## The appended entries -/

/-- An entry with the next index is appended without truncation. -/
theorem appendOne_next {log : RaftLog} {e : Entry} (h : e.index = log.lastIndex + 1) :
    Persisted.appendOne log.entries e = log.entries ++ [e] := by
  have hall : ∀ x ∈ log.entries, decide (x.index < e.index) = true := by
    intro x hx
    obtain ⟨k, hk⟩ := List.getElem?_of_mem hx
    have hlt := (List.getElem?_eq_some_iff.1 hk).1
    have := log.contiguous k x hk
    rw [RaftLog.lastIndex] at h
    simp; omega
  unfold Persisted.appendOne
  rw [List.takeWhile_eq_self_iff.2 hall]

theorem foldl_appendOne_pushAll : ∀ {es : List Entry} {log log' : RaftLog},
    pushAll log es = some log' → es.foldl Persisted.appendOne log.entries = log'.entries
  | [], _, _, h => by cases h; rfl
  | e :: es, log, log', h => by
    unfold pushAll at h
    split at h
    · rename_i he
      rw [List.foldl_cons, appendOne_next he]
      exact foldl_appendOne_pushAll h
    · cases h

/-- Truncating the log at an index is what the host does before it appends there. -/
theorem entries_truncateFrom_eq {log : RaftLog} {idx : Nat} (h : log.snapIndex < idx) :
    (log.truncateFrom idx h).entries = log.entries.takeWhile fun x => x.index < idx := by
  have htw := takeWhile_index (idx - 1) log.entries (log.snapIndex + 1) log.contiguous
  rw [RaftLog.entries_truncateFrom]
  rw [show idx - 1 + 1 - (log.snapIndex + 1) = idx - log.snapIndex - 1 by omega] at htw
  rw [← htw]
  refine congrFun (congrArg _ (funext fun x => ?_)) _
  simp; omega

/-- The two loops of `handle_append_entries` are what the host repeats on its copy. -/
theorem foldl_appendOne_adopt : ∀ {es new : List Entry} {log log₁ log' : RaftLog} {commit : Nat},
    RaftNode.findNew log commit es = some (log₁, new) → pushAll log₁ new = some log' →
    new.foldl Persisted.appendOne log.entries = log'.entries
  | [], _, log, log₁, log', _, hf, hp => by
    cases hf; cases hp; rfl
  | e :: es, new, log, log₁, log', commit, hf, hp => by
    unfold RaftNode.findNew at hf
    split at hf
    · split at hf
      · exact foldl_appendOne_adopt hf hp
      · split at hf
        · rename_i hlt
          cases hf
          rw [← foldl_appendOne_pushAll hp, List.foldl_cons, List.foldl_cons]
          unfold Persisted.appendOne
          rw [entries_truncateFrom_eq hlt.2, List.takeWhile_idem]
        · cases hf
    · cases hf
      exact foldl_appendOne_pushAll hp

/-! ## Moves -/

variable {d : Persisted} {c : Call} {n n' n₀ : RaftNode}

theorem Durable.setHs {out : Output} (h : Durable d n) {hs : HardState}
    (hout : out.append = n.out.append ∧ out.snapshot = n.out.snapshot)
    (hhs : out.hardState = some hs ∨ (out.hardState = n.out.hardState ∧ hs = n.hs)) :
    Durable d { n with hs, out } := by
  obtain ⟨h1, h2, h3⟩ := durable_iff.1 h
  refine durable_iff.2 ⟨?_, ?_, ?_⟩
  · rcases hhs with hsome | ⟨hsame, rfl⟩
    · rw [hsome]; rfl
    · rw [hsame]; exact h1
  · rw [hout.2]; exact h2
  · rw [hout.1, hout.2]; exact h3

theorem Durable.setTerm (h : Durable d n) (t : Nat) : Durable d (n.setTerm t) := by
  unfold RaftNode.setTerm
  split
  · exact h.setHs ⟨rfl, rfl⟩ (Or.inl rfl)
  · exact h

theorem Durable.setVote (h : Durable d n) (v : Option NodeId) : Durable d (n.setVote v) := by
  unfold RaftNode.setVote
  split
  · exact h.setHs ⟨rfl, rfl⟩ (Or.inl rfl)
  · exact h

theorem Durable.becomeFollower (h : Durable d n) (t : Nat) (l : Option NodeId) :
    Durable d (n.becomeFollower t l) := by
  unfold RaftNode.becomeFollower
  split
  · exact (h.setTerm t).setVote none
  · exact h

/-- A call that takes the reset branch of `handle_install_snapshot` (`node.rs:941-953`). -/
def Call.resets (n : RaftNode) : Call → Bool
  | .step m =>
    match m.body with
    | .installSnapshot s => decide (n.hs.term ≤ m.term ∧ n.commit < s.lastIndex ∧
        n.log.term s.lastIndex ≠ some s.lastTerm)
    | _ => false
  | _ => false

/-- A handler that gets to the reset has been called in a state that allows it. -/
theorem Call.resets_of_install {m : Message} {s : Snapshot} (hu : Untouched n₀ n) (ht : m.term = n.hs.term)
    (hb : m.body = .installSnapshot s) (hlt : n.commit < s.lastIndex)
    (hterm : n.log.term s.lastIndex ≠ some s.lastTerm) : (Call.step m).resets n₀ = true := by
  rw [hu.commit] at hlt
  rw [hu.log] at hterm
  simp only [Call.resets, hb]
  exact decide_eq_true ⟨by rw [ht]; exact hu.term, hlt, hterm⟩

/-- A move, as far as the log and what the output says of it are concerned. -/
inductive LogMove (c : Call) (n₀ n : RaftNode) : RaftNode → Prop
  | keep {n' : RaftNode} : n'.log = n.log → n'.snapshot = n.snapshot → n'.out.append = n.out.append →
      n'.out.snapshot = n.out.snapshot → LogMove c n₀ n n'
  | append (payload : EntryPayload) : LogMove c n₀ n (n.appendEntry payload)
  | adopt {es new : List Entry} {log log' : RaftLog} : RaftNode.findNew n.log n.commit es = some (log, new) →
      pushAll log new = some log' → LogMove c n₀ n (n.adopt log' new)
  | install {s : Snapshot} : c.resets n₀ = true → n.out.append = n₀.out.append → LogMove c n₀ n (n.install s)

theorem Move.logs (hm : Move c n₀ n n') : LogMove c n₀ n n' := by
  cases hm with
  | stand _ => rw [stand_eq]; exact .keep rfl rfl rfl rfl
  | @follow t l _ =>
    have hu := becomeFollower_untouched n t l
    exact .keep hu.log hu.snapshot hu.append hu.installed
  | vote => rw [setVote_eq]; exact .keep rfl rfl rfl rfl
  | append => exact .append _
  | adopt _ _ _ _ _ _ hf hp => exact .adopt hf hp
  | install hstep ht _ hu hb hlt hterm =>
    subst hstep
    exact .install (Call.resets_of_install hu ht hb hlt hterm) hu.append
  | sync =>
    unfold syncProgressWithVoters
    split <;> exact .keep rfl rfl rfl rfl
  | _ => exact .keep rfl rfl rfl rfl

/-- Every move keeps the durable copy in step, unless it resets the log behind appended entries. -/
theorem Durable.move (h : Durable d n) (hm : Move c n₀ n n')
    (hreset : c.resets n₀ = true → n₀.out.append = []) : Durable d n' := by
  cases hm with
  | stand _ => exact (h.setTerm _).setVote _
  | follow _ => exact h.becomeFollower _ _
  | vote => exact h.setVote _
  | append =>
    obtain ⟨h1, h2, h3⟩ := durable_iff.1 h
    refine durable_iff.2 ⟨h1, h2, ?_⟩
    show (n.out.append ++ [_]).foldl _ (if n.out.snapshot.isSome then [] else d.entries) = n.log.entries ++ [_]
    rw [List.foldl_append, h3]
    exact appendOne_next rfl
  | adopt _ _ _ _ _ _ hf hp =>
    obtain ⟨h1, h2, h3⟩ := durable_iff.1 h
    refine durable_iff.2 ⟨h1, h2, ?_⟩
    show (n.out.append ++ _).foldl _ (if n.out.snapshot.isSome then [] else d.entries) = _
    rw [List.foldl_append, h3]
    exact foldl_appendOne_adopt hf hp
  | install hstep ht _ hu hb hlt hterm =>
    subst hstep
    obtain ⟨h1, h2, h3⟩ := durable_iff.1 h
    refine durable_iff.2 ⟨h1, rfl, ?_⟩
    have happ : n.out.append = [] := by
      rw [hu.append]; exact hreset (Call.resets_of_install hu ht hb hlt hterm)
    show n.out.append.foldl _ [] = []
    rw [happ]; rfl
  | sync =>
    unfold syncProgressWithVoters
    split <;> exact h
  | _ => exact h

/-- What every move keeps that does not reset the log behind appended entries, a call keeps. -/
theorem RaftNode.call_keeps {P : RaftNode → Prop} (h : P n) (hc : n.call c = some n')
    (hreset : c.resets n = true → n.out.append = [])
    (hmove : ∀ {n₀ n n'}, (c.resets n₀ = true → n₀.out.append = []) → Move c n₀ n n' → P n → P n') : P n' := by
  have hm := call_moves hc
  clear hc
  generalize hn₀ : n = n₀ at hm hreset
  subst hn₀
  induction hm with
  | refl => exact h
  | tail _ hm ih => exact hmove hreset hm ih

theorem Durable.call (h : Durable d n) (hc : n.call c = some n')
    (hreset : c.resets n = true → n.out.append = []) : Durable d n' :=
  RaftNode.call_keeps h hc hreset fun hr hm h => h.move hm hr

/-! ## Batches -/

/-- The calls made between two `take_output`; `none` when one of them panics. -/
def RaftNode.calls (n : RaftNode) : List Call → Option RaftNode
  | [] => some n
  | c :: cs => (n.call c).bind fun n => n.calls cs

theorem RaftNode.calls_concat {cs : List Call} {n n₁ n₂ : RaftNode} (h₁ : n.calls cs = some n₁)
    (h₂ : n₁.call c = some n₂) : n.calls (cs ++ [c]) = some n₂ := by
  induction cs generalizing n with
  | nil =>
    cases h₁
    show (n₁.call c).bind _ = _
    rw [h₂]; rfl
  | cons c' cs ih =>
    obtain ⟨n', hn', h₁⟩ := Option.bind_eq_some_iff.1 h₁
    show (n.call c').bind _ = _
    rw [hn']; exact ih h₁

/-- A run of calls split off its last one. -/
theorem RaftNode.calls_concat_inv {cs : List Call} {n n₂ : RaftNode} (h : n.calls (cs ++ [c]) = some n₂) :
    ∃ n₁, n.calls cs = some n₁ ∧ n₁.call c = some n₂ := by
  induction cs generalizing n with
  | nil =>
    obtain ⟨n', hn', h⟩ := Option.bind_eq_some_iff.1 h
    cases h; exact ⟨n, rfl, hn'⟩
  | cons c' cs ih =>
    obtain ⟨n', hn', h⟩ := Option.bind_eq_some_iff.1 h
    obtain ⟨n₁, h₁, h₂⟩ := ih h
    refine ⟨n₁, ?_, h₂⟩
    show (n.call c').bind _ = _
    rw [hn']; exact h₁

theorem handleInstallSnapshot_reset (src : NodeId) {s : Snapshot} (hlt : n.commit < s.lastIndex)
    (hne : n.log.term s.lastIndex ≠ some s.lastTerm) :
    (n.handleInstallSnapshot src s).log.entries = [] ∧
      (n.handleInstallSnapshot src s).out.append = n.out.append ∧
      (n.handleInstallSnapshot src s).out.snapshot = some s := by
  unfold handleInstallSnapshot
  rw [dif_neg (Nat.not_le.2 hlt), if_neg hne]
  exact ⟨rfl, rfl, rfl⟩

/-- The reset branch never panics, empties the log and leaves `append` as it was. -/
theorem call_of_resets (h : c.resets n = true) : ∃ n', n.call c = some n' ∧ n'.log.entries = [] ∧
    n'.out.append = n.out.append ∧ n'.out.snapshot.isSome = true := by
  cases c with
  | step m =>
    simp only [Call.resets] at h
    split at h
    · rename_i s hb
      obtain ⟨hterm, hlt, hne⟩ := of_decide_eq_true h
      have hdisp : ∀ n₁ : RaftNode, Untouched n n₁ → ∃ n', n₁.dispatch m = some n' ∧ n'.log.entries = [] ∧
          n'.out.append = n.out.append ∧ n'.out.snapshot.isSome = true := by
        intro n₁ hu
        obtain ⟨h1, h2, h3⟩ := handleInstallSnapshot_reset (n := n₁) m.src (s := s)
          (by rw [hu.commit]; exact hlt) (by rw [hu.log]; exact hne)
        refine ⟨n₁.handleInstallSnapshot m.src s, ?_, h1, h2.trans hu.append, by rw [h3]; rfl⟩
        unfold dispatch
        rw [hb]
      show ∃ n', n.step m = some n' ∧ _
      unfold step
      rw [if_neg (by rw [hb]; simp [isPreVote])]
      split
      · exact hdisp _ (becomeFollower_untouched n _ _)
      · rw [if_neg (Nat.not_lt.2 hterm)]
        exact hdisp n (Untouched.refl n)
    · cases h
  | tick => cases h
  | propose _ => cases h
  | proposeConfChange _ => cases h
  | readIndex _ => cases h

/-- After appends, a copy that started empty is not empty. -/
theorem foldl_appendOne_ne_nil {es init : List Entry} (h : es ≠ []) : es.foldl Persisted.appendOne init ≠ [] := by
  obtain ⟨es, e, rfl⟩ := (List.eq_nil_or_concat es).resolve_left h
  simp [Persisted.appendOne]

theorem RaftNode.calls_keep {P : RaftNode → Prop} {cs : List Call} (h : P n)
    (hok : ∀ cs' c n₁, cs' ++ [c] <+: cs → n.calls cs' = some n₁ → c.resets n₁ = true → n₁.out.append = [])
    (hc : n.calls cs = some n')
    (hmove : ∀ {c n₀ n n'}, (c.resets n₀ = true → n₀.out.append = []) → Move c n₀ n n' → P n → P n') : P n' := by
  induction cs using List.reverseRecOn generalizing n' with
  | nil => cases hc; exact h
  | append_singleton cs c ih =>
    obtain ⟨n₁, h₁, h₂⟩ := RaftNode.calls_concat_inv hc
    have hP : P n₁ := ih (fun cs' c' n₂ hp => hok cs' c' n₂ (hp.trans (List.prefix_append _ _))) h₁
    exact call_keeps hP h₂ (hok cs c n₁ (List.prefix_refl _) h₁) hmove

/-- One output makes a batch durable, at whatever call it is taken, exactly when no call of the batch
resets the log to a snapshot behind entries appended in the same batch. The equivalence is about all
prefixes of the batch: later appends can replace what such a reset left on disk, so that the output of the
whole batch is durable again although the condition fails. -/
theorem durable_batch_iff (n : RaftNode) (cs : List Call) :
    (∀ cs' n', cs' <+: cs → n.takeOutput.2.calls cs' = some n' → n.durable.persist n'.out = n'.durable) ↔
    ∀ cs' c n', cs' ++ [c] <+: cs → n.takeOutput.2.calls cs' = some n' → c.resets n' = true →
      n'.out.append = [] := by
  have hstart : Durable n.durable n.takeOutput.2 := rfl
  constructor
  · intro h cs' c n' hp hn' hreset
    obtain ⟨n₂, hn₂, hlog, happ, hsnap⟩ := call_of_resets hreset
    obtain ⟨_, _, hent⟩ := durable_iff.1 (h _ n₂ hp (RaftNode.calls_concat hn' hn₂))
    rw [happ, hlog] at hent
    by_contra hne
    exact foldl_appendOne_ne_nil hne hent
  · intro h cs' n' hp hn'
    exact RaftNode.calls_keep hstart (fun cs₁ c n₁ hp₁ => h cs₁ c n₁ (hp₁.trans hp)) hn' fun hr hm h => h.move hm hr

/-- A follower steps an append of its leader and then a snapshot that covers it. -/
def mixedBatch : List Call :=
  let e : Entry := { term := 1, index := 1, payload := .noop }
  let snap : Snapshot := { lastIndex := 5, lastTerm := 1, voters := [1, 2, 3], data := [] }
  [.step { src := 1, dst := 2, term := 1, body := .appendEntries 0 0 [e] 0 0 },
   .step { src := 1, dst := 2, term := 1, body := .installSnapshot snap }]

/-- The node's log is empty above the snapshot; the durable copy keeps entry 1 behind it. -/
theorem mixedBatch_not_durable : ∃ n', (RaftNode.fresh (Config.new 2 7) [1, 2, 3]).calls mixedBatch = some n' ∧
    n'.durable.entries.map Entry.index = [] ∧
    ((RaftNode.fresh (Config.new 2 7) [1, 2, 3]).durable.persist n'.out).entries.map Entry.index = [1] := by
  have hrun : ((RaftNode.fresh (Config.new 2 7) [1, 2, 3]).calls mixedBatch).map (fun n' =>
      (n'.durable.entries.map Entry.index,
       ((RaftNode.fresh (Config.new 2 7) [1, 2, 3]).durable.persist n'.out).entries.map Entry.index)) =
      some ([], [1]) := by decide +kernel
  obtain ⟨n', hn', heq⟩ := Option.map_eq_some_iff.1 hrun
  exact ⟨n', hn', congrArg Prod.fst heq, congrArg Prod.snd heq⟩

end RaftKv

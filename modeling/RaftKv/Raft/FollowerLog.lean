import RaftKv.Raft.Shape

/-!
# What a leader's batch does to a follower's log

`handle_append_entries` (`node.rs:750-838`) looks at the batch through the follower's snapshot base:
it skips what the base covers, compares terms above it, truncates and appends. In terms of logical
logs the base plays no part: with `L` the follower's log and `P` the leader's log up to the end of
the batch, the batch is refused exactly when its `prev` part is no prefix of `L`, and otherwise `L`
becomes `overwrite L P` with `missing L P` handed to the host. None of the assertions on the way
fails (`Local.handleAppendEntries`).

| here | there |
| --- | --- |
| `missing`          | `to_append` (`node.rs:799-823`) |
| `overwrite`        | the log after `truncate_from` and the pushes (`node.rs:814-826`) |
| `RaftNode.listen`  | `node.rs:760-762` |
| `RaftNode.raiseCommit` | `node.rs:831-834` |
-/

namespace RaftKv

open RaftNode

/-- What of `P` is left where it first departs from `L`. -/
def missing : List Entry → List Entry → List Entry
  | x :: L, y :: P => if x = y then missing L P else y :: P
  | _, P => P

/-- `L` after it has taken over what it misses of `P`. -/
def overwrite (L P : List Entry) : List Entry := if missing L P = [] then L else P

theorem missing_append {new : List Entry} : ∀ {a L : List Entry}, a <+: L →
    (∀ e rest, new = e :: rest → ¬ a ++ [e] <+: L) → missing L (a ++ new) = new
  | [], L, _, hdiv => by
    cases new with
    | nil => cases L <;> rfl
    | cons e rest =>
      cases L with
      | nil => rfl
      | cons x L =>
        have hne : x ≠ e := by
          rintro rfl
          exact hdiv x rest rfl ⟨L, rfl⟩
        exact if_neg hne
  | y :: a, [], ha, _ => by cases List.prefix_nil.1 ha
  | y :: a, x :: L, ha, hdiv => by
    obtain ⟨rfl, ha'⟩ := List.cons_prefix_cons.1 ha
    show (if y = y then missing L (a ++ new) else y :: (a ++ new)) = new
    rw [if_pos rfl]
    refine missing_append ha' fun e rest hnew hp => hdiv e rest hnew ?_
    exact List.cons_prefix_cons.2 ⟨rfl, hp⟩

theorem missing_of_isPrefix {L P : List Entry} (h : P <+: L) : missing L P = [] := by
  have hnil : missing L (P ++ []) = [] := missing_append h fun e rest h' => by cases h'
  rwa [List.append_nil] at hnil

theorem overwrite_of_isPrefix {L P : List Entry} (h : P <+: L) : overwrite L P = L := if_pos (missing_of_isPrefix h)

namespace RaftNode

variable {n : RaftNode}

/-- The sender of an `AppendEntries` or `InstallSnapshot` at the node's own term is its leader. -/
def listen (n : RaftNode) (src : NodeId) : RaftNode :=
  { n with role := .follower, leaderId := some src, electionElapsed := 0 }

/-- A follower's commit index follows the leader's. -/
def raiseCommit (n : RaftNode) (k : Nat) : RaftNode := if n.commit < k then n.commitTo k else n

theorem raiseCommit_of_le {k : Nat} (h : k ≤ n.commit) : n.raiseCommit k = n := if_neg (not_lt.2 h)

theorem raiseCommit_eq (hr : n.role = .follower) (k : Nat) :
    n.raiseCommit k = if h : n.commit < k then n.advanceCommitTo k (le_of_lt h) else n := by
  unfold raiseCommit
  split
  · rw [advanceCommitTo_follower hr]
  · rfl

theorem handleInstallSnapshot_eq (n : RaftNode) (src : NodeId) (snap : Snapshot) :
    n.handleInstallSnapshot src snap =
      if snap.lastIndex ≤ n.commit then (n.listen src).send src (.installSnapshotResp n.commit)
      else if n.log.term snap.lastIndex = some snap.lastTerm then
        ((n.listen src).commitTo snap.lastIndex).send src (.installSnapshotResp snap.lastIndex)
      else ((n.listen src).install snap).send src (.installSnapshotResp snap.lastIndex) := by
  unfold handleInstallSnapshot
  dsimp only
  split
  · rfl
  · rw [advanceCommitTo_follower rfl]; rfl

theorem adopt_nothing (n : RaftNode) : n.adopt n.log [] = n := by
  unfold adopt
  rw [List.append_nil]

theorem pushAll_some : ∀ {es : List Entry} {log : RaftLog}, Contig log.lastIndex es → ∃ log', pushAll log es = some log'
  | [], log, _ => ⟨log, rfl⟩
  | e :: es, log, h => by
    have he : e.index = log.lastIndex + 1 := h 0 e rfl
    have hes : Contig (log.push e he).lastIndex es := by
      intro k x hx
      have := h (k + 1) x (by simpa using hx)
      rw [RaftLog.lastIndex_push]; omega
    obtain ⟨log', hlog'⟩ := pushAll_some hes
    exact ⟨log', by rw [pushAll, dif_pos he]; exact hlog'⟩

/-- The hint of a term conflict is an index of the log, at most the rejected one. -/
theorem conflictHint_bounds (log : RaftLog) (t : Nat) :
    ∀ {c : Nat}, 0 < c → 1 ≤ conflictHint log t c ∧ conflictHint log t c ≤ c
  | c + 1, _ => by
    unfold conflictHint
    split
    · have hfirst : 1 ≤ log.firstIndex := Nat.le_add_left 1 _
      obtain ⟨hlo, hhi⟩ := conflictHint_bounds log t (c := c) (by omega)
      exact ⟨hlo, Nat.le_succ_of_le hhi⟩
    · exact ⟨Nat.le_add_left 1 c, le_refl _⟩

theorem acceptEntries_eq {src : NodeId} {prev lc ctx : Nat} {es new : List Entry} {log₁ log' : RaftLog}
    (hr : n.role = .follower) (hf : findNew n.log n.commit es = some (log₁, new)) (hp : pushAll log₁ new = some log') :
    n.acceptEntries src prev es lc ctx =
      some (((n.adopt log' new).raiseCommit (Nat.min lc (prev + es.length))).replyAppend src true
        (prev + es.length) 0 ctx) := by
  rw [raiseCommit_eq (n := n.adopt log' new) hr]
  simp only [acceptEntries, hf, hp, Option.bind_eq_bind, Option.bind_some]
  rfl

end RaftNode

variable {voters : List NodeId} {hv : voters.Nodup} {g : Ghost} {rec : Snapshot → List Entry → Prop}
  {D : Entry → Prop} {i : NodeId} {n n₁ : RaftNode} {base : List Entry} {r : Reign NodeId Entry}
  {T prev prevTerm : Nat} {p es es' : List Entry}

/-- The two loops of `handle_append_entries` come to an end. -/
theorem Local.takesOver (h : Local voters hv g rec D i n base) (hr : g.led.reign T = some r) (hT : n.hs.term ≤ T)
    (hp : p ++ es <+: r.log) (hpl : p.length = prev) (hpt : lastTermOf p = prevTerm)
    (hf : Fits n prev prevTerm es es') :
    ∃ log₁ log', RaftNode.findNew n.log n.commit es' = some (log₁, missing (base ++ n.log.entries) (p ++ es)) ∧
      pushAll log₁ (missing (base ++ n.log.entries) (p ++ es)) = some log' ∧ LogRel base log' ∧
      base ++ log'.entries = overwrite (base ++ n.log.entries) (p ++ es) := by
  obtain ⟨log₁, a, new, hfind, hsplit, hal, hrest⟩ := h.findNew hr hT hp hpl hpt hf
  rw [← hsplit] at hp ⊢
  have hrel := h.core.rel
  rcases hrest with ⟨rfl, rfl⟩ | ⟨⟨e, rest, rfl, hdiv⟩, -, hlog, hsnap, hsnapt⟩
  · have hnil : missing (base ++ n.log.entries) (a ++ []) = [] := missing_append hal fun e rest h' => by cases h'
    rw [hnil, overwrite, if_pos hnil]
    exact ⟨n.log, n.log, hfind, rfl, hrel, rfl⟩
  · have hmiss : missing (base ++ n.log.entries) (a ++ e :: rest) = e :: rest := by
      refine missing_append hal fun e' rest' heq => ?_
      cases heq; exact hdiv
    have hlast : log₁.lastIndex = a.length := by
      rw [← hlog, RaftLog.lastIndex, hsnap, hrel.len, List.length_append]
    obtain ⟨log', hpush⟩ := RaftNode.pushAll_some (by rw [hlast]; exact contig_of_reign (h.shared.indexed hr) hp)
    obtain ⟨hent, hsnap', hsnapt'⟩ := pushAll_eq hpush
    rw [hmiss, overwrite, if_neg (by rw [hmiss]; simp)]
    refine ⟨log₁, log', hfind, hpush, ⟨?_, ?_⟩, ?_⟩
    · rw [hsnap', hsnap, hrel.len]
    · rw [hsnapt', hsnapt, hrel.term]
    · rw [hent, ← List.append_assoc, hlog]

/-- Above the base, the consistency check at `prev` compares whole prefixes. -/
theorem Local.term_prev (h : Local voters hv g rec D i n base) (hr : g.led.reign T = some r) (hp : p <+: r.log)
    (hle : n.log.snapIndex ≤ p.length) : n.log.term p.length = some (lastTermOf p) ↔ p <+: base ++ n.log.entries := by
  refine ⟨h.matched hr hp, fun hpl => ?_⟩
  rw [h.core.rel.term_eq (by rw [← h.core.rel.len]; exact hle) hpl.length_le, ← List.prefix_iff_eq_take.1 hpl]

/-- The handling of a batch of the leader of term `T`, by a node that has heard of the term. -/
theorem Local.handleAppendEntries (h : Local voters hv g rec D i n base) (hu : Untouched n n₁)
    (hr : g.led.reign T = some r) (hT : n.hs.term ≤ T) (hp : p ++ es <+: r.log) (src : NodeId) (lc ctx : Nat) :
    (¬ p <+: base ++ n.log.entries ∧ ∃ hint, 1 ≤ hint ∧ hint ≤ p.length ∧
      n₁.handleAppendEntries src p.length (lastTermOf p) es lc ctx =
        some ((n₁.listen src).replyAppend src false 0 hint ctx)) ∨
    (p <+: base ++ n.log.entries ∧ ∃ log' k, (p ++ es).length ≤ k ∧ LogRel base log' ∧
      base ++ log'.entries = overwrite (base ++ n.log.entries) (p ++ es) ∧
      n₁.handleAppendEntries src p.length (lastTermOf p) es lc ctx =
        some ((((n₁.listen src).adopt log' (missing (base ++ n.log.entries) (p ++ es))).raiseCommit
          (Nat.min lc (p ++ es).length)).replyAppend src true k 0 ctx)) := by
  have hlen := h.core.rel.len
  have hsc : base.length ≤ n.commit := h.core.snap_le
  have hpr : p <+: r.log := (List.prefix_append _ _).trans hp
  have hlog₁ : (n₁.listen src).log = n.log := hu.log
  have hcommit₁ : (n₁.listen src).commit = n.commit := hu.commit
  have haccept : ∀ {es' : List Entry} {prev' : Nat}, Fits n p.length (lastTermOf p) es es' →
    prev' + es'.length = (p ++ es).length →
      ∃ log' k, (p ++ es).length ≤ k ∧ LogRel base log' ∧
        base ++ log'.entries = overwrite (base ++ n.log.entries) (p ++ es) ∧
        (n₁.listen src).acceptEntries src prev' es' lc ctx =
          some ((((n₁.listen src).adopt log' (missing (base ++ n.log.entries) (p ++ es))).raiseCommit
            (Nat.min lc (p ++ es).length)).replyAppend src true k 0 ctx) := by
    intro es' prev' hf hend
    obtain ⟨log₁, log', hfind, hpush, hrel', hlog'⟩ := h.takesOver hr hT hp rfl rfl hf
    rw [← hcommit₁] at hfind
    refine ⟨log', (p ++ es).length, le_refl _, hrel', hlog', ?_⟩
    rw [← hend]
    exact RaftNode.acceptEntries_eq rfl (by rw [hlog₁]; exact hfind) hpush
  have hunfold : n₁.handleAppendEntries src p.length (lastTermOf p) es lc ctx =
      if p.length < n.log.snapIndex then
        if n.log.snapIndex - p.length ≥ es.length then some ((n₁.listen src).replyAppend src true n.log.snapIndex 0 ctx)
        else (n₁.listen src).checkPrev src n.log.snapIndex n.log.snapTerm (es.drop (n.log.snapIndex - p.length)) lc ctx
      else (n₁.listen src).checkPrev src p.length (lastTermOf p) es lc ctx := by
    rw [← hlog₁]; rfl
  rw [hunfold]
  unfold checkPrev
  rw [hlog₁]
  by_cases hlt : p.length < n.log.snapIndex
  · have hpl : p <+: base ++ n.log.entries := h.committed_le hr hT hpr (by omega)
    rw [if_pos hlt]
    refine .inr ⟨hpl, ?_⟩
    by_cases hcov : n.log.snapIndex - p.length ≥ es.length
    · -- the base covers the whole batch: nothing is missing, nothing new is committed
      have hle : (p ++ es).length ≤ n.commit := by rw [List.length_append]; omega
      have hPl := h.committed_le hr hT hp hle
      refine ⟨n.log, n.log.snapIndex, by rw [List.length_append]; omega, h.core.rel, (overwrite_of_isPrefix hPl).symm,
        ?_⟩
      rw [if_pos hcov, missing_of_isPrefix hPl, ← hlog₁, RaftNode.adopt_nothing,
        RaftNode.raiseCommit_of_le (by rw [hcommit₁]; exact le_trans (min_le_right _ _) hle)]
    · have hbase : n.log.term n.log.snapIndex = some n.log.snapTerm := if_pos rfl
      rw [if_neg hcov, hbase]
      dsimp only
      rw [if_neg (by simp)]
      exact haccept (.inr ⟨hlt, rfl, by omega⟩) (by rw [List.length_append, List.length_drop]; omega)
  · rw [if_neg hlt]
    have hterm := h.term_prev hr hpr (Nat.le_of_not_lt hlt)
    by_cases hpl : p <+: base ++ n.log.entries
    · refine .inr ⟨hpl, ?_⟩
      rw [hterm.2 hpl]
      dsimp only
      rw [if_neg (by simp)]
      exact haccept (.inl ⟨by omega, rfl, hterm.2 hpl⟩) (by rw [List.length_append])
    · refine .inl ⟨hpl, ?_⟩
      cases ht : n.log.term p.length with
      | none =>
        -- the log is too short
        have hend := h.core.rel.term_none ht
        rw [← h.core.rel.lastIndex_eq] at hend
        exact ⟨_, Nat.le_add_left _ _, by omega, rfl⟩
      | some t =>
        have hpos : 0 < p.length := by
          refine List.length_pos_iff.2 fun hnil => hpl ?_
          rw [hnil]; exact List.nil_prefix
        obtain ⟨hlo, hhi⟩ := RaftNode.conflictHint_bounds n.log t hpos
        dsimp only
        rw [if_pos fun heq => hpl (hterm.1 (by rw [ht, heq]))]
        exact ⟨_, hlo, hhi, rfl⟩

end RaftKv

import Mathlib.Order.Bounds.Basic
import Mathlib.Data.Nat.Find
import RaftKv.Raft.Cluster

/-!
# The commit rule

`maybe_advance_commit` sorts what the voters have matched, takes the element at the quorum's place and
commits up to it if the entry there is of the current term. Raft's rule is a search: the greatest index
of the current term that a quorum has matched. The two agree because terms do not decrease along the
log: if the entry at the quorum's place is older than the current term, so is every entry before it.

| here | there |
| --- | --- |
| `matchOf`      | one element of the list sorted at `node.rs:550-559` |
| `Supported`    | an index Raft may commit: current term, matched by a quorum (§5.4.2) |
| `Accountable`  | the node invariant `maybe_advance_commit` relies on |
-/

namespace RaftKv

open RaftNode

namespace RaftNode

variable {n : RaftNode}

/-- How far the member `v` of the configuration is known to agree with the leader. -/
def matchOf (n : RaftNode) (v : NodeId) : Nat :=
  if v = n.cfg.id then n.log.lastIndex else ((n.prs.find? v).map Progress.matched).getD 0

/-- The entry at `N` is of the current term, and a quorum of the voters has matched it. -/
def Supported (n : RaftNode) (N : Nat) : Prop :=
  n.log.term N = some n.hs.term ∧ n.voters.length / 2 + 1 ≤ n.voters.countP fun v => decide (N ≤ n.matchOf v)

instance (N : Nat) : Decidable (n.Supported N) := inferInstanceAs (Decidable (_ ∧ _))

/-- The node invariant; the log is contiguous by its type. -/
structure Accountable (n : RaftNode) : Prop where
  sorted : n.log.entries.Pairwise fun a b => a.term ≤ b.term
  terms : ∀ e ∈ n.log.entries, e.term ≤ n.hs.term
  base : n.log.snapIndex ≤ n.commit
  commit : n.commit ≤ n.log.lastIndex
  matched : ∀ {v pr}, n.prs.find? v = some pr → pr.matched ≤ n.log.lastIndex

theorem matchOf_le (h : n.Accountable) (v : NodeId) : n.matchOf v ≤ n.log.lastIndex := by
  unfold matchOf
  split
  · exact le_refl _
  · cases hpr : n.prs.find? v with
    | none => exact Nat.zero_le _
    | some pr => exact h.matched hpr

/-! ## The element at the quorum's place -/

variable {k N : Nat}

/-- A quorum has matched exactly the indices up to the element at its place. -/
theorem quorum_matched_iff (hk : (n.matchIndexes.insertionSort (· ≥ ·))[n.quorum - 1]? = some k) (N : Nat) :
    n.voters.length / 2 + 1 ≤ n.voters.countP (fun v => decide (N ≤ n.matchOf v)) ↔ N ≤ k :=
  succ_le_countP_kth n.matchOf hk N

theorem not_supported_of_none (hk : (n.matchIndexes.insertionSort (· ≥ ·))[n.quorum - 1]? = none) (N : Nat) :
    ¬ n.Supported N := by
  rintro ⟨-, hq⟩
  have hlen := List.getElem?_eq_none_iff.1 hk
  have hcount := List.countP_le_length (p := fun v => decide (N ≤ n.matchOf v)) (l := n.voters)
  rw [List.length_insertionSort, matchIndexes, List.length_map] at hlen
  unfold quorum at hlen
  omega

theorem quorum_place_le (h : n.Accountable)
    (hk : (n.matchIndexes.insertionSort (· ≥ ·))[n.quorum - 1]? = some k) : k ≤ n.log.lastIndex := by
  have hmem := (List.perm_insertionSort (· ≥ ·) n.matchIndexes).mem_iff.1 (List.mem_of_getElem? hk)
  obtain ⟨v, -, rfl⟩ := List.mem_map.1 hmem
  exact matchOf_le h v

/-! ## Terms along the log -/

theorem term_above_base (hlo : n.log.snapIndex < N) (hhi : N ≤ n.log.lastIndex) :
    ∃ e, n.log.get N = some e ∧ n.log.entries[N - n.log.snapIndex - 1]? = some e ∧ n.log.term N = some e.term := by
  have hlt : N - n.log.snapIndex - 1 < n.log.entries.length := by
    rw [RaftLog.lastIndex] at hhi
    omega
  refine ⟨_, RaftLog.get_eq_some.2 ⟨hlo, List.getElem?_eq_getElem hlt⟩, List.getElem?_eq_getElem hlt, ?_⟩
  have hterm := RaftLog.term_of_entry (l := n.log) (List.getElem?_eq_getElem hlt)
  rwa [show n.log.snapIndex + 1 + (N - n.log.snapIndex - 1) = N by omega] at hterm

/-- Below an entry of an older term nothing above the base is of the current term. -/
theorem base_of_older (h : n.Accountable) (hlo : n.log.snapIndex < k) (hhi : k ≤ n.log.lastIndex)
    (hk : n.log.term k ≠ some n.hs.term) (hN : n.log.term N = some n.hs.term) (hle : N ≤ k) : N ≤ n.log.snapIndex := by
  by_contra hgt
  obtain ⟨e, -, he, hte⟩ := term_above_base hlo hhi
  obtain ⟨e', -, he', hte'⟩ := term_above_base (n := n) (N := N) (by omega) (by omega)
  have hcur : e'.term = n.hs.term := Option.some.inj (hte'.symm.trans hN)
  have hold : e.term < n.hs.term := by
    refine lt_of_le_of_ne (h.terms e (List.mem_of_getElem? he)) fun heq => hk ?_
    rw [hte, heq]
  obtain ⟨hi, hei⟩ := List.getElem?_eq_some_iff.1 he
  obtain ⟨hi', hei'⟩ := List.getElem?_eq_some_iff.1 he'
  rcases Nat.lt_or_eq_of_le hle with hlt | rfl
  · have hmono := List.pairwise_iff_getElem.1 h.sorted _ _ hi' hi (by omega)
    rw [hei, hei'] at hmono
    omega
  · exact hk hN

/-! ## The rule -/

theorem commit_advanceCommitTo (h : n.commit ≤ k) :
    (n.advanceCommitTo k h).commit = k ∧
      (n.advanceCommitTo k h).out.committed = n.out.committed ++ n.newlyCommitted k := by
  rcases advanceCommitTo_eq k h with heq | ⟨_, heq, _⟩
  · rw [heq]; exact ⟨rfl, rfl⟩
  · rw [heq, becomeFollower_same _ _ (by simp [commitTo])]; exact ⟨rfl, rfl⟩

/-- What `maybe_advance_commit` does to the commit index: it moves to a supported index, the greatest there is, or
stays where no supported index lies above it. -/
theorem maybeAdvanceCommit_cases (hr : n.role = .leader) (h : n.Accountable) :
    (n.maybeAdvanceCommit.commit = n.commit ∧ n.maybeAdvanceCommit.out.committed = n.out.committed ∧
        ∀ N, n.Supported N → N ≤ n.commit) ∨
      ∃ k, n.commit < k ∧ k ≤ n.log.lastIndex ∧ IsGreatest {N | n.Supported N} k ∧ n.maybeAdvanceCommit.commit = k ∧
        n.maybeAdvanceCommit.out.committed = n.out.committed ++ n.newlyCommitted k := by
  have hbase := h.base
  unfold maybeAdvanceCommit
  rw [if_neg (by simp [hr])]
  cases hk : (n.matchIndexes.insertionSort (· ≥ ·))[n.quorum - 1]? with
  | none => exact Or.inl ⟨rfl, rfl, fun N hN => absurd hN (not_supported_of_none hk N)⟩
  | some k =>
    have hlast := quorum_place_le h hk
    dsimp only
    by_cases hadv : n.commit < k ∧ n.log.term k = some n.hs.term
    · rw [dif_pos hadv]
      obtain ⟨hcommit, hout⟩ := commit_advanceCommitTo (le_of_lt hadv.1)
      refine Or.inr ⟨k, hadv.1, hlast, ⟨⟨hadv.2, (quorum_matched_iff hk k).2 (le_refl k)⟩, ?_⟩, hcommit, hout⟩
      exact fun N hN => (quorum_matched_iff hk N).1 hN.2
    · rw [dif_neg hadv]
      refine Or.inl ⟨rfl, rfl, fun N hN => ?_⟩
      have hle := (quorum_matched_iff hk N).1 hN.2
      rcases lt_or_ge n.commit k with hlt | hge
      · have hold := base_of_older h (by omega) hlast (fun ht => hadv ⟨hlt, ht⟩) hN.1 hle
        omega
      · omega

theorem supported_le (h : n.Accountable) (hN : n.Supported N) : N ≤ n.log.lastIndex := by
  by_contra hgt
  have hnone : n.voters.countP (fun v => decide (N ≤ n.matchOf v)) = 0 := by
    refine List.countP_eq_zero.2 fun v _ hv => ?_
    have := matchOf_le h v
    have : N ≤ n.matchOf v := by simpa using hv
    omega
  have := hN.2
  omega

/-- The supported indices end with the log, so a greatest one exists as soon as there is one. -/
theorem exists_greatest_supported (h : n.Accountable) (hex : ∃ N, n.Supported N) :
    ∃ N, IsGreatest {N | n.Supported N} N := by
  obtain ⟨N, hN⟩ := hex
  have hmax := Nat.findGreatest_spec (P := n.Supported) (supported_le h hN) hN
  exact ⟨_, hmax, fun M hM => Nat.le_findGreatest (supported_le h hM) hM⟩

/-- The entries handed out are those at the indices from the old to the new commit index, each of them there. -/
theorem map_some_newlyCommitted (h : n.Accountable) (hk : k ≤ n.log.lastIndex) :
    (n.newlyCommitted k).map some = (List.range' (n.commit + 1) (k - n.commit)).map n.log.get := by
  have hbase := h.base
  rw [newlyCommitted, List.map_filterMap_some_eq_filter_map_isSome, List.filter_eq_self]
  intro o ho
  obtain ⟨N, hN, rfl⟩ := List.mem_map.1 ho
  obtain ⟨hlo, hhi⟩ := List.mem_range'_1.1 hN
  obtain ⟨e, he, -⟩ := term_above_base (n := n) (N := N) (by omega) (by omega)
  rw [he]; rfl

end RaftNode

/-- **The commit rule is exact.** -/
theorem commit_rule {n : RaftNode} (hr : n.role = .leader) (h : n.Accountable) :
    (∀ N, IsGreatest {N | n.Supported N} N → n.maybeAdvanceCommit.commit = max n.commit N) ∧
    ((∃ N, n.Supported N) → ∃ N, IsGreatest {N | n.Supported N} N) ∧
    ((¬ ∃ N, n.Supported N) → n.maybeAdvanceCommit.commit = n.commit) ∧
    n.maybeAdvanceCommit.out.committed.map some = n.out.committed.map some ++
      (List.range' (n.commit + 1) (n.maybeAdvanceCommit.commit - n.commit)).map n.log.get := by
  rcases maybeAdvanceCommit_cases hr h with ⟨hcommit, hout, hlow⟩ | ⟨k, hlt, hlast, hgreat, hcommit, hout⟩
  · refine ⟨fun N hN => ?_, exists_greatest_supported h, fun _ => hcommit, ?_⟩
    · rw [hcommit, Nat.max_eq_left (hlow N hN.1)]
    · rw [hout, hcommit]; simp
  · refine ⟨fun N hN => ?_, exists_greatest_supported h, fun hnone => absurd ⟨k, hgreat.1⟩ hnone, ?_⟩
    · rw [hcommit, hN.unique hgreat, Nat.max_eq_right (le_of_lt hlt)]
    · rw [hout, hcommit, List.map_append, map_some_newlyCommitted h hlast]

/-- Node 1 leads `[1, 2, 3]` in term 1; node 2 has acknowledged its no-op, node 3 nothing. -/
def RaftNode.acknowledged : RaftNode :=
  { ((Cluster.init Config.quick [1, 2, 3]).host 1).raft with
    hs := { term := 1, votedFor := some 1 }
    role := .leader
    log := ((Cluster.init Config.quick [1, 2, 3]).host 1).raft.log.push { term := 1, index := 1, payload := .noop } rfl
    prs := (∅ : OrdMap NodeId Progress).insert 2 { Progress.new 2 with matched := 1 } }

theorem commit_rule_acknowledged :
    (acknowledged.role = .leader ∧ acknowledged.commit = 0 ∧ acknowledged.Supported 1) ∧
      acknowledged.Accountable ∧ acknowledged.maybeAdvanceCommit.commit = 1 := by
  have hacc : acknowledged.Accountable := by
    refine ⟨by decide +kernel, by decide +kernel, by decide +kernel, by decide +kernel, fun {v pr} hpr => ?_⟩
    have hpr : ((∅ : OrdMap NodeId Progress).insert 2 { Progress.new 2 with matched := 1 }).find? v = some pr := hpr
    rw [OrdMap.find?_insert] at hpr
    split at hpr
    · cases hpr; decide +kernel
    · cases hpr
  have hsup : acknowledged.Supported 1 := by decide +kernel
  have hgreat : IsGreatest {N | acknowledged.Supported N} 1 :=
    ⟨hsup, fun N hN => supported_le hacc hN⟩
  exact ⟨⟨rfl, rfl, hsup⟩, hacc, (commit_rule rfl hacc).1 1 hgreat⟩

end RaftKv

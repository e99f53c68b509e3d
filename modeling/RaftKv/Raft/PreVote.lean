import RaftKv.Raft.Lease

/-!
# Pre-vote and live leaders

`handle_pre_vote` (`node.rs:679-703`) refuses when `leader_id` is set and `election_elapsed` is below
`election_tick_min`. A follower restarts `election_elapsed` whenever it hears the leader, so the test
says what it should. A leader does not: `become_leader` (`node.rs:328`) leaves the counter as the
candidacy left it, and `tick` (`node.rs:222`) no longer touches it. A candidate that wins late, after
`election_tick_min` ticks and before its randomized timeout, is a leader that grants every pre-vote
with an up-to-date log for as long as it leads: `lateLeader_grants`.

| here | there |
| --- | --- |
| `Earshot.heard`      | history: which leaders' messages a node has stepped since its last restart, and when |
| `RaftNode.hasHeard`  | one of them came from the leader of the current term, fewer than `election_tick_min` ticks ago |
| `RaftNode.refuses`   | every `PreVote` is answered with `granted = false` |
| `preVote_refused`    | a node that leads or has heard its leader refuses, unless it leads with a counter that has run out |
-/

namespace RaftKv

open RaftNode

variable {voters : List NodeId} {hv : voters.Nodup} {g : Ghost} {s t : Cluster}
  {rec : Snapshot → List Entry → Prop} {D : Entry → Prop} {i j : NodeId} {n n' n₀ : RaftNode}
  {base : List Entry} {c : Call} {heard heard' : List Hearing}

/-- A cluster with what its nodes have heard since they were started. -/
structure Earshot where
  cluster : Cluster
  heard : List Hearing

namespace Earshot

def init (cfg : NodeId → Config) (voters : List NodeId) : Earshot := ⟨Cluster.init cfg voters, []⟩

/-- A node that is started again has heard nothing. -/
def remembered (heard : List Hearing) : Action → List Hearing
  | .restart i _ => heard.filter fun h => h.node ≠ i
  | _ => heard

def exec (voters : List NodeId) (x : Earshot) (a : Action) : Option Earshot :=
  (x.cluster.exec voters a).map fun s => ⟨s, remembered x.heard a ++ x.cluster.hearing a⟩

end Earshot

/-- Node `i` has heard the leader of its term fewer than `election_tick_min` ticks ago. -/
def RaftNode.hasHeard (n : RaftNode) (i : NodeId) (heard : List Hearing) : Prop :=
  ∃ h ∈ heard, h.node = i ∧ h.term = n.hs.term ∧ n.tickCounter < h.tick + n.cfg.electionTickMin

/-- Whoever asks, at whatever term and log position, is told `granted = false`. -/
def RaftNode.refuses (n : RaftNode) : Prop :=
  ∀ src dst term lli llt, ∃ n', n.step { src, dst, term, body := .preVote lli llt } = some n' ∧
    n'.out.messages = n.out.messages ++ [{ src := n.cfg.id, dst := src, term := n.hs.term, body := .preVoteResp false }]

/-! ## What a node remembers of its leader -/

structure Heard (heard : List Hearing) (i : NodeId) (n : RaftNode) : Prop where
  leading : n.role = .leader → n.leaderId.isSome = true
  since : ∀ h ∈ heard, h.node = i → h.tick + n.electionElapsed ≤ n.tickCounter
  past : ∀ h ∈ heard, h.node = i → h.term ≤ n.hs.term
  known : ∀ h ∈ heard, h.node = i → h.term = n.hs.term → n.leaderId.isSome = true

/-- Nothing of this node that matters here has changed, except that the timer may be restarted. -/
theorem Heard.congr (h : Heard heard i n) (hrole : n'.role = .leader → n.role = .leader)
    (hlead : n'.leaderId = n.leaderId) (hel : n'.electionElapsed ≤ n.electionElapsed)
    (htick : n.tickCounter ≤ n'.tickCounter) (hterm : n'.hs.term = n.hs.term) : Heard heard i n' := by
  refine ⟨fun hr => ?_, fun x hx hi => ?_, fun x hx hi => ?_, fun x hx hi ht => ?_⟩
  · rw [hlead]; exact h.leading (hrole hr)
  · have := h.since x hx hi
    omega
  · rw [hterm]; exact h.past x hx hi
  · rw [hlead]; exact h.known x hx hi (by rw [ht, hterm])

/-- In a later term nothing has been heard yet. -/
theorem Heard.later (h : Heard heard i n) (hrole : n'.role ≠ .leader) (hel : n'.electionElapsed ≤ n.electionElapsed)
    (htick : n'.tickCounter = n.tickCounter) (hterm : n.hs.term < n'.hs.term) : Heard heard i n' := by
  refine ⟨fun hr => absurd hr hrole, fun x hx hi => ?_, fun x hx hi => ?_, fun x hx hi ht => ?_⟩
  · have := h.since x hx hi
    omega
  · have := h.past x hx hi
    omega
  · have := h.past x hx hi
    omega

/-- No move makes a node forget the leader of its term. Stepping down within a term takes a removal,
which a fixed membership does not have. -/
theorem Heard.move (h : Heard heard i n) (hl : Local voters hv g rec D i n base) (hp : Plain g) (hm : Move c n₀ n n') :
    Heard heard i n' := by
  cases hm with
  | beat x _ hr => exact h.congr id rfl (le_refl _) (Nat.le_succ _) rfl
  | wait _ _ =>
    exact ⟨h.leading, fun x hx hi => Nat.succ_le_succ (h.since x hx hi), h.past, h.known⟩
  | rest _ _ _ => exact h.congr id rfl (Nat.zero_le _) (le_refl _) rfl
  | preCampaign _ _ _ _ _ => exact h.congr (fun hr => by cases hr) rfl (Nat.zero_le _) (le_refl _) rfl
  | stand _ =>
    rw [stand_eq]
    exact h.later (by simp) (le_refl _) rfl (Nat.lt_succ_self _)
  | win _ _ => exact ⟨fun _ => rfl, h.since, h.past, fun _ _ _ _ => rfl⟩
  | @follow t l hwhy =>
    rcases hwhy with ⟨-, -, e, he, hconf⟩ | ⟨-, -, -, hlt⟩
    · have hplain := hp.log hl.shared.sound i e (by rw [hl.core.log_eq]; exact List.mem_append_right _ he)
      rw [hconf] at hplain
      cases hplain
    · rw [becomeFollower_eq n l hlt]
      exact h.later (by simp [resetElectionTimer]) (Nat.zero_le _) rfl hlt
  | listen _ _ _ =>
    refine ⟨fun hr => (by cases hr), fun x hx hi => ?_, h.past, fun _ _ _ _ => rfl⟩
    exact le_trans (Nat.le_add_right _ _) (h.since x hx hi)
  | vote _ _ _ _ _ _ _ =>
    rw [setVote_eq]
    exact h.congr id rfl (Nat.zero_le _) (le_refl _) rfl
  | sync hr =>
    rw [syncProgressWithVoters, if_neg (by simp [hr])]
    exact h.congr id rfl (le_refl _) (le_refl _) rfl
  | _ => exact h.congr id rfl (le_refl _) (le_refl _) rfl

/-- What other nodes hear is of no concern. -/
theorem Heard.mono (h : Heard heard j n) (hsub : ∀ x ∈ heard', x.node = j → x ∈ heard) : Heard heard' j n :=
  ⟨h.leading, fun x hx hj => h.since x (hsub x hx hj) hj, fun x hx hj => h.past x (hsub x hx hj) hj,
    fun x hx hj => h.known x (hsub x hx hj) hj⟩

/-- The node has just heard the leader of its term. -/
theorem Heard.hear (h : Heard heard i n) (he : n.electionElapsed = 0) (hl : n.leaderId.isSome = true) :
    Heard (heard ++ [{ node := i, term := n.hs.term, tick := n.tickCounter }]) i n := by
  refine ⟨h.leading, fun x hx hi => ?_, fun x hx hi => ?_, fun _ _ _ _ => hl⟩
  · rcases List.mem_append.1 hx with hx | hx
    · exact h.since x hx hi
    · rw [List.mem_singleton.1 hx, he]; exact le_refl _
  · rcases List.mem_append.1 hx with hx | hx
    · exact h.past x hx hi
    · rw [List.mem_singleton.1 hx]

/-! ## Runs -/

structure Attentive (voters : List NodeId) (hv : voters.Nodup) (g : Ghost) (x : Earshot) : Prop where
  inv : Inv voters hv g x.cluster
  plain : Plain g
  heard : ∀ i, Heard x.heard i (x.cluster.host i).raft

theorem attentive_init (cfg : NodeId → Config) (voters : List NodeId) (hv : voters.Nodup) :
    Attentive voters hv Ghost.init (Earshot.init cfg voters) :=
  ⟨Inv.init cfg voters hv, fun hr => (by cases hr), fun _ =>
    ⟨fun hr => (by cases hr), fun _ hx => (by cases hx), fun _ hx => (by cases hx), fun _ hx => (by cases hx)⟩⟩

theorem Attentive.call {x : Earshot} (h : Attentive voters hv g x) (hdel : x.cluster.deliverable i c = true)
    (hfix : (Action.call i c).fixed) (hc : (x.cluster.host i).raft.call c = some n') :
    ∃ g', Attentive voters hv g' ⟨x.cluster.flush i n', x.heard ++ x.cluster.hearing (.call i c)⟩ := by
  obtain ⟨g', -, hinv, hp, hh⟩ := h.inv.call (P := fun g n => Plain g ∧ Heard x.heard i n)
    (h.inv.callOk hdel (confReady_of_fixed hfix)) hc ⟨h.plain, h.heard i⟩
    fun g₁ g₂ n₁ n₂ base₁ base₂ hle hl hm hf hl' hP =>
      ⟨hf.plain (Action.not_changesConf hfix) hP.1, hP.2.move hl hP.1 hm⟩
  refine ⟨g', hinv, hp, ?_⟩
  refine (Function.forall_update_iff x.cluster.host
    (p := fun j y => Heard (x.heard ++ x.cluster.hearing (.call i c)) j y.raft)).2 ⟨?_, fun j hj => ?_⟩
  · have hh' : Heard x.heard i n'.takeOutput.2 := ⟨hh.leading, hh.since, hh.past, hh.known⟩
    cases c with
    | step m =>
      simp only [Cluster.hearing]
      split
      · rename_i hears
        obtain ⟨-, he, hT, hlead⟩ := step_heeds hears hc
        have htick := Moves.tickCounter (call_moves hc) (by simp)
        rw [← hT, ← htick]
        exact hh'.hear he hlead
      · rwa [List.append_nil]
    | _ => exact (List.append_nil x.heard).symm ▸ hh'
  · refine (h.heard j).mono fun y hy hyj => ?_
    rcases List.mem_append.1 hy with hy | hy
    · exact hy
    · exact absurd (hyj.symm.trans (Cluster.hearing_node hy)) hj

theorem Attentive.exec {x y : Earshot} {a : Action} (h : Attentive voters hv g x) (hfix : a.fixed)
    (he : x.exec voters a = some y) : ∃ g', Attentive voters hv g' y := by
  obtain ⟨s, hs, rfl⟩ := Option.map_eq_some_iff.1 he
  cases Cluster.exec_some hs with
  | call hdel hc => exact h.call hdel hfix hc
  | idle => exact ⟨g, h.inv, h.plain, (List.append_nil x.heard).symm ▸ h.heard⟩
  | @compact i applied data snap n' hc =>
    refine ⟨g, h.inv.compact hc, h.plain, (List.append_nil x.heard).symm ▸ ?_⟩
    refine forall_update (P := fun j y => Heard x.heard j y.raft)
      ?_ h.heard
    obtain ⟨-, -, term, -, -, rfl⟩ := compact_some hc
    exact (h.heard i).congr id rfl (le_refl _) (le_refl _) rfl
  | @restart i cfg n' hn =>
    refine ⟨g, h.inv.restart rfl hn, h.plain, ?_⟩
    have hforget : Earshot.remembered x.heard (.restart i cfg) ++ x.cluster.hearing (.restart i cfg) =
        x.heard.filter fun y => y.node ≠ i := List.append_nil _
    rw [hforget]
    refine forall_update (P := fun j y => Heard (x.heard.filter fun y => y.node ≠ i) j y.raft) ?_ fun j => ?_
    · have hnone : ∀ y ∈ x.heard.filter (fun y => y.node ≠ i), y.node ≠ i := fun y hy => by
        simpa using (List.mem_filter.1 hy).2
      refine ⟨fun hr => ?_, fun y hy hi => absurd hi (hnone y hy), fun y hy hi => absurd hi (hnone y hy),
        fun y hy hi => absurd hi (hnone y hy)⟩
      rw [(new_some hn).1] at hr
      cases hr
    · exact (h.heard j).mono fun y hy _ => (List.mem_filter.1 hy).1

theorem attentive_of_run (cfg : NodeId → Config) (voters : List NodeId) (hv : voters.Nodup) {x : Earshot}
    (hr : Runs (Earshot.exec voters) (fun _ a => a.fixed) (Earshot.init cfg voters) x) : ∃ g, Attentive voters hv g x :=
  hr.invariant (P := fun x => ∃ g, Attentive voters hv g x) ⟨_, attentive_init cfg voters hv⟩
    fun ⟨_, h⟩ hfix he => h.exec hfix he

/-! ## The answer -/

theorem RaftNode.refuses_of_alive (hl : n.leaderId.isSome = true) (he : n.electionElapsed < n.cfg.electionTickMin) :
    n.refuses := by
  intro src dst term lli llt
  refine ⟨_, rfl, ?_⟩
  simp [handlePreVote, pushMsg, hl, he]

/-- A request at the next term with the node's own log position is granted once the counter has run out. -/
theorem RaftNode.not_refuses (he : n.cfg.electionTickMin ≤ n.electionElapsed) : ¬ n.refuses := by
  intro h
  obtain ⟨n', hn', hm⟩ := h 0 0 (n.hs.term + 1) n.log.lastIndex n.log.lastTerm
  cases hn'
  simp [handlePreVote, pushMsg, logUpToDate, not_lt.2 he] at hm

/-- A node that leads, or has heard the leader of its term, refuses every pre-vote exactly when it does
not lead with an election counter that has run out. -/
theorem preVote_refused (cfg : NodeId → Config) (voters : List NodeId) (hv : voters.Nodup) {x : Earshot}
    (hr : Runs (Earshot.exec voters) (fun _ a => a.fixed) (Earshot.init cfg voters) x) (i : NodeId)
    (hlive : (x.cluster.host i).raft.role = .leader ∨ (x.cluster.host i).raft.hasHeard i x.heard) :
    (x.cluster.host i).raft.refuses ↔ ((x.cluster.host i).raft.role = .leader →
      (x.cluster.host i).raft.electionElapsed < (x.cluster.host i).raft.cfg.electionTickMin) := by
  obtain ⟨g, h⟩ := attentive_of_run cfg voters hv hr
  have hh := h.heard i
  constructor
  · intro href _
    exact Nat.lt_of_not_le fun hle => not_refuses hle href
  · intro hcond
    rcases hlive with hlead | ⟨y, hy, hi, ht, hlt⟩
    · exact refuses_of_alive (hh.leading hlead) (hcond hlead)
    · have := hh.since y hy hi
      exact refuses_of_alive (hh.known y hy hi ht) (by omega)

/-- The three nodes of the scenarios, with the timeouts of `Config::new` and one seed. -/
def Config.seeded (i : NodeId) : Config := Config.new i 0

namespace Action

/-- Node 1 asks for pre-votes after its first timeout and gets node 2's answer `k` ticks later. -/
def electAfter (k : Nat) : List Action :=
  List.replicate (10 + k) (.call 1 .tick) ++
  [deliver 1 2 1 (.preVote 0 0), deliver 2 1 1 (.preVoteResp true), ask 1 2 1 0 0, grant 2 1 1,
   deliver 1 3 1 (.appendEntries 0 0 [{ term := 1, index := 1, payload := .noop }] 0 0)]

end Action

/-- Node 3 has just heard from node 1, which became leader at once. -/
theorem preVote_refused_run :
    ∃ x, Runs (Earshot.exec [1, 2, 3]) (fun _ a => a.fixed) (Earshot.init Config.seeded [1, 2, 3]) x ∧
      ((x.cluster.host 3).raft.role ≠ .leader ∧ { node := 3, term := 1, tick := 0 } ∈ x.heard ∧
        (x.cluster.host 3).raft.hs.term = 1 ∧ (x.cluster.host 3).raft.tickCounter = 0 ∧
        (x.cluster.host 3).raft.cfg.electionTickMin = 10) ∧ (x.cluster.host 3).raft.refuses := by
  obtain ⟨x, hr, hP⟩ := Runs.reached (Earshot.exec [1, 2, 3]) (fun _ a => a.fixed)
    (Earshot.init Config.seeded [1, 2, 3])
    (P := fun x => (x.cluster.host 3).raft.role ≠ .leader ∧ { node := 3, term := 1, tick := 0 } ∈ x.heard ∧
      (x.cluster.host 3).raft.hs.term = 1 ∧ (x.cluster.host 3).raft.tickCounter = 0 ∧
      (x.cluster.host 3).raft.cfg.electionTickMin = 10)
    (Action.electAfter 0) (by decide +kernel)
  obtain ⟨hrole, hmem, hterm, htick, hmin⟩ := hP
  have hheard : (x.cluster.host 3).raft.hasHeard 3 x.heard := ⟨_, hmem, rfl, hterm.symm, by rw [htick, hmin]; decide⟩
  exact ⟨x, hr, ⟨hrole, hmem, hterm, htick, hmin⟩,
    (preVote_refused Config.seeded [1, 2, 3] (by decide) hr 3 (Or.inr hheard)).2 fun hlead => absurd hlead hrole⟩

/-- The request node 3 sends after it has not heard from the leader for a while. -/
def Message.secondPreVote : Message := { src := 3, dst := 1, term := 2, body := .preVote 1 1 }

/-- Node 1 gets its pre-vote ten ticks late, wins, and grants node 3 a pre-vote against itself. -/
theorem lateLeader_grants :
    ∃ x, Runs (Earshot.exec [1, 2, 3]) (fun _ a => a.fixed) (Earshot.init Config.seeded [1, 2, 3]) x ∧
      (x.cluster.host 1).raft.cfg.preVote = true ∧ (x.cluster.host 1).raft.role = .leader ∧
        .secondPreVote ∈ x.cluster.net ∧
      ((x.cluster.host 1).raft.step .secondPreVote).any (fun n' =>
        n'.out.messages.contains { src := 1, dst := 3, term := 2, body := .preVoteResp true }) = true :=
  Runs.reached (Earshot.exec [1, 2, 3]) (fun _ a => a.fixed) (Earshot.init Config.seeded [1, 2, 3])
    (P := fun x => (x.cluster.host 1).raft.cfg.preVote = true ∧ (x.cluster.host 1).raft.role = .leader ∧
      .secondPreVote ∈ x.cluster.net ∧
      ((x.cluster.host 1).raft.step .secondPreVote).any (fun n' =>
        n'.out.messages.contains { src := 1, dst := 3, term := 2, body := .preVoteResp true }) = true)
    (Action.electAfter 10 ++ List.replicate 15 (.call 3 .tick)) (by decide +kernel)

end RaftKv

import RaftKv.Raft.ReadContexts

/-!
# Leader leases under perfect clocks

`lease_valid` (`node.rs:174`) trusts that no other leader can have been elected while a quorum has
responded within the last `election_tick_min` ticks. It counts from the arrival of the response
(`last_resp_tick`, `node.rs:869`), although the responder's own promise runs from the moment it
heard from the leader; and `handle_request_vote` (`node.rs:725`) grants votes without asking how long
ago that was, so the promise is kept only by the pre-vote round before it. A response that lingers
in the network for a tick, or a vote request that outlives its pre-votes, breaks the lease even
though all clocks agree: `lateResponse_two_leaders`.

| here | there |
| --- | --- |
| `Beat.tick`        | one tick of every node, in some order |
| `Hearing`          | history: when a node stepped an `AppendEntries` or `InstallSnapshot` that was not stale |
| `Prompt`           | responses are counted in the tick the follower heard the leader; votes are cast `election_tick_min` ticks after that |
| `lease_exclusive`  | with prompt steps only, a valid lease excludes a leader of a later term |
-/

namespace RaftKv

open RaftNode Function

variable {voters : List NodeId} {hv : voters.Nodup} {g g' : Ghost} {s t : Cluster}
  {rec : Snapshot → List Entry → Prop} {D : Entry → Prop} {i j : NodeId} {n n' n₀ : RaftNode}
  {base base' : List Entry} {c : Call} {m : Message}

/-! ## Runs in lockstep -/

/-- The node stepped a message of the leader of `term`, at the value `tick` of its tick counter. -/
structure Hearing where
  node : NodeId
  term : Nat
  tick : Nat
deriving DecidableEq, Repr

structure Lockstep where
  cluster : Cluster
  heard : List Hearing

inductive Beat where
  /-- Every voter ticks once, in the given order. -/
  | tick (order : List NodeId)
  | act (a : Action)

/-- Neither a tick nor a crash nor a change of the membership. -/
def Action.untimed : Action → Bool
  | .call _ .tick | .call _ (.proposeConfChange _) | .restart _ _ => false
  | _ => true

/-- A leader's message that is not stale. -/
def RaftNode.hears (n : RaftNode) (m : Message) : Bool :=
  (announcedLeader m).isSome && decide (n.hs.term ≤ m.term)

def Cluster.hearing (s : Cluster) : Action → List Hearing
  | .call i (.step m) =>
    if (s.host i).raft.hears m then [{ node := i, term := m.term, tick := (s.host i).raft.tickCounter }] else []
  | _ => []

theorem Cluster.hearing_node {x : Hearing} (h : x ∈ s.hearing (.call i c)) : x.node = i := by
  cases c with
  | step m =>
    simp only [hearing] at h
    split at h
    · rw [List.mem_singleton.1 h]
    · cases h
  | _ => cases h

namespace Lockstep

def init (cfg : NodeId → Config) (voters : List NodeId) : Lockstep := ⟨Cluster.init cfg voters, []⟩

def exec (voters : List NodeId) (x : Lockstep) : Beat → Option Lockstep
  | .tick order =>
    if order.Perm voters then
      (x.cluster.execAll voters (order.map fun i => .call i .tick)).map fun s => { x with cluster := s }
    else none
  | .act a =>
    if a.untimed then (x.cluster.exec voters a).map fun s => ⟨s, x.heard ++ x.cluster.hearing a⟩ else none

end Lockstep

/-- A response of its own term, which renews the lease of a leader. -/
def RaftNode.renews (n : RaftNode) (m : Message) : Bool :=
  decide (n.role = .leader ∧ m.term = n.hs.term) &&
    match m.body with
    | .appendEntriesResp .. | .installSnapshotResp _ => true
    | _ => false

/-- What the lease assumes of the step of `m` by node `i`: a response is counted in the tick in which its sender
heard the leader, and a vote is not cast within `election_tick_min` ticks of hearing a leader of an earlier term. -/
structure PromptStep (heard : List Hearing) (i : NodeId) (n : RaftNode) (m : Message) : Prop where
  response : n.renews m = true → { node := m.src, term := m.term, tick := n.tickCounter } ∈ heard
  vote : n.casts m = true → ∀ h ∈ heard, h.node = i → h.term < m.term →
    h.tick + n.cfg.electionTickMin ≤ n.tickCounter

instance (heard : List Hearing) (i : NodeId) (n : RaftNode) (m : Message) : Decidable (PromptStep heard i n m) :=
  decidable_of_iff ((n.renews m = true → { node := m.src, term := m.term, tick := n.tickCounter } ∈ heard) ∧
    (n.casts m = true → ∀ h ∈ heard, h.node = i → h.term < m.term →
      h.tick + n.cfg.electionTickMin ≤ n.tickCounter)) ⟨fun h => ⟨h.1, h.2⟩, fun h => ⟨h.1, h.2⟩⟩

def Prompt (x : Lockstep) : Beat → Prop
  | .act (.call i (.step m)) => PromptStep x.heard i (x.cluster.host i).raft m
  | _ => True

instance (x : Lockstep) (b : Beat) : Decidable (Prompt x b) := by
  unfold Prompt
  split <;> infer_instance

/-! ## The clock of a node -/

/-- Only a tick advances the tick counter. -/
theorem Move.ticks (hm : Move c n₀ n n') :
    n'.tickCounter = n.tickCounter ∨ (c = .tick ∧ n'.tickCounter = n.tickCounter + 1) := by
  cases hm with
  | beat _ h _ => exact .inr ⟨h, rfl⟩
  | wait h _ => exact .inr ⟨h, rfl⟩
  | stand _ => rw [stand_eq]; exact .inl rfl
  | @follow t l _ =>
    left
    rcases lt_or_ge n.hs.term t with hlt | hge
    · rw [becomeFollower_eq n l hlt]; rfl
    · rw [becomeFollower_same n l hge]; rfl
  | vote _ _ _ _ _ _ _ => rw [setVote_eq]; exact .inl rfl
  | sync hr =>
    left
    unfold syncProgressWithVoters
    split <;> rfl
  | _ => exact .inl rfl

theorem Moves.tickCounter (hm : Moves c n₀ n n') (hc : c ≠ .tick) : n'.tickCounter = n.tickCounter := by
  induction hm with
  | refl => rfl
  | tail _ hm ih => exact (hm.ticks.resolve_right fun h => hc h.1).trans ih

theorem RaftNode.tick_tickCounter (n : RaftNode) : n.tick.tickCounter = n.tickCounter + 1 := by
  -- what follows the first lines of `tick` is made of moves that any call could make
  have keep : ∀ {n₁ n₂ : RaftNode}, Moves (.readIndex 0) n n₁ n₂ → n₁.tickCounter = n.tickCounter + 1 →
      n₂.tickCounter = n.tickCounter + 1 := fun hm h => (hm.tickCounter (by simp)).trans h
  unfold tick
  dsimp only
  split
  · rename_i hr
    split
    · refine keep (broadcastAppend_moves ?_).1 rfl
      exact .inl hr
    · rfl
  · split
    · split
      · rename_i hmem
        split
        · unfold campaignPre
          dsimp only
          split
          · rename_i hq
            exact keep (campaign_moves (.inl ⟨rfl, hq⟩)) rfl
          · refine keep (requestVotes_moves ?_) rfl
            exact fun _ _ => ⟨rfl, rfl, rfl, rfl, rfl⟩
        · rename_i hpre
          refine keep (campaign_moves (.inr ⟨?_, List.contains_iff_mem.1 hmem⟩)) rfl
          simpa using hpre
      · rfl
    · rfl

/-- A node that hears a leader follows it, and starts to wait anew. -/
structure Heeds (n n' : RaftNode) : Prop where
  role : n'.role = .follower
  elapsed : n'.electionElapsed = 0
  term : n'.hs.term = n.hs.term
  leader : n'.leaderId.isSome = true

theorem RaftNode.checkPrev_heeds {src : NodeId} {prev prevTerm : Nat} {es : List Entry} {lc ctx : Nat}
    (hr : n.role = .follower) (he : n.electionElapsed = 0) (hl : n.leaderId.isSome = true)
    (h : n.checkPrev src prev prevTerm es lc ctx = some n') : Heeds n n' := by
  unfold checkPrev at h
  split at h
  · cases h; exact ⟨hr, he, rfl, hl⟩
  · split at h
    · cases h; exact ⟨hr, he, rfl, hl⟩
    · simp only [acceptEntries, Option.bind_eq_bind, Option.bind_eq_some_iff] at h
      obtain ⟨⟨log, new⟩, _, log', _, h⟩ := h
      cases h
      split
      · rw [advanceCommitTo_follower]
        · exact ⟨hr, he, rfl, hl⟩
        · exact hr
      · exact ⟨hr, he, rfl, hl⟩

theorem RaftNode.handleAppendEntries_heeds {src : NodeId} {prev prevTerm : Nat} {es : List Entry} {lc ctx : Nat}
    (h : n.handleAppendEntries src prev prevTerm es lc ctx = some n') : Heeds n n' := by
  unfold handleAppendEntries at h
  dsimp only at h
  split at h
  · split at h
    · cases h; exact ⟨rfl, rfl, rfl, rfl⟩
    · obtain ⟨h1, h2, h3, h4⟩ := checkPrev_heeds rfl rfl rfl h
      exact ⟨h1, h2, h3, h4⟩
  · obtain ⟨h1, h2, h3, h4⟩ := checkPrev_heeds rfl rfl rfl h
    exact ⟨h1, h2, h3, h4⟩

theorem RaftNode.handleInstallSnapshot_heeds (n : RaftNode) (src : NodeId) (snap : Snapshot) :
    Heeds n (n.handleInstallSnapshot src snap) := by
  unfold handleInstallSnapshot
  dsimp only
  split
  · exact ⟨rfl, rfl, rfl, rfl⟩
  · split
    · rw [advanceCommitTo_follower rfl]; exact ⟨rfl, rfl, rfl, rfl⟩
    · exact ⟨rfl, rfl, rfl, rfl⟩

theorem RaftNode.step_heeds (hh : n.hears m = true) (h : n.step m = some n') :
    n'.role = .follower ∧ n'.electionElapsed = 0 ∧ n'.hs.term = m.term ∧ n'.leaderId.isSome = true := by
  obtain ⟨hann, hle⟩ := Bool.and_eq_true_iff.1 hh
  have hle := of_decide_eq_true hle
  have hdispatch : ∀ {n₁ : RaftNode}, n₁.hs.term = m.term → n₁.dispatch m = some n' →
      n'.role = .follower ∧ n'.electionElapsed = 0 ∧ n'.hs.term = m.term ∧ n'.leaderId.isSome = true := by
    intro n₁ ht hd
    unfold dispatch at hd
    unfold announcedLeader at hann
    cases hb : m.body with
    | appendEntries prev prevTerm es lc ctx =>
      rw [hb] at hd
      obtain ⟨h1, h2, h3, h4⟩ := handleAppendEntries_heeds hd
      exact ⟨h1, h2, h3.trans ht, h4⟩
    | installSnapshot snap =>
      rw [hb] at hd
      cases hd
      obtain ⟨h1, h2, h3, h4⟩ := handleInstallSnapshot_heeds n₁ m.src snap
      exact ⟨h1, h2, h3.trans ht, h4⟩
    | _ => rw [hb] at hann; cases hann
  unfold step at h
  have hpre : isPreVote m.body = false := by
    unfold announcedLeader at hann
    cases hb : m.body with
    | preVote _ _ => rw [hb] at hann; cases hann
    | preVoteResp _ => rw [hb] at hann; cases hann
    | _ => rfl
  rw [if_neg (by rw [hpre]; simp)] at h
  split at h
  · rename_i hgt
    exact hdispatch (becomeFollower_hs_term (le_of_lt hgt)) h
  · rw [if_neg (not_lt.2 hle)] at h
    exact hdispatch (by omega) h

/-! ## The promise of one node -/

/-- The election timer of node `i`, against what it has heard. -/
structure Timer (lo : Nat) (heard : List Hearing) (i : NodeId) (n : RaftNode) : Prop where
  min_eq : n.cfg.electionTickMin = lo
  preVote_on : n.cfg.preVote = true
  timeout_le : lo ≤ n.randomizedTimeout
  elapsed_le : n.electionElapsed ≤ n.tickCounter
  since_heard : ∀ h ∈ heard, h.node = i → h.tick + n.electionElapsed ≤ n.tickCounter
  /-- A pre-candidate has let its timeout pass since it last heard a leader. -/
  waited : n.role = .preCandidate → ∀ h ∈ heard, h.node = i → h.tick + lo ≤ n.tickCounter
  late : n.role ≠ .follower → lo ≤ n.tickCounter

section timer
variable {lo : Nat} {heard heard' : List Hearing}

/-- The timer is restarted, by a node that stays in its role or steps down. -/
theorem Timer.reset (h : Timer lo heard i n) (hcfg : n'.cfg = n.cfg) (htick : n'.tickCounter = n.tickCounter)
    (hmin : n.cfg.electionTickMin ≤ n'.randomizedTimeout) (helapsed : n'.electionElapsed = 0)
    (hrole : n'.role = n.role ∨ n'.role = .follower) : Timer lo heard i n' := by
  refine ⟨hcfg ▸ h.min_eq, hcfg ▸ h.preVote_on, h.min_eq ▸ hmin, by omega, fun x hx hi => ?_, fun hr x hx hi => ?_,
    fun hr => ?_⟩
  · have := h.since_heard x hx hi
    omega
  · rcases hrole with heq | heq
    · rw [htick]; exact h.waited (heq ▸ hr) x hx hi
    · rw [heq] at hr; cases hr
  · rcases hrole with heq | heq
    · rw [htick]; exact h.late (heq ▸ hr)
    · exact absurd heq hr

theorem Timer.move (h : Timer lo heard i n) (hm : Move c n₀ n n') : Timer lo heard i n' := by
  have keep : n'.cfg = n.cfg → n'.tickCounter = n.tickCounter → n'.randomizedTimeout = n.randomizedTimeout →
      n'.electionElapsed = n.electionElapsed → n'.role = n.role → Timer lo heard i n' := by
    intro hcfg htick hto hel hrole
    refine ⟨hcfg ▸ h.min_eq, hcfg ▸ h.preVote_on, hto ▸ h.timeout_le, ?_, ?_, ?_, ?_⟩
    · rw [hel, htick]; exact h.elapsed_le
    · rw [hel, htick]; exact h.since_heard
    · rw [hrole, htick]; exact h.waited
    · rw [hrole, htick]; exact h.late
  cases hm with
  | beat x _ hr =>
    refine ⟨h.min_eq, h.preVote_on, h.timeout_le, Nat.le_succ_of_le h.elapsed_le, fun x hx hi => ?_,
      fun hr' => ?_, fun hr' => Nat.le_succ_of_le (h.late hr')⟩
    · exact Nat.le_succ_of_le (h.since_heard x hx hi)
    · rw [show n.role = .preCandidate from hr'] at hr; cases hr
  | wait _ _ =>
    refine ⟨h.min_eq, h.preVote_on, h.timeout_le, Nat.succ_le_succ h.elapsed_le, fun x hx hi => ?_,
      fun hr' x hx hi => Nat.le_succ_of_le (h.waited hr' x hx hi), fun hr' => Nat.le_succ_of_le (h.late hr')⟩
    exact Nat.succ_le_succ (h.since_heard x hx hi)
  | rest _ _ _ => exact h.reset rfl rfl (Nat.le_add_right _ _) rfl (.inl rfl)
  | preCampaign _ _ hto _ _ =>
    have hlo := le_trans h.timeout_le hto
    refine ⟨h.min_eq, h.preVote_on, h.min_eq ▸ Nat.le_add_right _ _, Nat.zero_le _, fun x hx hi => ?_,
      fun _ x hx hi => ?_, fun _ => le_trans hlo h.elapsed_le⟩
    · exact le_trans (Nat.le_add_right _ _) (h.since_heard x hx hi)
    · exact le_trans (Nat.add_le_add_left hlo _) (h.since_heard x hx hi)
  | stand hstand =>
    rw [stand_eq]
    refine ⟨h.min_eq, h.preVote_on, h.timeout_le, h.elapsed_le, h.since_heard, fun hr => (by cases hr), fun _ => ?_⟩
    rcases hstand with ⟨hr, _⟩ | ⟨hoff, _⟩
    · exact h.late (by rw [hr]; simp)
    · rw [h.preVote_on] at hoff; cases hoff
  | win hr _ =>
    exact ⟨h.min_eq, h.preVote_on, h.timeout_le, h.elapsed_le, h.since_heard, fun hr => (by cases hr),
      fun _ => h.late (by rw [hr]; simp)⟩
  | @follow t l _ =>
    rcases lt_or_ge n.hs.term t with hlt | hge
    · rw [becomeFollower_eq n l hlt]
      exact h.reset rfl rfl (Nat.le_add_right _ _) rfl (.inr rfl)
    · rw [becomeFollower_same n l hge]
      exact h.reset rfl rfl (Nat.le_add_right _ _) rfl (.inr rfl)
  | listen _ _ _ =>
    exact h.reset rfl rfl (h.min_eq ▸ h.timeout_le) rfl (.inr rfl)
  | vote _ _ _ _ _ _ _ =>
    rw [setVote_eq]
    exact h.reset rfl rfl (Nat.le_add_right _ _) rfl (.inl rfl)
  | sync hr =>
    rw [syncProgressWithVoters, if_neg (by simp [hr])]
    exact ⟨h.min_eq, h.preVote_on, h.timeout_le, h.elapsed_le, h.since_heard, h.waited, h.late⟩
  | _ => exact keep rfl rfl rfl rfl rfl

/-- What node `i` has promised: the lease of a leader rests on what its followers heard, and no vote was cast soon
after hearing a leader of an earlier term. -/
structure Timely (lo : Nat) (heard : List Hearing) (i : NodeId) (g : Ghost) (n : RaftNode) : Prop
    extends Timer lo heard i n where
  answered : n.role = .leader → ∀ {p pr}, n.prs.find? p = some pr →
    pr.lastRespTick = 0 ∨ { node := p, term := n.hs.term, tick := pr.lastRespTick } ∈ heard
  voted : ∀ {T x}, g.led.vote i T = some x → ∀ h ∈ heard, h.node = i → h.term < T → h.tick + lo ≤ n.tickCounter

theorem Responds.renews {pr pr' : Progress} (h : Responds n m pr pr') (hr : n.role = .leader)
    (ht : m.term = n.hs.term) : n.renews m = true := by
  obtain ⟨_, h⟩ := h
  unfold RaftNode.renews
  cases hb : m.body with
  | appendEntriesResp _ _ _ _ => simp [hr, ht]
  | installSnapshotResp _ => simp [hr, ht]
  | _ => rw [hb] at h; exact h.elim

/-- A call keeps the promise if it is a prompt step, or no step at all. -/
theorem Timely.move (h : Timely lo heard i g n) (hprompt : ∀ m, c = .step m → PromptStep heard i n₀ m)
    (hstart : n₀.cfg.electionTickMin = lo ∧ n₀.tickCounter ≤ n.tickCounter) (hf : Follows c n₀ i g n g' n')
    (hl' : Local voters hv g' rec D i n' base') (hm : Move c n₀ n n') :
    Timely lo heard i g' n' ∧ n₀.tickCounter ≤ n'.tickCounter := by
  have htick : n.tickCounter ≤ n'.tickCounter := by
    rcases hm.ticks with heq | ⟨_, heq⟩ <;> omega
  refine ⟨⟨h.toTimer.move hm, fun hr {p pr} hpr => ?_, fun {T x} hx k hk hi hlt => ?_⟩, le_trans hstart.2 htick⟩
  · obtain ⟨hterm, hprs⟩ := hm.progress hr
    cases hprs hpr with
    | fresh _ => exact .inl rfl
    | same hl hpr₀ hs => rw [hs.resp, hterm]; exact h.answered hl hpr₀
    | response hstep hn hl ht hsrc _ hresp =>
      subst hn hsrc
      rw [hresp.1, hterm, ← ht]; exact .inr ((hprompt _ hstep).response (hresp.renews hl ht))
  · refine le_trans ?_ htick
    rcases hf.votes with hsame | hpre | hoff | ⟨m, hstep, hcast, hterm⟩
    · exact h.voted (hsame ▸ hx) k hk hi hlt
    · exact h.waited hpre k hk hi
    · rw [h.preVote_on] at hoff; cases hoff
    · have hT := hl'.shared.sound.vote_term hx
      rw [hl'.core.term_eq, hterm] at hT
      have := (hprompt m hstep).vote hcast k hk hi (lt_of_lt_of_le hlt hT)
      rw [hstart.1] at this
      exact le_trans this hstart.2

end timer

/-! ## The cluster -/

section cluster
variable {lo : Nat} {heard heard' : List Hearing}

/-- Nothing a node has promised changes when another node acts. -/
theorem Timely.frame (h : Timely lo heard j g n) (hvote : g'.led.vote j = g.led.vote j)
    (hsub : ∀ x ∈ heard, x ∈ heard') (hown : ∀ x ∈ heard', x.node = j → x ∈ heard) : Timely lo heard' j g' n where
  min_eq := h.min_eq
  preVote_on := h.preVote_on
  timeout_le := h.timeout_le
  elapsed_le := h.elapsed_le
  since_heard x hx hj := h.since_heard x (hown x hx hj) hj
  waited hr x hx hj := h.waited hr x (hown x hx hj) hj
  late := h.late
  answered hr _ _ hpr := (h.answered hr hpr).imp_right (hsub _)
  voted hT x hx hj := h.voted (hvote ▸ hT) x (hown x hx hj) hj

/-- The node has just heard the leader of its term. -/
theorem Timely.hear (h : Timely lo heard i g n) (hl : Local voters hv g rec D i n base) (hr : n.role = .follower)
    (he : n.electionElapsed = 0) :
    Timely lo (heard ++ [{ node := i, term := n.hs.term, tick := n.tickCounter }]) i g n := by
  refine ⟨⟨h.min_eq, h.preVote_on, h.timeout_le, h.elapsed_le, fun x hx hi => ?_, fun hr' => ?_, h.late⟩,
    fun hr' => ?_, fun {T x} hT k hk hi hlt => ?_⟩
  · rcases List.mem_append.1 hx with hx | hx
    · exact h.since_heard x hx hi
    · rw [List.mem_singleton.1 hx, he]; exact le_refl _
  · rw [hr] at hr'; cases hr'
  · rw [hr] at hr'; cases hr'
  · rcases List.mem_append.1 hk with hk | hk
    · exact h.voted hT k hk hi hlt
    · -- no vote was cast beyond the node's term
      rw [List.mem_singleton.1 hk] at hlt
      have := hl.shared.sound.vote_term hT
      rw [hl.core.term_eq] at this
      exact absurd hlt (not_lt.2 this)

/-- All nodes keep their promises, with the membership fixed. -/
structure Timed (voters : List NodeId) (hv : voters.Nodup) (lo : Nat) (heard : List Hearing) (g : Ghost)
    (s : Cluster) : Prop where
  inv : Inv voters hv g s
  plain : Plain g
  timely : ∀ i, Timely lo heard i g (s.host i).raft

theorem Timed.call (h : Timed voters hv lo heard g s) (hdel : s.deliverable i c = true) (hfix : ¬ c.changesConf)
    (hprompt : ∀ m, c = .step m → PromptStep heard i (s.host i).raft m) (hc : (s.host i).raft.call c = some n') :
    ∃ g', Timed voters hv lo (heard ++ s.hearing (.call i c)) g' (s.flush i n') := by
  have hready : ConfReady s (.call i c) := confReady_of_fixed (by cases c <;> first | trivial | exact hfix trivial)
  have hok := h.inv.callOk hdel hready
  obtain ⟨g', hf, hinv, htime, -⟩ := h.inv.call
    (P := fun g n => Timely lo heard i g n ∧ (s.host i).raft.tickCounter ≤ n.tickCounter) hok hc
    ⟨h.timely i, le_refl _⟩ fun _ _ _ _ _ _ _ _ hm hf hl' hP =>
      hP.1.move hprompt ⟨(h.timely i).min_eq, hP.2⟩ hf hl' hm
  refine ⟨g', hinv, hf.plain hfix h.plain, fun j => ?_⟩
  by_cases hj : j = i
  · subst hj
    have hl := hinv.locals j
    rw [Cluster.flush, Cluster.flushTo_self] at hl ⊢
    have htime : Timely lo heard j g' n'.takeOutput.2 :=
      ⟨⟨htime.min_eq, htime.preVote_on, htime.timeout_le, htime.elapsed_le, htime.since_heard, htime.waited,
        htime.late⟩, htime.answered, htime.voted⟩
    cases c with
    | step m =>
      simp only [Cluster.hearing]
      split
      · rename_i hh
        obtain ⟨hr, he, hT, -⟩ := RaftNode.step_heeds hh hc
        have htick := Moves.tickCounter (call_moves hc) (by simp)
        rw [← hT, ← htick]
        exact htime.hear hl hr he
      · rwa [List.append_nil]
    | _ => exact (List.append_nil heard).symm ▸ htime
  · rw [show (s.flush i n').host j = s.host j from update_of_ne hj ..]
    refine (h.timely j).frame (hf.vote hj) (fun x hx => List.mem_append_left _ hx) fun x hx hxj => ?_
    rcases List.mem_append.1 hx with hx | hx
    · exact hx
    · exact absurd (hxj.symm.trans (Cluster.hearing_node hx)) hj

theorem Timed.compact (h : Timed voters hv lo heard g s) {applied : Nat} {data : Bytes} {snap : Snapshot}
    (hc : (s.host i).raft.compact applied data = (some snap, n')) :
    Timed voters hv lo heard g (s.compacted i applied snap n') := by
  refine ⟨h.inv.compact hc, h.plain, fun j => ?_⟩
  by_cases hj : j = i
  · subst hj
    obtain ⟨_, _, _, _, _, rfl⟩ := compact_some hc
    rw [Cluster.compacted_self]
    have ht := h.timely j
    exact ⟨⟨ht.min_eq, ht.preVote_on, ht.timeout_le, ht.elapsed_le, ht.since_heard, ht.waited, ht.late⟩,
      ht.answered, ht.voted⟩
  · rw [show (s.compacted i applied snap n').host j = s.host j from update_of_ne hj ..]
    exact h.timely j

/-- Ticks of a list of nodes, each counted on its own clock. -/
theorem Timed.ticks {order : List NodeId} (h : Timed voters hv lo heard g s)
    (he : s.execAll voters (order.map fun i => .call i .tick) = some t) :
    ∃ g', Timed voters hv lo heard g' t ∧
      ∀ j, (t.host j).raft.tickCounter = (s.host j).raft.tickCounter + order.count j := by
  induction order generalizing g s with
  | nil => cases he; exact ⟨g, h, fun j => rfl⟩
  | cons i order ih =>
    obtain ⟨s₁, hs₁, he⟩ := Option.bind_eq_some_iff.1 he
    cases Cluster.exec_some hs₁ with
    | call hdel hc =>
      obtain ⟨g₁, h₁⟩ := h.call hdel (fun hf => hf) (fun m hm => by cases hm) hc
      have hheard : s.hearing (.call i .tick) = [] := rfl
      rw [hheard, List.append_nil] at h₁
      obtain ⟨g', h', hclock⟩ := ih h₁ he
      refine ⟨g', h', fun j => ?_⟩
      rw [hclock j, List.count_cons]
      by_cases hj : j = i
      · subst hj
        cases hc
        rw [Cluster.flush, Cluster.flushTo_self]
        have := (s.host j).raft.tick_tickCounter
        simp only [beq_self_eq_true, if_true]
        show (s.host j).raft.tick.tickCounter + _ = _
        omega
      · rw [show (s.flush i _).host j = s.host j from update_of_ne hj ..]
        simp [Ne.symm hj]

/-- Between two beats all clocks agree. -/
structure Synced (voters : List NodeId) (hv : voters.Nodup) (lo : Nat) (x : Lockstep) : Prop where
  timed : ∃ g, Timed voters hv lo x.heard g x.cluster
  clock : ∃ k, ∀ i, (x.cluster.host i).raft.tickCounter = if i ∈ voters then k else 0

theorem Synced.init (cfg : NodeId → Config) (voters : List NodeId) (hv : voters.Nodup) {lo : Nat}
    (hmin : ∀ i, (cfg i).electionTickMin = lo) (hpre : ∀ i, (cfg i).preVote = true) :
    Synced voters hv lo (Lockstep.init cfg voters) where
  timed := by
    refine ⟨Ghost.init, Inv.init cfg voters hv, fun hr => (by cases hr), fun i => ?_⟩
    have hlo : lo ≤ (RaftNode.fresh { cfg i with id := i } voters).randomizedTimeout := by
      rw [← hmin i]; exact Nat.le_add_right _ _
    exact ⟨⟨hmin i, hpre i, hlo, le_refl _, fun x hx => (by cases hx), fun hr => (by cases hr),
      fun hr => absurd rfl hr⟩, fun hr => (by cases hr), fun _ x hx => (by cases hx)⟩
  clock := ⟨0, fun i => by rw [ite_self]; rfl⟩

theorem Synced.exec {x y : Lockstep} {b : Beat} (h : Synced voters hv lo x) (hp : Prompt x b)
    (he : x.exec voters b = some y) : Synced voters hv lo y := by
  obtain ⟨g, ht⟩ := h.timed
  obtain ⟨k, hk⟩ := h.clock
  cases b with
  | tick order =>
    simp only [Lockstep.exec] at he
    split at he
    · rename_i hperm
      obtain ⟨s, hs, rfl⟩ := Option.map_eq_some_iff.1 he
      obtain ⟨g', ht', hclock⟩ := ht.ticks hs
      refine ⟨⟨g', ht'⟩, k + 1, fun i => ?_⟩
      rw [hclock i, hk i, hperm.count_eq]
      split
      · rename_i hi
        rw [List.count_eq_one_of_mem hv hi]
      · rename_i hi
        rw [List.count_eq_zero_of_not_mem hi]
    · cases he
  | act a =>
    simp only [Lockstep.exec] at he
    split at he
    · rename_i hun
      obtain ⟨s, hs, rfl⟩ := Option.map_eq_some_iff.1 he
      cases Cluster.exec_some hs with
      | @call i c n' hdel hc =>
        have htick : c ≠ .tick := fun hc' => by rw [hc'] at hun; cases hun
        have hconf : ¬ c.changesConf := fun hc' => by cases c <;> first | exact hc' | cases hun
        obtain ⟨g', ht'⟩ := ht.call hdel hconf (fun m hm => by subst hm; exact hp) hc
        refine ⟨⟨g', ht'⟩, k, fun j => ?_⟩
        by_cases hj : j = i
        · subst hj
          rw [Cluster.flush, Cluster.flushTo_self]
          exact (Moves.tickCounter (call_moves hc) htick).trans (hk j)
        · rw [show (x.cluster.flush i n').host j = x.cluster.host j from update_of_ne hj ..]
          exact hk j
      | idle =>
        exact ⟨⟨g, (List.append_nil x.heard).symm ▸ ht⟩, k, hk⟩
      | @compact i applied data snap n' hc =>
        refine ⟨⟨g, (List.append_nil x.heard).symm ▸ ht.compact hc⟩, k, fun j => ?_⟩
        by_cases hj : j = i
        · subst hj
          obtain ⟨_, _, _, _, _, rfl⟩ := compact_some hc
          rw [Cluster.compacted_self]; exact hk j
        · rw [show (x.cluster.compacted i applied snap n').host j = x.cluster.host j from
            update_of_ne hj ..]
          exact hk j
      | restart _ => cases hun
    · cases he

/-! ## The lease -/

theorem RaftNode.leaseValid_quorum (h : n.leaseValid = true) : n.role = .leader ∧ ∃ q,
    ((n.voters.map fun v => if v = n.cfg.id then n.tickCounter
      else ((n.prs.find? v).map Progress.lastRespTick).getD 0).insertionSort (· ≥ ·))[n.quorum - 1]? = some q ∧
    n.tickCounter - q < n.cfg.electionTickMin := by
  unfold leaseValid at h
  split at h
  · cases h
  · rename_i hr
    dsimp only at h
    split at h
    · cases h
    · rename_i q hq
      exact ⟨not_not.1 hr, q, hq, of_decide_eq_true h⟩

/-- A term was won with the votes of a majority, if the membership never changed. -/
theorem Inv.won_majority (h : Inv voters hv g s) (hp : Plain g) (hr : (s.host j).raft.role = .leader) :
    ∃ Q, IsMajority voters Q ∧ ∀ v ∈ Q, ∃ x, g.led.vote v (s.host j).raft.hs.term = some x := by
  obtain ⟨r, hrt, hl, _⟩ := (h.locals j).role.leader hr
  have hsound := (h.locals j).shared.sound
  obtain ⟨hQ, hvotes⟩ := hsound.reign_quorum hrt
  refine ⟨r.quorum, ?_, fun v hv' => ?_⟩
  · have hconf : confOf voters r.elected = voters := by
      obtain ⟨y, hy, _⟩ := hsound.reign_log hrt
      refine confOf_of_no_conf (List.countP_eq_zero.2 fun e he => ?_)
      rw [hp hrt e (by rw [hy]; exact List.mem_append_left _ he)]; simp
    rw [← hconf]; exact hQ
  · obtain ⟨lv, hlv, _⟩ := hvotes v hv'
    exact ⟨_, hlv⟩

theorem Synced.exclusive {x : Lockstep} (h : Synced voters hv lo x) (hi : (x.cluster.host i).raft.leaseValid = true)
    (hj : (x.cluster.host j).raft.role = .leader) :
    (x.cluster.host j).raft.hs.term ≤ (x.cluster.host i).raft.hs.term := by
  by_contra hlt
  have hlt := Nat.lt_of_not_le hlt
  obtain ⟨g, ht⟩ := h.timed
  obtain ⟨k, hk⟩ := h.clock
  obtain ⟨hr, q, hq, hfresh⟩ := RaftNode.leaseValid_quorum hi
  have hti := ht.timely i
  have hli := ht.inv.locals i
  rw [hti.min_eq] at hfresh
  have hlate := hti.late (by rw [hr]; simp)
  have hik : (x.cluster.host i).raft.tickCounter = k := by
    have := hk i
    split at this
    · exact this
    · omega
  -- a voter of the later term is in the quorum of the lease
  have hfix := hli.voters_fixed ht.plain
  have hQ := isMajority_of_kth (by rw [hfix]; exact hv) _ hq
  rw [hfix] at hQ
  obtain ⟨Q', hQ', hvotes⟩ := ht.inv.won_majority ht.plain hj
  obtain ⟨v, hv₁, hv₂⟩ := hQ.meet_self hQ'
  obtain ⟨y, hy⟩ := hvotes v hv₂
  obtain ⟨hmem, hle⟩ := Finset.mem_filter.1 hv₁
  have hvk : (x.cluster.host v).raft.tickCounter = k := by
    rw [hk v, if_pos (List.mem_toFinset.1 hmem)]
  by_cases hvi : v = (x.cluster.host i).raft.cfg.id
  · -- the leader itself has not reached that term
    rw [hvi.trans hli.id] at hy
    have := hli.shared.sound.vote_term hy
    rw [hli.core.term_eq] at this
    omega
  · rw [if_neg hvi] at hle
    cases hpr : (x.cluster.host i).raft.prs.find? v with
    | none => rw [hpr] at hle; simp at hle; omega
    | some pr =>
      rw [hpr] at hle
      have hle : q ≤ pr.lastRespTick := hle
      rcases hti.answered hr hpr with h0 | hheard
      · omega
      · have := (ht.timely v).voted hy _ hheard rfl hlt
        dsimp only at this
        omega

end cluster

/-- In every lockstep run of prompt steps, with the same minimal election timeout everywhere and pre-vote on, no
node leads a later term than a node whose lease is valid. -/
theorem lease_exclusive {x : Lockstep} (cfg : NodeId → Config) (voters : List NodeId) (hv : voters.Nodup) (lo hi : Nat)
    (hmin : ∀ i, (cfg i).electionTickMin = lo ∧ (cfg i).electionTickMax = hi) (hpre : ∀ i, (cfg i).preVote = true)
    (hx : Runs (Lockstep.exec voters) Prompt (Lockstep.init cfg voters) x)
    (hlease : (x.cluster.host i).raft.leaseValid = true) (hlead : (x.cluster.host j).raft.role = .leader) :
    (x.cluster.host j).raft.hs.term ≤ (x.cluster.host i).raft.hs.term := by
  have hs : Synced voters hv lo x := hx.invariant (Synced.init cfg voters hv (fun i => (hmin i).1) hpre)
    fun h hp he => h.exec hp he
  exact hs.exclusive hlease hlead

namespace Beat

/-- Every node times out after exactly two ticks. -/
def config (i : NodeId) : Config :=
  { id := i, electionTickMin := 2, electionTickMax := 3, heartbeatTick := 1, maxBatchEntries := 64,
    maxInflight := 10, preVote := true, seed := 0, tick_le := by decide }

def ticks : List Beat := [.tick [1, 2, 3], .tick [1, 2, 3]]

def deliver (src dst term : Nat) (body : MessageBody) : Beat := .act (.deliver src dst term body)

/-- A pre-vote round and a vote round of node `a`, answered by node `b`. -/
def elect (a b term lastLogIndex lastLogTerm : Nat) : List Beat :=
  [deliver a b term (.preVote lastLogIndex lastLogTerm), deliver b a term (.preVoteResp true),
   deliver a b term (.requestVote lastLogIndex lastLogTerm), deliver b a term (.requestVoteResp true)]

/-- Node 1 leads term 1 and node 3 has heard of it, all within the second tick. -/
def led : List Beat :=
  ticks ++ elect 1 3 1 0 0 ++ [deliver 1 3 1 (.appendEntries 0 0 [{ term := 1, index := 1, payload := .noop }] 0 0)]

def respond : Beat := deliver 3 1 1 (.appendEntriesResp true 1 0 0)

end Beat

/-- Node 3 leads term 2 with a valid lease while node 1 still leads term 1, with every message on time. -/
theorem lease_exclusive_run :
    ∃ x, Runs (Lockstep.exec [1, 2, 3]) Prompt (Lockstep.init Beat.config [1, 2, 3]) x ∧
      ((x.cluster.host 3).raft.leaseValid = true ∧ (x.cluster.host 1).raft.role = .leader ∧
        (x.cluster.host 3).raft.hs.term = 2) ∧
      (x.cluster.host 1).raft.hs.term ≤ (x.cluster.host 3).raft.hs.term := by
  obtain ⟨x, hr, hP⟩ := Runs.reached (Lockstep.exec [1, 2, 3]) Prompt (Lockstep.init Beat.config [1, 2, 3])
    (Beat.led ++ [Beat.respond] ++ Beat.ticks ++ Beat.elect 3 2 2 1 1 ++
      [Beat.deliver 3 2 2 (.appendEntries 1 1 [{ term := 2, index := 2, payload := .noop }] 0 0),
       Beat.deliver 2 3 2 (.appendEntriesResp false 0 1 0)])
    (P := fun x => (x.cluster.host 3).raft.leaseValid = true ∧ (x.cluster.host 1).raft.role = .leader ∧
      (x.cluster.host 3).raft.hs.term = 2) (by decide +kernel)
  exact ⟨x, hr, hP, lease_exclusive Beat.config [1, 2, 3] (by decide) 2 3 (fun _ => ⟨rfl, rfl⟩) (fun _ => rfl) hr
    hP.1 hP.2.1⟩

/-- The same with the response of node 3 delivered two ticks late: node 1 has a valid lease in term 1 while node 3
leads term 2. -/
theorem lateResponse_two_leaders :
    ∃ x, Runs (Lockstep.exec [1, 2, 3]) (fun _ _ => True) (Lockstep.init Beat.config [1, 2, 3]) x ∧
      (x.cluster.host 1).raft.leaseValid = true ∧ (x.cluster.host 1).raft.hs.term = 1 ∧
      (x.cluster.host 3).raft.role = .leader ∧ (x.cluster.host 3).raft.hs.term = 2 :=
  Runs.reached _ _ _ (Beat.led ++ Beat.ticks ++ Beat.elect 3 2 2 1 1 ++ [Beat.respond]) (by decide +kernel)

end RaftKv

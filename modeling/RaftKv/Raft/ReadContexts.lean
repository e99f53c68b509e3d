import RaftKv.Raft.Reachable

/-!
# Read contexts

A leader numbers its reads with a counter, sends the number with every `AppendEntries` and counts
the numbers its followers echo. `ReadMove` is what a move does to all this; `ReadInv` says that, in
runs without stale echoes, no number in flight or recorded is above the counter of the leader that
gave it out.

| here | there |
| --- | --- |
| `Sends`, `Echo` | `read_ctx` of an `AppendEntries`; of an `AppendEntriesResp` given in the term of the request |
| `NoStaleEcho`  | no answer to an old term (`node.rs:612-627`) is counted by `handle_append_resp` (`node.rs:866`) |
| `Asked`        | what a leader's counter says about the messages in flight |
-/

namespace RaftKv

open RaftNode Function

variable {voters : List NodeId} {hv : voters.Nodup} {g g' g₀ : Ghost} {s s' t : Cluster}
  {rec : Snapshot → List Entry → Prop} {D : Entry → Prop} {i j : NodeId} {n n' n₀ : RaftNode}
  {base base' : List Entry} {c : Call}

/-! ## What a move does to the reads -/

/-- Where the echo recorded in a new progress of `v` comes from. -/
def EchoFrom (c : Call) (n₀ n : RaftNode) (v : NodeId) (pr' : Progress) : Prop :=
  pr'.ackedReadCtx = 0 ∨ (∃ pr, n.prs.find? v = some pr ∧ pr'.ackedReadCtx = pr.ackedReadCtx) ∨
  ∃ m ok mi ci ctx pr, c = .step m ∧ n = n₀ ∧ n.role = .leader ∧ m.term = n.hs.term ∧ v = m.src ∧
    m.body = .appendEntriesResp ok mi ci ctx ∧ n.prs.find? v = some pr ∧
    pr'.ackedReadCtx = Nat.max pr.ackedReadCtx ctx

/-- A move, as far as reads are concerned. -/
inductive ReadMove (c : Call) (n₀ n : RaftNode) : RaftNode → Prop
  | quiet {n' : RaftNode} : n'.role = n.role → n'.hs.term = n.hs.term → n'.prs = n.prs →
      n'.pendingReads = n.pendingReads → n'.readCtxCounter = n.readCtxCounter →
      n'.out.readStates = n.out.readStates → n'.out.messages = n.out.messages → ReadMove c n₀ n n'
  | leave {n' : RaftNode} : n'.role ≠ .leader →
      n'.role = .follower ∨ n.role ≠ .follower ∨ n.cfg.id ∈ n.voters →
      n'.out.readStates = n.out.readStates → n'.out.messages = n.out.messages → ReadMove c n₀ n n'
  | win : n.role = .candidate → ReadMove c n₀ n n.win
  | progress {prs : OrdMap NodeId Progress} : (∀ {v pr'}, prs.find? v = some pr' → EchoFrom c n₀ n v pr') →
      ReadMove c n₀ n { n with prs }
  | register {r : Nat} : c = .readIndex r → n = n₀ → n.role = .leader → n.log.term n.commit = some n.hs.term →
      ReadMove c n₀ n (n.register r)
  | release {ctx : Nat} : n.role = .leader →
      (n.quorum = 1 ∧ ctx = n.readCtxCounter) ∨
        (0 < ctx ∧ (n.readAcks.insertionSort (· ≥ ·))[n.quorum - 1]? = some ctx) →
      ReadMove c n₀ n (n.releaseReads ctx)
  | push {m : Message} : Says c n m → ReadMove c n₀ n (n.pushMsg m)

theorem echoFrom_insert {p v : NodeId} {pr' pr'' : Progress}
    (hsame : EchoFrom c n₀ n p pr') (h : (n.prs.insert p pr').find? v = some pr'') : EchoFrom c n₀ n v pr'' := by
  rw [OrdMap.find?_insert] at h
  split at h
  · rename_i hvp
    cases h; rw [hvp]; exact hsame
  · exact .inr (.inl ⟨pr'', h, rfl⟩)

theorem Move.reads (hm : Move c n₀ n n') : ReadMove c n₀ n n' := by
  cases hm with
  | beat x _ _ => exact .quiet rfl rfl rfl rfl rfl rfl rfl
  | wait _ _ => exact .quiet rfl rfl rfl rfl rfl rfl rfl
  | rest _ _ _ => exact .quiet rfl rfl rfl rfl rfl rfl rfl
  | preCampaign _ _ _ hv _ => exact .leave (fun h => (by cases h)) (.inr (.inr hv)) rfl rfl
  | stand h =>
    refine .leave (fun h' => (by cases h')) (.inr ?_) (by rw [stand_eq]) (by rw [stand_eq])
    rcases h with ⟨hr, _⟩ | ⟨_, hv⟩
    · left; rw [hr]; simp
    · exact .inr hv
  | win hr _ => exact .win hr
  | @follow t l _ =>
    have hout : (n.becomeFollower t l).out.readStates = n.out.readStates ∧
        (n.becomeFollower t l).out.messages = n.out.messages := by
      rcases lt_or_ge n.hs.term t with hlt | hge
      · rw [becomeFollower_eq n l hlt]; exact ⟨rfl, rfl⟩
      · rw [becomeFollower_same n l hge]; exact ⟨rfl, rfl⟩
    exact .leave (fun h => (by cases h)) (.inl rfl) hout.1 hout.2
  | listen _ _ _ => exact .leave (fun h => (by cases h)) (.inl rfl) rfl rfl
  | vote _ _ _ _ _ _ _ =>
    rw [setVote_eq]
    exact .quiet rfl rfl rfl rfl rfl rfl rfl
  | count _ _ => exact .quiet rfl rfl rfl rfl rfl rfl rfl
  | append _ _ => exact .quiet rfl rfl rfl rfl rfl rfl rfl
  | adopt _ _ _ _ _ _ _ _ => exact .quiet rfl rfl rfl rfl rfl rfl rfl
  | install _ _ _ _ _ _ _ => exact .quiet rfl rfl rfl rfl rfl rfl rfl
  | commitQuorum _ _ _ _ => exact .quiet rfl rfl rfl rfl rfl rfl rfl
  | commitFollow _ _ _ _ _ => exact .quiet rfl rfl rfl rfl rfl rfl rfl
  | sync hr =>
    have heq : n.syncProgressWithVoters = { n with prs := n.syncProgressWithVoters.prs } := by
      unfold syncProgressWithVoters
      rw [if_neg (by simp [hr])]
    rw [heq]
    refine .progress fun {v pr'} hpr => ?_
    rcases sync_prs hpr with hold | rfl
    · exact .inr (.inl ⟨pr', hold, rfl⟩)
    · exact .inl rfl
  | pace hpr hs => exact .progress fun h => echoFrom_insert (.inr (.inl ⟨_, hpr, hs.acked⟩)) h
  | @response m pr pr' hstep ht hr hn hpr hresp =>
    refine .progress fun h => echoFrom_insert ?_ h
    obtain ⟨_, hresp⟩ := hresp
    cases hb : m.body with
    | appendEntriesResp ok mi ci ctx =>
      rw [hb] at hresp
      exact .inr (.inr ⟨m, ok, mi, ci, ctx, pr, hstep, hn, hr, ht, rfl, hb, hpr, hresp.1⟩)
    | installSnapshotResp li =>
      rw [hb] at hresp
      exact .inr (.inl ⟨pr, hpr, hresp.1⟩)
    | _ => rw [hb] at hresp; exact hresp.elim
  | register hc hr hn ht => exact .register hc hn hr ht
  | release hr hctx => exact .release hr hctx
  | push hsay => exact .push hsay

/-! ## Echoes and the counter -/

/-- `m` carries the context `ctx`. -/
def Sends (m : Message) (ctx : Nat) : Prop :=
  ∃ prev prevTerm es leaderCommit, m.body = .appendEntries prev prevTerm es leaderCommit ctx

/-- `m` echoes `ctx` and was given in the term of the request: a success, or a rejection with a hint. -/
def Echo (m : Message) (ctx : Nat) : Prop :=
  ∃ ok mi ci, m.body = .appendEntriesResp ok mi ci ctx ∧ (ok = true ∨ 0 < ci)

/-- No answer to an old term raises the echo that a leader has recorded. -/
def NoStaleEcho (s : Cluster) : Action → Prop
  | .call i (.step m) => ∀ mi ctx pr, m.body = .appendEntriesResp false mi 0 ctx →
      (s.host i).raft.role = .leader → m.term = (s.host i).raft.hs.term →
      (s.host i).raft.prs.find? m.src = some pr → ctx ≤ pr.ackedReadCtx
  | _ => True

/-- What the context counter of node `i` says about the messages in `wire`. -/
structure Asked (voters : List NodeId) (wire : List Message) (i : NodeId) (n : RaftNode) : Prop where
  voter : n.role ≠ .follower → i ∈ voters
  sent : n.role = .leader → ∀ {m ctx}, m ∈ wire → Sends m ctx → m.src = i → m.term = n.hs.term →
    ctx ≤ n.readCtxCounter
  echoed : n.role = .leader → ∀ {m ctx}, m ∈ wire → Echo m ctx → m.dst = i → m.term = n.hs.term →
    ctx ≤ n.readCtxCounter
  acked : n.role = .leader → ∀ {v pr}, n.prs.find? v = some pr → pr.ackedReadCtx ≤ n.readCtxCounter

/-- The messages node `j` sends while it handles one message of `net`. -/
structure Speaking (net out : List Message) (j : NodeId) : Prop where
  own : ∀ m ∈ out, m.src = j
  echo : ∀ {m ctx}, m ∈ out → Echo m ctx → ∃ m₀ ∈ net, Sends m₀ ctx ∧ m₀.src = m.dst ∧ m₀.term = m.term

structure ReadInv (voters : List NodeId) (g : Ghost) (s : Cluster) : Prop where
  plain : Plain g
  asked : ∀ i, Asked voters s.net i (s.host i).raft
  answered : ∀ {m ctx}, m ∈ s.net → Echo m ctx → ∃ r, g.led.reign m.term = some r ∧ r.leader = m.dst

variable {m : Message} {ctx : Nat}

theorem Sends.reign (h : Sends m ctx) (hm : MsgOk voters hv g rec m) :
    ∃ r, g.led.reign m.term = some r ∧ r.leader = m.src := by
  obtain ⟨prev, prevTerm, es, lc, hb⟩ := h
  unfold MsgOk at hm
  rw [hb] at hm
  obtain ⟨r, _, _, hr, hl, _⟩ := hm
  exact ⟨r, hr, hl⟩

/-- Without configuration entries the voters are the initial ones. -/
theorem Local.voters_fixed (h : Local voters hv g rec D i n base) (hp : Plain g) : n.voters = voters := by
  rw [voters_eq h.core.rel h.core.voters_eq, ← h.core.log_eq]
  refine confOf_of_no_conf (List.countP_eq_zero.2 fun e he => ?_)
  rw [hp.log h.shared.sound i e he]; simp

/-- An answer in the request's term goes back where the request came from. -/
theorem Says.echo (h : Says c n m) (he : Echo m ctx) :
    m.term = n.hs.term ∧ ∃ m₀, c = .step m₀ ∧ Sends m₀ ctx ∧ m₀.src = m.dst ∧ m₀.term = m.term := by
  obtain ⟨ok, mi, ci, hb, hci⟩ := he
  unfold Says at h
  rw [hb] at h
  obtain ⟨_, ht, m₀, hc, hdst, prev, prevTerm, es, lc, hb₀, hcases⟩ := h
  refine ⟨ht, m₀, hc, ⟨prev, prevTerm, es, lc, hb₀⟩, hdst.symm, ?_⟩
  rcases hcases with ⟨rfl, _, rfl⟩ | ⟨_, ht₀, _⟩ | ⟨_, ht₀, _⟩ | ⟨_, ht₀, _⟩
  · simp at hci
  · exact ht₀.trans ht.symm
  · exact ht₀.trans ht.symm
  · exact ht₀.trans ht.symm

theorem Says.sends (h : Says c n m) (hs : Sends m ctx) : ctx = n.readCtxCounter := by
  obtain ⟨prev, prevTerm, es, lc, hb⟩ := hs
  unfold Says at h
  rw [hb] at h
  exact h.2.2.2.2.2.2.2

section call
variable (h : ReadInv voters g s) (hinv : Inv voters hv g s) (hdel : s.deliverable j c = true)
  (hle : g.Le g') (hl : Local voters hv g' s.Recorded s.Delivered j n base)
include h hinv hle hl

/-- A candidate has not led its term yet: nothing of that term is in flight in its name. -/
theorem ReadInv.nothing_yet (hr : n.role = .candidate) (hsp : Speaking s.net n.out.messages j)
    (hm : m ∈ s.net ++ n.out.messages) (ht : m.term = n.hs.term)
    (hm' : (Sends m ctx ∧ m.src = j) ∨ (Echo m ctx ∧ m.dst = j)) : False := by
  have hnone : ∀ {r}, g'.led.reign m.term = some r → r.leader ≠ j := by
    rw [ht]; exact (hl.role.cand hr).2.1
  -- a request names the leader of its term, and an answer goes back to it
  have hsends : ∀ {m : Message}, m ∈ s.net ++ n.out.messages → Sends m ctx →
      ∃ r, g'.led.reign m.term = some r ∧ r.leader = m.src := by
    intro m hm hs
    rcases List.mem_append.1 hm with hm | hm
    · exact hs.reign ((hinv.net m hm).mono hle fun _ _ hr => hr)
    · exact hs.reign (hl.out.messages_ok m hm)
  rcases hm' with ⟨hs, hsrc⟩ | ⟨he, hdst⟩
  · obtain ⟨r, hr', hlead⟩ := hsends hm hs
    exact hnone hr' (hlead.trans hsrc)
  · rcases List.mem_append.1 hm with hm | hm
    · obtain ⟨r, hr', hlead⟩ := h.answered hm he
      obtain ⟨r', hr'', hlead', _⟩ := hle.ext.reign hr'
      exact hnone hr'' (hlead'.trans (hlead.trans hdst))
    · obtain ⟨m₀, hm₀, hs, hsrc, ht₀⟩ := hsp.echo hm he
      obtain ⟨r, hr', hlead⟩ := hsends (List.mem_append_left _ hm₀) hs
      rw [ht₀] at hr'
      exact hnone hr' (hlead.trans (hsrc.trans hdst))

include hdel in
theorem ReadInv.move (hne : NoStaleEcho s (.call j c)) (hplain : Plain g') (hm : ReadMove c (s.host j).raft n n')
    (ha : Asked voters (s.net ++ n.out.messages) j n) (hsp : Speaking s.net n.out.messages j) :
    Asked voters (s.net ++ n'.out.messages) j n' ∧ Speaking s.net n'.out.messages j := by
  cases hm with
  | quiet hr ht hp _ hc _ hms =>
    rw [hms]
    refine ⟨⟨?_, ?_, ?_, ?_⟩, hsp⟩
    · rw [hr]; exact ha.voter
    · rw [hr, ht, hc]; exact ha.sent
    · rw [hr, ht, hc]; exact ha.echoed
    · rw [hr, hp, hc]; exact ha.acked
  | leave hr hvot _ hms =>
    rw [hms]
    refine ⟨⟨fun hf => ?_, fun h' => absurd h' hr, fun h' => absurd h' hr, fun h' => absurd h' hr⟩, hsp⟩
    rcases hvot with hf' | hf' | hvot
    · exact absurd hf' hf
    · exact ha.voter hf'
    · rw [hl.voters_fixed hplain, hl.id] at hvot; exact hvot
  | win hr =>
    refine ⟨⟨fun _ => ha.voter (by rw [hr]; simp), fun _ {m ctx} hm hs hsrc ht => ?_,
      fun _ {m ctx} hm he hdst ht => ?_, fun _ {v pr} hpr => ?_⟩, hsp⟩
    · exact (h.nothing_yet hinv hle hl hr hsp hm ht (.inl ⟨hs, hsrc⟩)).elim
    · exact (h.nothing_yet hinv hle hl hr hsp hm ht (.inr ⟨he, hdst⟩)).elim
    · rw [win_prs hpr]; exact Nat.zero_le _
  | progress hprs =>
    refine ⟨⟨ha.voter, ha.sent, ha.echoed, fun hr {v pr'} hpr' => ?_⟩, hsp⟩
    rcases hprs hpr' with h0 | ⟨pr, hpr, heq⟩ | ⟨m, ok, mi, ci, ctx, pr, rfl, hn, hr, ht, rfl, hb, hpr, heq⟩
    · rw [h0]; exact Nat.zero_le _
    · rw [heq]; exact ha.acked hr hpr
    · rw [heq]
      obtain ⟨hdst, hm⟩ := Cluster.deliverable_step hdel
      refine Nat.max_le.2 ⟨ha.acked hr hpr, ?_⟩
      by_cases hci : ok = true ∨ 0 < ci
      · exact ha.echoed hr (List.mem_append_left _ hm) ⟨ok, mi, ci, hb, hci⟩ hdst ht
      · obtain ⟨rfl, rfl⟩ : ok = false ∧ ci = 0 := by simpa using hci
        subst hn
        exact le_trans (hne mi ctx pr hb hr ht hpr) (ha.acked hr hpr)
  | register _ _ _ _ =>
    exact ⟨⟨ha.voter, fun hr _ _ hm hs hsrc ht => Nat.le_succ_of_le (ha.sent hr hm hs hsrc ht),
      fun hr _ _ hm he hdst ht => Nat.le_succ_of_le (ha.echoed hr hm he hdst ht),
      fun hr _ _ hpr => Nat.le_succ_of_le (ha.acked hr hpr)⟩, hsp⟩
  | release _ _ => exact ⟨⟨ha.voter, ha.sent, ha.echoed, ha.acked⟩, hsp⟩
  | @push m hsay =>
    have hsrc : m.src = j := hsay.1.trans hl.id
    have hecho : ∀ {ctx}, Echo m ctx → ∃ m₀ ∈ s.net, Sends m₀ ctx ∧ m₀.src = m.dst ∧ m₀.term = m.term := by
      intro ctx he
      obtain ⟨_, m₀, rfl, hs, hdst, ht⟩ := hsay.echo he
      exact ⟨m₀, (Cluster.deliverable_step hdel).2, hs, hdst, ht⟩
    have hcases : ∀ {x}, x ∈ s.net ++ (n.out.messages ++ [m]) → x ∈ s.net ++ n.out.messages ∨ x = m := by
      intro x hx
      simpa [or_assoc] using hx
    refine ⟨⟨ha.voter, fun hr {x ctx} hx hs hxs ht => ?_, fun hr {x ctx} hx he hxd ht => ?_, ha.acked⟩,
      ⟨fun x hx => ?_, fun {x ctx} hx he => ?_⟩⟩
    · rcases hcases hx with hx | rfl
      · exact ha.sent hr hx hs hxs ht
      · exact le_of_eq (hsay.sends hs)
    · rcases hcases hx with hx | rfl
      · exact ha.echoed hr hx he hxd ht
      · obtain ⟨m₀, hm₀, hs, hsrc₀, ht₀⟩ := hecho he
        exact ha.sent hr (List.mem_append_left _ hm₀) hs (hsrc₀.trans hxd) (ht₀.trans ht)
    · rcases List.mem_append.1 hx with hx | hx
      · exact hsp.own x hx
      · rw [List.mem_singleton.1 hx]; exact hsrc
    · rcases List.mem_append.1 hx with hx | hx
      · exact hsp.echo hx he
      · obtain rfl := List.mem_singleton.1 hx
        exact hecho he

end call

/-- A call keeps the read invariant, with anything else `P` that its moves keep. -/
theorem ReadInv.call {P : Ghost → RaftNode → Prop} (h : ReadInv voters g s) (hinv : Inv voters hv g s)
    (hdel : s.deliverable j c = true) (hfix : ¬ c.changesConf) (hne : NoStaleEcho s (.call j c))
    (hc : (s.host j).raft.call c = some n') (hP : P g (s.host j).raft)
    (hstep : ∀ ⦃g₁ g₂ n₁ n₂ base₁⦄, g.Le g₁ → g₁.Le g₂ → Local voters hv g₁ s.Recorded s.Delivered j n₁ base₁ →
      Plain g₁ → Asked voters (s.net ++ n₁.out.messages) j n₁ → ReadMove c (s.host j).raft n₁ n₂ →
      P g₁ n₁ → P g₂ n₂) :
    ∃ g', g.Le g' ∧ Inv voters hv g' (s.flush j n') ∧ ReadInv voters g' (s.flush j n') ∧ P g' n' := by
  have hok : CallOk voters hv g s.Recorded j (s.host j).raft c := by
    refine hinv.callOk hdel ?_
    cases c with
    | proposeConfChange _ => exact (hfix trivial).elim
    | _ => trivial
  have hstart : Asked voters (s.net ++ (s.host j).raft.out.messages) j (s.host j).raft ∧
      Speaking s.net (s.host j).raft.out.messages j := by
    rw [hinv.drained j]
    exact ⟨by simpa using h.asked j, fun m hm => (by cases hm), fun hm => (by cases hm)⟩
  obtain ⟨g', hf, hinv', ⟨⟨ha, hsp⟩, hplain⟩, hP'⟩ :=
    hinv.call (P := fun g n => ((Asked voters (s.net ++ n.out.messages) j n ∧ Speaking s.net n.out.messages j) ∧
      Plain g) ∧ P g n) hok hc ⟨⟨hstart, h.plain⟩, hP⟩ fun g₁ g₂ n₁ n₂ b₁ _ hle hl hm hf _ ⟨⟨⟨ha, hsp⟩, hp⟩, hP⟩ =>
        ⟨⟨h.move hinv hdel hle hl hne hp hm.reads ha hsp, hf.plain hfix hp⟩, hstep hle hf.toLe hl hp ha hm.reads hP⟩
  have hle := hf.toLe
  refine ⟨g', hle, hinv', ⟨hplain, fun i => ?_, fun {m ctx} hm he => ?_⟩, hP'⟩
  · by_cases hij : i = j
    · subst hij
      rw [show ((s.flush i n').host i).raft = n'.takeOutput.2 by simp [Cluster.flush, Cluster.flushTo]]
      exact ⟨ha.voter, ha.sent, ha.echoed, ha.acked⟩
    · -- the other nodes see new messages only
      rw [show (s.flush j n').host i = s.host i from update_of_ne hij ..]
      have hi := h.asked i
      refine ⟨hi.voter, fun hr {m ctx} hm hs hsrc ht => ?_, fun hr {m ctx} hm he hdst ht => ?_, hi.acked⟩
      · rcases List.mem_append.1 hm with hm | hm
        · exact hi.sent hr hm hs hsrc ht
        · exact absurd (hsrc.symm.trans (hsp.own m hm)) hij
      · rcases List.mem_append.1 hm with hm | hm
        · exact hi.echoed hr hm he hdst ht
        · obtain ⟨m₀, hm₀, hs, hsrc₀, ht₀⟩ := hsp.echo hm he
          exact hi.sent hr hm₀ hs (hsrc₀.trans hdst) (ht₀.trans ht)
  · rcases List.mem_append.1 hm with hm | hm
    · obtain ⟨r, hr, hl⟩ := h.answered hm he
      obtain ⟨r', hr', hl', _⟩ := hle.ext.reign hr
      exact ⟨r', hr', hl'.trans hl⟩
    · obtain ⟨m₀, hm₀, hs, hsrc₀, ht₀⟩ := hsp.echo hm he
      rw [← ht₀, ← hsrc₀]
      exact hs.reign (hinv'.net m₀ (List.mem_append_left _ hm₀))

theorem ReadInv.compact (h : ReadInv voters g s) {applied : Nat} {data : Bytes} {snap : Snapshot}
    (hc : (s.host j).raft.compact applied data = (some snap, n')) :
    ReadInv voters g (s.compacted j applied snap n') := by
  obtain ⟨_, _, term, _, rfl, rfl⟩ := compact_some hc
  refine ⟨h.plain, fun i => ?_, h.answered⟩
  by_cases hij : i = j
  · subst hij
    rw [show (s.compacted i applied _ _).host i = _ from update_self ..]
    have hi := h.asked i
    exact ⟨hi.voter, hi.sent, hi.echoed, hi.acked⟩
  · rw [show (s.compacted j applied _ _).host i = s.host i from update_of_ne hij ..]
    exact h.asked i

theorem ReadInv.restart (h : ReadInv voters g s) (hr : n'.role = .follower) :
    ReadInv voters g (s.restarted j n') := by
  refine ⟨h.plain, fun i => ?_, h.answered⟩
  by_cases hij : i = j
  · subst hij
    rw [show (s.restarted i n').host i = { s.host i with raft := n' } from update_self ..]
    exact ⟨fun h' => absurd hr h', fun h' => (by rw [hr] at h'; cases h'), fun h' => (by rw [hr] at h'; cases h'),
      fun h' => (by rw [hr] at h'; cases h')⟩
  · rw [show (s.restarted j n').host i = s.host i from update_of_ne hij ..]
    exact h.asked i

theorem ReadInv.init (cfg : NodeId → Config) (voters : List NodeId) :
    ReadInv voters Ghost.init (Cluster.init cfg voters) :=
  ⟨fun hr => (by cases hr), fun _ => ⟨fun h => absurd rfl h, fun h => (by cases h), fun h => (by cases h),
    fun h => (by cases h)⟩, fun hm => (by cases hm)⟩

/-- The steps of a run with fixed membership and without stale echoes. -/
def ReadStep (s : Cluster) (a : Action) : Prop := a.fixed ∧ NoStaleEcho s a

theorem Action.fixed.call (h : (Action.call j c).fixed) : ¬ c.changesConf := by
  cases c with
  | proposeConfChange _ => exact h.elim
  | _ => exact id

/-- A rejection without a hint is stepped. -/
def Action.rejects : Action → Bool
  | .call _ (.step { body := .appendEntriesResp false _ 0 _, .. }) => true
  | _ => false

theorem ReadStep.of_not_rejects {a : Action} (h : a.fixed ∧ a.rejects = false) : ReadStep s a := by
  refine ⟨h.1, ?_⟩
  cases a with
  | call i c =>
    cases c with
    | step m =>
      intro mi ctx pr hb
      obtain ⟨src, dst, term, body⟩ := m
      obtain rfl : body = .appendEntriesResp false mi 0 ctx := hb
      cases h.2
    | _ => trivial
  | _ => trivial

theorem ReadInv.exec (h : ReadInv voters g s) (hinv : Inv voters hv g s) {a : Action} (hok : ReadStep s a)
    (he : s.exec voters a = some t) : ∃ g', Inv voters hv g' t ∧ ReadInv voters g' t := by
  cases Cluster.exec_some he with
  | call hdel hc =>
    obtain ⟨g', _, hinv', h', _⟩ := h.call (P := fun _ _ => True) hinv hdel hok.1.call hok.2 hc trivial (by simp)
    exact ⟨g', hinv', h'⟩
  | idle => exact ⟨g, hinv, h⟩
  | compact hc => exact ⟨g, hinv.compact hc, h.compact hc⟩
  | restart hn => exact ⟨g, hinv.restart rfl hn, h.restart (new_some hn).1⟩

theorem ReadInv.run (hv : voters.Nodup) (cfg : NodeId → Config) (hr : Run voters ReadStep (Cluster.init cfg voters) s) :
    ∃ g, Inv voters hv g s ∧ ReadInv voters g s :=
  hr.invariant (P := fun s => ∃ g, Inv voters hv g s ∧ ReadInv voters g s)
    ⟨Ghost.init, Inv.init cfg voters hv, ReadInv.init cfg voters⟩
    fun ⟨_, hinv, h⟩ hok he => h.exec hinv hok he

end RaftKv

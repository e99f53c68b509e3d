import RaftKv.Raft.Moves

/-!
# Calls are sequences of moves

The message handlers (`node.rs:679-976`) and the entry points, decomposed into the moves of
`RaftKv.Raft.Moves`; `RaftNode.call_moves` is what the invariants use.
-/

namespace RaftKv

open Relation

namespace RaftNode

variable {c : Call} {n n₀ : RaftNode}

/-! ## What sending leaves alone -/

/-- Sending touches the progress and the messages, nothing else. -/
def SentFrom (n n' : RaftNode) : Prop :=
  n' = { n with prs := n'.prs, out := { n.out with messages := n'.out.messages } }

variable {n' : RaftNode} {src : NodeId} {pr : Progress} {m : Message} {es : List Entry}

theorem SentFrom.trans {n n'' : RaftNode} (h : SentFrom n n') (h' : SentFrom n' n'') : SentFrom n n'' := by
  unfold SentFrom at h h' ⊢
  rw [h', h]

theorem sendAppend_sentFrom (n : RaftNode) (p : NodeId) : SentFrom n (n.sendAppend p) := by
  rcases sendAppend_cases (c := .tick) n p with h | ⟨_, _, _, _, _, h | ⟨_, h, _⟩⟩ <;> rw [h] <;> rfl

theorem sendAll_sentFrom : ∀ (ps : List NodeId) (n : RaftNode), SentFrom n (ps.foldl sendAppend n)
  | [], _ => rfl
  | p :: ps, n => (sendAppend_sentFrom n p).trans (sendAll_sentFrom ps _)

theorem syncProgressWithVoters_sentFrom (n : RaftNode) : SentFrom n n.syncProgressWithVoters := by
  unfold syncProgressWithVoters
  split <;> rfl

theorem broadcastAppend_sentFrom (n : RaftNode) : SentFrom n n.broadcastAppend :=
  (syncProgressWithVoters_sentFrom n).trans (sendAll_sentFrom _ _)

/-! ## The answer to a batch -/

/-- `handle_append_resp` up to its call of `process_read_acks`, for an accepted batch. -/
def countAck (n : RaftNode) (src : NodeId) (pr : Progress) (matchIndex readCtx : Nat) : RaftNode :=
  { n with prs := n.prs.insert src
            { pr with lastRespTick := n.tickCounter, ackedReadCtx := Nat.max pr.ackedReadCtx readCtx
                      matched := if matchIndex > pr.matched then matchIndex else pr.matched
                      next := Nat.max pr.next (matchIndex + 1)
                      inflight := pr.inflight - 1 } }.maybeAdvanceCommit

/-- What `handle_append_resp` does after it. -/
def sendRest (n : RaftNode) (src : NodeId) (lastIndex : Nat) : RaftNode :=
  if ((n.prs.find? src).map fun p => decide (p.next ≤ lastIndex)).getD false then n.sendAppend src else n

theorem handleAppendResp_eq {mi ci ctx : Nat} (hr : n.role = .leader) (hpr : n.prs.find? src = some pr) :
    n.handleAppendResp src true mi ci ctx =
      (n.countAck src pr mi ctx).processReadAcks.sendRest src n.log.lastIndex := by
  unfold handleAppendResp
  rw [if_neg (by simp [hr]), hpr]
  rfl

theorem sendRest_sentFrom (n : RaftNode) (src : NodeId) (lastIndex : Nat) : SentFrom n (n.sendRest src lastIndex) := by
  unfold sendRest
  split
  · exact sendAppend_sentFrom n src
  · rfl

/-- A rejection with a hint: the window is reset to the hint. -/
theorem handleAppendResp_refused {mi ci ctx : Nat} (hr : n.role = .leader)
    (hpr : n.prs.find? src = some pr) (hci : 0 < ci) :
    n.handleAppendResp src false mi ci ctx =
      { n with prs := n.prs.insert src
                { pr with lastRespTick := n.tickCounter, ackedReadCtx := Nat.max pr.ackedReadCtx ctx
                          next := Nat.min (Nat.max ci 1) (n.log.lastIndex + 1), inflight := 0 } }.sendAppend src := by
  unfold handleAppendResp
  rw [if_neg (by simp [hr]), hpr]
  dsimp only
  rw [if_neg (by simp), if_pos hci]

/-- A rejection without one, by a node of a later term. -/
theorem handleAppendResp_stale {mi ctx : Nat} (hr : n.role = .leader) (hpr : n.prs.find? src = some pr) :
    n.handleAppendResp src false mi 0 ctx =
      { n with prs := n.prs.insert src
                { pr with lastRespTick := n.tickCounter, ackedReadCtx := Nat.max pr.ackedReadCtx ctx } } := by
  unfold handleAppendResp
  rw [if_neg (by simp [hr]), hpr]
  rfl

theorem handleAppendResp_of_none {success : Bool} {mi ci ctx : Nat}
    (h : n.role = .leader → n.prs.find? src = none) : n.handleAppendResp src success mi ci ctx = n := by
  unfold handleAppendResp
  by_cases hr : n.role = .leader
  · rw [if_neg (by simp [hr]), h hr]
  · rw [if_pos hr]

/-! ## Votes -/

theorem sendAppend_moves_of_leading (h : n.role = .leader ∨ n.prs = ∅) (p : NodeId) :
    Moves c n₀ n (n.sendAppend p) := by
  rcases h with h | h
  · exact sendAppend_moves h p
  · rw [sendAppend_of_empty h]

theorem handlePreVote_moves {lli llt : Nat} : Moves (.step m) n₀ n (n.handlePreVote m.src m.term lli llt) := by
  refine .single (.push ⟨rfl, fun hg => ?_⟩)
  have hg' := hg
  simp only [Bool.and_eq_true, decide_eq_true_eq, Bool.not_eq_true'] at hg'
  rw [if_pos hg]
  exact ⟨hg'.1.1, by simpa using hg'.2⟩

theorem handlePreVoteResp_moves {granted : Bool} (hb : m.body = .preVoteResp granted) :
    Moves (.step m) n₀ n (n.handlePreVoteResp m.src m.term granted) := by
  unfold handlePreVoteResp
  split
  · split
    · rename_i ht
      exact .single (.follow (.inr ⟨m, rfl, rfl, ht⟩))
    · exact .refl
  · rename_i hg
    have hg : granted = true := by simpa using hg
    subst hg
    split
    · exact .refl
    · rename_i h
      rw [not_or, not_not, not_not] at h
      refine .head (.count rfl (.inr ⟨hb, rfl, h.2, h.1⟩)) ?_
      dsimp only
      split
      · rename_i hq
        exact campaign_moves (.inl ⟨h.1, hq⟩)
      · exact .refl

theorem handleRequestVote_moves {lli llt : Nat} (hb : m.body = .requestVote lli llt)
    (ht : m.term = n.hs.term) (hlog : n.log = n₀.log) (hn : n = n₀ ∨ n₀.hs.term < n.hs.term) :
    Moves (.step m) n₀ n (n.handleRequestVote m.src lli llt) := by
  unfold handleRequestVote
  dsimp only
  split
  · rename_i hg
    have hg' := hg
    rw [Bool.and_eq_true, decide_eq_true_eq] at hg'
    refine .head (.vote rfl hb ht hg'.1 hg'.2 hlog hn) (.single (.push ⟨rfl, rfl, fun _ => ?_⟩))
    unfold setVote
    split
    · rfl
    · rename_i h
      exact not_not.1 h
  · rename_i hg
    exact .single (.push ⟨rfl, rfl, fun h => absurd h hg⟩)

theorem handleRequestVoteResp_moves {granted : Bool} (hb : m.body = .requestVoteResp granted)
    (ht : m.term = n.hs.term) : Moves (.step m) n₀ n (n.handleRequestVoteResp m.src granted) := by
  unfold handleRequestVoteResp
  split
  · exact .refl
  · rename_i hr
    refine .head (.count rfl (.inl ⟨hb, ht, not_not.1 hr⟩)) ?_
    dsimp only
    split
    · rename_i hq
      exact becomeLeader_moves (not_not.1 hr) hq
    · exact .refl

/-! ## AppendEntries -/

/-- What the first loop leaves to be appended is a tail of the batch; with nothing left, the log has
the whole batch. -/
theorem findNew_cases {log log' : RaftLog} {commit : Nat} : ∀ {es new : List Entry},
    findNew log commit es = some (log', new) →
    (new = [] ∧ log' = log ∧ ∀ e ∈ es, log.term e.index = some e.term) ∨
    ∃ a, es = a ++ new ∧ new ≠ []
  | [], new, h => by
    cases h
    exact .inl ⟨rfl, rfl, fun e he => by cases he⟩
  | e :: es, new, h => by
    unfold findNew at h
    split at h
    · rename_i t ht
      split at h
      · rename_i hte
        rcases findNew_cases h with ⟨hnew, hlog, hall⟩ | ⟨a, rfl, hne⟩
        · refine .inl ⟨hnew, hlog, fun x hx => ?_⟩
          rcases List.mem_cons.1 hx with rfl | hx
          · rw [ht, hte]
          · exact hall x hx
        · exact .inr ⟨e :: a, rfl, hne⟩
      · split at h
        · cases h; exact .inr ⟨[], rfl, by simp⟩
        · cases h
    · cases h; exact .inr ⟨[], rfl, by simp⟩

theorem pushAll_eq : ∀ {es : List Entry} {log log' : RaftLog}, pushAll log es = some log' →
    log'.entries = log.entries ++ es ∧ log'.snapIndex = log.snapIndex ∧ log'.snapTerm = log.snapTerm
  | [], log, log', h => by
    cases h
    exact ⟨by simp, rfl, rfl⟩
  | e :: es, log, log', h => by
    unfold pushAll at h
    split at h
    · obtain ⟨h1, h2, h3⟩ := pushAll_eq h
      exact ⟨by simp [h1], h2, h3⟩
    · cases h

/-- After both loops the log ends the batch in the batch's last term. -/
theorem adopted_term (prevTerm : Nat) {log log₁ log' : RaftLog} {commit prev : Nat} {new : List Entry}
    (hf : findNew log commit es = some (log₁, new)) (hp : pushAll log₁ new = some log')
    (hprev : es = [] → log.term prev = some prevTerm) (hc : Contig prev es) :
    log'.term (prev + es.length) = some (lastTermFrom prevTerm es) := by
  rcases findNew_cases hf with ⟨rfl, rfl, hall⟩ | ⟨a, rfl, hne⟩
  · cases hp
    rcases List.eq_nil_or_concat es with rfl | ⟨es, e, rfl⟩
    · exact hprev rfl
    · rw [List.concat_eq_append] at *
      have hlast : (es ++ [e]).getLast? = some e := by simp
      have hidx := hc.last hlast
      rw [← hidx, hall e (by simp), lastTermFrom, hlast]; rfl
  · obtain ⟨new, e, rfl⟩ := (List.eq_nil_or_concat new).resolve_left hne
    rw [List.concat_eq_append] at *
    obtain ⟨hent, hsnap, _⟩ := pushAll_eq hp
    have hlast : (a ++ (new ++ [e])).getLast? = some e := by simp
    have hget : log'.entries[log₁.entries.length + new.length]? = some e := by
      rw [hent]; simp
    have hidx := hc.last hlast
    have hpos := log'.contiguous _ e hget
    rw [← hidx, hpos, RaftLog.term_of_entry hget, lastTermFrom, hlast]; rfl

theorem conflictHint_eq_zero {log : RaftLog} {t : Nat} : ∀ {k : Nat}, conflictHint log t k = 0 → k = 0
  | 0, _ => rfl
  | k + 1, h => by
    unfold conflictHint at h
    split at h
    · rename_i hk
      have := conflictHint_eq_zero h
      rw [RaftLog.firstIndex] at hk
      omega
    · omega

theorem lastTermFrom_drop {t k : Nat} (hk : k < es.length) : lastTermFrom t (es.drop k) = lastTermFrom t es := by
  unfold lastTermFrom
  rw [List.getLast?_drop, if_neg (by omega)]

/-- The accepting branch on what is left of the batch. -/
theorem acceptEntries_moves {prev prevTerm prev' : Nat} {es' : List Entry}
    {leaderCommit readCtx : Nat} (hb : m.body = .appendEntries prev prevTerm es leaderCommit readCtx)
    (ht : m.term = n.hs.term) (hr : n.role = .follower) (hu : Untouched n₀ n) (hfits : Fits n prev prevTerm es es')
    (hlen : prev' + es'.length = prev + es.length)
    (hterm : Contig prev es → ∀ {log log' : RaftLog} {new : List Entry},
      findNew n.log n.commit es' = some (log, new) → pushAll log new = some log' →
      log'.term (prev + es.length) = some (lastTermFrom prevTerm es))
    (h : n.acceptEntries m.src prev' es' leaderCommit readCtx = some n') : Moves (.step m) n₀ n n' := by
  simp only [acceptEntries, Option.bind_eq_bind, Option.bind_eq_some_iff] at h
  obtain ⟨⟨log, new⟩, hf, log', hp, h⟩ := h
  cases h
  have hadopt : Move (.step m) n₀ n (n.adopt log' new) := .adopt rfl ht hr hu hb hfits hf hp
  have hans : ∀ n₁ : RaftNode, n₁.log = log' → n₁.hs = n.hs → Move (.step m) n₀ n₁
      (n₁.replyAppend m.src true (prev' + es'.length) 0 readCtx) := by
    intro n₁ hlog hhs
    refine .push ⟨rfl, rfl, m, rfl, rfl, prev, prevTerm, es, leaderCommit, hb,
      .inr (.inr (.inr ⟨rfl, ?_, hlen, fun hc => ?_⟩))⟩
    · rw [hhs]; exact ht
    · rw [hlog, hlen]; exact hterm hc hf hp
  refine .head hadopt ?_
  split
  · rename_i hlt
    have hcommit : Move (.step m) n₀ (n.adopt log' new)
      ((n.adopt log' new).commitTo (Nat.min leaderCommit (prev' + es'.length))) := by
      refine .commitFollow rfl ht hr hlt ?_
      unfold Covers
      rw [hb]
      refine ⟨min_le_left _ _, ?_, fun hc => hterm hc hf hp⟩
      rw [← hlen]; exact min_le_right _ _
    have heq := advanceCommitTo_follower (n := n.adopt log' new) hr _ (le_of_lt hlt)
    refine .tail (.single hcommit) ?_
    have := hans ((n.adopt log' new).commitTo (Nat.min leaderCommit (prev' + es'.length))) rfl rfl
    rw [← heq] at this
    rw [← heq]
    exact this
  · exact .single (hans (n.adopt log' new) rfl rfl)

theorem handleAppendEntries_moves {prev prevTerm : Nat} {leaderCommit readCtx : Nat}
    (hb : m.body = .appendEntries prev prevTerm es leaderCommit readCtx) (ht : m.term = n.hs.term)
    (hu : Untouched n₀ n) (h : n.handleAppendEntries m.src prev prevTerm es leaderCommit readCtx = some n') :
    Moves (.step m) n₀ n n' := by
  have hann : announcedLeader m = some m.src := by unfold announcedLeader; rw [hb]
  have hu' := hu.listen m.src
  refine .head (.listen rfl ht hann) ?_
  unfold handleAppendEntries checkPrev at h
  dsimp only at h
  split at h
  · rename_i hlt
    split at h
    · cases h
      refine .single (.push ⟨rfl, rfl, m, rfl, rfl, prev, prevTerm, es, leaderCommit, hb, ?_⟩)
      exact .inr (.inr (.inl ⟨rfl, ht, rfl, by show _ ≤ n.log.snapIndex; omega⟩))
    · rename_i hcov
      have hcov : n.log.snapIndex - prev < es.length := Nat.lt_of_not_le hcov
      have hbase : n.log.term n.log.snapIndex = some n.log.snapTerm := if_pos rfl
      rw [hbase] at h
      dsimp only at h
      rw [if_neg (by simp)] at h
      have hlen : n.log.snapIndex + (es.drop (n.log.snapIndex - prev)).length = prev + es.length := by
        rw [List.length_drop]; omega
      refine acceptEntries_moves hb ht rfl hu' (.inr ⟨hlt, rfl, hcov⟩)
        hlen (fun hc {_ _ _} hf hp => ?_) h
      have hne : es.drop (n.log.snapIndex - prev) ≠ [] := by
        rw [Ne, List.drop_eq_nil_iff]; omega
      have hc' : Contig n.log.snapIndex (es.drop (n.log.snapIndex - prev)) := by
        have := hc.drop (k := n.log.snapIndex - prev)
        rwa [show prev + (n.log.snapIndex - prev) = n.log.snapIndex by omega] at this
      have hadopted := adopted_term prevTerm hf hp (fun he => absurd he hne) hc'
      rwa [hlen, lastTermFrom_drop hcov] at hadopted
  · split at h
    · rename_i hnone
      cases h
      refine .single (.push ⟨rfl, rfl, m, rfl, rfl, prev, prevTerm, es, leaderCommit, hb, ?_⟩)
      exact .inr (.inl ⟨rfl, ht, by rw [hnone]; simp, by show n.log.snapIndex ≤ _; omega, fun h0 => by omega⟩)
    · rename_i t hsome
      split at h
      · rename_i hne
        cases h
        refine .single (.push ⟨rfl, rfl, m, rfl, rfl, prev, prevTerm, es, leaderCommit, hb, ?_⟩)
        refine .inr (.inl ⟨rfl, ht, ?_, by show n.log.snapIndex ≤ _; omega, conflictHint_eq_zero⟩)
        rw [hsome]; simpa using hne
      · rename_i heq
        have hterm : n.log.term prev = some prevTerm := by rw [hsome, not_not.1 heq]
        refine acceptEntries_moves hb ht rfl hu' (.inl ⟨by show n.log.snapIndex ≤ _; omega, rfl, hterm⟩) rfl
          (fun hc {_ _ _} hf hp => adopted_term prevTerm hf hp (fun _ => hterm) hc) h

/-! ## Responses and snapshots -/

/-- What a leader does once a response is recorded. -/
theorem response_moves (hr : n.role = .leader) (p : NodeId) (lastIndex : Nat) :
    Moves c n₀ n (n.maybeAdvanceCommit.processReadAcks.sendRest p lastIndex) := by
  obtain ⟨hm, hl⟩ := maybeAdvanceCommit_moves (c := c) hr
  refine hm.trans ((processReadAcks_moves hl).trans ?_)
  unfold sendRest
  split
  · refine sendAppend_moves_of_leading ?_ p
    rw [processReadAcks_role, processReadAcks_prs]
    exact hl.imp id And.left
  · exact .refl

/-- The window moves up to an answered index. -/
theorem paces_answered {k : Nat} {pr' : Progress} (hnext : pr'.next = Nat.max pr.next (k + 1))
    (hin : pr'.inflight ≤ pr.inflight) (hsent : pr'.snapshotSentTick = pr.snapshotSentTick) : Paces n k pr pr' := by
  refine ⟨fun h => ?_, ?_, le_trans hin (le_max_left _ _), hsent ▸ le_max_left _ _⟩
  · exact hnext ▸ lt_of_lt_of_le h (le_max_left _ _)
  · refine hnext ▸ Nat.max_le.2 ⟨le_max_left _ _, le_trans ?_ (le_max_right _ _)⟩
    exact Nat.succ_le_succ (le_max_right _ _)

theorem handleAppendResp_moves {success : Bool} {mi ci ctx : Nat} (hb : m.body = .appendEntriesResp success mi ci ctx)
    (ht : m.term = n.hs.term) (h₀ : n.role = .leader → n = n₀) :
    Moves (.step m) n₀ n (n.handleAppendResp m.src success mi ci ctx) := by
  by_cases hlead : n.role = .leader → n.prs.find? m.src = none
  · rw [handleAppendResp_of_none hlead]
  obtain ⟨hr, hsome⟩ := Classical.not_imp.1 hlead
  obtain ⟨pr, hpr⟩ := Option.ne_none_iff_exists'.1 hsome
  have hresp : ∀ pr' : Progress, pr'.lastRespTick = n.tickCounter → pr'.ackedReadCtx = Nat.max pr.ackedReadCtx ctx →
      (pr'.matched = pr.matched ∨ success = true ∧ pr'.matched = mi) → Paces n m.acked pr pr' →
      Move (.step m) n₀ n { n with prs := n.prs.insert m.src pr' } := by
    intro pr' h1 h2 h3 hpace
    refine .response rfl ht hr (h₀ hr) hpr ⟨h1, ?_⟩ hpace
    rw [hb]; exact ⟨h2, h3⟩
  cases success with
  | true =>
    have hk : m.acked = mi := by rw [Message.acked, hb]; rfl
    rw [handleAppendResp_eq hr hpr]
    refine .head ?_ (response_moves ?_ m.src _)
    · refine hresp _ rfl rfl ((ite_eq_or_eq _ _ _).symm.imp_right fun h => ⟨rfl, h⟩) ?_
      exact hk ▸ paces_answered rfl (Nat.sub_le _ _) rfl
    · exact hr
  | false =>
    rcases Nat.eq_zero_or_pos ci with rfl | hci
    · rw [handleAppendResp_stale hr hpr]
      exact .single (hresp _ rfl rfl (.inl rfl) ⟨id, le_max_left _ _, le_max_left _ _, le_max_left _ _⟩)
    · rw [handleAppendResp_refused hr hpr hci]
      refine .head ?_ (sendAppend_moves ?_ m.src)
      · refine hresp _ rfl rfl (.inl rfl) ⟨fun _ => ?_, ?_, Nat.zero_le _, le_max_left _ _⟩
        · exact Nat.lt_min.2 ⟨lt_of_lt_of_le Nat.zero_lt_one (le_max_right _ _), Nat.succ_pos _⟩
        · refine le_trans (min_le_right _ _) (le_trans ?_ (le_max_right _ _))
          exact Nat.succ_le_succ (le_max_left _ _)
      · exact hr

theorem advanceThenSend_moves (hr : n.role = .leader) (p : NodeId) :
    Moves c n₀ n (n.maybeAdvanceCommit.sendAppend p) := by
  obtain ⟨hm, hl⟩ := maybeAdvanceCommit_moves hr
  exact hm.trans (sendAppend_moves_of_leading (hl.imp id And.left) p)

theorem handleInstallSnapshotResp_moves {lastIndex : Nat}
    (hb : m.body = .installSnapshotResp lastIndex) (ht : m.term = n.hs.term) (h₀ : n.role = .leader → n = n₀) :
    Moves (.step m) n₀ n (n.handleInstallSnapshotResp m.src lastIndex) := by
  unfold handleInstallSnapshotResp
  split
  · exact .refl
  · rename_i hr
    have hr : n.role = .leader := not_not.1 hr
    split
    · exact .refl
    · rename_i pr hpr
      have hk : m.acked = lastIndex := by rw [Message.acked, hb]
      refine .head ?_ (advanceThenSend_moves ?_ m.src)
      · refine .response rfl ht hr (h₀ hr) hpr ⟨rfl, ?_⟩ (hk ▸ paces_answered rfl (Nat.zero_le _) rfl)
        rw [hb]
        exact ⟨rfl, (ite_eq_or_eq _ _ _).symm⟩
      · exact hr

theorem handleInstallSnapshot_moves {s : Snapshot} (hb : m.body = .installSnapshot s)
    (ht : m.term = n.hs.term) (hu : Untouched n₀ n) : Moves (.step m) n₀ n (n.handleInstallSnapshot m.src s) := by
  have hann : announcedLeader m = some m.src := by unfold announcedLeader; rw [hb]
  refine .head (.listen rfl ht hann) ?_
  have hreply : ∀ n₁ : RaftNode, n₁.hs = n.hs → s.lastIndex ≤ n₁.commit →
      Move (.step m) n₀ n₁ (n₁.send m.src (.installSnapshotResp n₁.commit)) :=
    fun n₁ hhs hle => .push ⟨rfl, rfl, m, s, rfl, rfl, by rw [hhs]; exact ht, hb, hle, rfl⟩
  unfold handleInstallSnapshot
  dsimp only
  split
  · rename_i hle
    exact .single (hreply { n with role := .follower, leaderId := some m.src, electionElapsed := 0 } rfl hle)
  · rename_i hlt
    split
    · rename_i hterm
      rw [advanceCommitTo_follower rfl]
      refine .head (.commitFollow rfl ht rfl (Nat.lt_of_not_le hlt) ?_) (.single (hreply _ rfl (le_refl _)))
      unfold Covers
      rw [hb]; exact ⟨rfl, hterm⟩
    · rename_i hterm
      refine .head (.install rfl ht rfl (hu.listen m.src) hb (Nat.lt_of_not_le hlt) hterm) ?_
      exact .single (hreply (install { n with role := .follower, leaderId := some m.src, electionElapsed := 0 } s)
        rfl (le_refl _))

/-! ## The entry points -/

theorem dispatch_moves (hn : n = n₀ ∨ (n.role = .follower ∧ n₀.hs.term < n.hs.term)) (hu : Untouched n₀ n)
    (ht : isPreVote m.body = false → m.term = n.hs.term) (h : n.dispatch m = some n') : Moves (.step m) n₀ n n' := by
  have h₀ : n.role = .leader → n = n₀ := fun hr => hn.resolve_right fun hf => (by rw [hr] at hf; cases hf.1)
  unfold dispatch at h
  cases hb : m.body with
  | preVote lli llt => rw [hb] at h; cases h; exact handlePreVote_moves
  | preVoteResp granted => rw [hb] at h; cases h; exact handlePreVoteResp_moves hb
  | requestVote lli llt =>
    rw [hb] at h; cases h
    exact handleRequestVote_moves hb (ht (by rw [hb]; rfl)) hu.log (hn.imp_right And.right)
  | requestVoteResp granted => rw [hb] at h; cases h; exact handleRequestVoteResp_moves hb (ht (by rw [hb]; rfl))
  | appendEntries prev prevTerm es lc ctx =>
    rw [hb] at h
    exact handleAppendEntries_moves hb (ht (by rw [hb]; rfl)) hu h
  | appendEntriesResp success mi ci ctx =>
    rw [hb] at h; cases h
    exact handleAppendResp_moves hb (ht (by rw [hb]; rfl)) h₀
  | installSnapshot s => rw [hb] at h; cases h; exact handleInstallSnapshot_moves hb (ht (by rw [hb]; rfl)) hu
  | installSnapshotResp li =>
    rw [hb] at h; cases h
    exact handleInstallSnapshotResp_moves hb (ht (by rw [hb]; rfl)) h₀

theorem answerStale_moves (ht : m.term < n.hs.term) : Moves (.step m) n₀ n (n.answerStale m) := by
  unfold answerStale
  split
  · rename_i prev prevTerm es lc ctx hb
    exact .single (.push ⟨rfl, rfl, m, rfl, rfl, prev, prevTerm, es, lc, hb, .inl ⟨rfl, ht, rfl⟩⟩)
  · exact .single (.push ⟨rfl, rfl, fun h => by cases h⟩)
  · exact .refl

theorem becomeFollower_untouched (n : RaftNode) (t : Nat) (l : Option NodeId) :
    Untouched n (n.becomeFollower t l) := by
  rcases lt_or_ge n.hs.term t with hlt | hle
  · rw [becomeFollower_eq n l hlt]
    exact ⟨le_of_lt hlt, rfl, rfl, rfl, rfl, rfl, rfl⟩
  · rw [becomeFollower_same n l hle]
    exact ⟨le_refl _, rfl, rfl, rfl, rfl, rfl, rfl⟩

@[simp] theorem becomeFollower_hs_term {t : Nat} {l : Option NodeId} (h : n.hs.term ≤ t) :
    (n.becomeFollower t l).hs.term = t := by
  show (if t > n.hs.term then (n.setTerm t).setVote none else n).hs.term = t
  split
  · unfold setVote setTerm
    repeat' split
    all_goals first | rfl | omega
  · omega

theorem step_moves (h : n.step m = some n') : Moves (.step m) n n n' := by
  unfold step at h
  split at h
  · rename_i hpre
    exact dispatch_moves (.inl rfl) (Untouched.refl n) (fun h' => by rw [hpre] at h'; cases h') h
  · split at h
    · rename_i hgt
      have hterm := becomeFollower_hs_term (n := n) (l := announcedLeader m) (le_of_lt hgt)
      refine .head (.follow (.inr ⟨m, rfl, rfl, hgt⟩))
        (dispatch_moves (.inr ⟨rfl, ?_⟩) (becomeFollower_untouched n _ _) (fun _ => ?_) h)
      · rw [hterm]; exact hgt
      · rw [hterm]
    · split at h
      · rename_i hlt
        cases h; exact answerStale_moves hlt
      · exact dispatch_moves (.inl rfl) (Untouched.refl n) (fun _ => by omega) h

/-- A call is a sequence of moves. -/
theorem call_moves (h : n.call c = some n') : Moves c n n n' := by
  cases c with
  | tick => cases h; exact tick_moves
  | step m => exact step_moves h
  | propose data => cases h; exact propose_moves
  | proposeConfChange cc => cases h; exact proposeConfChange_moves
  | readIndex r => cases h; exact readIndex_moves

end RaftNode
end RaftKv

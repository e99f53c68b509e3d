import RaftKv.Raft.Commits

/-!
# Where entries come from

A log holds no-ops and what was proposed: a leader appends the data of `propose`
(`append_local`, `node.rs:372`), and everything else copies entries from a log into a message, from a
message into a log, or from a log into a snapshot. `Holds K` says that every entry anywhere in the
cluster satisfies `K`; it is kept by every call that brings in only entries with `K`.
-/

namespace RaftKv

open RaftNode

variable {K : Entry → Prop} {voters : List NodeId} {hv : voters.Nodup} {g : Ghost} {s : Cluster} {i : NodeId}
  {n n' n₀ : RaftNode} {c : Call}

/-- The entries of an `AppendEntries` satisfy `K`. -/
def Message.Carries (K : Entry → Prop) (m : Message) : Prop :=
  ∀ {prev prevTerm es leaderCommit readCtx}, m.body = .appendEntries prev prevTerm es leaderCommit readCtx →
    ∀ e ∈ es, K e

/-- The entries of a node and of the messages it is about to send satisfy `K`. -/
structure Brings (K : Entry → Prop) (n : RaftNode) : Prop where
  log : ∀ e ∈ n.log.entries, K e
  out : ∀ m ∈ n.out.messages, m.Carries K

/-- What the call brings in satisfies `K`. -/
structure Supplies (K : Entry → Prop) (c : Call) : Prop where
  noop : ∀ term index, K { term, index, payload := .noop }
  normal : ∀ {data}, c = .propose data → ∀ term index, K { term, index, payload := .normal data }
  fixed : ¬ c.changesConf
  message : ∀ {m}, c = .step m → m.Carries K

theorem RaftLog.slice_subset (log : RaftLog) (start max : Nat) : ∀ e ∈ log.slice start max, e ∈ log.entries := by
  intro e he
  simp only [slice] at he
  split at he
  · cases he
  · exact List.mem_of_mem_drop (List.mem_of_mem_take he)

theorem RaftNode.findNew_subset {log log' : RaftLog} {k : Nat} : ∀ {es new : List Entry},
    findNew log k es = some (log', new) →
    (∀ e ∈ log'.entries, e ∈ log.entries) ∧ ∀ e ∈ new, e ∈ es
  | [], new, h => by
    cases h
    exact ⟨fun e he => he, fun e he => he⟩
  | x :: es, new, h => by
    unfold findNew at h
    split at h
    · split at h
      · obtain ⟨h1, h2⟩ := findNew_subset h
        exact ⟨h1, fun e he => List.mem_cons_of_mem _ (h2 e he)⟩
      · split at h
        · cases h
          exact ⟨fun e he => List.mem_of_mem_take he, fun e he => he⟩
        · cases h
    · cases h
      exact ⟨fun e he => he, fun e he => he⟩

theorem Fits.subset {prev prevTerm : Nat} {es es' : List Entry} (h : Fits n prev prevTerm es es') :
    ∀ e ∈ es', e ∈ es := by
  rcases h with ⟨_, rfl, _⟩ | ⟨_, rfl, _⟩
  · exact fun e he => he
  · exact fun e he => List.mem_of_mem_drop he

theorem Says.carries {m : Message} (hm : Says c n m) (h : ∀ e ∈ n.log.entries, K e) : m.Carries K := by
  intro prev prevTerm es leaderCommit readCtx hb e he
  obtain ⟨_, hm⟩ := hm
  rw [hb] at hm
  obtain ⟨_, _, _, _, hes, _⟩ := hm
  rcases hes with rfl | rfl
  · cases he
  · exact h e (n.log.slice_subset _ _ e he)

theorem Brings.move (h : Brings K n) (hs : Supplies K c) (hm : Move c n₀ n n') : Brings K n' := by
  have hsame : ∀ {n' : RaftNode}, n'.log = n.log → n'.out.messages = n.out.messages → Brings K n' := by
    intro n' hlog hout
    exact ⟨by rw [hlog]; exact h.log, by rw [hout]; exact h.out⟩
  cases hm with
  | beat x _ _ => exact hsame rfl rfl
  | wait _ _ => exact hsame rfl rfl
  | rest _ _ _ => exact hsame rfl rfl
  | preCampaign _ _ _ _ _ => exact hsame rfl rfl
  | stand _ => rw [stand_eq]; exact hsame rfl rfl
  | win _ _ => exact hsame rfl rfl
  | @follow t l _ =>
    rcases Nat.lt_or_ge n.hs.term t with hlt | hle
    · rw [becomeFollower_eq n l hlt]; exact hsame rfl rfl
    · rw [becomeFollower_same n l hle]; exact hsame rfl rfl
  | listen _ _ _ => exact hsame rfl rfl
  | vote _ _ _ _ _ _ _ => rw [setVote_eq]; exact hsame rfl rfl
  | count _ _ => exact hsame rfl rfl
  | @append payload _ hp =>
    refine ⟨fun e he => ?_, h.out⟩
    rcases List.mem_append.1 he with he | he
    · exact h.log e he
    · rw [List.mem_singleton.1 he]
      cases payload with
      | noop => exact hs.noop _ _
      | normal data => exact hs.normal hp _ _
      | confChange cc =>
        rw [hp.1] at hs
        exact (hs.fixed trivial).elim
  | @adopt m prev prevTerm es es' new _ _ log log' hc _ _ _ hb hfits hf hp =>
    obtain ⟨hlog, hnew⟩ := findNew_subset hf
    refine ⟨fun e he => ?_, h.out⟩
    have he' : e ∈ log.entries ++ new := by rw [← (pushAll_eq hp).1]; exact he
    rcases List.mem_append.1 he' with he | he
    · exact h.log e (hlog e he)
    · exact hs.message hc hb e (hfits.subset e (hnew e he))
  | install _ _ _ _ _ _ _ => exact ⟨fun e he => (by cases he), h.out⟩
  | commitQuorum _ _ _ _ => exact hsame rfl rfl
  | commitFollow _ _ _ _ _ => exact hsame rfl rfl
  | sync _ =>
    unfold syncProgressWithVoters
    split <;> exact hsame rfl rfl
  | pace _ _ => exact hsame rfl rfl
  | response _ _ _ _ _ _ => exact hsame rfl rfl
  | register _ _ _ _ => exact hsame rfl rfl
  | release _ _ => exact hsame rfl rfl
  | push hm =>
    refine ⟨h.log, fun m hm' => ?_⟩
    rcases List.mem_append.1 hm' with hm' | hm'
    · exact h.out m hm'
    · rw [List.mem_singleton.1 hm']
      exact hm.carries h.log

theorem Brings.moves (h : Brings K n) (hs : Supplies K c) (hm : Moves c n₀ n n') : Brings K n' := by
  induction hm with
  | refl => exact h
  | tail _ hm ih => exact ih.move hs hm

/-! ## The cluster -/

/-- Every entry in the cluster satisfies `K`. -/
structure Holds (K : Entry → Prop) (s : Cluster) : Prop where
  logs : ∀ i, ∀ e ∈ (s.host i).raft.log.entries, K e
  bases : ∀ i, ∀ e ∈ (s.host i).base, K e
  net : ∀ m ∈ s.net, m.Carries K
  prefixes : ∀ p ∈ s.prefixes, ∀ e ∈ p.2, K e

theorem Holds.mono {K' : Entry → Prop} (h : Holds K s) (hK : ∀ e, K e → K' e) : Holds K' s where
  logs i e he := hK e (h.logs i e he)
  bases i e he := hK e (h.bases i e he)
  net m hm := fun hb e he => hK e (h.net m hm hb e he)
  prefixes p hp e he := hK e (h.prefixes p hp e he)

theorem Holds.log (h : Holds K s) (hinv : Inv voters hv g s) (i : NodeId) : ∀ e ∈ g.led.log i, K e := by
  intro e he
  rw [(hinv.locals i).core.log_eq] at he
  rcases List.mem_append.1 he with he | he
  · exact h.bases i e he
  · exact h.logs i e he

theorem Holds.prefixOf (h : Holds K s) (snap : Snapshot) : ∀ e ∈ s.prefixOf snap, K e := by
  intro e he
  unfold Cluster.prefixOf at he
  cases hf : s.prefixes.find? fun p => p.1 = snap with
  | none => rw [hf] at he; cases he
  | some q =>
    rw [hf] at he
    exact h.prefixes q (List.mem_of_find?_eq_some hf) e he

/-- A call keeps `K`, as long as what it brings in has it. -/
theorem Holds.call (h : Holds K s) (hdr : (s.host i).raft.out = {}) (hs : Supplies K c)
    (hc : (s.host i).raft.call c = some n) : Holds K (s.flush i n) := by
  have hn : Brings K n := by
    refine Brings.moves ⟨h.logs i, fun m hm => ?_⟩ hs (call_moves hc)
    rw [hdr] at hm; cases hm
  refine ⟨forall_update (P := fun _ x => ∀ e ∈ x.raft.log.entries, K e) hn.log h.logs,
    forall_update (P := fun _ x => ∀ e ∈ x.base, K e) (fun e he => ?_) h.bases, fun m hm => ?_, h.prefixes⟩
  · cases hsn : n.out.snapshot with
    | none => simp only [hsn] at he; exact h.bases i e he
    | some snap => simp only [hsn] at he; exact h.prefixOf snap e he
  · rcases List.mem_append.1 hm with hm | hm
    · exact h.net m hm
    · exact hn.out m hm

theorem Holds.compacted (h : Holds K s) {applied : Nat} {data : Bytes} {snap : Snapshot}
    (hc : (s.host i).raft.compact applied data = (some snap, n)) : Holds K (s.compacted i applied snap n) := by
  obtain ⟨hlo, _, term, _, _, rfl⟩ := compact_some hc
  have hp : ∀ e ∈ ((s.host i).base ++ (s.host i).raft.log.entries).take applied, K e := by
    intro e he
    rcases List.mem_append.1 (List.mem_of_mem_take he) with he | he
    · exact h.bases i e he
    · exact h.logs i e he
  refine ⟨forall_update (P := fun _ x => ∀ e ∈ x.raft.log.entries, K e) (fun e he => ?_) h.logs,
    forall_update (P := fun _ x => ∀ e ∈ x.base, K e) hp h.bases, h.net, fun p hmem => ?_⟩
  · have he' : e ∈ ((s.host i).raft.log.compact applied term).entries := he
    rw [(RaftLog.compact_eq term hlo).2.2] at he'
    exact h.logs i e (List.mem_of_mem_drop he')
  · rcases List.mem_append.1 hmem with hmem | hmem
    · exact h.prefixes p hmem
    · rw [List.mem_singleton.1 hmem]; exact hp

theorem Holds.restarted (h : Holds K s) {cfg : Config} {p : Persisted} (hdisk : p = (s.host i).raft.durable)
    (hn : new cfg voters p = some n) : Holds K (s.restarted i n) := by
  have hent : n.log.entries = (s.host i).raft.log.entries := by
    subst hdisk
    obtain ⟨log, hlog, rfl⟩ := Option.map_eq_some_iff.1 hn
    exact (RaftLog.new_eq_some hlog).2.2
  refine ⟨forall_update (P := fun _ x => ∀ e ∈ x.raft.log.entries, K e) ?_ h.logs,
    forall_update (P := fun _ x => ∀ e ∈ x.base, K e) (h.bases i) h.bases, h.net, h.prefixes⟩
  rw [hent]
  exact h.logs i

end RaftKv

import RaftKv.Raft.Reachable

/-!
# What a batch of calls commits

A server makes many calls before it takes the output once (`server/src/core.rs:126-148`).
`Local.calls` and `Inv.batch` carry the coupling through such a batch. `CommitMove` is what a move
does to the commit index; from it follow two facts about the output of a whole batch:

* `Handed`: the committed prefix of the node is what was there before the batch, or the prefix
  behind the installed snapshot, followed by the committed entries of the output. It needs that no
  snapshot is installed behind committed entries;
* `Reaches`: a host that restores the snapshot and then applies the committed entries ends at the
  commit index, or at an index that the node has compacted away.
-/

namespace RaftKv

open RaftNode List

variable {voters : List NodeId} {hv : voters.Nodup} {g g' g₁ g₂ : Ghost} {s : Cluster}
  {rec : Snapshot → List Entry → Prop} {D : Entry → Prop} {i : NodeId} {n n' n₀ n₁ n₂ : RaftNode}
  {base base₁ base₂ : List Entry} {c : Call} {cs : List Call}

/-! ## Batches -/

variable {P : Ghost → RaftNode → Prop}

/-- A batch of calls that change no configuration, with anything else `P` that their moves keep. -/
theorem Local.calls (h : Local voters hv g rec D i n base) (hcs : n.calls cs = some n')
    (hok : ∀ c ∈ cs, ¬ c.changesConf ∧ ∀ n₀, CallOk voters hv g rec i n₀ c) (hP : P g n)
    (hstep : ∀ ⦃cs' c n₀⦄, cs' ++ [c] <+: cs → n.calls cs' = some n₀ → MovesKeep voters hv rec D i c n₀ g P) :
    ∃ g' base', Frame False i g g' ∧ Local voters hv g' rec D i n' base' ∧
      (n'.out.snapshot = none → n.out.snapshot = none ∧ base' = base) ∧ P g' n' := by
  induction cs using List.reverseRecOn generalizing n' with
  | nil => cases hcs; exact ⟨g, base, Frame.refl _ i g, h, fun hnone => ⟨hnone, rfl⟩, hP⟩
  | append_singleton cs c ih =>
    obtain ⟨n₀, h₀, hc⟩ := calls_concat_inv hcs
    obtain ⟨g₁, base₁, hf₁, hl₁, hb₁, hP₁⟩ := ih h₀ (fun c' hc' => hok c' (by simp [hc']))
      fun cs' c' n₀ hp => hstep (hp.trans (prefix_append _ _))
    obtain ⟨hfix, hcall⟩ := hok c (by simp)
    obtain ⟨g₂, base₂, hf₂, hl₂, hb₂, hP₂⟩ := hl₁.moves ((hcall n₀).mono hf₁.toLe) (call_moves hc) hP₁
      fun _ _ _ _ _ _ hle => hstep (prefix_refl _) h₀ (hf₁.toLe.trans hle)
    refine ⟨g₂, base₂, hf₁.trans (hf₂.imp hfix), hl₂, fun hnone => ?_, hP₂⟩
    obtain ⟨hnone₁, rfl⟩ := hb₂ hnone
    exact hb₁ hnone₁

/-- What a server may call: messages that were sent to it, and no configuration change. -/
def Cluster.Serves (s : Cluster) (i : NodeId) (c : Call) : Prop := s.deliverable i c = true ∧ ¬ c.changesConf

theorem Inv.serves_callOk (h : Inv voters hv g s) (hs : s.Serves i c) :
    ¬ c.changesConf ∧ ∀ n₀, CallOk voters hv g s.Recorded i n₀ c := by
  refine ⟨hs.2, fun n₀ => ?_⟩
  cases c with
  | step m =>
    obtain ⟨hdst, hm⟩ := Cluster.deliverable_step hs.1
    exact ⟨hdst, h.net m hm⟩
  | proposeConfChange cc => exact (hs.2 trivial).elim
  | _ => trivial

/-- A batch on one node, before and after its output is taken. -/
theorem Inv.batch (h : Inv voters hv g s) (hcs : (s.host i).raft.calls cs = some n') (hok : ∀ c ∈ cs, s.Serves i c)
    (hP : P g (s.host i).raft) (hstep : ∀ ⦃cs' c n₀⦄, cs' ++ [c] <+: cs → (s.host i).raft.calls cs' = some n₀ →
      MovesKeep voters hv s.Recorded s.Delivered i c n₀ g P) :
    ∃ g' base', g.Le g' ∧ Local voters hv g' s.Recorded s.Delivered i n' base' ∧ P g' n' ∧
      Inv voters hv g' (s.flushTo i n' n'.durable) := by
  obtain ⟨g', base', hf, hl, hbase, hP'⟩ := (h.locals i).calls hcs (fun c hc => h.serves_callOk (hok c hc)) hP hstep
  exact ⟨g', base', hf.toLe, hl, hP', h.flushTo hf hl (fun hnone => (hbase hnone).2) rfl⟩

/-! ## The commit index -/

/-- A move, as far as commitment is concerned. -/
inductive CommitMove (c : Call) (n₀ n : RaftNode) : RaftNode → Prop
  | keep {n' : RaftNode} : n'.commit = n.commit → n'.out.committed = n.out.committed →
      n'.out.snapshot = n.out.snapshot → n'.log.snapIndex = n.log.snapIndex → CommitMove c n₀ n n'
  | commit {k : Nat} : n.commit < k → CommitMove c n₀ n (n.commitTo k)
  | install {s : Snapshot} : n.commit < s.lastIndex → c.resets n₀ = true → Untouched n₀ n →
      CommitMove c n₀ n (n.install s)

theorem RaftNode.findNew_snapIndex {log log' : RaftLog} {k : Nat} : ∀ {es new : List Entry},
    findNew log k es = some (log', new) → log'.snapIndex = log.snapIndex
  | [], new, h => by cases h; rfl
  | e :: es, new, h => by
    unfold findNew at h
    split at h
    · split at h
      · exact findNew_snapIndex h
      · split at h
        · cases h; rfl
        · cases h
    · cases h; rfl

theorem Move.commits (hm : Move c n₀ n n') : CommitMove c n₀ n n' := by
  cases hm with
  | beat x _ _ => exact .keep rfl rfl rfl rfl
  | wait _ _ => exact .keep rfl rfl rfl rfl
  | rest _ _ _ => exact .keep rfl rfl rfl rfl
  | preCampaign _ _ _ _ _ => exact .keep rfl rfl rfl rfl
  | stand _ => rw [stand_eq]; exact .keep rfl rfl rfl rfl
  | win _ _ => exact .keep rfl rfl rfl rfl
  | @follow t l _ =>
    have hu := becomeFollower_untouched n t l
    exact .keep hu.commit hu.committed hu.installed (by rw [hu.log])
  | listen _ _ _ => exact .keep rfl rfl rfl rfl
  | vote _ _ _ _ _ _ _ => rw [setVote_eq]; exact .keep rfl rfl rfl rfl
  | count _ _ => exact .keep rfl rfl rfl rfl
  | append _ _ => exact .keep rfl rfl rfl rfl
  | adopt _ _ _ _ _ _ hf hp =>
    exact .keep rfl rfl rfl ((pushAll_eq hp).2.1.trans (findNew_snapIndex hf))
  | install hstep ht _ hu hb hlt hterm =>
    subst hstep
    exact .install hlt (Call.resets_of_install hu ht hb hlt hterm) hu
  | commitQuorum _ _ hlt _ => exact .commit hlt
  | commitFollow _ _ _ hlt _ => exact .commit hlt
  | sync _ =>
    unfold syncProgressWithVoters
    split <;> exact .keep rfl rfl rfl rfl
  | pace _ _ => exact .keep rfl rfl rfl rfl
  | response _ _ _ _ _ _ => exact .keep rfl rfl rfl rfl
  | register _ _ _ _ => exact .keep rfl rfl rfl rfl
  | release _ _ => exact .keep rfl rfl rfl rfl
  | push _ => exact .keep rfl rfl rfl rfl

theorem CommitMove.commit_le (hm : CommitMove c n₀ n n') : n.commit ≤ n'.commit := by
  cases hm with
  | keep hc => exact le_of_eq hc.symm
  | commit hlt => exact le_of_lt hlt
  | install hlt => exact le_of_lt hlt

/-- The committed prefix only grows. -/
theorem Local.committed_grows {rec' : Snapshot → List Entry → Prop} {D' : Entry → Prop}
    (h₁ : Local voters hv g₁ rec D i n₁ base₁) (h₂ : Local voters hv g₂ rec' D' i n₂ base₂) (hle : g₁.Le g₂)
    (hc : n₁.commit ≤ n₂.commit) : (g₁.led.log i).take n₁.commit = (g₂.led.log i).take n₁.commit := by
  have hl₁ := h₁.core.commit_le
  have hl₂ := h₂.core.commit_le
  have ha₁ := h₁.core.commit_ok.mono hle
  rw [h₁.core.log_eq, h₂.core.log_eq]
  have hpre : (base₁ ++ n₁.log.entries).take n₁.commit <+: (base₂ ++ n₂.log.entries).take n₂.commit := by
    rcases ha₁.comparable h₂.shared.sound h₂.core.commit_ok with hp | hp
    · exact hp
    · -- the longer of the two is a prefix of the shorter: they are equal
      have hlen := hp.length_le
      rw [length_take_of_le hl₁, length_take_of_le hl₂] at hlen
      rw [hp.eq_of_length (by rw [length_take_of_le hl₁, length_take_of_le hl₂]; omega)]
  have htake := prefix_iff_eq_take.1 hpre
  rw [length_take_of_le hl₁, take_take, Nat.min_eq_left hc] at htake
  exact htake

theorem LogRel.newlyCommitted {log : RaftLog} (hrel : LogRel base log) {a k : Nat} (ha : base.length ≤ a) (hak : a ≤ k)
    (hk : k ≤ (base ++ log.entries).length) :
    (List.range' (a + 1) (k - a)).filterMap log.get = ((base ++ log.entries).take k).drop a := by
  obtain ⟨d, rfl⟩ := Nat.exists_eq_add_of_le hak
  clear hak
  rw [Nat.add_sub_cancel_left]
  induction d generalizing a with
  | zero => simp
  | succ d ih =>
    obtain ⟨e, he⟩ : ∃ e, (base ++ log.entries)[a]? = some e := ⟨_, getElem?_eq_getElem (by omega)⟩
    have hget : log.get (a + 1) = some e := hrel.get_eq.2 ⟨by omega, he⟩
    have hrest := ih (a := a + 1) (by omega) (by omega)
    rw [range'_succ, filterMap_cons_some hget, hrest, show a + 1 + d = a + (d + 1) by omega]
    have hcons : ((base ++ log.entries).take (a + (d + 1))).drop a =
        e :: ((base ++ log.entries).take (a + (d + 1))).drop (a + 1) := by
      refine (drop_eq_getElem?_toList_append ..).trans ?_
      rw [getElem?_take_of_lt (by omega), he]; rfl
    exact hcons.symm

/-- What the output of a batch says about the committed prefix; `start` was there before the batch. -/
def Handed (rec : Snapshot → List Entry → Prop) (start : List Entry) (i : NodeId) (g : Ghost) (n : RaftNode) : Prop :=
  ∃ p, (n.out.snapshot = none → p = start) ∧ (∀ {s}, n.out.snapshot = some s → rec s p) ∧
    (g.led.log i).take n.commit = p ++ n.out.committed

theorem Handed.move {start : List Entry} (h : Handed rec start i g₁ n₁) (hle : g₁.Le g₂)
    (h₁ : Local voters hv g₁ rec D i n₁ base₁) (h₂ : Local voters hv g₂ rec D i n₂ base₂) (hm : CommitMove c n₀ n₁ n₂)
    (hreset : c.resets n₀ = true → n₀.out.committed = []) : Handed rec start i g₂ n₂ := by
  obtain ⟨p, hnone, hsome, htake⟩ := h
  cases hm with
  | keep hc hcom hsn _ =>
    refine ⟨p, by rw [hsn]; exact hnone, by rw [hsn]; exact hsome, ?_⟩
    rw [hcom, hc, ← htake]
    exact (h₁.committed_grows h₂ hle (le_of_eq hc.symm)).symm
  | @commit k hlt =>
    refine ⟨p, hnone, hsome, ?_⟩
    have hk : n₁.commit ≤ (n₁.commitTo k).commit := le_of_lt hlt
    have hgrow := h₁.committed_grows h₂ hle hk
    have hb : base₂.length ≤ n₁.commit := by
      rw [← h₂.core.rel.len]
      show n₁.log.snapIndex ≤ n₁.commit
      rw [h₁.core.rel.len]; exact h₁.core.snap_le
    have hnew := h₂.core.rel.newlyCommitted hb hk h₂.core.commit_le
    rw [← h₂.core.log_eq] at hnew
    show (g₂.led.log i).take k = p ++ (n₁.out.committed ++ n₁.newlyCommitted k)
    rw [← append_assoc, ← htake, hgrow]
    rw [show n₁.newlyCommitted k = ((g₂.led.log i).take k).drop n₁.commit from hnew]
    conv => lhs; rw [← take_append_drop n₁.commit ((g₂.led.log i).take k)]
    rw [take_take, Nat.min_eq_left (le_of_lt hlt)]
  | @install s hlt hr hu =>
    refine ⟨base₂, fun h' => (by cases h'), fun hs => ?_, ?_⟩
    · exact h₂.out.snapshot_ok hs
    · have hcom : (n₁.install s).out.committed = [] := hu.committed.trans (hreset hr)
      have hlog : g₂.led.log i = base₂ := by
        have := h₂.core.log_eq
        rw [show (n₁.install s).log.entries = [] from rfl, append_nil] at this
        exact this
      rw [hcom, hlog, append_nil]
      refine take_of_length_le (le_of_eq ?_)
      rw [← h₂.core.rel.len]; rfl

/-- A call, with what its output hands over. -/
theorem Inv.call_handed (h : Inv voters hv g s)
    (hok : CallOk voters hv g s.Recorded i (s.host i).raft c) (hc : (s.host i).raft.call c = some n') :
    ∃ g', Frame c.changesConf i g g' ∧ Inv voters hv g' (s.flush i n') ∧
      Handed s.Recorded ((g.led.log i).take (s.host i).raft.commit) i g' n' ∧ (s.host i).raft.commit ≤ n'.commit ∧
      ∃ base', Local voters hv g' s.Recorded s.Delivered i n' base' := by
  have hdr := h.drained i
  have hstart : Handed s.Recorded ((g.led.log i).take (s.host i).raft.commit) i g (s.host i).raft := by
    refine ⟨_, fun _ => rfl, fun hs => ?_, ?_⟩
    · rw [hdr] at hs; cases hs
    · rw [hdr]; exact (append_nil _).symm
  exact h.call
    (P := fun g' n => Handed s.Recorded ((g.led.log i).take (s.host i).raft.commit) i g' n ∧
      (s.host i).raft.commit ≤ n.commit ∧ ∃ base, Local voters hv g' s.Recorded s.Delivered i n base)
    hok hc ⟨hstart, le_refl _, _, h.locals i⟩
    fun g₁ g₂ n₁ n₂ b₁ b₂ hle hl₁ hm hf hl₂ ⟨hh, hle', _⟩ =>
      ⟨hh.move hf.toLe hl₁ hl₂ hm.commits fun _ => by rw [hdr], le_trans hle' hm.commits.commit_le, _, hl₂⟩

/-- Where a host ends that was at `applied`, restores the snapshot and applies the committed entries. -/
def Output.appliedTo (o : Output) (applied : Nat) : Nat :=
  match o.committed.getLast? with
  | some e => e.index
  | none => (o.snapshot.map Snapshot.lastIndex).getD applied

/-- Where a host ends that restores the snapshot and applies the committed entries. -/
theorem Handed.appliedTo {start : List Entry} {applied : Nat}
    (h : Handed rec start i g n) (hl : Local voters hv g rec D i n base)
    (hstart : start.length = applied) : n.out.appliedTo applied = n.commit := by
  obtain ⟨p, hnone, hsome, htake⟩ := h
  have hle : n.commit ≤ (g.led.log i).length := by rw [hl.core.log_eq]; exact hl.core.commit_le
  have hlen : n.commit = p.length + n.out.committed.length := by
    have := congrArg List.length htake
    rwa [length_take_of_le hle, length_append] at this
  unfold Output.appliedTo
  cases hlast : n.out.committed.getLast? with
  | some e =>
    have hidx : Indexed (p ++ n.out.committed) := by
      rw [← htake, hl.core.log_eq]
      exact hl.indexed.anti (List.take_prefix _ _)
    have hpos : (p ++ n.out.committed)[n.commit - 1]? = some e := by
      have hne : n.out.committed ≠ [] := by rintro h0; rw [h0] at hlast; cases hlast
      have := length_pos_of_ne_nil hne
      rw [getElem?_append_right (by omega), show n.commit - 1 - p.length = n.out.committed.length - 1 by omega,
        ← getLast?_eq_getElem?, hlast]
    have := hidx _ e hpos
    have := (List.getElem?_eq_some_iff.1 hpos).1
    show e.index = n.commit
    rw [length_append] at this
    omega
  | none =>
    rw [getLast?_eq_none_iff] at hlast
    rw [hlast] at hlen
    cases hs : n.out.snapshot with
    | none =>
      rw [hnone hs, hstart] at hlen
      exact hlen.symm
    | some snap =>
      rw [hlen, ← (hl.shared.recorded (hsome hs)).1.index]; rfl

/-- A host at `a` has reached the commit index, or what it lacks is gone from the log. -/
def Reaches (n : RaftNode) (a : Nat) : Prop := a ≤ n.commit ∧ (a = n.commit ∨ a < n.log.snapIndex)

theorem Reaches.move {applied : Nat} (h : Reaches n₁ (n₁.out.appliedTo applied))
    (h₁ : Local voters hv g₁ rec D i n₁ base₁) (h₂ : Local voters hv g₂ rec D i n₂ base₂)
    (hm : CommitMove c n₀ n₁ n₂) : Reaches n₂ (n₂.out.appliedTo applied) := by
  cases hm with
  | keep hc hcom hsn hsi =>
    unfold Reaches Output.appliedTo
    rw [hc, hcom, hsn, hsi]; exact h
  | @commit k hlt =>
    have hb : base₂.length ≤ n₁.commit := by
      rw [← h₂.core.rel.len]
      show n₁.log.snapIndex ≤ n₁.commit
      rw [h₁.core.rel.len]; exact h₁.core.snap_le
    have hkl : k ≤ (base₂ ++ n₁.log.entries).length := h₂.core.commit_le
    have hnew : n₁.newlyCommitted k = ((base₂ ++ n₁.log.entries).take k).drop n₁.commit :=
      h₂.core.rel.newlyCommitted hb (le_of_lt hlt) hkl
    -- the last new entry is the one at `k`
    obtain ⟨e, he⟩ : ∃ e, (base₂ ++ n₁.log.entries)[k - 1]? = some e := ⟨_, getElem?_eq_getElem (by omega)⟩
    have hidx : e.index = k := by rw [h₂.indexed _ e he]; omega
    have hlast : (n₁.out.committed ++ n₁.newlyCommitted k).getLast? = some e := by
      have hl : (n₁.newlyCommitted k).getLast? = some e := by
        rw [hnew, getLast?_drop, length_take_of_le hkl, if_neg (by omega), getLast?_eq_getElem?,
          length_take_of_le hkl, getElem?_take_of_lt (by omega), he]
      rw [getLast?_append, hl]; rfl
    have hto : (n₁.commitTo k).out.appliedTo applied = k := by
      show (match (n₁.out.committed ++ n₁.newlyCommitted k).getLast? with
        | some e => e.index
        | none => _) = k
      rw [hlast]; exact hidx
    rw [hto]
    exact ⟨le_refl _, Or.inl rfl⟩
  | @install s hlt _ _ =>
    cases hcom : n₁.out.committed.getLast? with
    | none =>
      have hto : (n₁.install s).out.appliedTo applied = s.lastIndex := by
        show (match n₁.out.committed.getLast? with
          | some e => e.index
          | none => s.lastIndex) = s.lastIndex
        rw [hcom]
      rw [hto]
      exact ⟨le_refl _, Or.inl rfl⟩
    | some e =>
      have hold : n₁.out.appliedTo applied = e.index := by unfold Output.appliedTo; rw [hcom]
      have hto : (n₁.install s).out.appliedTo applied = e.index := by
        show (match n₁.out.committed.getLast? with
          | some e => e.index
          | none => s.lastIndex) = e.index
        rw [hcom]
      rw [hold] at h
      rw [hto]
      have hlt' : e.index < s.lastIndex := lt_of_le_of_lt h.1 hlt
      exact ⟨le_of_lt hlt', Or.inr hlt'⟩

/-! ## Earlier terms -/

/-- What was committed in earlier terms lies below every entry of a leader's own term: it is in the log the
leader was elected with. -/
theorem Local.earlier_committed (h : Local voters hv g rec D i n base) (hr : n.role = .leader) {a b : Nat}
    (ht : n.log.term a = some n.hs.term) {m x : List Entry}
    (hC : Ledger.Committed (raftRules voters hv) g.led b m x) (hb : b < n.hs.term) : m.length ≤ a := by
  obtain ⟨r, hrt, hl, _⟩ := h.role.leader hr
  obtain ⟨y, hy, _⟩ := h.shared.sound.reign_log hrt
  have helect := h.shared.sound.elected_complete hrt hC hb
  obtain ⟨_, hal, hlast⟩ := h.core.rel.term_some ht
  by_contra hgt
  have hpre : (base ++ n.log.entries).take a <+: r.elected := by
    refine prefix_of_prefix_length_le (List.take_prefix _ _) ?_ ?_
    · exact (by rw [h.leader_log hrt hl, hy]; exact prefix_append _ _)
    · rw [length_take_of_le hal]
      have := helect.length_le
      omega
  obtain ⟨_, hbelow⟩ := h.shared.sound.cand_chain (h.shared.sound.reign_cand hrt)
  rcases eq_nil_or_concat ((base ++ n.log.entries).take a) with hnil | ⟨q, e, hqe⟩
  · rw [hnil, lastTermOf_nil] at hlast; omega
  · rw [hqe, concat_eq_append] at hpre hlast
    rw [lastTermOf_concat] at hlast
    have : e.term < n.hs.term := hbelow e (hpre.subset (by simp))
    omega

end RaftKv

import RaftKv.Raft.Reads

/-!
# A read from its request on

`ReadWatch i r del` holds from the moment node `i` accepts `read_index r` on: whatever it hands out for
`r` reaches the entries `del` that were delivered at that moment (`ReadWatch.index`). It is kept by every
step without a stale echo (`ReadWatch.exec`), so that a host can carry one such fact for each read it
has not served yet.

The host tells its reads apart by numbers that it never uses twice. `NumbersBelow` says that the
numbers a node holds or has handed out stay below the host's counter.
-/

namespace RaftKv

open RaftNode

variable {voters : List NodeId} {hv : voters.Nodup} {g : Ghost} {s t : Cluster} {i j : NodeId} {r b : Nat}
  {n n' n₀ : RaftNode} {c : Call} {del : List Delivery}

/-- Node `i` was asked to read as `r`, for the first time under this number, when `del` was delivered. -/
inductive ReadWatch (voters : List NodeId) (hv : voters.Nodup) (i : NodeId) (r : Nat) (del : List Delivery)
    (s : Cluster) : Prop
  | intro {g₀ g : Ghost} {T₀ c₀ : Nat} {r₀ : Reign NodeId Entry} {old : List (NodeId × Nat × Nat)}
      (sound : Ledger.Sound (raftRules voters hv) g₀.led) (reign : g₀.led.reign T₀ = some r₀) (leader : r₀.leader = i)
      (term : g₀.led.term i = T₀) (pos : 0 < c₀) (delivered : ∀ d ∈ del, DeliveredOk voters hv g₀ d.term d.entry)
      (inv : Inv voters hv g s) (reads : ReadInv voters g s) (grown : old <+: s.reads)
      (unused : ∀ x ∈ old, x.1 = i → x.2.1 ≠ r) (await : AwaitInv voters g₀ del T₀ c₀ r i old.length g s)

theorem ReadWatch.start (hinv : Inv voters hv g s) (hri : ReadInv voters g s)
    (hok : ((s.host i).raft.readIndex r).1 = .ok ()) (hnew : ∀ x ∈ (s.host i).raft.pendingReads, x.2.1 ≠ r)
    (hunused : ∀ x ∈ s.reads, x.1 = i → x.2.1 ≠ r) : ReadWatch voters hv i r s.delivered s := by
  have hr := readIndex_ok hok
  have hl := hinv.locals i
  obtain ⟨r₀, hr₀, hl₀, -⟩ := hl.role.leader hr
  exact .intro hl.shared.sound hr₀ hl₀ hl.core.term_eq (Nat.succ_pos _) hinv.delivered hinv hri (List.prefix_refl _)
    hunused (AwaitInv.start hinv hri hr hnew)

variable {a : Action} {x : Nat}

theorem Cluster.exec_reads (he : s.exec voters a = some t) : s.reads <+: t.reads := by
  cases Cluster.exec_some he with
  | call => exact List.prefix_append ..
  | idle => exact List.prefix_refl _
  | compact => exact List.prefix_refl _
  | restart => exact List.prefix_refl _

theorem ReadWatch.exec (h : ReadWatch voters hv i r del s) (hok : ReadStep s a)
    (he : s.exec voters a = some t) : ReadWatch voters hv i r del t := by
  obtain ⟨sound, reign, leader, term, pos, delivered, inv, reads, grown, unused, await⟩ := h
  obtain ⟨g', hinv', hreads', hawait⟩ := await.exec sound reign leader term pos delivered inv reads hok he
  exact .intro sound reign leader term pos delivered hinv' hreads' (grown.trans (Cluster.exec_reads he)) unused hawait

theorem ReadWatch.run (h : ReadWatch voters hv i r del s) (hrun : Run voters ReadStep s t) :
    ReadWatch voters hv i r del t :=
  hrun.invariant h fun h hok he => h.exec hok he

/-- What is handed out for the read reaches everything that was delivered when it was asked for. -/
theorem ReadWatch.index {idx : Nat} (h : ReadWatch voters hv i r del s) (hm : (i, r, idx) ∈ s.reads) :
    ∀ d ∈ del, d.entry.index ≤ idx := by
  obtain ⟨-, -, -, -, -, -, -, -, ⟨new, hnew⟩, unused, await⟩ := h
  refine await.reads (i, r, idx) ?_ rfl rfl
  rw [← hnew, List.drop_left]
  rw [← hnew] at hm
  rcases List.mem_append.1 hm with hm | hm
  · exact absurd rfl (unused _ hm rfl)
  · exact hm

/-! ## The numbers of reads -/

/-- The numbers a node holds, or hands out with its next output. -/
def RaftNode.readNumbers (n : RaftNode) : List Nat := n.pendingReads.map (·.2.1) ++ n.out.readStates.map Prod.fst

theorem RaftNode.mem_readNumbers :
    x ∈ n.readNumbers ↔ (∃ y ∈ n.pendingReads, y.2.1 = x) ∨ ∃ y ∈ n.out.readStates, y.1 = x := by
  simp [readNumbers]

theorem Move.readNumbers (hm : Move c n₀ n n') (hx : x ∈ n'.readNumbers) : x ∈ n.readNumbers ∨ c = .readIndex x := by
  rw [mem_readNumbers] at hx ⊢
  -- most moves keep what is handed out, and keep or drop what is held
  have keep : n'.pendingReads = n.pendingReads ∨ n'.pendingReads = [] → n'.out.readStates = n.out.readStates →
      ((∃ y ∈ n.pendingReads, y.2.1 = x) ∨ ∃ y ∈ n.out.readStates, y.1 = x) ∨ c = .readIndex x := by
    intro hp hs
    rw [hs] at hx
    rcases hp with hp | hp
    · rw [hp] at hx; exact .inl hx
    · rw [hp] at hx; exact .inl (.inr (by simpa using hx))
  cases hm with
  | stand => exact keep (.inl (by rw [stand_eq])) (by rw [stand_eq])
  | win => exact keep (.inr rfl) rfl
  | @follow t l _ =>
    rcases Nat.lt_or_ge n.hs.term t with hlt | hge
    · rw [becomeFollower_eq n l hlt] at keep; exact keep (.inr rfl) rfl
    · rw [becomeFollower_same n l hge] at keep; exact keep (.inr rfl) rfl
  | vote => rw [setVote_eq] at keep; exact keep (.inl rfl) rfl
  | sync hr =>
    unfold syncProgressWithVoters at keep
    rw [if_neg (by simp [hr])] at keep
    exact keep (.inl rfl) rfl
  | register hc =>
    rcases hx with ⟨y, hy, rfl⟩ | hx
    · rcases List.mem_append.1 hy with hy | hy
      · exact .inl (.inl ⟨y, hy, rfl⟩)
      · rw [List.mem_singleton.1 hy]; exact .inr hc
    · exact .inl (.inr hx)
  | release =>
    rcases hx with ⟨y, hy, rfl⟩ | ⟨y, hy, rfl⟩
    · exact .inl (.inl ⟨y, (List.mem_filter.1 hy).1, rfl⟩)
    · rcases List.mem_append.1 hy with hy | hy
      · exact .inl (.inr ⟨y, hy, rfl⟩)
      · obtain ⟨z, hz, rfl⟩ := List.mem_map.1 hy
        exact .inl (.inl ⟨z, (List.mem_filter.1 hz).1, rfl⟩)
  | _ => exact keep (.inl rfl) rfl

theorem RaftNode.call_readNumbers (hc : n.call c = some n') (hx : x ∈ n'.readNumbers) :
    x ∈ n.readNumbers ∨ c = .readIndex x := by
  have hmoves := call_moves hc
  clear hc
  induction hmoves with
  | refl => exact .inl hx
  | tail _ hm ih => exact (hm.readNumbers hx).elim ih .inr

theorem RaftNode.new_pendingReads {cfg : Config} {p : Persisted} (h : new cfg voters p = some n') :
    n'.pendingReads = [] := by
  obtain ⟨log, -, rfl⟩ := Option.map_eq_some_iff.1 h
  rfl

/-- The reads of node `i` have numbers below `b`. -/
structure NumbersBelow (b : Nat) (i : NodeId) (s : Cluster) : Prop where
  pending : ∀ x ∈ (s.host i).raft.pendingReads, x.2.1 < b
  handed : ∀ x ∈ s.reads, x.1 = i → x.2.1 < b

theorem NumbersBelow.mono {b' : Nat} (h : NumbersBelow b i s) (hle : b ≤ b') : NumbersBelow b' i s :=
  ⟨fun x hx => Nat.lt_of_lt_of_le (h.pending x hx) hle, fun x hx hi => Nat.lt_of_lt_of_le (h.handed x hx hi) hle⟩

/-- A number is new only if a `read_index` brings it. -/
theorem NumbersBelow.exec (h : NumbersBelow b i s) (hd : ∀ j, (s.host j).raft.out = {})
    (ha : ∀ r, a = .call i (.readIndex r) → r < b) (he : s.exec voters a = some t) : NumbersBelow b i t := by
  cases Cluster.exec_some he with
  | @call j c n' hdel hc =>
    -- the node's own numbers
    have hnum : j = i → ∀ x ∈ n'.readNumbers, x < b := by
      rintro rfl x hx
      rcases call_readNumbers hc hx with hx | rfl
      · rcases mem_readNumbers.1 hx with ⟨y, hy, rfl⟩ | ⟨y, hy, rfl⟩
        · exact h.pending y hy
        · rw [hd j] at hy; cases hy
      · exact ha x rfl
    refine ⟨fun x hx => ?_, fun x hx hi => ?_⟩
    · by_cases hj : i = j
      · subst hj
        rw [show ((s.flush i n').host i).raft = n'.takeOutput.2 by simp [Cluster.flush, Cluster.flushTo]] at hx
        exact hnum rfl _ (mem_readNumbers.2 (.inl ⟨x, hx, rfl⟩))
      · rw [show (s.flush j n').host i = s.host i from Function.update_of_ne hj ..] at hx
        exact h.pending x hx
    · rcases List.mem_append.1 hx with hx | hx
      · exact h.handed x hx hi
      · obtain ⟨y, hy, rfl⟩ := List.mem_map.1 hx
        exact hnum hi _ (mem_readNumbers.2 (.inr ⟨y, hy, rfl⟩))
  | idle => exact h
  | @compact j applied data snap n' hc =>
    obtain ⟨_, _, term, _, rfl, rfl⟩ := compact_some hc
    refine ⟨fun x hx => h.pending x ?_, h.handed⟩
    simp only [Cluster.compacted, Function.update_apply] at hx
    split at hx
    · rename_i hj
      exact hj ▸ hx
    · exact hx
  | @restart j cfg n' hn =>
    refine ⟨fun x hx => h.pending x ?_, h.handed⟩
    simp only [Cluster.restarted, Function.update_apply] at hx
    split at hx
    · rw [new_pendingReads hn] at hx; cases hx
    · exact hx

end RaftKv

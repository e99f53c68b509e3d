import RaftKv.Raft.Commits
import RaftKv.Raft.ReadContexts

/-!
# Linearizable reads

`read_index` (`node.rs:407`) notes the commit index under a fresh context number, sends the number
with every `AppendEntries`, and hands the noted index out once a quorum has echoed that number or a
later one (`process_read_acks`, `node.rs:440`).

The number is a bare counter that starts at 0 in every term (`become_leader`, `node.rs:328`), and an
`AppendEntries` of an old term is answered in the current term of the receiver, old number included
(`node.rs:612-627`). A node that leads a second time counts such an answer as an echo of its new
numbers: `staleEcho_stale_read`. Apart from those answers the protocol is right: `read_never_stale`
is proved for every run in which no such answer raises a recorded echo.

| here | there |
| --- | --- |
| `Awaited`    | the reading node, from one `read_index` call on |
| `EchoedLate` | the answers on their way to it |
| `AwaitInv`   | the cluster, from that call on |
-/

namespace RaftKv

open RaftNode Function

variable {voters : List NodeId} {hv : voters.Nodup} {g g' g₀ : Ghost} {s s' t : Cluster}
  {rec : Snapshot → List Entry → Prop} {D : Entry → Prop} {i j : NodeId} {n n' n₀ : RaftNode}
  {base base' : List Entry} {c : Call}

/-! ## One read

From here on a state is fixed: the one in which `read_index r` is called on node `i`, the leader of
`T₀`. `g₀` is its ledger, `del` what had been delivered and `c₀` the context number the call takes. -/

/-- The contexts of term `T` that were given out after the call. -/
def since (T₀ c₀ T : Nat) : Nat := if T = T₀ then c₀ else 1

/-- `k` reaches everything delivered before the call, if a majority had not moved past `T` then. -/
def Safe (voters : List NodeId) (g₀ : Ghost) (del : List Delivery) (T k : Nat) : Prop :=
  ∀ Q, IsMajority voters Q → (∀ v ∈ Q, g₀.led.term v ≤ T) → ∀ d ∈ del, d.entry.index ≤ k

/-- What holds of the reading node from the call on. -/
structure Awaited (voters : List NodeId) (g₀ : Ghost) (del : List Delivery) (T₀ c₀ r : Nat) (n : RaftNode) :
    Prop where
  counted : n.role = .leader → n.hs.term = T₀ → c₀ ≤ n.readCtxCounter + 1
  acked : n.role = .leader → ∀ {v pr}, n.prs.find? v = some pr → since T₀ c₀ n.hs.term ≤ pr.ackedReadCtx →
    g₀.led.term v ≤ n.hs.term
  pending : n.role = .leader → ∀ x ∈ n.pendingReads, x.2.1 = r →
    since T₀ c₀ n.hs.term ≤ x.1 ∧ Safe voters g₀ del n.hs.term x.2.2
  released : ∀ x ∈ n.out.readStates, x.1 = r → ∀ d ∈ del, d.entry.index ≤ x.2

/-- Echoes of contexts given out after the call come from nodes that had not moved past the term. -/
def EchoedLate (g₀ : Ghost) (T₀ c₀ : Nat) (i : NodeId) (net : List Message) : Prop :=
  ∀ {m ctx}, m ∈ net → Echo m ctx → m.dst = i → T₀ ≤ m.term → since T₀ c₀ m.term ≤ ctx →
    g₀.led.term m.src ≤ m.term

/-- Why the condition in `read_index` on the commit index suffices: with it, the leader has committed
everything of its own and of earlier terms. -/
theorem Local.safe_commit (h : Local voters hv g rec D i n base) (hp : Plain g) (hr : n.role = .leader)
    (ht : n.log.term n.commit = some n.hs.term) (hle : g₀.Le g) (hs₀ : Ledger.Sound (raftRules voters hv) g₀.led)
    {del : List Delivery} (hdel : ∀ d ∈ del, DeliveredOk voters hv g₀ d.term d.entry) :
    Safe voters g₀ del n.hs.term n.commit := by
  intro Q hQ hlow d hd
  obtain ⟨p, hann, hidx⟩ := hdel d hd
  obtain ⟨r, hrt, hl, hdone, _⟩ := h.role.leader hr
  rcases hann with hnil | ⟨b, m, x, _, hC, hpm, hmb⟩
  · simp at hnil
  · have hlen : d.entry.index ≤ m.length := by
      have := hpm.length_le
      rw [List.length_append, List.length_singleton] at this
      omega
    refine le_trans hlen ?_
    have hC' := hle.ext.committed hC
    rcases Nat.lt_trichotomy b n.hs.term with hb | rfl | hb
    · exact h.earlier_committed hr ht hC' hb
    · exact le_trans hmb (le_trans (hle.done _) hdone)
    · -- a later leader's quorum had moved on
      obtain ⟨r', Q', hr', hx, _, _, _, hQ', hack⟩ := hC
      have hconf : confOf voters x = voters := by
        obtain ⟨r'', hr'', _, _, hrr⟩ := hle.ext.reign hr'
        refine confOf_of_no_conf (List.countP_eq_zero.2 fun e he => ?_)
        rw [hp hr'' e (hrr.subset (hx.subset he))]; simp
      have hQ'' : IsMajority voters Q' := by rw [← hconf]; exact hQ'
      obtain ⟨v, hv₁, hv₂⟩ := hQ.meet_self hQ''
      obtain ⟨m', hm', _⟩ := hack v hv₂
      have := (hs₀.ack_reign hm').1
      have := hlow v hv₁
      omega

/-- A released context was confirmed by a majority: by its echoes, or by the node alone. -/
theorem Local.release_majority (h : Local voters hv g rec D i n base) (hp : Plain g) (hvot : i ∈ voters) {ctx : Nat}
    (hctx : (n.quorum = 1 ∧ ctx = n.readCtxCounter) ∨
      (0 < ctx ∧ (n.readAcks.insertionSort (· ≥ ·))[n.quorum - 1]? = some ctx)) :
    ∃ Q, IsMajority voters Q ∧ ∀ v ∈ Q, v = i ∨ ∃ pr, n.prs.find? v = some pr ∧ ctx ≤ pr.ackedReadCtx := by
  have hfix := h.voters_fixed hp
  rcases hctx with ⟨hq, _⟩ | ⟨hpos, hkth⟩
  · refine ⟨{i}, ⟨fun v hv' => ?_, ?_⟩, fun v hv' => Or.inl (Finset.mem_singleton.1 hv')⟩
    · rw [Finset.mem_singleton.1 hv']; exact hvot
    · rw [← hfix]; exact le_of_eq hq
  · have hnodup : n.voters.Nodup := by rw [hfix]; exact hv
    have hmaj := isMajority_of_kth hnodup _ hkth
    rw [hfix] at hmaj
    refine ⟨_, hmaj, fun v hv' => ?_⟩
    obtain ⟨_, hle⟩ := Finset.mem_filter.1 hv'
    by_cases hvi : v = n.cfg.id
    · exact Or.inl (hvi.trans h.id)
    · rw [if_neg hvi] at hle
      cases hpr : n.prs.find? v with
      | none => rw [hpr] at hle; simp at hle; omega
      | some pr => rw [hpr] at hle; exact Or.inr ⟨pr, rfl, hle⟩

section one
variable {del : List Delivery} {T₀ c₀ r : Nat} {r₀ : Reign NodeId Entry}
  (hs₀ : Ledger.Sound (raftRules voters hv) g₀.led) (hr₀ : g₀.led.reign T₀ = some r₀) (hl₀ : r₀.leader = i)
  (ht₀ : g₀.led.term i = T₀) (hc₀ : 0 < c₀) (hd₀ : ∀ d ∈ del, DeliveredOk voters hv g₀ d.term d.entry)

theorem since_pos (hc₀ : 0 < c₀) (T₀ T : Nat) : 0 < since T₀ c₀ T := by
  unfold since
  split
  · exact hc₀
  · exact Nat.one_pos

include hs₀ hr₀ hl₀ ht₀ hc₀ hd₀ in
theorem Awaited.move (h : Awaited voters g₀ del T₀ c₀ r n) (hle : g₀.Le g)
    (hl : Local voters hv g rec D i n base) (hp : Plain g) {wire net : List Message} (ha : Asked voters wire i n)
    (hlate : EchoedLate g₀ T₀ c₀ i net) (hnet : ∀ m, c = .step m → m ∈ net ∧ m.dst = i)
    (hne : ∀ m mi ctx pr, c = .step m → m.body = .appendEntriesResp false mi 0 ctx → n₀.role = .leader →
      m.term = n₀.hs.term → n₀.prs.find? m.src = some pr → ctx ≤ pr.ackedReadCtx)
    (hm : ReadMove c n₀ n n') : Awaited voters g₀ del T₀ c₀ r n' := by
  have hterm : T₀ ≤ n.hs.term := by
    rw [← hl.core.term_eq, ← ht₀]; exact hle.ext.term i
  cases hm with
  | quiet hr ht hprs hpend hc hrs _ =>
    refine ⟨?_, ?_, ?_, ?_⟩
    · rw [hr, ht, hc]; exact h.counted
    · rw [hr, ht, hprs]; exact h.acked
    · rw [hr, ht, hpend]; exact h.pending
    · rw [hrs]; exact h.released
  | leave hr _ hrs _ =>
    exact ⟨fun h' => absurd h' hr, fun h' => absurd h' hr, fun h' => absurd h' hr, by rw [hrs]; exact h.released⟩
  | win hr =>
    -- a node does not win the term it already led
    have hne₀ : n.hs.term ≠ T₀ := by
      intro heq
      obtain ⟨r', hr', hl', _⟩ := hle.ext.reign hr₀
      exact (hl.role.cand hr).2.1 (by rw [heq]; exact hr') (hl'.trans hl₀)
    refine ⟨fun _ heq => absurd heq hne₀, fun _ {v pr} hpr hsince => ?_, fun _ x hx => (by cases hx), h.released⟩
    have hpos := since_pos hc₀ T₀ n.win.hs.term
    rw [win_prs hpr] at hsince
    exact absurd (lt_of_lt_of_le hpos hsince) (lt_irrefl 0)
  | progress hprs =>
    refine ⟨h.counted, fun hr {v pr'} hpr' hsince => ?_, h.pending, h.released⟩
    rcases hprs hpr' with h0 | ⟨pr, hpr, heq⟩ | ⟨m, ok, mi, ci, ctx, pr, hc, hn, hrole, ht, rfl, hb, hpr, heq⟩
    · have hpos := since_pos hc₀ T₀ n.hs.term
      rw [h0] at hsince
      exact absurd (lt_of_lt_of_le hpos hsince) (lt_irrefl 0)
    · rw [heq] at hsince; exact h.acked hr hpr hsince
    · rw [heq] at hsince
      by_cases hold : since T₀ c₀ n.hs.term ≤ pr.ackedReadCtx
      · exact h.acked hr hpr hold
      · have hctx : since T₀ c₀ n.hs.term ≤ ctx := (le_max_iff.1 hsince).resolve_left hold
        obtain ⟨hmem, hdst⟩ := hnet m hc
        by_cases hci : ok = true ∨ 0 < ci
        · rw [← ht] at hterm hctx ⊢
          exact hlate hmem ⟨ok, mi, ci, hb, hci⟩ hdst hterm hctx
        · obtain ⟨rfl, rfl⟩ : ok = false ∧ ci = 0 := by simpa using hci
          subst hn
          exact absurd (le_trans hctx (hne m mi ctx pr hc hb hrole ht hpr)) hold
  | register _ _ hr ht =>
    refine ⟨fun hr heq => Nat.le_succ_of_le (h.counted hr heq), h.acked, fun _ x hx hxr => ?_, h.released⟩
    rcases List.mem_append.1 hx with hx | hx
    · exact h.pending hr x hx hxr
    · obtain rfl := List.mem_singleton.1 hx
      refine ⟨?_, hl.safe_commit hp hr ht hle hs₀ hd₀⟩
      show since T₀ c₀ n.hs.term ≤ n.readCtxCounter + 1
      unfold since
      split
      · rename_i heq
        exact h.counted hr heq
      · omega
  | @release ctx hr hctx =>
    refine ⟨h.counted, h.acked, fun _ x hx hxr => h.pending hr x (List.mem_filter.1 hx).1 hxr, fun x hx hxr => ?_⟩
    rcases List.mem_append.1 hx with hx | hx
    · exact h.released x hx hxr
    · obtain ⟨y, hy, rfl⟩ := List.mem_map.1 hx
      obtain ⟨hy, hyc⟩ := List.mem_filter.1 hy
      have hyc : y.1 ≤ ctx := by simpa using hyc
      obtain ⟨hsince, hsafe⟩ := h.pending hr y hy hxr
      obtain ⟨Q, hQ, hconf⟩ := hl.release_majority hp (ha.voter (by rw [hr]; simp)) hctx
      refine hsafe Q hQ fun v hv' => ?_
      rcases hconf v hv' with rfl | ⟨pr, hpr, hle'⟩
      · rw [ht₀]; exact hterm
      · exact h.acked hr hpr (le_trans hsince (le_trans hyc hle'))
  | push _ => exact ⟨h.counted, h.acked, h.pending, h.released⟩

structure AwaitInv (voters : List NodeId) (g₀ : Ghost) (del : List Delivery) (T₀ c₀ r : Nat) (i : NodeId)
    (len : Nat) (g : Ghost) (s : Cluster) : Prop where
  le : g₀.Le g
  node : Awaited voters g₀ del T₀ c₀ r (s.host i).raft
  late : EchoedLate g₀ T₀ c₀ i s.net
  grown : len ≤ s.reads.length
  reads : ∀ x ∈ s.reads.drop len, x.1 = i → x.2.1 = r → ∀ d ∈ del, d.entry.index ≤ x.2.2

include hs₀ hr₀ hl₀ ht₀ hc₀ hd₀ in
theorem AwaitInv.call {len : Nat} (h : AwaitInv voters g₀ del T₀ c₀ r i len g s) (hinv : Inv voters hv g s)
    (hread : ReadInv voters g s) (hdel : s.deliverable j c = true) (hfix : ¬ c.changesConf)
    (hne : NoStaleEcho s (.call j c)) (hc : (s.host j).raft.call c = some n') :
    ∃ g', Inv voters hv g' (s.flush j n') ∧ ReadInv voters g' (s.flush j n') ∧
      AwaitInv voters g₀ del T₀ c₀ r i len g' (s.flush j n') := by
  -- besides the reading node, what matters is who answers
  let P (_ : Ghost) (n : RaftNode) : Prop := (j = i → Awaited voters g₀ del T₀ c₀ r n) ∧
    ∀ {m ctx}, m ∈ n.out.messages → Echo m ctx → g₀.led.term m.src ≤ m.term
  have hstart : P g (s.host j).raft := by
    refine ⟨fun hj => ?_, fun hm => ?_⟩
    · subst hj; exact h.node
    · rw [hinv.drained j] at hm; cases hm
  have hstep : ∀ ⦃g₁ g₂ n₁ n₂ base₁⦄, g.Le g₁ → g₁.Le g₂ →
      Local voters hv g₁ s.Recorded s.Delivered j n₁ base₁ → Plain g₁ →
      Asked voters (s.net ++ n₁.out.messages) j n₁ → ReadMove c (s.host j).raft n₁ n₂ → P g₁ n₁ → P g₂ n₂ := by
    intro g₁ g₂ n₁ n₂ base₁ hle₁ hle₂ hl hp ha hm ⟨hnode, hout⟩
    refine ⟨fun hj => ?_, fun {m ctx} hmem he => ?_⟩
    · subst hj
      refine (hnode rfl).move hs₀ hr₀ hl₀ ht₀ hc₀ hd₀ (h.le.trans hle₁) hl hp ha h.late ?_ ?_ hm
      · rintro m rfl
        exact (Cluster.deliverable_step hdel).symm
      · rintro m mi ctx pr rfl hb hr ht hpr
        exact hne mi ctx pr hb hr ht hpr
    · cases hm with
      | quiet _ _ _ _ _ _ hms => rw [hms] at hmem; exact hout hmem he
      | leave _ _ _ hms => rw [hms] at hmem; exact hout hmem he
      | win _ => exact hout hmem he
      | progress _ => exact hout hmem he
      | register _ _ _ _ => exact hout hmem he
      | release _ _ => exact hout hmem he
      | push hsay =>
        rcases List.mem_append.1 hmem with hmem | hmem
        · exact hout hmem he
        · -- whoever answers now is still in the term of its answer
          obtain rfl := List.mem_singleton.1 hmem
          rw [(hsay.echo he).1, hsay.1, hl.id, ← hl.core.term_eq]
          exact (h.le.trans hle₁).ext.term j
  obtain ⟨g', hle, hinv', hread', hnode, hout⟩ := hread.call hinv hdel hfix hne hc hstart hstep
  refine ⟨g', hinv', hread', h.le.trans hle, ?_, fun {m ctx} hm he hdst ht hctx => ?_, ?_, fun x hx => ?_⟩
  · by_cases hj : i = j
    · subst hj
      rw [show ((s.flush i n').host i).raft = n'.takeOutput.2 by simp [Cluster.flush, Cluster.flushTo]]
      have ha := hnode rfl
      exact ⟨ha.counted, ha.acked, ha.pending, fun x hx => (by cases hx)⟩
    · rw [show (s.flush j n').host i = s.host i from update_of_ne hj ..]
      exact h.node
  · rcases List.mem_append.1 hm with hm | hm
    · exact h.late hm he hdst ht hctx
    · exact hout hm he
  · exact le_trans h.grown (by simp [Cluster.flush, Cluster.flushTo])
  · rw [show (s.flush j n').reads = s.reads ++ n'.out.readStates.map fun r => (j, r.1, r.2) from rfl,
      List.drop_append_of_le_length h.grown] at hx
    rcases List.mem_append.1 hx with hx | hx
    · exact h.reads x hx
    · obtain ⟨y, hy, rfl⟩ := List.mem_map.1 hx
      exact fun hj => (hnode hj).released y hy

include hs₀ hr₀ hl₀ ht₀ hc₀ hd₀ in
theorem AwaitInv.exec {len : Nat} {a : Action} (h : AwaitInv voters g₀ del T₀ c₀ r i len g s)
    (hinv : Inv voters hv g s) (hread : ReadInv voters g s) (hok : ReadStep s a) (he : s.exec voters a = some t) :
    ∃ g', Inv voters hv g' t ∧ ReadInv voters g' t ∧ AwaitInv voters g₀ del T₀ c₀ r i len g' t := by
  cases Cluster.exec_some he with
  | call hdel hc => exact h.call hs₀ hr₀ hl₀ ht₀ hc₀ hd₀ hinv hread hdel hok.1.call hok.2 hc
  | idle => exact ⟨g, hinv, hread, h⟩
  | @compact j applied data snap n' hc =>
    refine ⟨g, hinv.compact hc, hread.compact hc, h.le, ?_, h.late, h.grown, h.reads⟩
    obtain ⟨_, _, term, _, rfl, rfl⟩ := compact_some hc
    by_cases hj : i = j
    · subst hj
      rw [show (s.compacted i applied _ _).host i = _ from update_self ..]
      exact ⟨h.node.counted, h.node.acked, h.node.pending, h.node.released⟩
    · rw [show (s.compacted j applied _ _).host i = s.host i from update_of_ne hj ..]
      exact h.node
  | @restart j cfg n' hn =>
    obtain ⟨hrole, hout⟩ := new_some hn
    refine ⟨g, hinv.restart rfl hn, hread.restart hrole, h.le, ?_, h.late, h.grown, h.reads⟩
    by_cases hj : i = j
    · subst hj
      rw [show (s.restarted i n').host i = { s.host i with raft := n' } from update_self ..]
      refine ⟨fun h' => ?_, fun h' => ?_, fun h' => ?_, fun x hx => ?_⟩
      · rw [hrole] at h'; cases h'
      · rw [hrole] at h'; cases h'
      · rw [hrole] at h'; cases h'
      · rw [hout] at hx; cases hx
    · rw [show (s.restarted j n').host i = s.host i from update_of_ne hj ..]
      exact h.node

end one

/-! ## Reads are never stale -/

theorem RaftNode.readIndex_ok {r : Nat} (h : (n.readIndex r).1 = .ok ()) : n.role = .leader := by
  by_contra hr
  rw [readIndex, if_pos hr] at h
  cases h

/-- The state in which a leader is asked. -/
theorem AwaitInv.start (hinv : Inv voters hv g s) (hread : ReadInv voters g s) {r : Nat}
    (hr : (s.host i).raft.role = .leader) (hnew : ∀ x ∈ (s.host i).raft.pendingReads, x.2.1 ≠ r) :
    AwaitInv voters g s.delivered (s.host i).raft.hs.term ((s.host i).raft.readCtxCounter + 1) r i
      s.reads.length g s := by
  have hl := hinv.locals i
  have ha := hread.asked i
  refine ⟨Ghost.Le.refl g, ⟨fun _ _ => le_refl _, fun _ {v pr} hpr hsince => ?_, fun _ x hx hxr => ?_,
    fun x hx => ?_⟩, fun {m ctx} hm he hdst ht hsince => ?_, le_refl _, fun x hx => ?_⟩
  · have := ha.acked hr hpr
    rw [since, if_pos rfl] at hsince
    omega
  · exact absurd hxr (hnew x hx)
  · rw [hinv.drained i] at hx; cases hx
  · -- nothing in flight to the leader can echo a context that it has not given out yet
    obtain ⟨r', hr', hlead⟩ := hread.answered hm he
    have hterm := (hl.shared.sound.cand_term (hl.shared.sound.reign_cand hr')).2
    rw [hlead, hdst, hl.core.term_eq] at hterm
    have heq : m.term = (s.host i).raft.hs.term := le_antisymm hterm ht
    have := ha.echoed hr hm he hdst heq
    rw [since, if_pos heq] at hsince
    omega
  · rw [List.drop_length] at hx; cases hx

/-- A read that `read_index` accepts and that is handed out later reaches everything that any node
had delivered before the call. -/
theorem read_never_stale (cfg : NodeId → Config) (voters : List NodeId) (hv : voters.Nodup) {s s₁ t : Cluster}
    {i r idx : Nat} (hs : Run voters ReadStep (Cluster.init cfg voters) s)
    (hok : ((s.host i).raft.readIndex r).1 = .ok ()) (hnew : ∀ x ∈ (s.host i).raft.pendingReads, x.2.1 ≠ r)
    (hcall : s.exec voters (.call i (.readIndex r)) = some s₁) (ht : Run voters ReadStep s₁ t)
    (hread : (i, r, idx) ∈ t.reads.drop s.reads.length) : ∀ d ∈ s.delivered, d.entry.index ≤ idx := by
  obtain ⟨g, hinv, hri⟩ := ReadInv.run hv cfg hs
  have hr := readIndex_ok hok
  have hl := hinv.locals i
  obtain ⟨r₀, hr₀, hl₀, _⟩ := hl.role.leader hr
  have hrun : Run voters ReadStep s t := (Runs.tail .refl ⟨trivial, trivial⟩ hcall).trans ht
  obtain ⟨g', _, _, hawait⟩ := hrun.invariant
    (P := fun t => ∃ g', Inv voters hv g' t ∧ ReadInv voters g' t ∧
      AwaitInv voters g s.delivered (s.host i).raft.hs.term ((s.host i).raft.readCtxCounter + 1) r i
        s.reads.length g' t)
    ⟨g, hinv, hri, AwaitInv.start hinv hri hr hnew⟩
    fun ⟨_, hinv', hri', h⟩ hstep he =>
      h.exec hl.shared.sound hr₀ hl₀ hl.core.term_eq (Nat.succ_pos _) hinv.delivered hinv' hri' hstep he
  exact hawait.reads _ hread rfl rfl

/-- A healthy round: the follower echoes the context of the read and index 1 is handed out. -/
theorem read_never_stale_round :
    ∃ s s₁ t, Run [1, 2, 3] ReadStep (Cluster.init Config.quick [1, 2, 3]) s ∧
      s.exec [1, 2, 3] (.call 1 (.readIndex 5)) = some s₁ ∧ Run [1, 2, 3] ReadStep s₁ t ∧
      (1, 5, 1) ∈ t.reads.drop s.reads.length ∧ ∀ d ∈ s.delivered, d.entry.index ≤ 1 := by
  let rest : List Action := [.deliver 1 2 1 (.appendEntries 1 1 [] 1 1),
    .deliver 2 1 1 (.appendEntriesResp true 1 0 1)]
  obtain ⟨s, hs, hok, hnew, hrest⟩ := Run.reached [1, 2, 3] ReadStep (Cluster.init Config.quick [1, 2, 3])
    Action.firstCommit
    (P := fun s => ((s.host 1).raft.readIndex 5).1.isOk = true ∧
      (∀ x ∈ (s.host 1).raft.pendingReads, x.2.1 ≠ 5) ∧
      ((s.exec [1, 2, 3] (.call 1 (.readIndex 5))).any fun s₁ => (s₁.execAll [1, 2, 3] rest).any fun t =>
        decide ((1, 5, 1) ∈ t.reads.drop s.reads.length)) = true)
    (by decide +kernel) fun s a ha =>
      ReadStep.of_not_rejects ((by decide : ∀ a ∈ Action.firstCommit, a.fixed ∧ a.rejects = false) a ha)
  obtain ⟨s₁, hcall, hrest⟩ := (Option.any_eq_true _ _).1 hrest
  obtain ⟨t, ht, hmem⟩ := (Option.any_eq_true _ _).1 hrest
  have hrun : Run [1, 2, 3] ReadStep s₁ t :=
    Run.of_execAll ht fun s a ha =>
      ReadStep.of_not_rejects ((by decide : ∀ a ∈ rest, a.fixed ∧ a.rejects = false) a ha)
  have hok' : ((s.host 1).raft.readIndex 5).1 = .ok () := by
    revert hok
    cases ((s.host 1).raft.readIndex 5).1 with
    | error e => intro h; cases h
    | ok _ => exact fun _ => rfl
  have hmem' := of_decide_eq_true hmem
  exact ⟨s, s₁, t, hs, hcall, hrun, hmem',
    read_never_stale Config.quick [1, 2, 3] (by decide) hs hok' hnew hcall hrun hmem'⟩

/-- Node 1 leads term 1 and sends context 1, which node 3 receives late. It leads again in term 3,
and node 3's answer to the old request counts as an echo of context 1 of that term. Node 2 then
leads term 4 and commits index 3 with node 3. -/
def staleEcho : List Action :=
  let e (term index : Nat) : Entry := { term, index, payload := .noop }
  Action.firstCommit ++
  [.deliver 1 3 1 (.appendEntries 0 0 [e 1 1] 0 0), .call 1 (.readIndex 7),
   .call 3 .tick, .ask 3 1 2 1 1,
   .call 1 .tick, .ask 1 2 3 1 1, .ask 1 3 3 1 1, .grant 2 1 3,
   .deliver 1 2 3 (.appendEntries 1 1 [e 3 2] 1 0), .deliver 1 3 3 (.appendEntries 1 1 [e 3 2] 1 0),
   .deliver 2 1 3 (.appendEntriesResp true 2 0 0),
   .deliver 1 3 1 (.appendEntries 1 1 [] 1 1), .deliver 3 1 3 (.appendEntriesResp false 0 0 1),
   .call 2 .tick, .ask 2 3 4 2 3, .grant 3 2 4,
   .deliver 2 3 4 (.appendEntries 2 3 [e 4 3] 1 0), .deliver 3 2 4 (.appendEntriesResp true 3 0 0)]

/-- Node 1, asked after that, hands out index 2 on a delayed answer of its own term. -/
theorem staleEcho_stale_read :
    ∃ s s₁ t, Run [1, 2, 3] (fun _ a => a.fixed) (Cluster.init Config.quick [1, 2, 3]) s ∧
      ((s.host 1).raft.readIndex 9).1.isOk = true ∧ (∀ x ∈ (s.host 1).raft.pendingReads, x.2.1 ≠ 9) ∧
      s.exec [1, 2, 3] (.call 1 (.readIndex 9)) = some s₁ ∧ Run [1, 2, 3] (fun _ a => a.fixed) s₁ t ∧
      (1, 9, 2) ∈ t.reads.drop s.reads.length ∧ ∃ d ∈ s.delivered, d.entry.index = 3 := by
  let rest : List Action := [.deliver 2 1 3 (.appendEntriesResp true 2 0 0)]
  obtain ⟨s, hs, hok, hnew, hdel, hrest⟩ := Run.reached [1, 2, 3] (fun _ a => a.fixed)
    (Cluster.init Config.quick [1, 2, 3]) staleEcho
    (P := fun s => ((s.host 1).raft.readIndex 9).1.isOk = true ∧
      (∀ x ∈ (s.host 1).raft.pendingReads, x.2.1 ≠ 9) ∧ (∃ d ∈ s.delivered, d.entry.index = 3) ∧
      ((s.exec [1, 2, 3] (.call 1 (.readIndex 9))).any fun s₁ => (s₁.execAll [1, 2, 3] rest).any fun t =>
        decide ((1, 9, 2) ∈ t.reads.drop s.reads.length)) = true)
    (by decide +kernel) fun s a ha => (by decide : ∀ a ∈ staleEcho, a.fixed) a ha
  obtain ⟨s₁, hcall, hrest⟩ := (Option.any_eq_true _ _).1 hrest
  obtain ⟨t, ht, hmem⟩ := (Option.any_eq_true _ _).1 hrest
  exact ⟨s, s₁, t, hs, hok, hnew, hcall,
    Run.of_execAll ht fun s a ha => (by decide : ∀ a ∈ rest, a.fixed) a ha, of_decide_eq_true hmem, hdel⟩

end RaftKv

import Mathlib.Data.Finset.Basic
import Mathlib.Data.List.Infix

/-!
# Ledgers: logs grown under terms, votes and acknowledgements

The mathematics of leader-based log replication with one configuration change at a time, over any
type `N` of participants and `E` of entries. A `Ledger` is a history: what each participant has
voted for, acknowledged and led. `Ledger.Sound` collects the facts each protocol step keeps
(`LedgerSteps`); nothing in it speaks of commitment. From it follow

* `Sound.elected_complete`: whatever a quorum acknowledged in term `b` is a prefix of the log with
  which every later term was won (leader completeness);
* `Sound.backed_meets`: two winners of one term share a voter (election safety).

Both hold while configurations change, because an entry that changes the configuration is only
added by a leader that has already committed an entry of its own term over all earlier
configuration entries (`Sound.conf`). The arguments are about prefixes (`<+:`), never indexes.
-/

/-- The term of an entry, the entries that change the configuration, and the quorums of the
configuration a log prescribes. -/
structure Rules (N E : Type) where
  termOf : E → Nat
  isConf : E → Bool
  Quorum : List E → Finset N → Prop
  /-- Logs at most one configuration entry apart prescribe intersecting quorums. -/
  inter : ∀ {p x y : List E} {Q Q' : Finset N}, x.countP isConf + y.countP isConf ≤ 1 →
    Quorum (p ++ x) Q → Quorum (p ++ y) Q' → ∃ v, v ∈ Q ∧ v ∈ Q'

/-- What is recorded of the leader of a term: the log it won with, and that log as it has grown. -/
structure Reign (N E : Type) where
  leader : N
  elected : List E
  log : List E
  quorum : Finset N

structure Ledger (N E : Type) where
  term : N → Nat
  log : N → List E
  reign : Nat → Option (Reign N E)
  /-- The candidate a participant chose in a term, and the log it held when it did. -/
  vote : N → Nat → Option (N × List E)
  /-- The log with which a participant stands in a term. -/
  cand : Nat → N → Option (List E)
  /-- `ack v b m`: in term `b`, `v` held the prefix `m` of the leader's log. -/
  ack : N → Nat → List E → Prop

/-! ## Prefixes -/

variable {α : Type}

theorem exists_lcp : ∀ (a b : List α),
    ∃ p, p <+: a ∧ p <+: b ∧ ∀ q, q <+: a → q <+: b → q <+: p
  | [], b => ⟨[], List.nil_prefix, List.nil_prefix, fun q h _ => h⟩
  | _ :: _, [] => ⟨[], List.nil_prefix, List.nil_prefix, fun q _ h => h⟩
  | x :: a, y :: b => by
    by_cases hxy : x = y
    · subst hxy
      obtain ⟨p, hpa, hpb, hp⟩ := exists_lcp a b
      refine ⟨x :: p, List.cons_prefix_cons.2 ⟨rfl, hpa⟩, List.cons_prefix_cons.2 ⟨rfl, hpb⟩, ?_⟩
      intro q ha hb
      cases q with
      | nil => exact List.nil_prefix
      | cons z q =>
        obtain ⟨rfl, ha'⟩ := List.cons_prefix_cons.1 ha
        exact List.cons_prefix_cons.2 ⟨rfl, hp q ha' (List.cons_prefix_cons.1 hb).2⟩
    · refine ⟨[], List.nil_prefix, List.nil_prefix, fun q ha hb => ?_⟩
      cases q with
      | nil => exact List.nil_prefix
      | cons z q =>
        exact absurd ((List.cons_prefix_cons.1 ha).1.symm.trans (List.cons_prefix_cons.1 hb).1) hxy

/-- An element that satisfies `f` splits a list at its first occurrence. -/
theorem exists_first (f : α → Bool) : ∀ {l : List α}, l.countP f ≠ 0 →
    ∃ x a y, l = x ++ a :: y ∧ f a = true ∧ x.countP f = 0
  | [], h => by simp at h
  | b :: l, h => by
    by_cases hb : f b = true
    · exact ⟨[], b, l, rfl, hb, rfl⟩
    · rw [List.countP_cons_of_neg hb] at h
      obtain ⟨x, a, y, rfl, ha, hx⟩ := exists_first f h
      exact ⟨b :: x, a, y, rfl, ha, by rw [List.countP_cons_of_neg hb, hx]⟩

theorem not_concat_le {p a : List α} {j : α} (h : p <+: a) : ¬ a ++ [j] <+: p := by
  intro h'
  have h1 := h.length_le
  have h2 := h'.length_le
  simp at h2; omega

/-- Prefixes of two lists that also share a list do not both reach beyond the common prefix. -/
theorem prefix_lcp {p a b l q q' : List α} (hp : ∀ q, q <+: a → q <+: b → q <+: p)
    (hq : q <+: a) (hq' : q' <+: b) (hl : q <+: l) (hl' : q' <+: l) : q <+: p ∨ q' <+: p := by
  rcases List.prefix_or_prefix_of_prefix hl hl' with h | h
  · exact .inl (hp q hq (h.trans hq'))
  · exact .inr (hp q' (h.trans hq) hq')

/-- What precedes `j` is cut off by a tail without any `f`. -/
theorem prefix_of_tail {f : α → Bool} {q m z a : List α} {j : α} (hq : q = m ++ z)
    (hz : z.countP f = 0) (ha : a ++ [j] <+: q) (hj : f j = true) : a ++ [j] <+: m := by
  subst hq
  rcases List.prefix_or_prefix_of_prefix ha (List.prefix_append m z) with h | h
  · exact h
  · rcases List.prefix_concat_iff.1 h with rfl | ⟨y, rfl⟩
    · exact List.prefix_refl _
    · rw [List.append_assoc, List.prefix_append_right_inj] at ha
      exact absurd hj (List.countP_eq_zero.1 hz j (ha.subset (by simp)))

namespace Ledger

variable {N E : Type} (R : Rules N E)

def lastTerm (l : List E) : Nat := (l.getLast?.map R.termOf).getD 0

@[simp] theorem lastTerm_nil : lastTerm R [] = 0 := rfl

@[simp] theorem lastTerm_concat (l : List E) (e : E) : lastTerm R (l ++ [e]) = R.termOf e := by
  simp [lastTerm]

/-- The vote rule: `l` is at least as up to date as `l'`. -/
def UpToDate (l l' : List E) : Prop :=
  lastTerm R l' < lastTerm R l ∨ (lastTerm R l' = lastTerm R l ∧ l'.length ≤ l.length)

/-- Every prefix of `l` is a prefix of the log of the leader of its last term (log matching). -/
def Chain (h : Ledger N E) (l : List E) : Prop :=
  ∀ p e, p ++ [e] <+: l → ∃ r, h.reign (R.termOf e) = some r ∧ p ++ [e] <+: r.log

/-- `m` was lost to `v` only if some later leader, already in `P`, was elected without it. -/
def Kept (h : Ledger N E) (P : Nat → Prop) (l : List E) (v : N) (b : Nat) : Prop :=
  ∀ m m', h.ack v b m' → m <+: m' →
    m <+: l ∨ ∃ t r, b < t ∧ P t ∧ h.reign t = some r ∧ ¬ m <+: r.elected

/-- The leader of term `b` held `d` when a quorum of `d`'s configuration had acknowledged `m`,
which ends in an entry of term `b`. -/
def Committed (h : Ledger N E) (b : Nat) (m d : List E) : Prop :=
  ∃ r Q, h.reign b = some r ∧ d <+: r.log ∧ m <+: d ∧ m ≠ [] ∧ lastTerm R m = b ∧ R.Quorum d Q ∧
    ∀ v ∈ Q, ∃ m', h.ack v b m' ∧ m <+: m'

/-- `l` won term `T` with the votes of `Q`, as far as the history up to `P` tells. -/
structure Backed (h : Ledger N E) (P : Nat → Prop) (T : Nat) (l : List E) (Q : Finset N) : Prop where
  quorum : R.Quorum l Q
  chain : Chain R h l
  below : ∀ e ∈ l, R.termOf e < T
  kept : ∀ v ∈ Q, ∃ lv, Chain R h lv ∧ UpToDate R l lv ∧ ∀ b, b < T → Kept h P lv v b

/-- The invariant of every ledger grown by the steps of `LedgerSteps`. -/
structure Sound (h : Ledger N E) : Prop where
  log_chain : ∀ v, Chain R h (h.log v)
  log_le : ∀ v, ∀ e ∈ h.log v, R.termOf e ≤ h.term v
  cand_chain : ∀ {T c l}, h.cand T c = some l → Chain R h l ∧ ∀ e ∈ l, R.termOf e < T
  cand_term : ∀ {T c l}, h.cand T c = some l → 0 < T ∧ T ≤ h.term c
  cand_vote : ∀ {T c l}, h.cand T c = some l → ∃ lv, h.vote c T = some (c, lv)
  vote_term : ∀ {v T c lv}, h.vote v T = some (c, lv) → T ≤ h.term v
  vote_cand : ∀ {v T c lv}, h.vote v T = some (c, lv) →
    Chain R h lv ∧ ∃ l, h.cand T c = some l ∧ UpToDate R l lv
  vote_kept : ∀ {v T c lv}, h.vote v T = some (c, lv) → ∀ b, b < T → Kept h (· ≤ T) lv v b
  reign_cand : ∀ {T r}, h.reign T = some r → h.cand T r.leader = some r.elected
  reign_log : ∀ {T r}, h.reign T = some r → ∃ x, r.log = r.elected ++ x ∧ ∀ e ∈ x, R.termOf e = T
  reign_own : ∀ {T r}, h.reign T = some r → h.term r.leader = T → h.log r.leader = r.log
  reign_quorum : ∀ {T r}, h.reign T = some r → R.Quorum r.elected r.quorum ∧
    ∀ v ∈ r.quorum, ∃ lv, h.vote v T = some (r.leader, lv) ∧ ∀ b, b < T → Kept h (· < T) lv v b
  ack_reign : ∀ {v b m}, h.ack v b m → b ≤ h.term v ∧ ∃ r, h.reign b = some r ∧ m <+: r.log
  ack_kept : ∀ v b, Kept h (· ≤ h.term v) (h.log v) v b
  /-- An entry that changes the configuration follows a commitment of the same term that covers
  every earlier one. -/
  conf : ∀ {T r q e}, h.reign T = some r → q ++ [e] <+: r.log → R.isConf e = true → R.termOf e = T →
    ∃ m d z, Committed R h T m d ∧ d <+: q ∧ q = m ++ z ∧ z.countP R.isConf = 0

variable {R} {h : Ledger N E}

/-! ## Prefixes of sound logs -/

variable {l l' : List E}

theorem Chain.anti (hc : Chain R h l) (hp : l' <+: l) : Chain R h l' :=
  fun p e hpe => hc p e (hpe.trans hp)

/-- Log matching: chains that agree on the term at a position agree up to it. -/
theorem Chain.eq_of_term {a b : List E} (ha : Chain R h a) (hb : Chain R h b) (hlen : a.length = b.length)
    (ht : lastTerm R a = lastTerm R b) : a = b := by
  rcases List.eq_nil_or_concat a with rfl | ⟨p, e, rfl⟩
  · exact (List.length_eq_zero_iff.1 hlen.symm).symm
  · rcases List.eq_nil_or_concat b with rfl | ⟨q, x, rfl⟩
    · simp at hlen
    · simp only [List.concat_eq_append, lastTerm_concat] at *
      obtain ⟨r, hr, hpr⟩ := ha p e (List.prefix_refl _)
      obtain ⟨r', hr', hqr⟩ := hb q x (List.prefix_refl _)
      rw [← ht, hr] at hr'
      cases hr'
      exact (List.prefix_of_prefix_length_le hpr hqr (le_of_eq hlen)).eq_of_length hlen

namespace Sound

variable (hs : Sound R h)
include hs

variable {T b : Nat} {r : Reign N E} {p : List E} {e : E} {P : Nat → Prop} {Q : Finset N}

theorem reign_chain (hr : h.reign T = some r) : Chain R h r.log := by
  intro p e hpe
  obtain ⟨x, hx, hxT⟩ := hs.reign_log hr
  have hcand := (hs.cand_chain (hs.reign_cand hr)).1
  rcases List.prefix_or_prefix_of_prefix hpe ⟨x, hx.symm⟩ with hle | hle
  · exact hcand p e hle
  · rcases List.prefix_concat_iff.1 hle with heq | ⟨y, rfl⟩
    · exact hcand p e (by rw [heq])
    · have hyx : y ++ [e] <+: x := by
        rw [hx, List.append_assoc, List.prefix_append_right_inj] at hpe
        exact hpe
      have he : R.termOf e = T := hxT e (hyx.subset (by simp))
      exact ⟨r, by rw [he]; exact hr, hpe⟩

theorem reign_le (hr : h.reign T = some r) : ∀ e ∈ r.log, R.termOf e ≤ T := by
  intro e he
  obtain ⟨x, hx, hxT⟩ := hs.reign_log hr
  rw [hx, List.mem_append] at he
  rcases he with he | he
  · exact le_of_lt ((hs.cand_chain (hs.reign_cand hr)).2 e he)
  · exact le_of_eq (hxT e he)

/-- Terms never decrease along a log. -/
theorem chain_mono (hc : Chain R h l) (hpe : p ++ [e] <+: l) : ∀ a ∈ p, R.termOf a ≤ R.termOf e := by
  intro a ha
  obtain ⟨r, hr, hpr⟩ := hc p e hpe
  exact hs.reign_le hr a (hpr.subset (by simp [ha]))

theorem chain_pairwise (hc : Chain R h l) : l.Pairwise fun a b => R.termOf a ≤ R.termOf b := by
  induction l using List.reverseRecOn with
  | nil => exact List.Pairwise.nil
  | append_singleton l e ih =>
    rw [List.pairwise_append]
    refine ⟨ih (hc.anti (List.prefix_append l [e])), List.pairwise_singleton _ _, fun a ha b hb => ?_⟩
    rw [List.mem_singleton.1 hb]
    exact hs.chain_mono hc (List.prefix_refl _) a ha

/-- A log ending in term `t` contains what the leader of `t` was elected with. -/
theorem elected_le (hc : Chain R h l) (hpe : p ++ [e] <+: l)
    (hr : h.reign (R.termOf e) = some r) : r.elected <+: p := by
  obtain ⟨r', hr', hpr⟩ := hc p e hpe
  obtain rfl : r' = r := by rw [hr] at hr'; exact (Option.some.inj hr').symm
  obtain ⟨x, hx, _⟩ := hs.reign_log hr
  rcases List.prefix_or_prefix_of_prefix hpr ⟨x, hx.symm⟩ with hle | hle
  · have hlt := (hs.cand_chain (hs.reign_cand hr)).2 e (hle.subset (by simp))
    exact absurd rfl (Nat.ne_of_lt hlt)
  · rcases List.prefix_concat_iff.1 hle with heq | hle
    · have hlt := (hs.cand_chain (hs.reign_cand hr)).2 e (by rw [heq]; simp)
      exact absurd rfl (Nat.ne_of_lt hlt)
    · exact hle

theorem committed_pos {m d : List E} (hC : Committed R h b m d) : 0 < b := by
  obtain ⟨r, Q, hr, -⟩ := hC
  exact (hs.cand_term (hs.reign_cand hr)).1

/-! ## Leader completeness -/

/-- A shared voter carries what it acknowledged into the log it voted for. -/
theorem carry {m d : List E} (hB : Backed R h P T l Q) (hC : Committed R h b m d) (hb : b < T)
    (ih : ∀ {t r}, h.reign t = some r → t < T ∨ P t → b < t → m <+: r.elected) {v : N} (hv : v ∈ Q)
    (hack : ∃ m', h.ack v b m' ∧ m <+: m') : m <+: l := by
  have hb0 := hs.committed_pos hC
  obtain ⟨r, _, hr, hdr, hmd, hm0, hmb, _, _⟩ := hC
  obtain ⟨lv, hlv, hup, hkept⟩ := hB.kept v hv
  obtain ⟨m', hm', hmm'⟩ := hack
  -- the voter still had `m` when it voted
  have hmlv : m <+: lv := by
    rcases hkept b hb m m' hm' hmm' with hml | ⟨t, r', hbt, hPt, hr', hnot⟩
    · exact hml
    · exact absurd (ih hr' (.inr hPt) hbt) hnot
  obtain ⟨m0, em, rfl⟩ := (List.eq_nil_or_concat m).resolve_left hm0
  rw [List.concat_eq_append] at *
  rw [lastTerm_concat] at hmb
  obtain ⟨lv0, ev, rfl⟩ : ∃ lv0 ev, lv = lv0 ++ [ev] := by
    rcases List.eq_nil_or_concat lv with rfl | ⟨lv0, ev, rfl⟩
    · simp at hmlv
    · exact ⟨lv0, ev, List.concat_eq_append⟩
  have hbv : b ≤ R.termOf ev := by
    rcases List.prefix_concat_iff.1 hmlv with heq | hle
    · rw [← hmb, ← (List.append_inj' heq rfl).2 |> List.singleton_inj.1]
    · rw [← hmb]; exact hs.chain_mono hlv (List.prefix_refl _) em (hle.subset (by simp))
  obtain ⟨l0, el, rfl⟩ : ∃ l0 el, l = l0 ++ [el] := by
    rcases List.eq_nil_or_concat l with rfl | ⟨l0, el, rfl⟩
    · rcases hup with hup | hup
      · simp at hup
      · simp only [lastTerm_concat, lastTerm_nil] at hup; omega
    · exact ⟨l0, el, List.concat_eq_append⟩
  simp only [UpToDate, lastTerm_concat] at hup
  obtain ⟨rl, hrl, hlr⟩ := hB.chain l0 el (List.prefix_refl _)
  have hlT := hB.below el (by simp)
  rcases lt_or_ge b (R.termOf el) with hbl | hlb
  · -- the candidate's last entry is of a later term, whose leader already had `m`
    have hle := hs.elected_le hB.chain (List.prefix_refl _) hrl
    exact (ih hrl (.inl hlT) hbl).trans (hle.trans (List.prefix_append _ _))
  · -- both logs end in term `b`, so both are prefixes of its leader's log
    have hel : R.termOf el = b := by omega
    have hev : R.termOf ev = b := by omega
    obtain ⟨rv, hrv, hvr⟩ := hlv lv0 ev (List.prefix_refl _)
    rw [hel, hr] at hrl
    rw [hev, hr] at hrv
    cases hrl; cases hrv
    exact hmlv.trans (List.prefix_of_prefix_length_le hvr hlr (by omega))

/-- The first configuration entry beyond `p`, with the commitment made before it. -/
theorem first_conf {x : List E} (hc : Chain R h l) (hl : l = p ++ x) (hx : x.countP R.isConf ≠ 0) :
    ∃ q j r m d, q ++ [j] <+: l ∧ h.reign (R.termOf j) = some r ∧ q ++ [j] <+: r.log ∧
      Committed R h (R.termOf j) m d ∧ d <+: q ∧ ∃ y, q = p ++ y ∧ y.countP R.isConf = 0 := by
  obtain ⟨y, j, z, rfl, hj, hy⟩ := exists_first R.isConf hx
  have hq : (p ++ y) ++ [j] <+: l := ⟨z, by rw [hl]; simp⟩
  obtain ⟨r, hr, hqr⟩ := hc _ _ hq
  obtain ⟨m, d, _, hC, hd, _, _⟩ := hs.conf hr hqr hj rfl
  exact ⟨p ++ y, j, r, m, d, hq, hr, hqr, hC, hd, y, rfl, hy⟩

/-- A second configuration entry beyond `p`: the first one was committed before it. -/
theorem second_conf {x : List E} (hc : Chain R h l) (hl : l = p ++ x) (hx : 2 ≤ x.countP R.isConf) :
    ∃ a i q j r m d, p <+: a ∧ a ++ [i] <+: m ∧ q ++ [j] <+: l ∧ h.reign (R.termOf j) = some r ∧
      q ++ [j] <+: r.log ∧ Committed R h (R.termOf j) m d ∧ d <+: q ∧
      ∃ y, d = p ++ y ∧ y.countP R.isConf ≤ 1 := by
  obtain ⟨y, i, z, rfl, hi, hy⟩ := exists_first R.isConf (l := x) (by omega)
  rw [List.countP_append, List.countP_cons_of_pos hi] at hx
  obtain ⟨w, j, w', rfl, hj, hw⟩ := exists_first R.isConf (l := z) (by omega)
  have hq : (p ++ y ++ [i] ++ w) ++ [j] <+: l := ⟨w', by rw [hl]; simp⟩
  obtain ⟨r, hr, hqr⟩ := hc _ _ hq
  obtain ⟨m, d, u, hC, hd, hqm, hu⟩ := hs.conf hr hqr hj rfl
  have him : p ++ y ++ [i] <+: m := prefix_of_tail hqm hu (List.prefix_append _ _) hi
  refine ⟨p ++ y, i, _, j, r, m, d, List.prefix_append _ _, him, hq, hr, hqr, hC, hd, ?_⟩
  obtain ⟨_, _, _, _, hmd, _⟩ := hC
  obtain ⟨v, rfl⟩ : p <+: d := (List.prefix_append p (y ++ [i])).trans
    (by rw [← List.append_assoc]; exact him.trans hmd)
  refine ⟨v, rfl, ?_⟩
  have hv : v <+: y ++ [i] ++ w := by
    rw [List.append_assoc, List.append_assoc, List.prefix_append_right_inj, ← List.append_assoc] at hd
    exact hd
  calc v.countP R.isConf ≤ (y ++ [i] ++ w).countP R.isConf := hv.sublist.countP_le
    _ = 1 := by simp [hy, hw, hi]

/-- A commitment's last entry reaches beyond `p` if `p` only precedes entries of lower terms. -/
theorem committed_beyond {q m d : List E} (hc : Chain R h l) (hq : q ++ [e] <+: l)
    (hpq : p <+: q) (hC : Committed R h b m d) (he : R.termOf e < b) : ¬ m <+: p := by
  intro hmp
  obtain ⟨_, _, _, _, _, hm0, hmb, _⟩ := hC
  obtain ⟨m0, em, rfl⟩ := (List.eq_nil_or_concat m).resolve_left hm0
  rw [List.concat_eq_append] at *
  rw [lastTerm_concat] at hmb
  have := hs.chain_mono hc hq em (hpq.subset (hmp.subset (by simp)))
  omega

/-- One step of the induction: what holds of all earlier leaders holds of a log backed at `T`. -/
theorem backed_complete (hB : Backed R h P T l Q)
    (ih : ∀ {b m d t r}, Committed R h b m d → h.reign t = some r → t < T ∨ P t → b < t → m <+: r.elected)
    {m d : List E} (hC : Committed R h b m d) (hb : b < T) : m <+: l := by
  by_contra hnot
  obtain ⟨p, ⟨x, hx⟩, ⟨y, hy⟩, hp⟩ := exists_lcp l d
  have hmp : ¬ m <+: p := fun hmp => hnot (hmp.trans ⟨x, hx⟩)
  obtain ⟨rb, Qb, hrb, hdr, hmd, _, _, hQb, hacks⟩ := hC
  have hCb : Committed R h b m d := ⟨rb, Qb, hrb, hdr, hmd, ‹_›, ‹_›, hQb, hacks⟩
  have hdc : Chain R h d := (hs.reign_chain hrb).anti hdr
  have hmr : m <+: rb.log := hmd.trans hdr
  have helog : rb.elected <+: rb.log := by
    obtain ⟨w, hw, _⟩ := hs.reign_log hrb; exact ⟨w, hw.symm⟩
  -- the candidate is at most one configuration entry beyond `p`
  have hx1 : x.countP R.isConf ≤ 1 := by
    by_contra hx2
    obtain ⟨a, i, q, j, r, m', d', hpa, him, hq, hr, hqr, hC', hdq, _⟩ :=
      hs.second_conf hB.chain hx.symm (by omega)
    have hm'q : m' <+: q := by obtain ⟨_, _, _, _, hmd', _⟩ := hC'; exact hmd'.trans hdq
    have hm'l : m' <+: l := hm'q.trans ((List.prefix_append q [j]).trans hq)
    rcases Nat.lt_trichotomy (R.termOf j) b with hlt | heq | hgt
    · have hm'r := (ih hC' hrb (.inl hb) hlt).trans helog
      rcases prefix_lcp hp (him.trans hm'l) hmd (him.trans hm'r) hmr with h1 | h1
      · exact not_concat_le hpa h1
      · exact hmp h1
    · rw [heq, hrb] at hr
      cases hr
      rcases prefix_lcp hp hq hmd hqr hmr with h1 | h1
      · exact not_concat_le (hpa.trans ((List.prefix_append a [i]).trans (him.trans hm'q))) h1
      · exact hmp h1
    · have hjT : R.termOf j < T := hB.below j (hq.subset (by simp))
      exact hnot ((ih hCb hr (.inl hjT) hgt).trans ((hs.elected_le hB.chain hq hr).trans
        ((List.prefix_append q [j]).trans hq)))
  -- any commitment within reach of the candidate's quorum is in its log, hence in `p`
  have reach : ∀ {b' m' d' y'}, Committed R h b' m' d' → b' < T → d' = p ++ y' → d' <+: d →
      x.countP R.isConf + y'.countP R.isConf ≤ 1 → m' <+: p := by
    intro b' m' d' y' hC' hb' hd' hdd hcount
    have hC'' := hC'
    obtain ⟨_, Q', _, _, hmd', _, _, hQ', hack'⟩ := hC''
    obtain ⟨v, hv, hv'⟩ := R.inter hcount (hx ▸ hB.quorum) (hd' ▸ hQ')
    exact hp m' (hs.carry hB hC' hb' (ih hC') hv (hack' v hv')) (hmd'.trans hdd)
  by_cases hsum : x.countP R.isConf + y.countP R.isConf ≤ 1
  · exact hmp (reach hCb hb hy.symm (List.prefix_refl _) hsum)
  by_cases hx0 : x.countP R.isConf = 0
  · -- two configuration entries of the leader: the first was committed before the second
    obtain ⟨a, i, q, j, r, m', d', hpa, him, hq, hr, hqr, hC', hdq, y', hy', hy1⟩ :=
      hs.second_conf hdc hy.symm (by omega)
    have hjb := hs.reign_le hrb j ((hq.trans hdr).subset (by simp))
    have := reach hC' (by omega) hy' (hdq.trans ((List.prefix_append q [j]).trans hq)) (by omega)
    exact not_concat_le hpa (him.trans this)
  · -- a configuration entry on each side: of the two, the one of the later term is decisive
    obtain ⟨q, j, r, m', d', hq, hr, hqr, hC', hdq, w, hw, _⟩ := hs.first_conf hB.chain hx.symm hx0
    obtain ⟨q', j', r', m'', d'', hq', hr', hqr', hC'', hdq', w', hw', hw0⟩ :=
      hs.first_conf hdc hy.symm (by omega)
    have hpq : p <+: q := ⟨w, hw.symm⟩
    have hpq' : p <+: q' := ⟨w', hw'.symm⟩
    have hm'l : m' <+: l := by
      obtain ⟨_, _, _, _, hmd', _⟩ := hC'
      exact hmd'.trans (hdq.trans ((List.prefix_append q [j]).trans hq))
    rcases Nat.lt_trichotomy (R.termOf j') (R.termOf j) with hlt | heq | hgt
    · have hm'p := hs.committed_beyond hdc hq' hpq' hC' hlt
      rcases Nat.lt_trichotomy b (R.termOf j) with hbj | hbj | hbj
      · exact hnot ((ih hCb hr (.inl (hB.below j (hq.subset (by simp)))) hbj).trans
          ((hs.elected_le hB.chain hq hr).trans ((List.prefix_append q [j]).trans hq)))
      · rw [← hbj, hrb] at hr
        cases hr
        rcases prefix_lcp hp hq hmd hqr hmr with h1 | h1
        · exact not_concat_le hpq h1
        · exact hmp h1
      · have hm'r := (ih hC' hrb (.inl hb) hbj).trans helog
        rcases prefix_lcp hp hm'l hmd hm'r hmr with h1 | h1
        · exact hm'p h1
        · exact hmp h1
    · rw [heq, hr] at hr'
      cases hr'
      rcases prefix_lcp hp hq hq' hqr hqr' with h1 | h1
      · exact not_concat_le hpq h1
      · exact not_concat_le hpq' h1
    · have hm''p := hs.committed_beyond hB.chain hq hpq hC'' hgt
      have hj'b := hs.reign_le hrb j' ((hq'.trans hdr).subset (by simp))
      have hmd'' : m'' <+: d'' := by obtain ⟨_, _, _, _, hmd'', _⟩ := hC''; exact hmd''
      have hpd'' : p <+: d'' := by
        rcases List.prefix_or_prefix_of_prefix hpq' (hmd''.trans hdq') with h1 | h1
        · exact h1.trans hmd''
        · exact absurd h1 hm''p
      obtain ⟨u, rfl⟩ := hpd''
      have hu : u <+: w' := by
        rw [hw', List.prefix_append_right_inj] at hdq'
        exact hdq'
      have hu0 : u.countP R.isConf = 0 := Nat.le_zero.1 (hw0 ▸ hu.sublist.countP_le)
      exact hm''p (reach hC'' (by omega) rfl (hdq'.trans ((List.prefix_append q' [j']).trans hq')) (by omega))

theorem reign_backed (hr : h.reign T = some r) : Backed R h (· < T) T r.elected r.quorum := by
  obtain ⟨hc, hlt⟩ := hs.cand_chain (hs.reign_cand hr)
  refine ⟨(hs.reign_quorum hr).1, hc, hlt, fun v hv => ?_⟩
  obtain ⟨lv, hvote, hkept⟩ := (hs.reign_quorum hr).2 v hv
  obtain ⟨hlv, l, hl, hup⟩ := hs.vote_cand hvote
  rw [hs.reign_cand hr] at hl
  cases hl
  exact ⟨lv, hlv, hup, hkept⟩

/-- **Leader completeness**: what was committed in term `b` is in the log every later term was
won with. By strong induction on the later term. -/
theorem elected_complete (hr : h.reign T = some r) {m d : List E}
    (hC : Committed R h b m d) (hb : b < T) : m <+: r.elected := by
  induction T using Nat.strong_induction_on generalizing r b m d with
  | _ T IH =>
    refine hs.backed_complete (hs.reign_backed hr) (fun {_ _ _ t _} hC' hr' ht hb' => ?_) hC hb
    exact IH t (ht.elim id id) hr' hC' hb'

/-- The same of a log that is about to win, whatever it has seen of the term so far. -/
theorem candidate_complete (hB : Backed R h (· ≤ T) T l Q) {m d : List E} (hC : Committed R h b m d) (hb : b < T) :
    m <+: l :=
  hs.backed_complete hB (fun hC' hr' _ hb' => hs.elected_complete hr' hC' hb') hC hb

/-! ## Election safety -/

theorem no_conf_on_both (hc' : Chain R h l') (hlt : ∀ e ∈ l, R.termOf e < T) (hp : ∀ q, q <+: l → q <+: l' → q <+: p)
    (hcomp : ∀ {b m d}, Committed R h b m d → b < T → m <+: l') {q q' : List E} {j j' : E} {r' : Reign N E}
    {m d : List E} (hpq : p <+: q) (hpq' : p <+: q') (hq : q ++ [j] <+: l) (hq' : q' ++ [j'] <+: l')
    (hr : h.reign (R.termOf j) = some r) (hr' : h.reign (R.termOf j') = some r') (hqr : q ++ [j] <+: r.log)
    (hqr' : q' ++ [j'] <+: r'.log) (hC : Committed R h (R.termOf j) m d) (hdq : d <+: q)
    (hle : R.termOf j' ≤ R.termOf j) : False := by
  rcases Nat.lt_or_eq_of_le hle with hlt' | heq
  · have hml' : m <+: l' := hcomp hC (hlt j (hq.subset (by simp)))
    have hml : m <+: l := by
      obtain ⟨_, _, _, _, hmd, _⟩ := hC
      exact hmd.trans (hdq.trans ((List.prefix_append q [j]).trans hq))
    exact hs.committed_beyond hc' hq' hpq' hC hlt' (hp m hml hml')
  · rw [heq, hr] at hr'
    cases hr'
    rcases prefix_lcp hp hq hq' hqr hqr' with h1 | h1
    · exact not_concat_le hpq h1
    · exact not_concat_le hpq' h1

/-- **Election safety**: logs that both win term `T` share a voter. -/
theorem backed_meets {P' : Nat → Prop} {Q' : Finset N} (hB : Backed R h P T l Q) (hB' : Backed R h P' T l' Q')
    (hcomp : ∀ {b m d}, Committed R h b m d → b < T → m <+: l)
    (hcomp' : ∀ {b m d}, Committed R h b m d → b < T → m <+: l') : ∃ v, v ∈ Q ∧ v ∈ Q' := by
  obtain ⟨p, ⟨x, hx⟩, ⟨y, hy⟩, hp⟩ := exists_lcp l l'
  have hp' : ∀ q, q <+: l' → q <+: l → q <+: p := fun q h1 h2 => hp q h2 h1
  -- with a second configuration entry on one side, the other side has the first
  have second : ∀ {l₁ l₂ x₁}, Chain R h l₁ → (∀ e ∈ l₁, R.termOf e < T) → l₁ = p ++ x₁ →
      (∀ q, q <+: l₁ → q <+: l₂ → q <+: p) →
      (∀ {b m d}, Committed R h b m d → b < T → m <+: l₂) → x₁.countP R.isConf ≤ 1 := by
    intro l₁ l₂ x₁ hc hlt hl₁ hpp hcomp₂
    by_contra h2
    obtain ⟨a, i, q, j, r, m, d, hpa, him, hq, -, -, hC, hdq, -⟩ := hs.second_conf hc hl₁ (by omega)
    have hml : m <+: l₁ := by
      obtain ⟨_, _, _, _, hmd, _⟩ := hC
      exact hmd.trans (hdq.trans ((List.prefix_append q [j]).trans hq))
    have hmp := hpp m hml (hcomp₂ hC (hlt j (hq.subset (by simp))))
    exact not_concat_le hpa (him.trans hmp)
  have hx1 := second hB.chain hB.below hx.symm hp hcomp'
  have hy1 := second hB'.chain hB'.below hy.symm hp' hcomp
  by_cases hsum : x.countP R.isConf + y.countP R.isConf ≤ 1
  · exact R.inter hsum (hx ▸ hB.quorum) (hy ▸ hB'.quorum)
  · exfalso
    obtain ⟨q, j, r, m, d, hq, hr, hqr, hC, hdq, w, hw, -⟩ :=
      hs.first_conf hB.chain hx.symm (by omega)
    obtain ⟨q', j', r', m', d', hq', hr', hqr', hC', hdq', w', hw', -⟩ :=
      hs.first_conf hB'.chain hy.symm (by omega)
    have hpq : p <+: q := ⟨w, hw.symm⟩
    have hpq' : p <+: q' := ⟨w', hw'.symm⟩
    rcases le_total (R.termOf j') (R.termOf j) with hle | hle
    · exact hs.no_conf_on_both hB'.chain hB.below hp hcomp' hpq hpq' hq hq' hr hr' hqr hqr' hC hdq hle
    · exact hs.no_conf_on_both hB.chain hB'.below hp' hcomp hpq' hpq hq' hq hr' hr hqr' hqr hC' hdq' hle

/-- Prefixes committed in any two terms lie on one line. -/
theorem committed_comparable {b' : Nat} {m m' d d' : List E} (hC : Committed R h b m d)
    (hC' : Committed R h b' m' d') : m <+: m' ∨ m' <+: m := by
  have key : ∀ {b b' m m' d d'}, Committed R h b m d → Committed R h b' m' d' → b ≤ b' →
      m <+: m' ∨ m' <+: m := by
    intro b b' m m' d d' hC hC' hle
    have hC0 := hC
    obtain ⟨r, _, hr, hdr, hmd, _⟩ := hC
    obtain ⟨r', _, hr', hdr', hmd', _⟩ := hC'
    rcases Nat.lt_or_eq_of_le hle with hlt | rfl
    · obtain ⟨w, hw, _⟩ := hs.reign_log hr'
      exact List.prefix_or_prefix_of_prefix ((hs.elected_complete hr' hC0 hlt).trans ⟨w, hw.symm⟩)
        (hmd'.trans hdr')
    · rw [hr] at hr'
      cases hr'
      exact List.prefix_or_prefix_of_prefix (hmd.trans hdr) (hmd'.trans hdr')
  rcases le_total b b' with hle | hle
  · exact key hC hC' hle
  · exact (key hC' hC hle).symm

end Sound
end Ledger

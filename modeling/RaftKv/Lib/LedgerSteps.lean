import RaftKv.Lib.Ledger
import Mathlib.Logic.Function.Basic

/-!
# The steps that grow a ledger

Each step says what it changes and needs; each keeps `Sound` and extends the history (`Extends`).
A protocol is verified by showing that whatever it does is a sequence of these steps.
-/

namespace Ledger

variable {N E : Type} {R : Rules N E} {h h' : Ledger N E}

/-- `h'` continues `h`: no vote, candidacy, reign or acknowledgement is ever taken back. -/
structure Extends (h h' : Ledger N E) : Prop where
  term : ∀ v, h.term v ≤ h'.term v
  vote : ∀ {v T x}, h.vote v T = some x → h'.vote v T = some x
  cand : ∀ {T c l}, h.cand T c = some l → h'.cand T c = some l
  reign : ∀ {T r}, h.reign T = some r →
    ∃ r', h'.reign T = some r' ∧ r'.leader = r.leader ∧ r'.elected = r.elected ∧ r.log <+: r'.log
  ack : ∀ {v b m}, h.ack v b m → h'.ack v b m

variable {l m : List E} {v c : N} {T t : Nat} {r : Reign N E} {Q : Finset N} {e : E}

namespace Extends

theorem refl (h : Ledger N E) : Extends h h :=
  ⟨fun _ => le_refl _, id, id, fun hr => ⟨_, hr, rfl, rfl, List.prefix_refl _⟩, id⟩

theorem trans {h₁ h₂ h₃ : Ledger N E} (h12 : Extends h₁ h₂) (h23 : Extends h₂ h₃) : Extends h₁ h₃ := by
  refine ⟨fun v => le_trans (h12.term v) (h23.term v), fun hv => h23.vote (h12.vote hv),
    fun hc => h23.cand (h12.cand hc), fun hr => ?_, fun ha => h23.ack (h12.ack ha)⟩
  obtain ⟨r', hr', hl, he, hp⟩ := h12.reign hr
  obtain ⟨r'', hr'', hl', he', hp'⟩ := h23.reign hr'
  exact ⟨r'', hr'', hl'.trans hl, he'.trans he, hp.trans hp'⟩

theorem chain (hx : Extends h h') (hc : Chain R h l) : Chain R h' l := by
  intro p e hpe
  obtain ⟨r, hr, hpr⟩ := hc p e hpe
  obtain ⟨r', hr', _, _, hp⟩ := hx.reign hr
  exact ⟨r', hr', hpr.trans hp⟩

theorem committed (hx : Extends h h') {b : Nat} {d : List E} (hC : Committed R h b m d) : Committed R h' b m d := by
  obtain ⟨r, Q, hr, hdr, hmd, hm0, hmb, hQ, hack⟩ := hC
  obtain ⟨r', hr', _, _, hp⟩ := hx.reign hr
  refine ⟨r', Q, hr', hdr.trans hp, hmd, hm0, hmb, hQ, fun v hv => ?_⟩
  obtain ⟨m', hm', hmm'⟩ := hack v hv
  exact ⟨m', hx.ack hm', hmm'⟩

theorem kept (hx : Extends h h') {P P' : Nat → Prop} {b : Nat} (hk : Kept h P l v b)
    (hack : ∀ m, h'.ack v b m → h.ack v b m) (hP : ∀ t, P t → P' t) : Kept h' P' l v b := by
  intro m m' hm' hmm'
  rcases hk m m' (hack m' hm') hmm' with hl | ⟨t, r, hbt, hPt, hr, hnot⟩
  · exact .inl hl
  · obtain ⟨r', hr', _, he, _⟩ := hx.reign hr
    exact .inr ⟨t, r', hbt, hP t hPt, hr', by rw [he]; exact hnot⟩

end Extends

theorem Sound.reign_unique {r' : Reign N E} (hr : h.reign T = some r) (hr' : h.reign T = some r') : r = r' := by
  rw [hr] at hr'; exact Option.some.inj hr'

/-- The empty history. -/
def init : Ledger N E :=
  { term := fun _ => 0, log := fun _ => [], reign := fun _ => none, vote := fun _ _ => none,
    cand := fun _ _ => none, ack := fun _ _ _ => False }

theorem init_sound : Sound R (init : Ledger N E) where
  log_chain v p e hpe := by simp [init] at hpe
  log_le v e he := by simp [init] at he
  cand_chain hc := by simp [init] at hc
  cand_term hc := by simp [init] at hc
  cand_vote hc := by simp [init] at hc
  vote_term hv := by simp [init] at hv
  vote_cand hv := by simp [init] at hv
  vote_kept hv := by simp [init] at hv
  reign_cand hr := by simp [init] at hr
  reign_log hr := by simp [init] at hr
  reign_own hr := by simp [init] at hr
  reign_quorum hr := by simp [init] at hr
  ack_reign ha := ha.elim
  ack_kept v b m m' ha := ha.elim
  conf hr := by simp [init] at hr

theorem Sound.no_vote (hs : Sound R h) (hT : h.term v < T) : h.vote v T = none := by
  cases hv : h.vote v T with
  | none => rfl
  | some x => have := hs.vote_term hv; omega

theorem Sound.no_cand (hs : Sound R h) (hT : h.term v < T) : h.cand T v = none := by
  cases hc : h.cand T v with
  | none => rfl
  | some l => have := (hs.cand_term hc).2; omega

/-- What a new vote of `v` rests on: its own log kept what it acknowledged. -/
theorem Sound.kept_now (hs : Sound R h) (v : N) (hT : h.term v ≤ T) (b : Nat) : Kept h (· ≤ T) (h.log v) v b := by
  intro m m' hm' hmm'
  rcases hs.ack_kept v b m m' hm' hmm' with hl | ⟨t, r, hbt, ht, hr, hnot⟩
  · exact .inl hl
  · exact .inr ⟨t, r, hbt, le_trans ht hT, hr, hnot⟩

theorem UpToDate.refl (l : List E) : UpToDate R l l := .inr ⟨rfl, le_refl _⟩

/-! ## Elections -/

/-- A candidate with a quorum of votes is backed by the whole history so far. -/
theorem Sound.candidate_backed (hs : Sound R h) (hc : h.cand T c = some l) (hQ : R.Quorum l Q)
    (hvotes : ∀ v ∈ Q, ∃ lv, h.vote v T = some (c, lv)) : Backed R h (· ≤ T) T l Q := by
  refine ⟨hQ, (hs.cand_chain hc).1, (hs.cand_chain hc).2, fun v hv => ?_⟩
  obtain ⟨lv, hlv⟩ := hvotes v hv
  obtain ⟨hch, l', hl', hup⟩ := hs.vote_cand hlv
  rw [hc] at hl'
  cases hl'
  exact ⟨lv, hch, hup, hs.vote_kept hlv⟩

/-- Only the recorded leader of a term can gather a quorum of its votes. -/
theorem Sound.winner_unique (hs : Sound R h) (hc : h.cand T c = some l) (hQ : R.Quorum l Q)
    (hvotes : ∀ v ∈ Q, ∃ lv, h.vote v T = some (c, lv)) (hr : h.reign T = some r) : r.leader = c := by
  have hB := hs.candidate_backed hc hQ hvotes
  obtain ⟨v, hv, hv'⟩ := hs.backed_meets hB (hs.reign_backed hr)
    (fun hC hb => hs.candidate_complete hB hC hb) (fun hC hb => hs.elected_complete hr hC hb)
  obtain ⟨lv, hlv⟩ := hvotes v hv
  obtain ⟨lv', hlv', _⟩ := (hs.reign_quorum hr).2 v hv'
  rw [hlv] at hlv'
  cases hlv'; rfl

/-- `c` wins its current term with the votes of `Q`. -/
def elect (h : Ledger N E) (c : N) (Q : Finset N) : Ledger N E :=
  { h with
    reign := Function.update h.reign (h.term c)
      (some { leader := c, elected := h.log c, log := h.log c, quorum := Q }) }

theorem elect_extends (hnone : h.reign (h.term c) = none) : Extends h (h.elect c Q) := by
  refine ⟨fun _ => le_refl _, id, id, fun {T r} hr => ⟨r, ?_, rfl, rfl, List.prefix_refl _⟩, id⟩
  have hT : T ≠ h.term c := by rintro rfl; rw [hnone] at hr; cases hr
  exact (Function.update_of_ne hT ..).trans hr

theorem Sound.elect (hs : Sound R h) (hnone : h.reign (h.term c) = none)
    (hc : h.cand (h.term c) c = some (h.log c)) (hQ : R.Quorum (h.log c) Q)
    (hvotes : ∀ v ∈ Q, ∃ lv, h.vote v (h.term c) = some (c, lv)) : Sound R (h.elect c Q) := by
  have hx := elect_extends (Q := Q) hnone
  have hnew : ∀ {T r}, (h.elect c Q).reign T = some r →
      (T = h.term c ∧ r = ⟨c, h.log c, h.log c, Q⟩) ∨ h.reign T = some r := by
    intro T r hr
    by_cases hT : T = h.term c
    · subst hT
      rw [show (h.elect c Q).reign _ = _ from Function.update_self ..] at hr
      exact .inl ⟨rfl, (Option.some.inj hr).symm⟩
    · rw [show (h.elect c Q).reign T = h.reign T from Function.update_of_ne hT ..] at hr
      exact .inr hr
  -- no vote counted here was cast after a reign of this very term
  have hstrict : ∀ v b lv, Kept h (· ≤ h.term c) lv v b → Kept (h.elect c Q) (· < h.term c) lv v b := by
    intro v b lv hk m m' hm' hmm'
    rcases hk m m' hm' hmm' with hl | ⟨t, r, hbt, ht, hr, hnot⟩
    · exact .inl hl
    · obtain ⟨r', hr', _, he, _⟩ := hx.reign hr
      refine .inr ⟨t, r', hbt, lt_of_le_of_ne ht ?_, hr', by rw [he]; exact hnot⟩
      rintro rfl; rw [hnone] at hr; cases hr
  exact
    { log_chain := fun v => hx.chain (hs.log_chain v)
      log_le := hs.log_le
      cand_chain := fun hc => ⟨hx.chain (hs.cand_chain hc).1, (hs.cand_chain hc).2⟩
      cand_term := hs.cand_term
      cand_vote := hs.cand_vote
      vote_term := hs.vote_term
      vote_cand := fun hv => ⟨hx.chain (hs.vote_cand hv).1, (hs.vote_cand hv).2⟩
      vote_kept := fun hv b hb => hx.kept (hs.vote_kept hv b hb) (fun _ => id) (fun _ => id)
      reign_cand := by
        intro T r hr
        rcases hnew hr with ⟨rfl, rfl⟩ | hr
        · exact hc
        · exact hs.reign_cand hr
      reign_log := by
        intro T r hr
        rcases hnew hr with ⟨rfl, rfl⟩ | hr
        · exact ⟨[], by simp, by simp⟩
        · exact hs.reign_log hr
      reign_own := by
        intro T r hr hT
        rcases hnew hr with ⟨rfl, rfl⟩ | hr
        · rfl
        · exact hs.reign_own hr hT
      reign_quorum := by
        intro T r hr
        rcases hnew hr with ⟨rfl, rfl⟩ | hr
        · refine ⟨hQ, fun v hv => ?_⟩
          obtain ⟨lv, hlv⟩ := hvotes v hv
          exact ⟨lv, hlv, fun b hb => hstrict v b lv (hs.vote_kept hlv b hb)⟩
        · refine ⟨(hs.reign_quorum hr).1, fun v hv => ?_⟩
          obtain ⟨lv, hlv, hk⟩ := (hs.reign_quorum hr).2 v hv
          exact ⟨lv, hlv, fun b hb => hx.kept (hk b hb) (fun _ => id) (fun _ => id)⟩
      ack_reign := by
        intro v b m ha
        obtain ⟨hle, r, hr, hp⟩ := hs.ack_reign ha
        obtain ⟨r', hr', _, _, hp'⟩ := hx.reign hr
        exact ⟨hle, r', hr', hp.trans hp'⟩
      ack_kept := fun v b => hx.kept (hs.ack_kept v b) (fun _ => id) (fun _ => id)
      conf := by
        intro T r q e hr hq hconf he
        rcases hnew hr with ⟨rfl, rfl⟩ | hr
        · have := (hs.cand_chain hc).2 e (hq.subset (by simp))
          omega
        · obtain ⟨m, d, z, hC, hd, hqm, hz⟩ := hs.conf hr hq hconf he
          exact ⟨m, d, z, hx.committed hC, hd, hqm, hz⟩ }

/-! ## Acknowledgements -/

/-- `v` acknowledges the prefix `m` of its leader's log. -/
def acknowledge (h : Ledger N E) (v : N) (m : List E) : Ledger N E :=
  { h with ack := fun w b m' => (w = v ∧ b = h.term v ∧ m' = m) ∨ h.ack w b m' }

theorem acknowledge_extends (v : N) (m : List E) : Extends h (h.acknowledge v m) :=
  ⟨fun _ => le_refl _, id, id, fun hr => ⟨_, hr, rfl, rfl, List.prefix_refl _⟩, .inr⟩

theorem acknowledge_ack (v : N) (m : List E) : (h.acknowledge v m).ack v (h.term v) m :=
  .inl ⟨rfl, rfl, rfl⟩

theorem Sound.acknowledge (hs : Sound R h) (hr : h.reign (h.term v) = some r) (hm : m <+: r.log)
    (hmv : m <+: h.log v) : Sound R (h.acknowledge v m) := by
  have hx := acknowledge_extends (h := h) v m
  -- votes of `v` below its term are untouched: the new acknowledgement is at its term
  have hold : ∀ {w T} {b : Nat}, T ≤ h.term w → b < T → ∀ k, (h.acknowledge v m).ack w b k → h.ack w b k := by
    intro w T b hT hb k hk
    rcases hk with ⟨rfl, rfl, rfl⟩ | hk
    · omega
    · exact hk
  exact
    { log_chain := hs.log_chain
      log_le := hs.log_le
      cand_chain := hs.cand_chain
      cand_term := hs.cand_term
      cand_vote := hs.cand_vote
      vote_term := hs.vote_term
      vote_cand := hs.vote_cand
      vote_kept := fun hv b hb => hx.kept (hs.vote_kept hv b hb) (hold (hs.vote_term hv) hb) (fun _ => id)
      reign_cand := hs.reign_cand
      reign_log := hs.reign_log
      reign_own := hs.reign_own
      reign_quorum := by
        intro T r' hr'
        refine ⟨(hs.reign_quorum hr').1, fun w hw => ?_⟩
        obtain ⟨lv, hlv, hk⟩ := (hs.reign_quorum hr').2 w hw
        exact ⟨lv, hlv, fun b hb => hx.kept (hk b hb) (hold (hs.vote_term hlv) hb) (fun _ => id)⟩
      ack_reign := by
        intro w b k hk
        rcases hk with ⟨rfl, rfl, rfl⟩ | hk
        · exact ⟨le_refl _, r, hr, hm⟩
        · exact hs.ack_reign hk
      ack_kept := by
        intro w b k k' hk' hkk'
        rcases hk' with ⟨rfl, rfl, rfl⟩ | hk'
        · exact .inl (hkk'.trans hmv)
        · exact hs.ack_kept w b k k' hk' hkk'
      conf := by
        intro T r' q e hr' hq he het
        obtain ⟨k, d, z, hC, hd, hqm, hz⟩ := hs.conf hr' hq he het
        exact ⟨k, d, z, hx.committed hC, hd, hqm, hz⟩ }

variable [DecidableEq N]

/-! ## Terms, candidacies and votes -/

/-- `v` moves to term `t`. -/
def raise (h : Ledger N E) (v : N) (t : Nat) : Ledger N E :=
  { h with term := Function.update h.term v t }

/-- `c` moves to the next term, stands in it and votes for itself. -/
def stand (h : Ledger N E) (c : N) : Ledger N E :=
  { h with
    term := Function.update h.term c (h.term c + 1)
    vote := fun v T => if v = c ∧ T = h.term c + 1 then some (c, h.log c) else h.vote v T
    cand := fun T v => if v = c ∧ T = h.term c + 1 then some (h.log c) else h.cand T v }

/-- `v` votes for `c` in its current term. -/
def castVote (h : Ledger N E) (v c : N) : Ledger N E :=
  { h with vote := fun w T => if w = v ∧ T = h.term v then some (c, h.log v) else h.vote w T }

theorem le_update_term (hle : h.term v ≤ t) (w : N) : h.term w ≤ Function.update h.term v t w := by
  by_cases hw : w = v
  · subst hw; rw [Function.update_self]; exact hle
  · rw [Function.update_of_ne hw]

theorem raise_extends (hle : h.term v ≤ t) : Extends h (h.raise v t) :=
  ⟨le_update_term hle, id, id, fun hr => ⟨_, hr, rfl, rfl, List.prefix_refl _⟩, id⟩

/-- Raising a term says nothing new of any leader's own log. -/
theorem Sound.own_raise (hs : Sound R h) (hle : h.term v ≤ t) (hr : h.reign T = some r)
    (hT : Function.update h.term v t r.leader = T) : h.log r.leader = r.log := by
  have hle' := (hs.cand_term (hs.reign_cand hr)).2
  by_cases hv : r.leader = v
  · subst hv
    rw [Function.update_self] at hT
    exact hs.reign_own hr (by omega)
  · rw [Function.update_of_ne hv] at hT
    exact hs.reign_own hr hT

theorem Sound.raise (hs : Sound R h) (hle : h.term v ≤ t) : Sound R (h.raise v t) where
  log_chain := hs.log_chain
  log_le w e he := le_trans (hs.log_le w e he) (le_update_term hle w)
  cand_chain := hs.cand_chain
  cand_term hc := ⟨(hs.cand_term hc).1, le_trans (hs.cand_term hc).2 (le_update_term hle _)⟩
  cand_vote := hs.cand_vote
  vote_term hv := le_trans (hs.vote_term hv) (le_update_term hle _)
  vote_cand := hs.vote_cand
  vote_kept := hs.vote_kept
  reign_cand := hs.reign_cand
  reign_log := hs.reign_log
  reign_own hr hT := hs.own_raise hle hr hT
  reign_quorum := hs.reign_quorum
  ack_reign ha := ⟨le_trans (hs.ack_reign ha).1 (le_update_term hle _), (hs.ack_reign ha).2⟩
  ack_kept w b := (raise_extends hle).kept (hs.ack_kept w b) (fun _ => id)
    (fun _ ht => le_trans ht (le_update_term hle w))
  conf := hs.conf

theorem stand_extends (hs : Sound R h) (c : N) : Extends h (h.stand c) := by
  refine ⟨le_update_term (Nat.le_succ _), fun {v T x} hv => ?_, fun {T v l} hc => ?_,
    fun hr => ⟨_, hr, rfl, rfl, List.prefix_refl _⟩, id⟩
  · show (if _ then _ else _) = _
    rw [if_neg]; exact hv
    rintro ⟨rfl, rfl⟩
    rw [hs.no_vote (Nat.lt_succ_self _)] at hv; cases hv
  · show (if _ then _ else _) = _
    rw [if_neg]; exact hc
    rintro ⟨rfl, rfl⟩
    rw [hs.no_cand (Nat.lt_succ_self _)] at hc; cases hc

theorem stand_term (c : N) : (h.stand c).term c = h.term c + 1 := Function.update_self ..

theorem stand_cand (c : N) : (h.stand c).cand (h.term c + 1) c = some (h.log c) := if_pos ⟨rfl, rfl⟩

theorem stand_vote (c : N) : (h.stand c).vote c (h.term c + 1) = some (c, h.log c) := if_pos ⟨rfl, rfl⟩

theorem Sound.stand (hs : Sound R h) (c : N) : Sound R (h.stand c) := by
  have hx := stand_extends hs c
  have hnew : ∀ {T v l}, (h.stand c).cand T v = some l →
      (v = c ∧ T = h.term c + 1 ∧ l = h.log c) ∨ h.cand T v = some l := by
    intro T v l hc
    by_cases hk : v = c ∧ T = h.term c + 1
    · rw [show (h.stand c).cand T v = some (h.log c) from if_pos hk] at hc
      exact .inl ⟨hk.1, hk.2, (Option.some.inj hc).symm⟩
    · rw [show (h.stand c).cand T v = h.cand T v from if_neg hk] at hc; exact .inr hc
  have hnewv : ∀ {v T x lv}, (h.stand c).vote v T = some (x, lv) →
      (v = c ∧ T = h.term c + 1 ∧ x = c ∧ lv = h.log c) ∨ h.vote v T = some (x, lv) := by
    intro v T x lv hv
    by_cases hk : v = c ∧ T = h.term c + 1
    · rw [show (h.stand c).vote v T = some (c, h.log c) from if_pos hk] at hv
      cases hv; exact .inl ⟨hk.1, hk.2, rfl, rfl⟩
    · rw [show (h.stand c).vote v T = h.vote v T from if_neg hk] at hv; exact .inr hv
  exact
    { log_chain := hs.log_chain
      log_le := fun w e he => le_trans (hs.log_le w e he) (hx.term w)
      cand_chain := by
        intro T v l hc
        rcases hnew hc with ⟨rfl, rfl, rfl⟩ | hc
        · exact ⟨hs.log_chain v, fun e he => Nat.lt_succ_of_le (hs.log_le v e he)⟩
        · exact hs.cand_chain hc
      cand_term := by
        intro T v l hc
        rcases hnew hc with ⟨rfl, rfl, rfl⟩ | hc
        · exact ⟨Nat.succ_pos _, le_of_eq (stand_term _).symm⟩
        · exact ⟨(hs.cand_term hc).1, le_trans (hs.cand_term hc).2 (hx.term v)⟩
      cand_vote := by
        intro T v l hc
        rcases hnew hc with ⟨rfl, rfl, rfl⟩ | hc
        · exact ⟨_, stand_vote v⟩
        · obtain ⟨lv, hlv⟩ := hs.cand_vote hc
          exact ⟨lv, hx.vote hlv⟩
      vote_term := by
        intro v T x lv hv
        rcases hnewv hv with ⟨rfl, rfl, rfl, rfl⟩ | hv
        · exact le_of_eq (stand_term _).symm
        · exact le_trans (hs.vote_term hv) (hx.term v)
      vote_cand := by
        intro v T x lv hv
        rcases hnewv hv with ⟨rfl, rfl, rfl, rfl⟩ | hv
        · exact ⟨hs.log_chain x, _, stand_cand x, UpToDate.refl _⟩
        · obtain ⟨hc, l, hl, hup⟩ := hs.vote_cand hv
          exact ⟨hc, l, hx.cand hl, hup⟩
      vote_kept := by
        intro v T x lv hv b hb
        rcases hnewv hv with ⟨rfl, rfl, rfl, rfl⟩ | hv
        · exact hs.kept_now x (Nat.le_succ _) b
        · exact hs.vote_kept hv b hb
      reign_cand := fun hr => hx.cand (hs.reign_cand hr)
      reign_log := hs.reign_log
      reign_own := fun hr hT => hs.own_raise (Nat.le_succ _) hr hT
      reign_quorum := by
        intro T r hr
        refine ⟨(hs.reign_quorum hr).1, fun v hv => ?_⟩
        obtain ⟨lv, hlv, hk⟩ := (hs.reign_quorum hr).2 v hv
        exact ⟨lv, hx.vote hlv, hk⟩
      ack_reign := fun ha => ⟨le_trans (hs.ack_reign ha).1 (hx.term _), (hs.ack_reign ha).2⟩
      ack_kept := fun w b => hx.kept (hs.ack_kept w b) (fun _ => id)
        (fun _ ht => le_trans ht (hx.term w))
      conf := hs.conf }

theorem castVote_extends (hnone : h.vote v (h.term v) = none) : Extends h (h.castVote v c) := by
  refine ⟨fun _ => le_refl _, fun {w T x} hv => ?_, id,
    fun hr => ⟨_, hr, rfl, rfl, List.prefix_refl _⟩, id⟩
  show (if _ then _ else _) = _
  rw [if_neg]; exact hv
  rintro ⟨rfl, rfl⟩
  rw [hnone] at hv; cases hv

theorem castVote_vote (v c : N) : (h.castVote v c).vote v (h.term v) = some (c, h.log v) :=
  if_pos ⟨rfl, rfl⟩

theorem Sound.castVote (hs : Sound R h) (hnone : h.vote v (h.term v) = none)
    (hc : h.cand (h.term v) c = some l) (hup : UpToDate R l (h.log v)) : Sound R (h.castVote v c) := by
  have hx := castVote_extends (c := c) hnone
  have hnew : ∀ {w T x lv}, (h.castVote v c).vote w T = some (x, lv) →
      (w = v ∧ T = h.term v ∧ x = c ∧ lv = h.log v) ∨ h.vote w T = some (x, lv) := by
    intro w T x lv hv
    by_cases hk : w = v ∧ T = h.term v
    · rw [show (h.castVote v c).vote w T = some (c, h.log v) from if_pos hk] at hv
      cases hv; exact .inl ⟨hk.1, hk.2, rfl, rfl⟩
    · rw [show (h.castVote v c).vote w T = h.vote w T from if_neg hk] at hv; exact .inr hv
  exact
    { log_chain := hs.log_chain
      log_le := hs.log_le
      cand_chain := hs.cand_chain
      cand_term := hs.cand_term
      cand_vote := fun hc => by
        obtain ⟨lv, hlv⟩ := hs.cand_vote hc
        exact ⟨lv, hx.vote hlv⟩
      vote_term := by
        intro w T x lv hv
        rcases hnew hv with ⟨rfl, rfl, rfl, rfl⟩ | hv
        · exact le_refl _
        · exact hs.vote_term hv
      vote_cand := by
        intro w T x lv hv
        rcases hnew hv with ⟨rfl, rfl, rfl, rfl⟩ | hv
        · exact ⟨hs.log_chain w, l, hc, hup⟩
        · exact hs.vote_cand hv
      vote_kept := by
        intro w T x lv hv b hb
        rcases hnew hv with ⟨rfl, rfl, rfl, rfl⟩ | hv
        · exact hs.kept_now w (le_refl _) b
        · exact hs.vote_kept hv b hb
      reign_cand := hs.reign_cand
      reign_log := hs.reign_log
      reign_own := hs.reign_own
      reign_quorum := by
        intro T r hr
        refine ⟨(hs.reign_quorum hr).1, fun w hw => ?_⟩
        obtain ⟨lv, hlv, hk⟩ := (hs.reign_quorum hr).2 w hw
        exact ⟨lv, hx.vote hlv, hk⟩
      ack_reign := hs.ack_reign
      ack_kept := hs.ack_kept
      conf := hs.conf }

/-! ## Replication -/

/-- The leader `c` of its current term appends `e`. -/
def extend (h : Ledger N E) (c : N) (r : Reign N E) (e : E) : Ledger N E :=
  { h with
    log := Function.update h.log c (h.log c ++ [e])
    reign := Function.update h.reign (h.term c) (some { r with log := r.log ++ [e] }) }

/-- `v` adopts the prefix `m` of its leader's log, unless it already has it. -/
noncomputable def accept (h : Ledger N E) (v : N) (m : List E) : Ledger N E :=
  open Classical in
  { h with log := Function.update h.log v (if m <+: h.log v then h.log v else m) }

theorem extend_extends (hr : h.reign (h.term c) = some r) : Extends h (h.extend c r e) := by
  refine ⟨fun _ => le_refl _, id, id, fun {T r'} hr' => ?_, id⟩
  by_cases hT : T = h.term c
  · subst hT
    rw [hr] at hr'
    cases hr'
    exact ⟨_, Function.update_self .., rfl, rfl, List.prefix_append _ _⟩
  · exact ⟨r', (Function.update_of_ne hT ..).trans hr', rfl, rfl, List.prefix_refl _⟩

theorem extend_log : (h.extend c r e).log c = h.log c ++ [e] :=
  Function.update_self ..

theorem extend_reign :
    (h.extend c r e).reign (h.term c) = some { r with log := r.log ++ [e] } := Function.update_self ..

theorem Sound.extend (hs : Sound R h) (hr : h.reign (h.term c) = some r)
    (hc : r.leader = c) (he : R.termOf e = h.term c)
    (hconf : R.isConf e = true → ∃ m d z, Committed R h (h.term c) m d ∧ d <+: r.log ∧ r.log = m ++ z ∧
      z.countP R.isConf = 0) : Sound R (h.extend c r e) := by
  have hx := extend_extends (e := e) hr
  subst hc
  have hown := hs.reign_own hr rfl
  have hnew : ∀ {T r'}, (h.extend r.leader r e).reign T = some r' →
      (T = h.term r.leader ∧ r' = { r with log := r.log ++ [e] }) ∨ (T ≠ h.term r.leader ∧ h.reign T = some r') := by
    intro T r' hr'
    by_cases hT : T = h.term r.leader
    · subst hT
      rw [extend_reign] at hr'
      exact .inl ⟨rfl, (Option.some.inj hr').symm⟩
    · rw [show (h.extend r.leader r e).reign T = h.reign T from Function.update_of_ne hT ..] at hr'
      exact .inr ⟨hT, hr'⟩
  have hlog : ∀ w, (h.extend r.leader r e).log w = if w = r.leader then r.log ++ [e] else h.log w := by
    intro w
    by_cases hw : w = r.leader
    · subst hw; rw [extend_log, hown, if_pos rfl]
    · rw [if_neg hw]; exact Function.update_of_ne hw ..
  have hgrow : ∀ w, h.log w <+: (h.extend r.leader r e).log w := by
    intro w
    rw [hlog]
    split
    · rename_i hw; subst hw; rw [hown]; exact List.prefix_append _ _
    · exact List.prefix_refl _
  have hrchain : Chain R (h.extend r.leader r e) (r.log ++ [e]) := by
    intro p a hpa
    rcases List.prefix_concat_iff.1 hpa with heq | hpa
    · obtain ⟨rfl, hae⟩ := List.append_inj' heq rfl
      obtain rfl := List.singleton_inj.1 hae
      exact ⟨_, by rw [he]; exact extend_reign, List.prefix_refl _⟩
    · exact hx.chain (hs.reign_chain hr) p a hpa
  exact
    { log_chain := by
        intro w
        rw [hlog]
        split
        · exact hrchain
        · exact hx.chain (hs.log_chain w)
      log_le := by
        intro w a ha
        rw [hlog] at ha
        split at ha
        · rename_i hw
          subst hw
          rcases List.mem_append.1 ha with ha | ha
          · exact hs.reign_le hr a ha
          · rw [List.mem_singleton.1 ha, he]; exact le_refl _
        · exact hs.log_le w a ha
      cand_chain := fun hc => ⟨hx.chain (hs.cand_chain hc).1, (hs.cand_chain hc).2⟩
      cand_term := hs.cand_term
      cand_vote := hs.cand_vote
      vote_term := hs.vote_term
      vote_cand := fun hv => ⟨hx.chain (hs.vote_cand hv).1, (hs.vote_cand hv).2⟩
      vote_kept := fun hv b hb => hx.kept (hs.vote_kept hv b hb) (fun _ => id) (fun _ => id)
      reign_cand := by
        intro T r' hr'
        rcases hnew hr' with ⟨rfl, rfl⟩ | ⟨_, hr'⟩
        · show h.cand _ r.leader = some r.elected
          exact hs.reign_cand hr
        · exact hs.reign_cand hr'
      reign_log := by
        intro T r' hr'
        rcases hnew hr' with ⟨rfl, rfl⟩ | ⟨_, hr'⟩
        · obtain ⟨x, hxr, hxT⟩ := hs.reign_log hr
          refine ⟨x ++ [e], by rw [← List.append_assoc, ← hxr], fun a ha => ?_⟩
          rcases List.mem_append.1 ha with ha | ha
          · exact hxT a ha
          · rw [List.mem_singleton.1 ha, he]
        · exact hs.reign_log hr'
      reign_own := by
        intro T r' hr' hT
        rcases hnew hr' with ⟨rfl, rfl⟩ | ⟨hne, hr'⟩
        · rw [hlog, if_pos rfl]
        · rw [hlog, if_neg]
          · exact hs.reign_own hr' hT
          · intro hl; exact hne (by rw [← hT, hl]; rfl)
      reign_quorum := by
        intro T r' hr'
        rcases hnew hr' with ⟨rfl, rfl⟩ | ⟨_, hr'⟩
        · refine ⟨(hs.reign_quorum hr).1, fun v hv => ?_⟩
          obtain ⟨lv, hlv, hk⟩ := (hs.reign_quorum hr).2 v hv
          exact ⟨lv, hlv, fun b hb => hx.kept (hk b hb) (fun _ => id) (fun _ => id)⟩
        · refine ⟨(hs.reign_quorum hr').1, fun v hv => ?_⟩
          obtain ⟨lv, hlv, hk⟩ := (hs.reign_quorum hr').2 v hv
          exact ⟨lv, hlv, fun b hb => hx.kept (hk b hb) (fun _ => id) (fun _ => id)⟩
      ack_reign := by
        intro v b m ha
        obtain ⟨hle, r', hr', hp⟩ := hs.ack_reign ha
        obtain ⟨r'', hr'', _, _, hp'⟩ := hx.reign hr'
        exact ⟨hle, r'', hr'', hp.trans hp'⟩
      ack_kept := by
        intro v b m m' hm' hmm'
        rcases hx.kept (hs.ack_kept v b) (fun _ => id) (fun _ => id) m m' hm' hmm' with hl | hl
        · exact .inl (hl.trans (hgrow v))
        · exact .inr hl
      conf := by
        intro T r' q a hr' hq ha hat
        rcases hnew hr' with ⟨rfl, rfl⟩ | ⟨_, hr'⟩
        · rcases List.prefix_concat_iff.1 hq with heq | hq
          · obtain ⟨rfl, hae⟩ := List.append_inj' heq rfl
            obtain rfl := List.singleton_inj.1 hae
            obtain ⟨m, d, z, hC, hd, hqm, hz⟩ := hconf ha
            exact ⟨m, d, z, hx.committed hC, hd, hqm, hz⟩
          · obtain ⟨m, d, z, hC, hd, hqm, hz⟩ := hs.conf hr hq ha hat
            exact ⟨m, d, z, hx.committed hC, hd, hqm, hz⟩
        · obtain ⟨m, d, z, hC, hd, hqm, hz⟩ := hs.conf hr' hq ha hat
          exact ⟨m, d, z, hx.committed hC, hd, hqm, hz⟩ }

theorem accept_extends (v : N) (m : List E) : Extends h (h.accept v m) :=
  ⟨fun _ => le_refl _, id, id, fun hr => ⟨_, hr, rfl, rfl, List.prefix_refl _⟩, id⟩

theorem accept_log_held (hp : m <+: h.log v) : (h.accept v m).log v = h.log v := by
  rw [show (h.accept v m).log v = _ from Function.update_self .., if_pos hp]

theorem accept_log_new (hp : ¬ m <+: h.log v) : (h.accept v m).log v = m := by
  rw [show (h.accept v m).log v = _ from Function.update_self .., if_neg hp]

theorem accept_log_of_ne {w : N} (hw : w ≠ v) : (h.accept v m).log w = h.log w :=
  Function.update_of_ne hw ..

/-- Either the log stays, or the adopted prefix replaces it. -/
theorem Sound.accept (hs : Sound R h)
    (hr : h.reign (h.term v) = some r) (hm : m <+: r.log) : Sound R (h.accept v m) := by
  by_cases hp : m <+: h.log v
  · have hlog : ∀ w, (h.accept v m).log w = h.log w := by
      intro w
      by_cases hw : w = v
      · subst hw; exact accept_log_held hp
      · exact accept_log_of_ne hw
    have : h.accept v m = h := by
      show ({ h with log := (h.accept v m).log } : Ledger N E) = h
      rw [funext hlog]
    rw [this]; exact hs
  · have hlog : ∀ w, (h.accept v m).log w = if w = v then m else h.log w := by
      intro w
      by_cases hw : w = v
      · subst hw; rw [if_pos rfl]; exact accept_log_new hp
      · rw [if_neg hw]; exact accept_log_of_ne hw
    exact
      { log_chain := by
          intro w
          rw [hlog]
          split
          · exact (hs.reign_chain hr).anti hm
          · exact hs.log_chain w
        log_le := by
          intro w e he
          rw [hlog] at he
          split at he
          · rename_i hw; subst hw; exact hs.reign_le hr e (hm.subset he)
          · exact hs.log_le w e he
        cand_chain := hs.cand_chain
        cand_term := hs.cand_term
        cand_vote := hs.cand_vote
        vote_term := hs.vote_term
        vote_cand := hs.vote_cand
        vote_kept := hs.vote_kept
        reign_cand := hs.reign_cand
        reign_log := hs.reign_log
        reign_own := by
          intro T r' hr' hT
          rw [hlog, if_neg]
          · exact hs.reign_own hr' hT
          · -- the leader itself already has every prefix of its log
            rintro rfl
            subst hT
            cases Sound.reign_unique hr' hr
            exact hp (by rw [hs.reign_own hr' rfl]; exact hm)
        reign_quorum := hs.reign_quorum
        ack_reign := hs.ack_reign
        ack_kept := by
          intro w b k k' hk' hkk'
          rw [hlog]
          split
          · rename_i hw
            subst hw
            rcases hs.ack_kept w b k k' hk' hkk' with hkl | hl
            · -- `k` survives unless the new leader was elected without it
              by_cases hkm : k <+: m
              · exact .inl hkm
              · have hnot : ¬ k <+: r.log := by
                  intro hkr
                  rcases List.prefix_or_prefix_of_prefix hkr hm with h1 | h1
                  · exact hkm h1
                  · exact hp (h1.trans hkl)
                obtain ⟨hle, rb, hrb, hkb⟩ := hs.ack_reign hk'
                have hne : b ≠ h.term w := by
                  rintro rfl
                  cases Sound.reign_unique hr hrb
                  exact hnot (hkk'.trans hkb)
                obtain ⟨x, hxr, _⟩ := hs.reign_log hr
                exact .inr ⟨_, r, lt_of_le_of_ne hle hne, le_refl _, hr,
                  fun hke => hnot (hke.trans ⟨x, hxr.symm⟩)⟩
            · exact .inr hl
          · exact hs.ack_kept w b k k' hk' hkk'
        conf := hs.conf }

end Ledger

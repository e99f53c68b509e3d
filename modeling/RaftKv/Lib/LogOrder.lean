import Mathlib.Data.List.Sort
import RaftKv.Lib.Linearizable

/-!
# Histories explained by a log

The updates of a replicated object take effect in the order of a log, and a query sees the object
as it is after some prefix of the log. `LogOrder` says that every answered call has its place in
the log between its invocation and its response; `mark t` is how much of the log was in effect at
time `t`. Such a history is linearizable (`LogOrder.linearizable`): by their positions in the log,
and for queries at one position by their invocations.
-/

namespace SeqObject

variable {Op Res ρ : Type} {O : SeqObject Op Res} {call : ρ → CallRecord Op Res}

/-- The state after the calls. -/
def after (O : SeqObject Op Res) (s : O.State) (rs : List (CallRecord Op Res)) : O.State :=
  rs.foldl (fun s r => (O.apply s r.op).1) s

/-- A query leaves the object as it is. -/
def Query (O : SeqObject Op Res) (op : Op) : Prop := ∀ s, (O.apply s op).1 = s

theorem Legal.result {r : CallRecord Op Res} {rs₂ : List (CallRecord Op Res)} :
    ∀ (rs₁ : List (CallRecord Op Res)) {s : O.State}, O.Legal s (rs₁ ++ r :: rs₂) → ∀ x, r.result = some x →
      (O.apply (O.after s rs₁) r.op).2 = x
  | [], _, h => h.1
  | _ :: rs₁, _, h => Legal.result rs₁ h.2

theorem after_filter {p : ρ → Bool} : ∀ {l : List ρ} {s : O.State}, (∀ r ∈ l, p r = false → O.Query (call r).op) →
    O.after s (l.map call) = O.after s ((l.filter p).map call)
  | [], _, _ => rfl
  | r :: l, s, h => by
    have hrest := fun s => after_filter (s := s) fun q hq => h q (List.mem_cons_of_mem r hq)
    cases hp : p r with
    | true => rw [List.filter_cons_of_pos hp]; exact hrest _
    | false =>
      rw [List.filter_cons_of_neg (by simp [hp]), ← hrest s]
      show O.after (O.apply s (call r).op).1 _ = _
      rw [h r List.mem_cons_self hp s]

end SeqObject

section log
variable {Op Res ρ : Type} {O : SeqObject Op Res} {call : ρ → CallRecord Op Res} {query : ρ → Bool} {h us : List ρ}
  {place : ρ → Nat} {mark : Nat → Nat}

/-- The log `us` explains the history `h`: an update takes effect where it stands, a query `r` after the first
`place r` updates, and at time `t` the first `mark t` updates are in effect. -/
structure LogOrder (O : SeqObject Op Res) (call : ρ → CallRecord Op Res) (query : ρ → Bool) (h us : List ρ)
    (place : ρ → Nat) (mark : Nat → Nat) : Prop where
  nodup : h.Nodup
  log_nodup : us.Nodup
  mem : ∀ u ∈ us, u ∈ h ∧ query u = false
  mono : ∀ r ∈ h, ∀ r' ∈ h, ∀ t, (call r).ret = some t → t < (call r').invoke → mark t ≤ mark (call r').invoke
  legal : O.Legal O.init (us.map call)
  answered : ∀ r ∈ h, query r = false → (call r).ret.isSome → r ∈ us
  invoked : ∀ u ∈ us, u ∉ us.take (mark (call u).invoke)
  returned : ∀ u ∈ us, ∀ {t}, (call u).ret = some t → u ∈ us.take (mark t)
  asked : ∀ r ∈ h, query r = true → O.Query (call r).op ∧ (call r).Timely
  seen : ∀ r ∈ h, query r = true → ∀ {t}, (call r).ret = some t →
    mark (call r).invoke ≤ place r ∧ place r ≤ mark t ∧ place r ≤ us.length ∧
      ∀ x, (call r).result = some x → (O.apply (O.after O.init ((us.take (place r)).map call)) (call r).op).2 = x

namespace LogOrder

open Classical in
/-- The place of a call among the updates, which have the odd numbers. -/
noncomputable def position (_ : LogOrder O call query h us place mark) (r : ρ) : Nat :=
  if query r then 2 * place r else 2 * us.idxOf r + 1

/-- By position and invocation. -/
def Before (L : LogOrder O call query h us place mark) (a b : ρ) : Prop :=
  L.position a < L.position b ∨ L.position a = L.position b ∧ (call a).invoke ≤ (call b).invoke

theorem Before.le {L : LogOrder O call query h us place mark} {a b : ρ} (hab : L.Before a b) :
    L.position a ≤ L.position b :=
  hab.elim le_of_lt fun hab => hab.1.le

open Classical in
/-- The updates of the log and the answered queries. -/
noncomputable def sequence (L : LogOrder O call query h us place mark) : List ρ :=
  (h.filter fun r => r ∈ us ∨ (query r = true ∧ (call r).ret.isSome)).insertionSort L.Before

variable (L : LogOrder O call query h us place mark)
include L

theorem mem_sequence {r : ρ} : r ∈ L.sequence ↔ r ∈ h ∧ (r ∈ us ∨ (query r = true ∧ (call r).ret.isSome)) := by
  simp [sequence]

theorem sequence_sorted : L.sequence.Pairwise L.Before := by
  classical
  refine @List.pairwise_insertionSort _ _ _ ⟨fun a b => ?_⟩ ⟨fun a b c => ?_⟩ _
  · unfold Before; omega
  · unfold Before; omega

theorem position_update {j : Nat} {u : ρ} (hu : us[j]? = some u) : L.position u = 2 * j + 1 := by
  classical
  obtain ⟨hj, rfl⟩ := List.getElem?_eq_some_iff.1 hu
  rw [position, if_neg (by simp [(L.mem _ (List.getElem_mem hj)).2])]
  convert rfl using 3
  exact (List.Nodup.idxOf_getElem L.log_nodup j hj).symm

/-- A call stands between what was in effect at its invocation and at its response, an update before the latter. -/
theorem span {r : ρ} (hr : r ∈ L.sequence) :
    2 * mark (call r).invoke ≤ L.position r ∧ ∀ t, (call r).ret = some t →
      L.position r ≤ 2 * mark t ∧ (L.position r = 2 * mark t → query r = true) := by
  classical
  obtain ⟨hmem, hu | ⟨hq, hret⟩⟩ := L.mem_sequence.1 hr
  · rw [position, if_neg (by simp [(L.mem r hu).2])]
    have hi := L.invoked r hu
    rw [List.mem_take_iff_idxOf_lt hu] at hi
    refine ⟨by omega, fun t ht => ?_⟩
    have ht := L.returned r hu ht
    rw [List.mem_take_iff_idxOf_lt hu] at ht
    exact ⟨by omega, fun h => absurd h (by omega)⟩
  · obtain ⟨t, ht⟩ := Option.isSome_iff_exists.1 hret
    obtain ⟨hlo, hhi, -, -⟩ := L.seen r hmem hq ht
    rw [position, if_pos hq]
    refine ⟨by omega, fun t' ht' => ?_⟩
    rw [ht] at ht'
    cases ht'
    exact ⟨by omega, fun _ => hq⟩

theorem real_time : L.sequence.Pairwise fun a b => ¬ (call b).Precedes (call a) := by
  refine L.sequence_sorted.imp_of_mem fun {a b} ha hb hab => ?_
  rintro ⟨t, ht, hlt⟩
  unfold Before at hab
  have hmb := (L.mem_sequence.1 hb).1
  have h1 := (L.span ha).1
  obtain ⟨h2, h3⟩ := (L.span hb).2 t ht
  have h4 := L.mono b hmb a (L.mem_sequence.1 ha).1 t ht hlt
  -- both are queries with the same place
  have h5 := (L.asked b hmb (h3 (by omega))).2 t ht
  omega

/-- The updates of the sequence are the log. -/
theorem filter_sequence : L.sequence.filter (fun r => !query r) = us := by
  classical
  have hmem : ∀ r, r ∈ L.sequence.filter (fun r => !query r) ↔ r ∈ us := by
    intro r
    rw [List.mem_filter, L.mem_sequence]
    constructor
    · rintro ⟨⟨-, hu | ⟨hq, -⟩⟩, hf⟩
      · exact hu
      · simp [hq] at hf
    · exact fun hu => ⟨⟨(L.mem r hu).1, Or.inl hu⟩, by simp [(L.mem r hu).2]⟩
  have hnd : L.sequence.Nodup := (List.perm_insertionSort _ _).nodup_iff.2 (L.nodup.filter _)
  have hle : (L.sequence.filter fun r => !query r).Pairwise fun a b => L.position a ≤ L.position b :=
    (L.sequence_sorted.imp Before.le).filter _
  refine List.Perm.eq_of_pairwise (fun a b ha hb hab hba => ?_) hle
    (List.pairwise_iff_getElem.2 fun i j hi hj hij => ?_)
      ((List.perm_ext_iff_of_nodup (hnd.filter _) L.log_nodup).2 hmem)
  · obtain ⟨i, hi⟩ := List.mem_iff_getElem?.1 ((hmem a).1 ha)
    obtain ⟨j, hj⟩ := List.mem_iff_getElem?.1 hb
    rw [L.position_update hi, L.position_update hj] at hab hba
    obtain rfl : i = j := by omega
    exact Option.some.inj (hi.symm.trans hj)
  · rw [L.position_update (List.getElem?_eq_getElem hi), L.position_update (List.getElem?_eq_getElem hj)]
    omega

theorem legal_sequence : O.Legal O.init (L.sequence.map call) := by
  refine SeqObject.legal_of_splits fun rs₁ r' rs₂ hsplit x hx => ?_
  obtain ⟨l₁, l₂', hseq, rfl, hrest⟩ := List.map_eq_append_iff.1 hsplit
  obtain ⟨r, l₂, rfl, rfl, rfl⟩ := List.map_eq_cons_iff.1 hrest
  have hmem : ∀ q ∈ l₁ ++ r :: l₂, q ∈ h ∧ (q ∈ us ∨ (query q = true ∧ (call q).ret.isSome)) := fun q hq =>
    L.mem_sequence.1 (hseq ▸ hq)
  have hfilter := L.filter_sequence
  have hsorted := L.sequence_sorted
  rw [hseq] at hfilter hsorted
  rw [List.filter_append] at hfilter
  obtain ⟨-, hsorted₂, hsorted₁⟩ := List.pairwise_append.1 hsorted
  show (O.apply (O.after O.init (l₁.map call)) (call r).op).2 = x
  rw [SeqObject.after_filter (p := fun r => !query r) fun q hq hf =>
    (L.asked q (hmem q (by simp [hq])).1 (by simpa using hf)).1]
  obtain ⟨hrh, hu | ⟨hq, hret⟩⟩ := hmem r (by simp)
  · -- an update, after the updates before it
    rw [List.filter_cons_of_pos (by simp [(L.mem r hu).2])] at hfilter
    have hlegal := L.legal
    rw [← hfilter, List.map_append] at hlegal
    exact hlegal.result _ x hx
  · -- a query, after as many updates as its place says
    obtain ⟨t, ht⟩ := Option.isSome_iff_exists.1 hret
    obtain ⟨-, -, hlen, hres⟩ := L.seen r hrh hq ht
    rw [List.filter_cons_of_neg (by simp [hq])] at hfilter
    have hpos : L.position r = 2 * place r := if_pos hq
    have hplace : (l₁.filter fun r => !query r).length = place r := by
      rcases Nat.lt_trichotomy (l₁.filter fun r => !query r).length (place r) with hlt | heq | hgt
      · have hj : us[(l₁.filter fun r => !query r).length]? = (l₂.filter fun r => !query r)[0]? := by
          rw [← hfilter, List.getElem?_append_right le_rfl, Nat.sub_self]
        rw [List.getElem?_eq_getElem (hlt.trans_le hlen)] at hj
        have hafter := ((List.pairwise_cons.1 hsorted₂).1 _ (List.mem_filter.1 (List.mem_of_getElem? hj.symm)).1).le
        rw [L.position_update (List.getElem?_eq_getElem (hlt.trans_le hlen))] at hafter
        omega
      · exact heq
      · have hj : us[place r]? = (l₁.filter fun r => !query r)[place r]? := by
          rw [← hfilter, List.getElem?_append_left hgt]
        rw [List.getElem?_eq_getElem hgt] at hj
        have hbefore := (hsorted₁ _ (List.mem_filter.1 (List.getElem_mem hgt)).1 r List.mem_cons_self).le
        rw [L.position_update hj] at hbefore
        omega
    rw [← hplace, ← hfilter, List.take_left] at hres
    exact hres x hx

/-- The calls in the order of their positions explain the history. -/
theorem linearizable : O.Linearizable (h.map call) := by
  classical
  refine ⟨L.sequence.map call,
    (h.filter fun r => !decide (r ∈ us ∨ (query r = true ∧ (call r).ret.isSome))).map call, ?_, fun r₀ hr₀ => ?_,
    List.pairwise_map.2 L.real_time, L.legal_sequence⟩
  · rw [← List.map_append]
    exact (((List.perm_insertionSort _ _).append_right _).trans (List.filter_append_perm _ h)).map call
  · -- what is left out was not answered
    obtain ⟨r, hr, rfl⟩ := List.mem_map.1 hr₀
    obtain ⟨hr, hout⟩ := List.mem_filter.1 hr
    by_contra hne
    have hret : (call r).ret.isSome := Option.isSome_iff_ne_none.2 hne
    cases hq : query r with
    | true => simp [hq, hret] at hout
    | false => simp [L.answered r hr hq hret] at hout

end LogOrder

end log

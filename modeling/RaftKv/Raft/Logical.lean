import RaftKv.Lib.LedgerSteps
import RaftKv.Lib.Majority
import RaftKv.Raft.Node

/-!
# Logical logs

A node holds only the entries above its snapshot base. Its *logical log* is `base ++ entries`, where
`base` is what the snapshot stands for. This file reads every accessor of `RaftLog` and the voter
computation of the node off the logical log, and makes the protocol's entries, configurations and
quorums an instance of `Rules`.
-/

namespace RaftKv

open List

/-- The configuration a logical log prescribes. -/
def confOf (voters : List NodeId) (l : List Entry) : List NodeId := l.foldl Entry.applyConf voters

@[simp] theorem confOf_append (voters : List NodeId) (l l' : List Entry) :
    confOf voters (l ++ l') = confOf (confOf voters l) l' := foldl_append

variable {v : List NodeId} {e : Entry} {l : List Entry} {idx : Nat}

theorem applyConf_of_not_isConf (h : e.isConf = false) : e.applyConf v = v := by
  unfold Entry.isConf at h
  unfold Entry.applyConf
  split at h <;> simp_all

theorem confOf_of_no_conf {voters : List NodeId} (h : l.countP Entry.isConf = 0) : confOf voters l = voters := by
  induction l with
  | nil => rfl
  | cons e l ih =>
    have he : e.isConf = false := by
      by_contra hne
      rw [countP_cons_of_pos (by simpa using hne)] at h
      omega
    rw [countP_cons_of_neg (by simp [he])] at h
    show confOf (e.applyConf voters) l = voters
    rw [applyConf_of_not_isConf he]; exact ih h

theorem ConfChange.apply_nodup (hv : v.Nodup) : ∀ cc : ConfChange, (cc.apply v).Nodup
  | .addNode id => by
    simp only [ConfChange.apply]
    split
    · exact hv
    · rename_i hid
      rw [nodup_append]
      refine ⟨hv, nodup_singleton id, fun a ha b hb => ?_⟩
      rw [mem_singleton.1 hb]
      rintro rfl; exact hid (by simpa using ha)
  | .removeNode id => hv.filter _

theorem applyConf_nodup (hv : v.Nodup) (e : Entry) : (e.applyConf v).Nodup := by
  unfold Entry.applyConf
  split
  · exact ConfChange.apply_nodup hv _
  · exact hv

theorem confOf_nodup {voters : List NodeId} (hv : voters.Nodup) : ∀ l : List Entry, (confOf voters l).Nodup
  | [] => hv
  | e :: l => confOf_nodup (applyConf_nodup hv e) l

/-- A single configuration change keeps majorities intersecting. -/
theorem apply_meet {V : List NodeId} {Q Q' : Finset NodeId} (hV : V.Nodup) (cc : ConfChange)
    (hQ : IsMajority V Q) (hQ' : IsMajority (cc.apply V) Q') : ∃ v, v ∈ Q ∧ v ∈ Q' := by
  cases cc with
  | addNode id =>
    simp only [ConfChange.apply] at hQ'
    split at hQ'
    · exact hQ.meet_self hQ'
    · exact hQ.meet_concat hQ'
  | removeNode id => exact hQ.meet_filter hV hQ'

theorem confOf_meet {V : List NodeId} {Q Q' : Finset NodeId} {y : List Entry} (hV : V.Nodup)
    (hy : y.countP Entry.isConf ≤ 1) (hQ : IsMajority V Q) (hQ' : IsMajority (confOf V y) Q') :
    ∃ v, v ∈ Q ∧ v ∈ Q' := by
  by_cases h0 : y.countP Entry.isConf = 0
  · rw [confOf_of_no_conf h0] at hQ'; exact hQ.meet_self hQ'
  · obtain ⟨a, e, b, rfl, he, ha⟩ := exists_first Entry.isConf h0
    rw [countP_append, countP_cons_of_pos he] at hy
    have hb : b.countP Entry.isConf = 0 := by omega
    have hconf : confOf V (a ++ e :: b) = e.applyConf V := by
      rw [confOf_append, confOf_of_no_conf ha]
      exact confOf_of_no_conf hb
    rw [hconf] at hQ'
    unfold Entry.applyConf at hQ'
    split at hQ'
    · exact apply_meet hV _ hQ hQ'
    · exact hQ.meet_self hQ'

/-- The protocol's rules: majorities of the configuration in the log. -/
def raftRules (voters : List NodeId) (hv : voters.Nodup) : Rules NodeId Entry where
  termOf := Entry.term
  isConf := Entry.isConf
  Quorum l Q := IsMajority (confOf voters l) Q
  inter := by
    intro p x y Q Q' hxy hQ hQ'
    rw [confOf_append] at hQ hQ'
    have hp := confOf_nodup hv p
    by_cases hx : x.countP Entry.isConf = 0
    · rw [confOf_of_no_conf hx] at hQ
      exact confOf_meet hp (by omega) hQ hQ'
    · rw [confOf_of_no_conf (l := y) (by omega)] at hQ'
      obtain ⟨v, h1, h2⟩ := confOf_meet hp (by omega) hQ' hQ
      exact ⟨v, h2, h1⟩

def lastTermOf (l : List Entry) : Nat := (l.getLast?.map Entry.term).getD 0

@[simp] theorem lastTermOf_nil : lastTermOf [] = 0 := rfl

@[simp] theorem lastTermOf_concat (l : List Entry) (e : Entry) : lastTermOf (l ++ [e]) = e.term := by
  simp [lastTermOf]

/-- The entry at position `i` (from 0) has index `i + 1`. -/
def Indexed (l : List Entry) : Prop := ∀ (i : Nat) (e : Entry), l[i]? = some e → e.index = i + 1

theorem Indexed.anti {l' : List Entry} (h : Indexed l) (hp : l' <+: l) : Indexed l' := by
  intro i e he
  obtain ⟨t, rfl⟩ := hp
  have hi := (List.getElem?_eq_some_iff.1 he).1
  exact h i e (by rw [getElem?_append_left hi]; exact he)

theorem Indexed.concat (h : Indexed l) (he : e.index = l.length + 1) : Indexed (l ++ [e]) := by
  intro i x hx
  rcases Nat.lt_trichotomy i l.length with hi | rfl | hi
  · rw [getElem?_append_left hi] at hx; exact h i x hx
  · simp at hx; rw [← hx]; exact he
  · rw [getElem?_eq_none (by simp; omega)] at hx; cases hx

theorem Indexed.map_drop (h : Indexed l) (a : Nat) :
    (l.drop a).map Entry.index = List.range' (a + 1) (l.length - a) := by
  refine ext_getElem (by simp) fun k h1 h2 => ?_
  rw [length_map, length_drop] at h1
  have hk := h (a + k) _ (getElem?_eq_getElem (by omega))
  rw [getElem_map, getElem_drop, getElem_range']
  omega

/-- `log` holds the part of a logical log above `base`. -/
structure LogRel (base : List Entry) (log : RaftLog) : Prop where
  len : log.snapIndex = base.length
  term : log.snapTerm = lastTermOf base

namespace LogRel

variable {base : List Entry} {log : RaftLog}

theorem lastIndex_eq (h : LogRel base log) : log.lastIndex = (base ++ log.entries).length := by
  rw [RaftLog.lastIndex, h.len, length_append]

theorem lastTerm_eq (h : LogRel base log) : log.lastTerm = lastTermOf (base ++ log.entries) := by
  unfold RaftLog.lastTerm
  rcases eq_nil_or_concat log.entries with he | ⟨l, e, he⟩
  · simp [he, h.term]
  · rw [he, concat_eq_append, ← append_assoc, lastTermOf_concat]; simp

theorem take_base (log : RaftLog) (idx : Nat) (hi : base.length < idx) (hle : idx ≤ (base ++ log.entries).length) :
    ∃ e, log.entries[idx - base.length - 1]? = some e ∧
      (base ++ log.entries).take idx = (base ++ log.entries).take (idx - 1) ++ [e] := by
  rw [length_append] at hle
  have hlt : idx - base.length - 1 < log.entries.length := by omega
  refine ⟨log.entries[idx - base.length - 1], getElem?_eq_getElem hlt, ?_⟩
  have h1 : idx = (idx - 1) + 1 := by omega
  have hget : (base ++ log.entries)[idx - 1]? = some log.entries[idx - base.length - 1] := by
    rw [getElem?_append_right (by omega), show idx - 1 - base.length = idx - base.length - 1 by omega]
    exact getElem?_eq_getElem hlt
  conv => lhs; rw [h1]
  rw [take_add_one, hget]; rfl

theorem term_eq (h : LogRel base log) (hb : base.length ≤ idx) (hle : idx ≤ (base ++ log.entries).length) :
    log.term idx = some (lastTermOf ((base ++ log.entries).take idx)) := by
  rcases Nat.lt_or_eq_of_le hb with hlt | rfl
  · obtain ⟨e, he, htake⟩ := take_base log idx hlt hle
    rw [htake, lastTermOf_concat, RaftLog.term, if_neg (by rw [h.len]; omega),
      if_neg (by rw [h.lastIndex_eq, h.len]; omega), h.len, he]; rfl
  · rw [RaftLog.term, if_pos h.len.symm, h.term, take_left]

theorem term_some (h : LogRel base log) {t : Nat} (ht : log.term idx = some t) :
    base.length ≤ idx ∧ idx ≤ (base ++ log.entries).length ∧
      lastTermOf ((base ++ log.entries).take idx) = t := by
  have hrange : base.length ≤ idx ∧ idx ≤ (base ++ log.entries).length := by
    unfold RaftLog.term at ht
    split at ht
    · rename_i hi; rw [hi, h.len, length_append]; omega
    · split at ht
      · cases ht
      · rename_i hi; rw [← h.len, ← h.lastIndex_eq]; omega
  refine ⟨hrange.1, hrange.2, ?_⟩
  rw [h.term_eq hrange.1 hrange.2] at ht
  exact Option.some.inj ht

theorem term_none (h : LogRel base log) (ht : log.term idx = none) :
    idx < base.length ∨ (base ++ log.entries).length < idx := by
  by_contra hc
  rw [h.term_eq (by omega) (by omega)] at ht
  cases ht

theorem get_eq (h : LogRel base log) :
    log.get idx = some e ↔ base.length < idx ∧ (base ++ log.entries)[idx - 1]? = some e := by
  rw [RaftLog.get_eq_some, h.len]
  refine and_congr_right fun hi => ?_
  rw [getElem?_append_right (by omega), show idx - 1 - base.length = idx - base.length - 1 by omega]

/-- A slice continues the logical log. -/
theorem slice_le (h : LogRel base log) {start max : Nat} (hb : base.length < start) :
    (base ++ log.entries).take (start - 1) ++ log.slice start max <+: base ++ log.entries := by
  have hmax : Nat.max start log.firstIndex = start := by
    rw [RaftLog.firstIndex, h.len]; exact Nat.max_eq_left hb
  simp only [RaftLog.slice, hmax]
  split
  · rw [append_nil]; exact take_prefix _ _
  · have hdrop : log.entries.drop (start - log.snapIndex - 1) = (base ++ log.entries).drop (start - 1) := by
      have hbase : base.drop (start - 1) = [] := drop_eq_nil_of_le (by omega)
      rw [drop_append, hbase, nil_append, h.len,
        show start - 1 - base.length = start - base.length - 1 by omega]
    rw [hdrop]
    have hsplit := take_append_drop (start - 1) (base ++ log.entries)
    conv => rhs; rw [← hsplit]
    exact (prefix_append_right_inj _).2 (List.take_prefix _ _)

end LogRel

/-! ## The voter computation -/

theorem takeWhile_index (idx : Nat) : ∀ (es : List Entry) (first : Nat),
    (∀ (i : Nat) (e : Entry), es[i]? = some e → e.index = first + i) →
    es.takeWhile (fun e => decide (e.index ≤ idx)) = es.take (idx + 1 - first)
  | [], _, _ => by simp
  | e :: es, first, h => by
    have h0 : e.index = first := by simpa using h 0 e rfl
    have hes : ∀ (i : Nat) (x : Entry), es[i]? = some x → x.index = first + 1 + i := by
      intro i x hx
      rw [h (i + 1) x (by simpa using hx)]; omega
    by_cases hi : first ≤ idx
    · rw [takeWhile_cons_of_pos (by simpa [h0] using hi), takeWhile_index idx es (first + 1) hes,
        show idx + 1 - first = (idx + 1 - (first + 1)) + 1 by omega, take_succ_cons]
    · rw [takeWhile_cons_of_neg (by simpa [h0] using hi), show idx + 1 - first = 0 by omega,
        take_zero]

/-- The voters at `idx` are the configuration of the logical log up to `idx`. -/
theorem votersAt_eq {n : RaftNode} {base : List Entry} {voters : List NodeId} (hl : LogRel base n.log)
    (hb : n.votersBase = confOf voters base) (hi : base.length ≤ idx) :
    n.votersAt idx = confOf voters ((base ++ n.log.entries).take idx) := by
  have htw := takeWhile_index idx n.log.entries (n.log.snapIndex + 1) n.log.contiguous
  unfold RaftNode.votersAt
  rw [htw, hb, take_append, take_of_length_le hi, confOf_append, hl.len,
    show idx + 1 - (base.length + 1) = idx - base.length by omega]; rfl

theorem voters_eq {n : RaftNode} {base : List Entry} {voters : List NodeId} (hl : LogRel base n.log)
    (hb : n.votersBase = confOf voters base) : n.voters = confOf voters (base ++ n.log.entries) := by
  have hlen := hl.lastIndex_eq
  rw [RaftNode.voters, votersAt_eq hl hb (by rw [hlen, length_append]; omega), hlen,
    take_length]

end RaftKv

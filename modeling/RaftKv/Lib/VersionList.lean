import Mathlib.Data.List.Sort
import Mathlib.Order.Basic
import RaftKv.Lib.FirstHit

/-!
# Sorted lists of versions

Versions listed by ascending key, and for each key from new to old: the first match of a lookup is
the newest version (`newest_lookup`).

A list that is put together from several sources may have a version more than once, and even with
several values. The first one counts (`firsts`, `distinct`).
-/

namespace Versions

open List

variable {K V : Type} [LinearOrder K] {a b c e : Version K V} {l l' : List (Version K V)} {k : K} {s m : Nat}

/-- `a` is listed before `b`: by key, then from new to old. -/
def Before (a b : Version K V) : Prop := a.1 < b.1 ∨ a.1 = b.1 ∧ b.2.1 < a.2.1

instance : DecidableRel (Before (K := K) (V := V)) := fun a b =>
  inferInstanceAs (Decidable (a.1 < b.1 ∨ a.1 = b.1 ∧ b.2.1 < a.2.1))

theorem Before.trans (h : Before a b) (h' : Before b c) : Before a c := by
  rcases h with h | ⟨h, hs⟩
  · rcases h' with h' | ⟨h', _⟩
    · exact .inl (h.trans h')
    · exact .inl (h' ▸ h)
  · rcases h' with h' | ⟨h', hs'⟩
    · exact .inl (h ▸ h')
    · exact .inr ⟨h.trans h', hs'.trans hs⟩

theorem Before.key_le (h : Before a b) : a.1 ≤ b.1 := by
  rcases h with h | ⟨h, _⟩
  · exact h.le
  · exact h.le

/-- Of two entries with the same version none is before the other. -/
theorem not_before_same (hkey : a.1 = b.1) (hseq : a.2.1 = b.2.1) : ¬ Before a b := by
  rintro (h | ⟨_, h⟩)
  · exact absurd hkey (ne_of_lt h)
  · exact absurd hseq.symm (Nat.ne_of_lt h)

theorem Before.irrefl (a : Version K V) : ¬ Before a a := not_before_same rfl rfl

theorem Before.asymm (h : Before a b) : ¬ Before b a := fun h' => Before.irrefl a (h.trans h')

/-- Listed in order, no earlier key is greater, and of the same key no earlier version is older. -/
theorem le_of_not_before (h : ¬ Before b a) : a.1 ≤ b.1 ∧ (a.1 = b.1 → b.2.1 ≤ a.2.1) := by
  constructor
  · by_contra hlt
    exact h (.inl (not_le.1 hlt))
  · intro heq
    by_contra hlt
    exact h (.inr ⟨heq.symm, Nat.not_le.1 hlt⟩)

/-- Of two entries that are not the same version, one is before the other. -/
theorem before_of_not_before (h : ¬ Before b a) (hne : ¬ (a.1 = b.1 ∧ a.2.1 = b.2.1)) : Before a b := by
  obtain ⟨hkey, hseq⟩ := le_of_not_before h
  rcases lt_or_eq_of_le hkey with hlt | heq
  · exact .inl hlt
  · exact .inr ⟨heq, lt_of_le_of_ne (hseq heq) fun hs => hne ⟨heq, hs.symm⟩⟩

theorem before_of_before_of_not_before (h : Before a b) (h' : ¬ Before c b) : Before a c := by
  by_cases hsame : b.1 = c.1 ∧ b.2.1 = c.2.1
  · unfold Before at h ⊢
    rw [← hsame.1, ← hsame.2]
    exact h
  · exact h.trans (before_of_not_before h' hsame)

/-- Listed in strict order. -/
def Sorted (l : List (Version K V)) : Prop := l.Pairwise Before

theorem Sorted.inOrder (h : Sorted l) : l.Pairwise fun a b => ¬ Before b a := h.imp Before.asymm

theorem Sorted.of_append (h : Sorted (l ++ l')) : Sorted l ∧ Sorted l' ∧ ∀ a ∈ l, ∀ b ∈ l', Before a b :=
  pairwise_append.1 h

theorem Sorted.nodup (h : Sorted l) : l.Nodup :=
  List.Pairwise.imp (fun {a b} (hab : Before a b) (heq : a = b) => Before.irrefl b (heq ▸ hab)) h

/-- Two strictly sorted lists with the same members are equal. -/
theorem Sorted.ext (h : Sorted l) (h' : Sorted l') (hmem : ∀ e, e ∈ l ↔ e ∈ l') : l = l' := by
  have hasymm : Std.Asymm (Before (K := K) (V := V)) := ⟨fun _ _ => Before.asymm⟩
  exact List.Pairwise.eq_of_mem_iff h h' hmem

/-- The first version of `k` up to `s`. -/
def lookup (l : List (Version K V)) (k : K) (s : Nat) : Option (Nat × Option V) :=
  (l.find? fun e => e.1 = k ∧ e.2.1 ≤ s).map Prod.snd

theorem lookup_append : lookup (l ++ l') k s = (lookup l k s).or (lookup l' k s) := by
  unfold lookup
  rw [find?_append]
  cases l.find? fun e => decide (e.1 = k ∧ e.2.1 ≤ s) <;> rfl

theorem lookup_eq_none : lookup l k s = none ↔ ∀ e ∈ l, e.1 = k → s < e.2.1 := by
  unfold lookup
  rw [Option.map_eq_none_iff, find?_eq_none]
  simp only [decide_eq_true_eq, not_and, Nat.not_le]

theorem lookup_cons : lookup (e :: l) k s = if e.1 = k ∧ e.2.1 ≤ s then some e.2 else lookup l k s := by
  unfold lookup
  by_cases h : e.1 = k ∧ e.2.1 ≤ s
  · simp [h]
  · rw [find?_cons_of_neg (by simpa using h), if_neg h]

/-- Above all versions, the snapshot does not matter. -/
theorem lookup_congr {s' : Nat} (h : ∀ e ∈ l, e.2.1 ≤ s) (h' : ∀ e ∈ l, e.2.1 ≤ s') : lookup l k s = lookup l k s' := by
  induction l with
  | nil => rfl
  | cons e l ih =>
    rw [lookup_cons, lookup_cons, ih (fun x hx => h x (mem_cons_of_mem _ hx)) fun x hx => h' x (mem_cons_of_mem _ hx)]
    simp [h e, h' e]

theorem exists_of_lookup {p : Nat × Option V} (h : lookup l k s = some p) : ∃ e ∈ l, e.1 = k := by
  unfold lookup at h
  obtain ⟨e, he, -⟩ := Option.map_eq_some_iff.1 h
  have hp := find?_some he
  exact ⟨e, mem_of_find?_eq_some he, (of_decide_eq_true hp).1⟩

/-- If the versions of each key are listed from new to old, the first match is the newest one. -/
theorem newest_lookup_of_newFirst (h : l.Pairwise fun a b => a.1 = b.1 → b.2.1 ≤ a.2.1) (k : K) (s : Nat) :
    Newest { e | e ∈ l } k s (lookup l k s) := by
  cases hl : lookup l k s with
  | none =>
    intro t v hm
    exact lookup_eq_none.1 hl _ hm rfl
  | some p =>
    unfold lookup at hl
    obtain ⟨e, he, rfl⟩ := Option.map_eq_some_iff.1 hl
    obtain ⟨hp, l₁, l₂, rfl, hl₁⟩ := find?_eq_some_iff_append.1 he
    obtain ⟨rfl, hs⟩ := of_decide_eq_true hp
    obtain ⟨_, hl₂, _⟩ := pairwise_append.1 h
    refine ⟨by simp, hs, fun t' v' hm hle => ?_⟩
    rcases mem_append.1 hm with hm | hm
    · have hno := hl₁ _ hm
      simp [hle] at hno
    · rcases mem_cons.1 hm with hm | hm
      · rw [← hm]
      · exact (pairwise_cons.1 hl₂).1 _ hm rfl

/-- In a sorted list the first match is the newest one. -/
theorem newest_lookup (h : Sorted l) (k : K) (s : Nat) : Newest { e | e ∈ l } k s (lookup l k s) := by
  refine newest_lookup_of_newFirst (h.imp ?_) k s
  rintro a b (hlt | ⟨-, hlt⟩) heq
  · exact absurd heq (ne_of_lt hlt)
  · exact hlt.le

/-! ## The first of each version -/

/-- The versions of `l`, each with the value that is listed first. -/
def firsts (l : List (Version K V)) : Set (Version K V) := { e | l.find? (fun x => x.1 = e.1 ∧ x.2.1 = e.2.1) = some e }

/-- The same as a list. -/
def distinct : List (Version K V) → List (Version K V)
  | [] => []
  | e :: l => e :: (distinct l).filter fun x => ¬ (x.1 = e.1 ∧ x.2.1 = e.2.1)

theorem firsts_subset : firsts l ⊆ { e | e ∈ l } := fun _ he => mem_of_find?_eq_some he

theorem single_firsts (l : List (Version K V)) : Single (firsts l) := by
  intro k t v v' hv hv'
  have heq := Option.some.inj (hv.symm.trans hv')
  exact congrArg (fun e : Version K V => e.2.2) heq

/-- Every version is listed first somewhere. -/
theorem exists_firsts {t : Nat} {v : Option V} (h : (k, t, v) ∈ l) : ∃ v', (k, t, v') ∈ firsts l := by
  cases hf : l.find? fun x => decide (x.1 = k ∧ x.2.1 = t) with
  | none =>
    have hno := find?_eq_none.1 hf _ h
    simp at hno
  | some x =>
    have hx := find?_some hf
    obtain ⟨rfl, rfl⟩ := of_decide_eq_true hx
    exact ⟨x.2.2, hf⟩

/-- What is newest among the first ones is newest among all. -/
theorem Newest.of_firsts {r : Option (Nat × Option V)} (h : Newest (firsts l) k s r) : Newest { e | e ∈ l } k s r := by
  cases r with
  | none =>
    intro t v hv
    obtain ⟨_, hv'⟩ := exists_firsts hv
    exact h t _ hv'
  | some q =>
    refine ⟨firsts_subset h.1, h.2.1, fun t v hv => ?_⟩
    obtain ⟨_, hv'⟩ := exists_firsts hv
    exact h.2.2 t _ hv'

/-- The first match of a lookup is the first of its version. -/
theorem mem_firsts_of_lookup {t : Nat} {v : Option V} (h : lookup l k s = some (t, v)) : (k, t, v) ∈ firsts l := by
  unfold lookup at h
  obtain ⟨⟨k', t', v'⟩, he, hval⟩ := Option.map_eq_some_iff.1 h
  cases hval
  obtain ⟨hp, l₁, l₂, rfl, hl₁⟩ := find?_eq_some_iff_append.1 he
  obtain ⟨rfl, hs⟩ := of_decide_eq_true hp
  refine find?_eq_some_iff_append.2 ⟨by simp, l₁, l₂, rfl, fun x hx => ?_⟩
  have hno := hl₁ x hx
  simp only [Bool.not_eq_true', decide_eq_false_iff_not] at hno ⊢
  rintro ⟨hkey, hseq⟩
  exact hno ⟨hkey, hseq ▸ hs⟩

/-- In a list that is in order, the first match has the first value of the newest version. -/
theorem newest_firsts (hord : l.Pairwise fun a b => ¬ Before b a) (k : K) (s : Nat) :
    Newest (firsts l) k s (lookup l k s) := by
  have hnew := newest_lookup_of_newFirst (hord.imp fun h => (le_of_not_before h).2) k s
  cases hl : lookup l k s with
  | none =>
    rw [hl] at hnew
    exact fun t v hv => hnew t v (firsts_subset hv)
  | some p =>
    rw [hl] at hnew
    exact ⟨mem_firsts_of_lookup hl, hnew.2.1, fun t v hv => hnew.2.2 t v (firsts_subset hv)⟩

theorem firsts_of_single (h : Single { e | e ∈ l }) : firsts l = { e | e ∈ l } := by
  refine Set.Subset.antisymm firsts_subset fun e he => ?_
  obtain ⟨v, hv⟩ := exists_firsts (k := e.1) (t := e.2.1) (v := e.2.2) he
  obtain rfl : v = e.2.2 := h (firsts_subset hv) he
  exact hv

theorem Sorted.single (h : Sorted l) : Single { e | e ∈ l } := by
  have hirr : ∀ {k : K} {t : Nat} {v v' : Option V}, ¬ Before (k, t, v) (k, t, v') := not_before_same rfl rfl
  induction l with
  | nil => exact fun k t v v' hv => (by cases hv)
  | cons a l ih =>
    obtain ⟨ha, hl⟩ := pairwise_cons.1 h
    intro k t v v' hv hv'
    rcases mem_cons.1 hv with rfl | hm
    · rcases mem_cons.1 hv' with heq | hm'
      · exact (congrArg (fun e : Version K V => e.2.2) heq).symm
      · exact absurd (ha _ hm') hirr
    · rcases mem_cons.1 hv' with rfl | hm'
      · exact absurd (ha _ hm) hirr
      · exact ih hl hm hm'

theorem firsts_append (l l' : List (Version K V)) : firsts (l ++ l') = atop (firsts l) (firsts l') := by
  ext e
  show List.find? _ (l ++ l') = some e ↔ _
  rw [find?_append]
  cases hf : l.find? fun x => decide (x.1 = e.1 ∧ x.2.1 = e.2.1) with
  | some x =>
    have hfound := find?_some hf
    have hx := of_decide_eq_true hfound
    constructor
    · intro h
      exact .inl (hf.trans h)
    · rintro (h | ⟨-, hno⟩)
      · exact hf.symm.trans h
      · obtain ⟨v, hv⟩ := exists_firsts (k := x.1) (t := x.2.1) (v := x.2.2) (mem_of_find?_eq_some hf)
        rw [hx.1, hx.2] at hv
        exact absurd hv (hno v)
  | none =>
    have hno : ∀ v, (e.1, e.2.1, v) ∉ firsts l := by
      intro v hv
      have hx := find?_eq_none.1 hf _ (firsts_subset hv)
      simp at hx
    constructor
    · exact fun h => .inr ⟨h, hno⟩
    · rintro (h | ⟨h, -⟩)
      · exact absurd h (hno e.2.2)
      · exact h

/-- All entries of some keys. -/
theorem firsts_filter (P : K → Prop) [DecidablePred P] (l : List (Version K V)) :
    firsts (l.filter fun e => P e.1) = { e ∈ firsts l | P e.1 } := by
  ext e
  show List.find? _ (l.filter _) = some e ↔ List.find? _ l = some e ∧ P e.1
  rw [find?_filter]
  by_cases hP : P e.1
  · have hsame : (fun x : Version K V => decide (decide (P x.1) = true ∧ decide (x.1 = e.1 ∧ x.2.1 = e.2.1) = true)) =
        fun x => decide (x.1 = e.1 ∧ x.2.1 = e.2.1) := by
      funext x
      by_cases hx : x.1 = e.1
      · simp [hx, hP]
      · simp [hx]
    rw [hsame]
    exact ⟨fun h => ⟨h, hP⟩, fun h => h.1⟩
  · constructor
    · intro h
      have hx := find?_some h
      simp only [decide_eq_true_eq] at hx
      exact absurd hx.1 hP
    · exact fun h => absurd h.2 hP

theorem mem_distinct : ∀ {l : List (Version K V)}, e ∈ distinct l ↔ e ∈ firsts l := by
  intro l
  induction l with
  | nil => simp [distinct, firsts]
  | cons x l ih =>
    show e ∈ distinct (x :: l) ↔ List.find? _ (x :: l) = some e
    rw [distinct, mem_cons, mem_filter, ih]
    by_cases hx : x.1 = e.1 ∧ x.2.1 = e.2.1
    · rw [find?_cons_of_pos (by simpa using hx)]
      simp only [hx.1, hx.2, and_self, not_true_eq_false, decide_false, Bool.false_eq_true, and_false, or_false,
        Option.some.injEq]
      exact eq_comm
    · rw [find?_cons_of_neg (by simpa using hx)]
      have hne : e ≠ x := by
        rintro rfl
        exact hx ⟨rfl, rfl⟩
      have hx' : ¬ (e.1 = x.1 ∧ e.2.1 = x.2.1) := fun h => hx ⟨h.1.symm, h.2.symm⟩
      simp only [hne, false_or, hx', not_false_eq_true, decide_true, and_true]
      exact Iff.rfl

/-- Entries in order, each version once. -/
theorem sorted_of_distinct (hord : l.Pairwise fun a b => ¬ Before b a)
    (hne : l.Pairwise fun a b => ¬ (a.1 = b.1 ∧ a.2.1 = b.2.1)) : Sorted l :=
  (hord.and hne).imp fun h => before_of_not_before h.1 h.2

theorem pairwise_distinct : ∀ l : List (Version K V), (distinct l).Pairwise fun a b => ¬ (a.1 = b.1 ∧ a.2.1 = b.2.1)
  | [] => .nil
  | e :: l => by
    refine pairwise_cons.2 ⟨fun x hx => ?_, (pairwise_distinct l).sublist filter_sublist⟩
    have hx := (mem_filter.1 hx).2
    simp only [decide_eq_true_eq] at hx
    exact fun h => hx ⟨h.1.symm, h.2.symm⟩

theorem distinct_sublist : ∀ l : List (Version K V), List.Sublist (distinct l) l
  | [] => .slnil
  | e :: l => (filter_sublist.trans (distinct_sublist l)).cons_cons e

theorem sorted_distinct (hord : l.Pairwise fun a b => ¬ Before b a) : Sorted (distinct l) :=
  sorted_of_distinct (hord.sublist (distinct_sublist l)) (pairwise_distinct l)

/-- In a list that is in order, the entries with one version stand together: between those before it and those after
it. -/
theorem together {p : Version K V → Bool} (hp : ∀ x, p x = true ↔ x.1 = e.1 ∧ x.2.1 = e.2.1)
    (hord : l.Pairwise fun a b => ¬ Before b a) :
    l = l.filter (fun x => Before x e) ++ l.filter p ++ l.filter (fun x => Before e x) := by
  induction l with
  | nil => rfl
  | cons a l ih =>
    obtain ⟨hle, hl⟩ := pairwise_cons.1 hord
    have ih := ih hl
    by_cases hbefore : Before a e
    · have hpa : ¬ p a = true := fun h => not_before_same ((hp a).1 h).1 ((hp a).1 h).2 hbefore
      simpa [hbefore, hpa, hbefore.asymm] using ih
    · -- nothing that follows `a` is before `e`
      have hnone : l.filter (fun x => Before x e) = [] := by
        rw [filter_eq_nil_iff]
        intro x hx hxe
        exact hle x hx (before_of_before_of_not_before (by simpa using hxe) hbefore)
      by_cases hpa : p a = true
      · have hafter : ¬ Before e a := not_before_same ((hp a).1 hpa).1.symm ((hp a).1 hpa).2.symm
        simpa [hbefore, hpa, hafter, hnone] using ih
      · have hafter : Before e a := before_of_not_before hbefore fun h => hpa ((hp a).2 ⟨h.1.symm, h.2.symm⟩)
        have hno : l.filter p = [] := by
          rw [filter_eq_nil_iff]
          intro x hx hpx
          have hsame := (hp x).1 hpx
          unfold Before at hafter
          rw [← hsame.1, ← hsame.2] at hafter
          exact hle x hx hafter
        simpa [hbefore, hpa, hafter, hnone, hno] using ih

/-- In a list that is in order, an entry is followed by those with the same version. -/
theorem distinct_cons (hord : (e :: l).Pairwise fun a b => ¬ Before b a) :
    (∃ x d, distinct l = x :: d ∧ x.1 = e.1 ∧ x.2.1 = e.2.1 ∧ distinct (e :: l) = e :: d) ∨
      distinct (e :: l) = e :: distinct l := by
  obtain ⟨hle, hl⟩ := pairwise_cons.1 hord
  have hsorted := sorted_distinct hl
  rw [distinct]
  cases hd : distinct l with
  | nil => exact .inr rfl
  | cons x d =>
    rw [hd] at hsorted
    have hx := (pairwise_cons.1 hsorted).1
    by_cases hsame : x.1 = e.1 ∧ x.2.1 = e.2.1
    · refine .inl ⟨x, d, rfl, hsame.1, hsame.2, ?_⟩
      rw [filter_cons_of_neg (by simpa using hsame), filter_eq_self.2 fun y hy => ?_]
      refine decide_eq_true fun h => ?_
      exact not_before_same (hsame.1.trans h.1.symm) (hsame.2.trans h.2.symm) (hx y hy)
    · have hmem : x ∈ l := (distinct_sublist l).subset (by rw [hd]; exact mem_cons_self ..)
      have hafter : Before e x := before_of_not_before (hle x hmem) fun h => hsame ⟨h.1.symm, h.2.symm⟩
      refine .inr ?_
      rw [filter_eq_self.2 fun y hy => ?_]
      refine decide_eq_true fun h => not_before_same h.1.symm h.2.symm ?_
      rcases mem_cons.1 hy with rfl | hy
      · exact hafter
      · exact hafter.trans (hx y hy)

end Versions

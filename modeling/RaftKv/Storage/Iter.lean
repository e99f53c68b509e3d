import Mathlib.Algebra.Order.Group.Nat
import Mathlib.Algebra.BigOperators.Group.List.Basic
import RaftKv.Lib.VersionList
import RaftKv.Storage.Coding

/-!
# Merging sorted sources

`MergeIter` repeatedly takes the smallest head of its sources, found by a scan over all of them;
between equal heads the first source wins. The result is a merge: sorted, with all the entries, and
stable (`mergeAll_sorted`, `mergeAll_perm`, `filter_mergeAll`). `VisibleIter` then lets through one version of each
key, the newest one up to its snapshot (`mem_visible`).

| here | there |
| --- | --- |
| `MergeIter.bestHead` | the loop over the heads (`iter.rs:34-50`) |
| `MergeIter.next`, `mergeAll` | `MergeIter::next` (`iter.rs:29`), run to its end |
| `visible` | `VisibleIter::next` (`iter.rs:77`), run to its end |
-/

namespace RaftKv.Storage

open Versions

namespace MergeIter

/-- The head `(k, s)` is taken instead of the best one so far. -/
def takes (best : Option (Nat × Bytes × Nat)) (k : Bytes) (s : Nat) : Bool :=
  match best with
  | none => true
  -- a higher seq comes first
  | some (_, bk, bs) => k < bk ∨ k = bk ∧ s > bs

/-- The index of the source with the smallest head, and the head; the sources are numbered from `i`. -/
def bestHead : Nat → Option (Nat × Bytes × Nat) → List (List Entry) → Option (Nat × Bytes × Nat)
  | _, best, [] => best
  | i, best, [] :: srcs => bestHead (i + 1) best srcs
  | i, best, ((k, s, _) :: _) :: srcs => bestHead (i + 1) (if takes best k s then some (i, k, s) else best) srcs

def next (sources : List (List Entry)) : Option (Entry × List (List Entry)) :=
  match bestHead 0 none sources with
  | none => none
  | some (i, _) =>
    match sources[i]? with
    | some (e :: es) => some (e, sources.set i es)
    | _ => none

/-- How many entries are left. -/
def size (sources : List (List Entry)) : Nat := (sources.map List.length).sum

variable {sources sources' srcs pre : List (List Entry)} {e : Entry} {es : List Entry}
  {best : Option (Nat × Bytes × Nat)} {i : Nat}

theorem next_some (h : next sources = some (e, sources')) :
    ∃ i k s es, bestHead 0 none sources = some (i, k, s) ∧ sources[i]? = some (e :: es) ∧
      sources' = sources.set i es := by
  unfold next at h
  split at h
  · cases h
  · rename_i i p hb
    split at h
    · rename_i e' es' hi
      cases h
      exact ⟨i, p.1, p.2, es', hb, hi, rfl⟩
    · cases h

theorem flatten_set_perm (h : sources[i]? = some (e :: es)) :
    (e :: (sources.set i es).flatten).Perm sources.flatten := by
  obtain ⟨hi, heq⟩ := List.getElem?_eq_some_iff.1 h
  have hsplit : sources = sources.take i ++ (e :: es) :: sources.drop (i + 1) := by
    rw [← heq, List.getElem_cons_drop, List.take_append_drop]
  have hset : sources.set i es = sources.take i ++ es :: sources.drop (i + 1) :=
    List.set_eq_take_append_cons_drop .. |>.trans
    (if_pos hi)
  rw [hset]
  conv_rhs => rw [hsplit]
  simp only [List.flatten_append]
  exact (List.perm_middle).symm

theorem size_eq (sources : List (List Entry)) : size sources = sources.flatten.length := by
  rw [size, List.length_flatten]

theorem next_lt (h : next sources = some (e, sources')) : size sources' < size sources := by
  obtain ⟨i, _, _, es, _, hi, rfl⟩ := next_some h
  have hp := (flatten_set_perm hi).length_eq
  rw [size_eq, size_eq, ← hp, List.length_cons]
  omega

/-- All that `next` yields. -/
def mergeAll (sources : List (List Entry)) : List Entry :=
  match h : next sources with
  | none => []
  | some (e, sources') =>
    have : size sources' < size sources := next_lt h
    e :: mergeAll sources'
termination_by size sources

/-! ## The smallest head -/

/-- The head of a source is not before `(k, s)`. -/
def NotBefore (src : List Entry) (k : Bytes) (s : Nat) : Prop := ∀ e ∈ src.head?, ¬ Before e (k, s, none)

/-- `best` is the smallest head of `pre`. -/
def Best (pre : List (List Entry)) : Option (Nat × Bytes × Nat) → Prop
  | none => ∀ src ∈ pre, src = []
  | some (j, k, s) => (∃ v es, pre[j]? = some ((k, s, v) :: es)) ∧ ∀ src ∈ pre, NotBefore src k s

theorem Best.bestHead {pre : List (List Entry)} (h : Best pre best) :
    Best (pre ++ srcs) (bestHead pre.length best srcs) := by
  induction srcs generalizing pre best with
  | nil => rw [List.append_nil]; exact h
  | cons src srcs ih =>
    have hsplit : pre ++ src :: srcs = pre ++ [src] ++ srcs := by simp
    have hlen : pre.length + 1 = (pre ++ [src]).length := by simp
    rw [hsplit]
    cases src with
    | nil =>
      rw [MergeIter.bestHead, hlen]
      refine ih ?_
      cases best with
      | none =>
        intro src hsrc
        rcases List.mem_append.1 hsrc with hsrc | hsrc
        · exact h src hsrc
        · exact List.mem_singleton.1 hsrc
      | some p =>
        obtain ⟨⟨v, es, hj⟩, hall⟩ := h
        refine ⟨⟨v, es, ?_⟩, fun src hsrc => ?_⟩
        · rw [List.getElem?_append_left (List.getElem?_eq_some_iff.1 hj).1, hj]
        · rcases List.mem_append.1 hsrc with hsrc | hsrc
          · exact hall src hsrc
          · rw [List.mem_singleton.1 hsrc]
            exact fun e he => (by cases he)
    | cons x xs =>
      obtain ⟨k, s, v⟩ := x
      rw [MergeIter.bestHead, hlen]
      refine ih ?_
      by_cases ht : takes best k s = true
      · rw [if_pos ht]
        refine ⟨⟨v, xs, by simp⟩, fun src hsrc => ?_⟩
        rcases List.mem_append.1 hsrc with hsrc | hsrc
        · cases best with
          | none => rw [h src hsrc]; exact fun e he => (by cases he)
          | some p =>
            -- the new head is before the old best one
            obtain ⟨j, bk, bs⟩ := p
            have hlt : k < bk ∨ k = bk ∧ s > bs := by simpa [takes] using ht
            exact fun e he hbefore => h.2 src hsrc e he (hbefore.trans hlt)
        · rw [List.mem_singleton.1 hsrc]
          rintro e he
          cases he
          rintro (hlt | ⟨_, hlt⟩)
          · exact lt_irrefl _ hlt
          · exact lt_irrefl _ hlt
      · rw [if_neg ht]
        cases best with
        | none => exact absurd rfl ht
        | some p =>
          obtain ⟨⟨v', es, hj⟩, hall⟩ := h
          refine ⟨⟨v', es, ?_⟩, fun src hsrc => ?_⟩
          · rw [List.getElem?_append_left (List.getElem?_eq_some_iff.1 hj).1, hj]
          · rcases List.mem_append.1 hsrc with hsrc | hsrc
            · exact hall src hsrc
            · rw [List.mem_singleton.1 hsrc]
              rintro e he
              cases he
              intro hbefore
              have hlt : k < p.2.1 ∨ k = p.2.1 ∧ s > p.2.2 := hbefore
              exact ht (by simpa [takes] using hlt)

theorem bestHead_best (sources : List (List Entry)) : Best sources (bestHead 0 none sources) := by
  have h : Best [] none := fun src hsrc => (by cases hsrc)
  exact h.bestHead

/-! ## The merge -/

/-- `next` yields an entry than which no other is smaller. -/
theorem next_min (h : next sources = some (e, sources')) (hs : ∀ src ∈ sources, src.Pairwise fun a b => ¬ Before b a) :
    ∀ x ∈ sources.flatten, ¬ Before x e := by
  obtain ⟨i, k, s, es, hb, hi, rfl⟩ := next_some h
  have hbest := bestHead_best sources
  rw [hb] at hbest
  obtain ⟨⟨v, es', hi'⟩, hall⟩ := hbest
  rw [hi] at hi'
  obtain ⟨rfl, rfl⟩ := List.cons.inj (Option.some.inj hi')
  intro x hx hbefore
  obtain ⟨src, hsrc, hxs⟩ := List.mem_flatten.1 hx
  cases src with
  | nil => cases hxs
  | cons y ys =>
    have hy := hall _ hsrc y rfl
    rcases List.mem_cons.1 hxs with rfl | hxs
    · exact hy hbefore
    · -- the head is before `x`, or the same version
      have hle := (List.pairwise_cons.1 (hs _ hsrc)).1 x hxs
      exact hle (before_of_before_of_not_before hbefore hy)

theorem next_sorted (h : next sources = some (e, sources'))
    (hs : ∀ src ∈ sources, src.Pairwise fun a b => ¬ Before b a) :
    ∀ src ∈ sources', src.Pairwise fun a b => ¬ Before b a := by
  obtain ⟨i, _, _, es, _, hi, rfl⟩ := next_some h
  intro src hsrc
  rcases List.mem_or_eq_of_mem_set hsrc with hsrc | rfl
  · exact hs src hsrc
  · exact (List.pairwise_cons.1 (hs _ (List.mem_of_getElem? hi))).2

theorem next_perm (h : next sources = some (e, sources')) : (e :: sources'.flatten).Perm sources.flatten := by
  obtain ⟨i, _, _, es, _, hi, rfl⟩ := next_some h
  exact flatten_set_perm hi

theorem next_none (h : next sources = none) : sources.flatten = [] := by
  have hbest := bestHead_best sources
  unfold next at h
  split at h
  · rename_i hb
    rw [hb] at hbest
    rw [List.flatten_eq_nil_iff]
    exact hbest
  · rename_i i p hb
    rw [hb] at hbest
    obtain ⟨⟨v, es, hi⟩, _⟩ := hbest
    rw [hi] at h
    cases h

theorem mergeAll_perm (sources : List (List Entry)) : (mergeAll sources).Perm sources.flatten := by
  fun_induction mergeAll sources with
  | case1 sources h => rw [next_none h]
  | case2 sources e sources' h _ ih => exact (ih.cons e).trans (next_perm h)

theorem mem_mergeAll : e ∈ mergeAll sources ↔ ∃ src ∈ sources, e ∈ src := by
  rw [(mergeAll_perm sources).mem_iff, List.mem_flatten]

/-- No entry is before an earlier one. -/
theorem mergeAll_sorted (hs : ∀ src ∈ sources, src.Pairwise fun a b => ¬ Before b a) :
    (mergeAll sources).Pairwise fun a b => ¬ Before b a := by
  fun_induction mergeAll sources with
  | case1 sources h => exact List.Pairwise.nil
  | case2 sources e sources' h _ ih =>
    refine List.pairwise_cons.2 ⟨fun x hx => ?_, ih (next_sorted h hs)⟩
    refine next_min h hs x ((next_perm h).subset (List.mem_cons_of_mem _ ?_))
    exact (mergeAll_perm sources').subset hx

/-! ## The order of equal heads -/

/-- No earlier source begins with the version of the best head. -/
def Lead (pre : List (List Entry)) : Option (Nat × Bytes × Nat) → Prop
  | none => True
  | some (j, k, s) => ∀ src ∈ pre.take j, ∀ e ∈ src.head?, ¬ (e.1 = k ∧ e.2.1 = s)

theorem lead_bestHead (h : Best pre best) (hl : Lead pre best) :
    Lead (pre ++ srcs) (bestHead pre.length best srcs) := by
  induction srcs generalizing pre best with
  | nil => rw [List.append_nil]; exact hl
  | cons src srcs ih =>
    have hstep : bestHead pre.length best (src :: srcs) = bestHead (pre.length + 1)
      (bestHead pre.length best [src]) srcs := by
      cases src <;> rfl
    have hlen : pre.length + 1 = (pre ++ [src]).length := by simp
    have hbest : Best (pre ++ [src]) (bestHead pre.length best [src]) := h.bestHead
    have hkeep : Lead (pre ++ [src]) best := by
      cases best with
      | none => trivial
      | some p =>
        obtain ⟨⟨v, es, hj⟩, -⟩ := h
        have hlt := (List.getElem?_eq_some_iff.1 hj).1
        intro src' hsrc'
        rw [List.take_append_of_le_length (le_of_lt hlt)] at hsrc'
        exact hl src' hsrc'
    rw [hstep, hlen, List.append_cons]
    refine ih hbest ?_
    cases src with
    | nil => exact hkeep
    | cons x xs =>
      obtain ⟨k, s, v⟩ := x
      show Lead _ (if takes best k s then some (pre.length, k, s) else best)
      split
      · rename_i htake
        intro src' hsrc' e he hsame
        rw [List.take_left] at hsrc'
        cases best with
        | none =>
          rw [h src' hsrc'] at he
          cases he
        | some p =>
          -- the head is before the best one, and that is not after the others
          have hlt : k < p.2.1 ∨ k = p.2.1 ∧ s > p.2.2 := by simpa [takes] using htake
          refine h.2 src' hsrc' e he ?_
          unfold Before
          rw [hsame.1, hsame.2]
          exact hlt
      · exact hkeep

/-- The source that `next` takes from, and that no source before it has the same version. -/
theorem next_split (h : next sources = some (e, sources'))
    (hs : ∀ src ∈ sources, src.Pairwise fun a b => ¬ Before b a) :
    ∃ pre es post, sources = pre ++ (e :: es) :: post ∧ sources' = pre ++ es :: post ∧
      ∀ x ∈ pre.flatten, ¬ (x.1 = e.1 ∧ x.2.1 = e.2.1) := by
  have hmin := next_min h hs
  obtain ⟨i, k, s, es, hb, hi, rfl⟩ := next_some h
  have hbest := bestHead_best sources
  have hnil : Best [] none := fun src hsrc => (by cases hsrc)
  have hlead : Lead sources (bestHead 0 none sources) := lead_bestHead hnil trivial
  rw [hb] at hbest hlead
  obtain ⟨⟨v, es', hi'⟩, -⟩ := hbest
  rw [hi] at hi'
  obtain ⟨rfl, rfl⟩ := List.cons.inj (Option.some.inj hi')
  obtain ⟨hlt, heq⟩ := List.getElem?_eq_some_iff.1 hi
  refine ⟨sources.take i, es, sources.drop (i + 1), ?_, ?_, fun x hx hsame => ?_⟩
  · rw [← heq, List.getElem_cons_drop, List.take_append_drop]
  · rw [List.set_eq_take_append_cons_drop, if_pos hlt]
  · obtain ⟨src, hsrc, hx⟩ := List.mem_flatten.1 hx
    have hmem : src ∈ sources := List.mem_of_mem_take hsrc
    cases src with
    | nil => cases hx
    | cons y ys =>
      rcases List.mem_cons.1 hx with rfl | hx
      · exact hlead _ hsrc x rfl hsame
      · -- a later entry of a source is not before its head, which is after `e`
        have hle := (List.pairwise_cons.1 (hs _ hmem)).1 x hx
        have hhead := hmin y (List.mem_flatten.2 ⟨_, hmem, by simp⟩)
        have hbefore := before_of_not_before hhead fun h => hlead _ hsrc y rfl ⟨h.1.symm, h.2.symm⟩
        refine hle ?_
        unfold Before at hbefore ⊢
        rw [hsame.1, hsame.2]
        exact hbefore

/-- The entries with one version are merged in the order of the sources. -/
theorem filter_mergeAll {p : Entry → Bool} (hp : ∀ x y, p x = true → p y = true → x.1 = y.1 ∧ x.2.1 = y.2.1)
    (hs : ∀ src ∈ sources, src.Pairwise fun a b => ¬ Before b a) :
    (mergeAll sources).filter p = sources.flatten.filter p := by
  fun_induction mergeAll sources with
  | case1 sources h => rw [next_none h]
  | case2 sources e sources' h _ ih =>
    have ih := ih (next_sorted h hs)
    obtain ⟨pre, es, post, rfl, rfl, hpre⟩ := next_split h hs
    rw [List.filter_cons, ih, List.flatten_append, List.flatten_append, List.flatten_cons, List.flatten_cons]
    by_cases he : p e = true
    · have hnone : pre.flatten.filter p = [] := by
        rw [List.filter_eq_nil_iff]
        exact fun x hx hpx => hpre x hx (hp x e hpx he)
      simp only [List.filter_append, hnone, List.nil_append, List.cons_append, List.filter_cons]
    · simp only [List.filter_append, List.filter_cons, if_neg he]

/-- The first value of each version is that of the first source that has it. -/
theorem firsts_mergeAll (hs : ∀ src ∈ sources, src.Pairwise fun a b => ¬ Before b a) :
    firsts (mergeAll sources) = firsts sources.flatten := by
  ext e
  show List.find? _ _ = some e ↔ List.find? _ _ = some e
  rw [← List.head?_filter, ← List.head?_filter, filter_mergeAll _ hs]
  intro x y hx hy
  simp only [decide_eq_true_eq] at hx hy
  exact ⟨hx.1.trans hy.1.symm, hx.2.trans hy.2.symm⟩

end MergeIter

/-! ## The visible versions -/

/-- `current` is the key that was decided last. -/
def visible (snapshot : Nat) : Option Bytes → List Entry → List (Bytes × Option Bytes)
  | _, [] => []
  | current, (k, s, v) :: es =>
    if current = some k then visible snapshot current es
    -- too new; there may be older versions
    else if s > snapshot then visible snapshot current es
    else (k, v) :: visible snapshot (some k) es

section visible
variable {es : List Entry} {snapshot : Nat} {current : Option Bytes} {k : Bytes} {v : Option Bytes}

/-- Of each key that is not decided yet, the first version up to the snapshot. -/
theorem mem_visible (hs : es.Pairwise fun a b => ¬ Before b a) (hcur : ∀ c ∈ current, ∀ e ∈ es, c ≤ e.1) :
    (k, v) ∈ visible snapshot current es ↔ current ≠ some k ∧ ∃ t, lookup es k snapshot = some (t, v) := by
  induction es generalizing current with
  | nil => simp [visible, lookup]
  | cons e es ih =>
    obtain ⟨k₀, s₀, v₀⟩ := e
    obtain ⟨hle, hs'⟩ := List.pairwise_cons.1 hs
    have hkey : ∀ e ∈ es, k₀ ≤ e.1 := fun e he => not_lt.1 fun hlt => hle e he (Or.inl hlt)
    have hcur' : ∀ c ∈ current, ∀ e ∈ es, c ≤ e.1 := fun c hc e he => hcur c hc e (List.mem_cons_of_mem _ he)
    rw [lookup_cons]
    unfold visible
    split
    · rename_i hdone
      rw [ih hs' hcur']
      by_cases hk : k₀ = k
      · simp [hdone, hk]
      · simp [hk]
    · rename_i hnew
      split
      · rename_i htoo
        rw [ih hs' hcur', if_neg (fun h => absurd htoo (not_lt.2 h.2))]
      · rename_i hin
        rw [List.mem_cons, ih hs' (fun c hc e he => (Option.mem_some_iff.1 hc) ▸ hkey e he)]
        by_cases hk : k₀ = k
        · subst hk
          simp [not_lt.1 hin, hnew, eq_comm]
        · have hstill : (∃ t, lookup es k snapshot = some (t, v)) → current ≠ some k := by
            rintro ⟨t, ht⟩ rfl
            -- the decided key is before all of the rest
            obtain ⟨e, he, rfl⟩ := exists_of_lookup ht
            exact hk (le_antisymm (hkey e he) (hcur _ rfl _ (List.mem_cons_self ..)))
          simp only [hk, false_and, Prod.mk.injEq, Option.some.injEq, ne_eq, not_false_eq_true, true_and,
            Ne.symm hk, false_or]
          exact ⟨fun h => ⟨hstill h, h⟩, fun h => h.2⟩

/-- The keys are listed in ascending order, each once. -/
theorem visible_ascending (snapshot : Nat) (current : Option Bytes) (hs : es.Pairwise fun a b => ¬ Before b a)
    (hcur : ∀ c ∈ current, ∀ e ∈ es, c ≤ e.1) : (visible snapshot current es).Pairwise fun a b => a.1 < b.1 := by
  induction es generalizing current with
  | nil => exact List.Pairwise.nil
  | cons e es ih =>
    obtain ⟨k₀, s₀, v₀⟩ := e
    obtain ⟨hle, hs'⟩ := List.pairwise_cons.1 hs
    have hkey : ∀ c ∈ some k₀, ∀ e ∈ es, c ≤ e.1 := by
      rintro c ⟨⟩ e he
      exact not_lt.1 fun hlt => hle e he (Or.inl hlt)
    have hcur' : ∀ c ∈ current, ∀ e ∈ es, c ≤ e.1 := fun c hc e he => hcur c hc e (List.mem_cons_of_mem _ he)
    unfold visible
    split
    · exact ih _ hs' hcur'
    · split
      · exact ih _ hs' hcur'
      · refine List.pairwise_cons.2 ⟨fun p hp => ?_, ih _ hs' hkey⟩
        obtain ⟨hne, t, ht⟩ := (mem_visible hs' hkey).1 hp
        obtain ⟨e, he, heq⟩ := exists_of_lookup ht
        exact lt_of_le_of_ne (heq ▸ hkey _ rfl e he) fun h => hne (congrArg some h)

end visible

/-! ## Both together -/

section
variable {sources : List (List Entry)} (hs : ∀ src ∈ sources, src.Pairwise fun a b => ¬ Before b a)
include hs

/-- The entries with one version stand together, in the order of the sources. -/
theorem MergeIter.mergeAll_together (k : Bytes) (t : Nat) :
    ∃ pre post, mergeAll sources = pre ++ sources.flatten.filter (fun e => e.1 = k ∧ e.2.1 = t) ++ post ∧
      ∀ e ∈ pre ++ post, ¬ (e.1 = k ∧ e.2.1 = t) := by
  have hsplit := together (e := (k, t, none)) (p := fun e => decide (e.1 = k ∧ e.2.1 = t)) (fun e => by simp)
    (mergeAll_sorted hs)
  have hfilter : (mergeAll sources).filter (fun e => decide (e.1 = k ∧ e.2.1 = t)) =
      sources.flatten.filter fun e => decide (e.1 = k ∧ e.2.1 = t) := by
    refine filter_mergeAll (fun x y hx hy => ?_) hs
    simp only [decide_eq_true_eq] at hx hy
    exact ⟨hx.1.trans hy.1.symm, hx.2.trans hy.2.symm⟩
  rw [hfilter] at hsplit
  refine ⟨_, _, hsplit, fun e he => ?_⟩
  rintro ⟨hkey, hseq⟩
  rcases List.mem_append.1 he with he | he
  · have hbefore := (List.mem_filter.1 he).2
    exact not_before_same hkey hseq (by simpa using hbefore)
  · have hbefore := (List.mem_filter.1 he).2
    exact not_before_same hkey.symm hseq.symm (by simpa using hbefore)

theorem mem_visible_mergeAll (s : Nat) (k : Bytes) (v : Option Bytes) :
    (k, v) ∈ visible s none (MergeIter.mergeAll sources) ↔ ∃ t, Newest (firsts sources.flatten) k s (some (t, v)) := by
  have hord := MergeIter.mergeAll_sorted hs
  have hnew := newest_firsts hord k s
  rw [MergeIter.firsts_mergeAll hs] at hnew
  rw [mem_visible hord (fun c hc => (by cases hc))]
  constructor
  · rintro ⟨-, t, ht⟩
    exact ⟨t, ht ▸ hnew⟩
  · rintro ⟨t, ht⟩
    exact ⟨by simp, t, hnew.unique (single_firsts _) ht⟩

theorem exists_visible_mergeAll (s : Nat) (k : Bytes) :
    (∃ v, (k, v) ∈ visible s none (MergeIter.mergeAll sources)) ↔ ∃ e ∈ sources.flatten, e.1 = k ∧ e.2.1 ≤ s := by
  simp only [mem_visible_mergeAll hs]
  constructor
  · rintro ⟨v, t, hmem, hle, -⟩
    exact ⟨_, firsts_subset hmem, rfl, hle⟩
  · rintro ⟨e, he, rfl, hle⟩
    obtain ⟨r, hr⟩ := exists_newest (firsts sources.flatten) e.1 s
    cases r with
    | none =>
      obtain ⟨v, hv⟩ := exists_firsts he
      exact absurd hle (not_le.2 (hr _ _ hv))
    | some p => exact ⟨p.2, p.1, hr⟩

/-- **The merge and the filter behind it.** The merge is in order, has all entries, and lists those with one version
next to each other as the sources do. Behind it, each key that has a version up to the snapshot is listed once, the keys
ascending, with the value or the deletion of its newest one. -/
theorem merged_and_visible (s : Nat) :
    ((MergeIter.mergeAll sources).Pairwise (fun a b => ¬ Before b a) ∧
      (MergeIter.mergeAll sources).Perm sources.flatten ∧
      ∀ k t, ∃ pre post,
        MergeIter.mergeAll sources = pre ++ sources.flatten.filter (fun e => e.1 = k ∧ e.2.1 = t) ++ post ∧
          ∀ e ∈ pre ++ post, ¬ (e.1 = k ∧ e.2.1 = t)) ∧
    (visible s none (MergeIter.mergeAll sources)).Pairwise (fun a b => a.1 < b.1) ∧
      (∀ k, (∃ v, (k, v) ∈ visible s none (MergeIter.mergeAll sources)) ↔ ∃ e ∈ sources.flatten, e.1 = k ∧ e.2.1 ≤ s) ∧
      ∀ k v, (k, v) ∈ visible s none (MergeIter.mergeAll sources) ↔
        ∃ t, Newest (firsts sources.flatten) k s (some (t, v)) := by
  have hord := MergeIter.mergeAll_sorted hs
  refine ⟨⟨hord, MergeIter.mergeAll_perm sources, MergeIter.mergeAll_together hs⟩, ?_, exists_visible_mergeAll hs s,
    mem_visible_mergeAll hs s⟩
  exact visible_ascending s none hord fun c hc => (by cases hc)

end

/-- A version that two sources have, and a newer one that the snapshot does not see. -/
theorem merged_and_visible_tie :
    ([1], some [7]) ∈ visible 2 none (MergeIter.mergeAll [[([1], 2, some [7])], [([1], 3, none), ([1], 2, none)]]) := by
  refine ((merged_and_visible (by decide) 2).2.2.2 [1] (some [7])).2 ⟨2, ?_, le_refl 2, fun t' v' _ hle => hle⟩
  rfl

end RaftKv.Storage

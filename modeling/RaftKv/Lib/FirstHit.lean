import RaftKv.Lib.Versions

/-!
# Reading to the first hit

A reader of a merge tree takes the first layer with a version of its key and looks no further
(`Finds`). All it needs is that this layer has the newest version (`TopFirst`), which is less than
that every layer shields the ones below. Two layers may even disagree about the value of a version:
the upper one is right. So where layers are merged, it goes over the lower one (`atop`).

`sink` is a compaction under these weak conditions: readers that are recent enough still find the
same values (`Finds.sink`).
-/

namespace Versions

variable {K V : Type} {A B M : Set (Version K V)} {k : K} {s t m : Nat} {v : Option V} {r r' : Option (Nat × Option V)}

/-! ## One set over another -/

/-- The versions of `A`, and those of `B` that `A` does not have, with whatever value. -/
def atop (A B : Set (Version K V)) : Set (Version K V) := A ∪ { e ∈ B | ∀ v, (e.1, e.2.1, v) ∉ A }

theorem atop_subset : atop A B ⊆ A ∪ B := by
  rintro e (he | he)
  · exact .inl he
  · exact .inr he.1

theorem atop_empty : atop A ∅ = A := by
  ext e
  simp [atop]

theorem empty_atop : atop ∅ B = B := by
  ext e
  simp [atop]

theorem atop_assoc (A B M : Set (Version K V)) : atop (atop A B) M = atop A (atop B M) := by
  ext e
  constructor
  · rintro ((he | ⟨he, hA⟩) | ⟨he, hno⟩)
    · exact .inl he
    · exact .inr ⟨.inl he, hA⟩
    · have hA : ∀ v, (e.1, e.2.1, v) ∉ A := fun v hv => hno v (.inl hv)
      exact .inr ⟨.inr ⟨he, fun v hv => hno v (.inr ⟨hv, hA⟩)⟩, hA⟩
  · rintro (he | ⟨he | ⟨he, hB⟩, hA⟩)
    · exact .inl (.inl he)
    · exact .inl (.inr ⟨he, hA⟩)
    · refine .inr ⟨he, fun v hv => ?_⟩
      rcases atop_subset hv with hv | hv
      · exact hA v hv
      · exact hB v hv

theorem Single.atop (hA : Single A) (hB : Single B) : Single (atop A B) := by
  rintro k t v v' (h | h) (h' | h')
  · exact hA h h'
  · exact absurd h (h'.2 v)
  · exact absurd h' (h.2 v')
  · exact hB h.1 h'.1

/-- The newer one of two hits, or the upper one. -/
theorem Newest.atop_newer {q : Nat × Option V} (h : Newest A k s r) (h' : Newest B k s (some q)) :
    Newest (atop A B) k s (if r.all fun p => q.1 > p.1 then some q else r) := by
  cases r with
  | none =>
    have hout : ∀ v, (k, q.1, v) ∉ A := fun v hv => absurd h'.2.1 (not_le.2 (h _ v hv))
    refine ⟨.inr ⟨h'.1, hout⟩, h'.2.1, fun t' v' hm hle => ?_⟩
    rcases atop_subset hm with hm | hm
    · exact absurd hle (not_le.2 (h t' v' hm))
    · exact h'.2.2 t' v' hm hle
  | some p =>
    simp only [Option.all_some, decide_eq_true_eq]
    split
    · rename_i hlt
      -- the upper set does not have a version as new as that
      have hout : ∀ v, (k, q.1, v) ∉ A := fun v hv => absurd (h.2.2 _ v hv h'.2.1) (not_le.2 hlt)
      refine ⟨.inr ⟨h'.1, hout⟩, h'.2.1, fun t' v' hm hle => ?_⟩
      rcases atop_subset hm with hm | hm
      · exact (h.2.2 t' v' hm hle).trans hlt.le
      · exact h'.2.2 t' v' hm hle
    · rename_i hle'
      refine ⟨.inl h.1, h.2.1, fun t' v' hm hle => ?_⟩
      rcases atop_subset hm with hm | hm
      · exact h.2.2 t' v' hm hle
      · exact (h'.2.2 t' v' hm hle).trans (not_lt.1 hle')

theorem Newest.atop_miss (h : Newest A k s r) (h' : Newest B k s none) : Newest (atop A B) k s r := by
  cases r with
  | none =>
    intro t v hm
    rcases atop_subset hm with hm | hm
    · exact h t v hm
    · exact h' t v hm
  | some p =>
    refine ⟨.inl h.1, h.2.1, fun t' v' hm hle => ?_⟩
    rcases atop_subset hm with hm | hm
    · exact h.2.2 t' v' hm hle
    · exact absurd hle (not_le.2 (h' t' v' hm))

/-! ## The first hit -/

variable {S : Nat → Set (Version K V)} {i : Nat}

/-- A reader that takes the first layer with a version of `k` up to `s`. -/
def Finds (S : Nat → Set (Version K V)) (k : K) (s : Nat) : Option (Nat × Option V) → Prop
  | none => ∀ j, Newest (S j) k s none
  | some p => ∃ i, (∀ j < i, Newest (S j) k s none) ∧ Newest (S i) k s (some p)

/-- What such a reader finds is the newest version of all. -/
def TopFirst (S : Nat → Set (Version K V)) : Prop :=
  ∀ ⦃k s p⦄, Finds S k s (some p) → ∀ ⦃j t v⦄, (k, t, v) ∈ S j → t ≤ s → t ≤ p.1

theorem not_newest_none {p : Nat × Option V} (h : Newest A k s (some p)) : ¬ Newest A k s none :=
  fun hnone => absurd h.2.1 (not_le.2 (hnone _ _ h.1))

theorem Finds.unique (hS : ∀ j, Single (S j)) (h : Finds S k s r) (h' : Finds S k s r') : r = r' := by
  cases r with
  | none =>
    cases r' with
    | none => rfl
    | some p' =>
      obtain ⟨i', -, hi'⟩ := h'
      exact absurd (h i') (not_newest_none hi')
  | some p =>
    obtain ⟨i, hmiss, hi⟩ := h
    cases r' with
    | none => exact absurd (h' i) (not_newest_none hi)
    | some p' =>
      obtain ⟨i', hmiss', hi'⟩ := h'
      rcases Nat.lt_trichotomy i i' with hlt | rfl | hlt
      · exact absurd (hmiss' i hlt) (not_newest_none hi)
      · exact hi.unique (hS i) hi'
      · exact absurd (hmiss i' hlt) (not_newest_none hi')

/-! ## Compaction -/

/-- What is kept of a newest version: the version itself, or nothing if it is a deletion that is dropped. -/
theorem newest_kept {bottom : Prop} (hM : Single M) (hms : m ≤ s) (h : Newest M k s (some (t, v))) :
    Newest (kept m bottom M) k s (some (t, v)) ∨ (bottom ∧ v = none ∧ Newest (kept m bottom M) k s none) := by
  obtain ⟨hmem, hts, hmax⟩ := h
  by_cases hin : (k, t, v) ∈ kept m bottom M
  · exact .inl ⟨hin, hts, fun t' v' ht' => hmax t' v' (kept_subset ht')⟩
  · have hdrop : ¬ (m < t ∨ (∀ t' v', (k, t', v') ∈ M → t' ≤ m → t' ≤ t) ∧ ¬ (bottom ∧ v = none)) :=
      fun hkeep => hin ⟨hmem, hkeep⟩
    have htm : t ≤ m := not_lt.1 fun hlt => hdrop (.inl hlt)
    have hgone : bottom ∧ v = none := by
      by_contra hnot
      exact hdrop (.inr ⟨fun t' v' ht' hle => hmax t' v' ht' (hle.trans hms), hnot⟩)
    refine .inr ⟨hgone.1, hgone.2, fun t' v' ht' => ?_⟩
    by_contra hle
    have ht't := hmax t' v' (kept_subset ht') (not_lt.1 hle)
    rcases ht'.2 with hlt | ⟨hnew, -⟩
    · exact absurd (ht't.trans htm) (not_le.2 hlt)
    · -- it is the dropped version itself
      obtain rfl : t' = t := le_antisymm ht't (hnew t v hmem htm)
      rw [hM (kept_subset ht') hmem] at ht'
      exact hin ht'

/-- The versions of the keys `P` go from layer `i` to the next one, over those of the keys `Q` there. -/
def sink (S : Nat → Set (Version K V)) (i : Nat) (P Q : Set K) (m : Nat) (bottom : Prop) : Nat → Set (Version K V) :=
  fun j =>
    if j = i then { e ∈ S i | e.1 ∉ P }
    else if j = i + 1 then
      { e ∈ S (i + 1) | e.1 ∉ Q } ∪ kept m bottom (atop { e ∈ S i | e.1 ∈ P } { e ∈ S (i + 1) | e.1 ∈ Q })
    else S j

variable {P Q : Set K} {bottom : Prop}

theorem sink_self : sink S i P Q m bottom i = { e ∈ S i | e.1 ∉ P } := if_pos rfl

theorem sink_next : sink S i P Q m bottom (i + 1) =
    { e ∈ S (i + 1) | e.1 ∉ Q } ∪ kept m bottom (atop { e ∈ S i | e.1 ∈ P } { e ∈ S (i + 1) | e.1 ∈ Q }) := by
  rw [sink, if_neg (by omega), if_pos rfl]

theorem sink_other {j : Nat} (h : j ≠ i) (h' : j ≠ i + 1) : sink S i P Q m bottom j = S j := by
  rw [sink, if_neg h, if_neg h']

/-- What is in the next layer was in one of the two. -/
theorem sink_next_subset : sink S i P Q m bottom (i + 1) ⊆ S i ∪ S (i + 1) := by
  rw [sink_next]
  rintro e (he | he)
  · exact .inr he.1
  · rcases atop_subset (kept_subset he) with h | h
    · exact .inl h.1
    · exact .inr h.1

theorem Newest.mono_none (h : Newest B k s none) (hsub : A ⊆ B) : Newest A k s none := fun t v ht => h t v (hsub ht)

/-- No layer gets a version up to `s` if there was none in it or the one above. -/
theorem newest_none_sink (j : Nat) (h : Newest (S j) k s none) (h' : j = i + 1 → Newest (S i) k s none) :
    Newest (sink S i P Q m bottom j) k s none := by
  by_cases hj : j = i
  · subst hj
    rw [sink_self]
    exact h.mono_none fun e he => he.1
  · by_cases hj' : j = i + 1
    · subst hj'
      refine Newest.mono_none (B := S i ∪ S (i + 1)) ?_ sink_next_subset
      exact (h' rfl).union_miss h
    · rw [sink_other hj hj']
      exact h

/-- The same versions of a key. -/
theorem Newest.of_key (h : Newest A k s r) (hsame : ∀ t v, (k, t, v) ∈ A ↔ (k, t, v) ∈ B) : Newest B k s r := by
  cases r with
  | none => exact fun t v ht => h t v ((hsame t v).2 ht)
  | some p => exact ⟨(hsame _ _).1 h.1, h.2.1, fun t v ht => h.2.2 t v ((hsame t v).2 ht)⟩

/-- If the newest version is one of those that are merged, it is found in the next layer, unless it is a deletion
that is dropped together with all that it hides. -/
theorem finds_merged (hsingle : ∀ j, Single (S j)) (hbottom : bottom → ∀ j, i + 1 < j → S j = ∅) (hms : m ≤ s)
    (habove : ∀ j ≤ i, Newest (sink S i P Q m bottom j) k s none)
    (hnext : ∀ t v, (k, t, v) ∈ sink S i P Q m bottom (i + 1) ↔
      (k, t, v) ∈ kept m bottom (atop { e ∈ S i | e.1 ∈ P } { e ∈ S (i + 1) | e.1 ∈ Q }))
    {p : Nat × Option V} (hp : Newest (atop { e ∈ S i | e.1 ∈ P } { e ∈ S (i + 1) | e.1 ∈ Q }) k s (some p)) :
    ∃ r, Finds (sink S i P Q m bottom) k s r ∧ valueOf r = p.2 := by
  have hM : Single (atop { e ∈ S i | e.1 ∈ P } { e ∈ S (i + 1) | e.1 ∈ Q }) :=
    ((hsingle i).mono fun e he => he.1).atop ((hsingle (i + 1)).mono fun e he => he.1)
  rcases newest_kept hM hms hp with hkept | ⟨hb, hnone, hkept⟩
  · refine ⟨some p, ⟨i + 1, fun j hj => habove j (Nat.le_of_lt_succ hj), ?_⟩, rfl⟩
    exact hkept.of_key fun t v => (hnext t v).symm
  · refine ⟨none, fun j => ?_, hnone.symm⟩
    rcases Nat.lt_trichotomy j (i + 1) with hlt | rfl | hlt
    · exact habove j (Nat.le_of_lt_succ hlt)
    · exact hkept.of_key fun t v => (hnext t v).symm
    · rw [sink_other (by omega) (by omega), hbottom hb j hlt]
      exact newest_empty

/-- **Readers from `m` on do not notice a compaction**; deletions may be dropped if everything below is empty. -/
theorem Finds.sink (hS : TopFirst S) (hsingle : ∀ j, Single (S j)) (hPQ : ∀ e ∈ S (i + 1), e.1 ∈ P → e.1 ∈ Q)
    (hbottom : bottom → ∀ j, i + 1 < j → S j = ∅) (hms : m ≤ s) (h : Finds S k s r) :
    ∃ r', Finds (sink S i P Q m bottom) k s r' ∧ valueOf r' = valueOf r := by
  cases r with
  | none => exact ⟨none, fun j => newest_none_sink j (h j) fun _ => h i, rfl⟩
  | some p =>
    have htop := hS h
    obtain ⟨i₀, hmiss, hhit⟩ := h
    have hmissed : ∀ j < i₀, Newest (Versions.sink S i P Q m bottom j) k s none := fun j hj =>
      newest_none_sink j (hmiss j hj) fun hji => hmiss i (by omega)
    have hmax : ∀ t v, (k, t, v) ∈ atop { e ∈ S i | e.1 ∈ P } { e ∈ S (i + 1) | e.1 ∈ Q } → t ≤ s → t ≤ p.1 := by
      intro t v hm hle
      rcases atop_subset hm with hm | hm
      · exact htop hm.1 hle
      · exact htop hm.1 hle
    rcases Nat.lt_trichotomy i₀ i with hlt | rfl | hlt
    · refine ⟨some p, ⟨i₀, hmissed, ?_⟩, rfl⟩
      rw [sink_other (by omega) (by omega)]
      exact hhit
    · by_cases hk : k ∈ P
      · -- the key is moved as a whole
        refine finds_merged hsingle hbottom hms (fun j hj => ?_) (fun t v => ?_) ⟨.inl ⟨hhit.1, hk⟩, hhit.2.1, hmax⟩
        · rcases Nat.lt_or_eq_of_le hj with hj | rfl
          · exact hmissed j hj
          · rw [sink_self]
            exact fun t v hm => absurd hk hm.2
        · rw [sink_next, Set.mem_union, or_iff_right]
          exact fun hm => hm.2 (hPQ _ hm.1 hk)
      · refine ⟨some p, ⟨i₀, hmissed, ?_⟩, rfl⟩
        rw [sink_self]
        exact hhit.of_key fun t v => ⟨fun hm => ⟨hm, hk⟩, fun hm => hm.1⟩
    · by_cases hnext : i₀ = i + 1
      · subst hnext
        have hno : ∀ v, (k, p.1, v) ∉ { e ∈ S i | e.1 ∈ P } := fun v hm =>
          absurd hhit.2.1 (not_le.2 (hmiss i hlt _ v hm.1))
        by_cases hk : k ∈ Q
        · refine finds_merged hsingle hbottom hms (fun j hj => hmissed j (by omega)) (fun t v => ?_)
            ⟨.inr ⟨⟨hhit.1, hk⟩, hno⟩, hhit.2.1, hmax⟩
          rw [sink_next, Set.mem_union, or_iff_right]
          exact fun hm => hm.2 hk
        · -- then it is not moved from above, either
          have hkP : k ∉ P := fun hkP => hk (hPQ _ hhit.1 hkP)
          refine ⟨some p, ⟨i + 1, hmissed, ?_⟩, rfl⟩
          rw [sink_next]
          refine hhit.of_key fun t v => ⟨fun hm => .inl ⟨hm, hk⟩, ?_⟩
          rintro (hm | hm)
          · exact hm.1
          · rcases atop_subset (kept_subset hm) with hm | hm
            · exact absurd hm.2 hkP
            · exact absurd hm.2 hk
      · refine ⟨some p, ⟨i₀, hmissed, ?_⟩, rfl⟩
        rw [sink_other (by omega) hnext]
        exact hhit

end Versions

import Mathlib.Data.Nat.Find
import Mathlib.Data.Set.Lattice

/-!
# Versioned sets and merge trees

A version is a key, the number of the write it comes from, and a value, or none if the write was a
deletion. A read at `s` wants the newest version of its key up to `s` (`Newest`).

A merge tree keeps its versions in layers and reads the layers from the top: it stops at the first
one with a hit. That is right if each layer shields the ones below (`Shields`): where it has some
version of a key, it has every newer one from below, too. The usual order, everything in a layer
newer than everything below it, is a special case; the weaker form also allows layers with copies
of each other. Compaction moves keys one layer down and drops versions that no reader from `m` on
can see (`kept`); it keeps the layers shielded (`Stacked.compact`) and what such readers see
(`agree_compact`).
-/

variable {K V : Type}

abbrev Version (K V : Type) := K × Nat × Option V

namespace Versions

/-- The newest version of `k` up to `s` in `U`, if there is one. -/
def Newest (U : Set (Version K V)) (k : K) (s : Nat) : Option (Nat × Option V) → Prop
  | none => ∀ t v, (k, t, v) ∈ U → s < t
  | some (t, v) => (k, t, v) ∈ U ∧ t ≤ s ∧ ∀ t' v', (k, t', v') ∈ U → t' ≤ s → t' ≤ t

/-- The value that a reader gets. -/
def valueOf (r : Option (Nat × Option V)) : Option V := r.bind Prod.snd

/-- A write has one value. -/
def Single (U : Set (Version K V)) : Prop := ∀ ⦃k t v v'⦄, (k, t, v) ∈ U → (k, t, v') ∈ U → v = v'

variable {U U' H N A B : Set (Version K V)} {k : K} {s t m : Nat} {v : Option V} {r r' : Option (Nat × Option V)}

theorem Single.mono (h : Single U) (hsub : U' ⊆ U) : Single U' := fun _ _ _ _ h₁ h₂ => h (hsub h₁) (hsub h₂)

theorem exists_newest (U : Set (Version K V)) (k : K) (s : Nat) : ∃ r, Newest U k s r := by
  classical
  by_cases h : ∃ t ≤ s, ∃ v, (k, t, v) ∈ U
  · obtain ⟨t, hts, hv⟩ := h
    have hmax := Nat.findGreatest_spec (P := fun t => ∃ v, (k, t, v) ∈ U) hts hv
    obtain ⟨v, hv⟩ := hmax
    exact ⟨some (_, v), hv, Nat.findGreatest_le s, fun t' v' hv' hle =>
      Nat.le_findGreatest (P := fun t => ∃ v, (k, t, v) ∈ U) hle ⟨v', hv'⟩⟩
  · refine ⟨none, fun t v hv => ?_⟩
    by_contra hle
    exact h ⟨t, not_lt.1 hle, v, hv⟩

theorem Newest.unique (hU : Single U) (h : Newest U k s r) (h' : Newest U k s r') : r = r' := by
  cases r with
  | none =>
    cases r' with
    | none => rfl
    | some p' => exact absurd h'.2.1 (not_le.2 (h _ _ h'.1))
  | some p =>
    cases r' with
    | none => exact absurd h.2.1 (not_le.2 (h' _ _ h.1))
    | some p' =>
      obtain ⟨t, v⟩ := p
      obtain ⟨t', v'⟩ := p'
      obtain rfl : t = t' := le_antisymm (h'.2.2 _ _ h.1 h.2.1) (h.2.2 _ _ h'.1 h'.2.1)
      rw [hU h.1 h'.1]

/-- The same versions of a key, up to another number. -/
theorem Newest.of_same {s' : Nat} (h : Newest U k s r) (hsame : ∀ t v, (k, t, v) ∈ U ↔ (k, t, v) ∈ U')
    (hle : ∀ t v, (k, t, v) ∈ U' → t ≤ s ∧ t ≤ s') : Newest U' k s' r := by
  cases r with
  | none =>
    intro t v ht
    exact absurd (hle t v ht).1 (not_le.2 (h t v ((hsame t v).2 ht)))
  | some p =>
    obtain ⟨hmem, -, hmax⟩ := h
    have hmem' := (hsame _ _).1 hmem
    exact ⟨hmem', (hle _ _ hmem').2, fun t' v' ht' _ => hmax t' v' ((hsame _ _).2 ht') (hle _ _ ht').1⟩

/-! ## Layers -/

/-- Where `A` has a version of a key, it has every newer one of `B`. -/
def Shields (A B : Set (Version K V)) : Prop :=
  ∀ ⦃k t v t' v'⦄, (k, t, v) ∈ A → (k, t', v') ∈ B → t < t' → (k, t', v') ∈ A

theorem Shields.mono_right (h : Shields A B) {B' : Set (Version K V)} (hsub : B' ⊆ B) : Shields A B' :=
  fun _ _ _ _ _ ha hb hlt => h ha (hsub hb) hlt

theorem Shields.union_left {A' : Set (Version K V)} (h : Shields A B) (h' : Shields A' B) : Shields (A ∪ A') B := by
  rintro k t v t' v' (ha | ha) hb hlt
  · exact .inl (h ha hb hlt)
  · exact .inr (h' ha hb hlt)

theorem Shields.union_right {B' : Set (Version K V)} (h : Shields A B) (h' : Shields A B') : Shields A (B ∪ B') := by
  rintro k t v t' v' ha (hb | hb) hlt
  · exact h ha hb hlt
  · exact h' ha hb hlt

/-- The versions of some keys shield as all of them do. -/
theorem Shields.restrict (h : Shields A B) (P : Set K) : Shields { e ∈ A | e.1 ∈ P } B :=
  fun _ _ _ _ _ ha hb hlt => ⟨h ha.1 hb hlt, ha.2⟩

/-- A version that is newer than all of `B` shields it. -/
theorem shields_of_newer (h : ∀ {k t v t' v'}, (k, t, v) ∈ A → (k, t', v') ∈ B → t' ≤ t) : Shields A B :=
  fun _ _ _ _ _ ha hb hlt => absurd hlt (not_lt.2 (h ha hb))

variable {p : Nat × Option V}

theorem Newest.union_hit (h : Newest A k s (some p)) (hAB : Shields A B) : Newest (A ∪ B) k s (some p) := by
  refine ⟨.inl h.1, h.2.1, ?_⟩
  rintro t' v' (ha | hb) hle
  · exact h.2.2 t' v' ha hle
  · by_contra hlt
    exact hlt (h.2.2 t' v' (hAB h.1 hb (not_le.1 hlt)) hle)

theorem Newest.union_miss (h : Newest A k s none) (h' : Newest B k s r) : Newest (A ∪ B) k s r := by
  cases r with
  | none =>
    rintro t v (ha | hb)
    · exact h t v ha
    · exact h' t v hb
  | some p =>
    refine ⟨.inr h'.1, h'.2.1, ?_⟩
    rintro t' v' (ha | hb) hle
    · exact absurd hle (not_le.2 (h t' v' ha))
    · exact h'.2.2 t' v' hb hle

theorem newest_empty : Newest (∅ : Set (Version K V)) k s none := fun _ _ h => absurd h (Set.notMem_empty _)

variable {S : Nat → Set (Version K V)} {i : Nat}

/-- Every layer shields those below. -/
def Stacked (S : Nat → Set (Version K V)) : Prop := ∀ ⦃i j⦄, i < j → Shields (S i) (S j)

/-- The first layer with a hit has the newest version of all. -/
theorem Newest.first_hit (hS : Stacked S) (hmiss : ∀ j < i, Newest (S j) k s none)
    (hhit : Newest (S i) k s (some p)) : Newest (⋃ j, S j) k s (some p) := by
  refine ⟨Set.mem_iUnion.2 ⟨i, hhit.1⟩, hhit.2.1, fun t' v' hm hle => ?_⟩
  obtain ⟨j, hj⟩ := Set.mem_iUnion.1 hm
  rcases Nat.lt_trichotomy j i with hji | rfl | hij
  · exact absurd hle (not_le.2 (hmiss j hji t' v' hj))
  · exact hhit.2.2 t' v' hj hle
  · by_contra hlt
    exact hlt (hhit.2.2 t' v' (hS hij hhit.1 hj (not_le.1 hlt)) hle)

theorem Newest.no_hit (hmiss : ∀ j, Newest (S j) k s none) : Newest (⋃ j, S j) k s none := by
  intro t v hm
  obtain ⟨j, hj⟩ := Set.mem_iUnion.1 hm
  exact hmiss j t v hj

/-! ## What a reader sees -/

/-- Readers from `m` on get the same values. -/
def Agree (m : Nat) (U H : Set (Version K V)) : Prop :=
  ∀ ⦃k s r r'⦄, m ≤ s → Newest U k s r → Newest H k s r' → valueOf r = valueOf r'

theorem Agree.refl (hU : Single U) : Agree m U U := fun _ _ _ _ _ h h' => congrArg valueOf (h.unique hU h')

theorem Agree.trans (h : Agree m U U') (h' : Agree m U' H) : Agree m U H := by
  intro k s r r' hs hr hr'
  obtain ⟨r₀, hr₀⟩ := exists_newest U' k s
  exact (h hs hr hr₀).trans (h' hs hr₀ hr')

theorem Agree.mono {m' : Nat} (h : Agree m U H) (hle : m ≤ m') : Agree m' U H :=
  fun _ _ _ _ hs hr hr' => h (hle.trans hs) hr hr'

/-- Versions newer than all others are seen first. -/
theorem Agree.union (h : Agree m U H) (hsub : U ⊆ H) (hsingle : Single (N ∪ H))
    (hnew : ∀ {k t v t' v'}, (k, t, v) ∈ N → (k, t', v') ∈ H → t' ≤ t) : Agree m (N ∪ U) (N ∪ H) := by
  have hshH : Shields N H := shields_of_newer hnew
  have hshU : Shields N U := hshH.mono_right hsub
  have hsingleU : Single (N ∪ U) := hsingle.mono (Set.union_subset_union_right N hsub)
  intro k s r r' hs hr hr'
  obtain ⟨r₀, hr₀⟩ := exists_newest N k s
  cases r₀ with
  | some p => rw [hr.unique hsingleU (hr₀.union_hit hshU), hr'.unique hsingle (hr₀.union_hit hshH)]
  | none =>
    obtain ⟨q, hq⟩ := exists_newest U k s
    obtain ⟨q', hq'⟩ := exists_newest H k s
    rw [hr.unique hsingleU (hr₀.union_miss hq), hr'.unique hsingle (hr₀.union_miss hq')]
    exact h hs hq hq'

/-! ## Compaction -/

/-- The versions that compaction keeps of `A`: those newer than `m`, and of each key the newest one up to `m`, unless
it is a deletion with nothing below it. -/
def kept (m : Nat) (bottom : Prop) (A : Set (Version K V)) : Set (Version K V) :=
  { e ∈ A | m < e.2.1 ∨ (∀ t v, (e.1, t, v) ∈ A → t ≤ m → t ≤ e.2.1) ∧ ¬ (bottom ∧ e.2.2 = none) }

theorem kept_subset {bottom : Prop} : kept m bottom A ⊆ A := fun _ h => h.1

theorem Shields.kept (h : Shields A B) (bottom : Prop) : Shields (kept m bottom A) B := by
  intro k t v t' v' ha hb hlt
  have ha' := h ha.1 hb hlt
  refine ⟨ha', .inl ?_⟩
  rcases ha.2 with hm | ⟨hmax, _⟩
  · exact hm.trans hlt
  · -- the older version is the newest one up to `m`
    by_contra hle
    exact absurd hlt (not_lt.2 (hmax t' v' ha' (not_lt.1 hle)))

/-- Readers from `m` on do not miss what is dropped of `A`, if a version in the rest `R` that is older than a dropped
deletion is hidden by it there, too. -/
theorem agree_kept {R : Set (Version K V)} {bottom : Prop} (hsingle : Single (R ∪ A))
    (hhidden : bottom → ∀ {k t t' v'}, (k, t, none) ∈ A → (k, t', v') ∈ R → t' < t → (k, t, none) ∈ R) :
    Agree m (R ∪ kept m bottom A) (R ∪ A) := by
  intro k s r r' hs hr hr'
  have hsub : R ∪ kept m bottom A ⊆ R ∪ A := Set.union_subset_union_right R kept_subset
  cases r' with
  | none =>
    cases r with
    | none => rfl
    | some p => exact absurd hr.2.1 (not_le.2 (hr' _ _ (hsub hr.1)))
  | some p' =>
    obtain ⟨t, v⟩ := p'
    obtain ⟨hmem, hts, hmax⟩ := hr'
    by_cases hin : (k, t, v) ∈ R ∪ kept m bottom A
    · have hnew : Newest (R ∪ kept m bottom A) k s (some (t, v)) := ⟨hin, hts, fun t' v' hv' => hmax t' v' (hsub hv')⟩
      rw [hr.unique (hsingle.mono hsub) hnew]
    · -- the newest version is dropped, which happens to a deletion only
      have hA : (k, t, v) ∈ A := hmem.resolve_left fun hR => hin (.inl hR)
      have hdrop : ¬ (m < t ∨ (∀ t' v', (k, t', v') ∈ A → t' ≤ m → t' ≤ t) ∧ ¬ (bottom ∧ v = none)) :=
        fun hkeep => hin (.inr ⟨hA, hkeep⟩)
      have hle : t ≤ m := not_lt.1 fun hlt => hdrop (.inl hlt)
      have hbot : bottom ∧ v = none := by
        by_contra hnb
        exact hdrop (.inr ⟨fun t' v' hv' hle' => hmax t' v' (.inr hv') (hle'.trans hs), hnb⟩)
      obtain ⟨hb, rfl⟩ := hbot
      cases r with
      | none => rfl
      | some p =>
        obtain ⟨t', v'⟩ := p
        have ht' := hmax t' v' (hsub hr.1) hr.2.1
        rcases Nat.eq_or_lt_of_le ht' with rfl | hlt
        · rw [hsingle (hsub hr.1) hmem]
        · exfalso
          rcases hr.1 with hR | hK
          · exact absurd (hr.2.2 t none (.inl (hhidden hb hA hR hlt)) hts) (not_le.2 hlt)
          · rcases hK.2 with hm | ⟨hmax', _⟩
            · exact absurd hm (not_lt.2 (ht'.trans hle))
            · exact absurd (hmax' t none hA hle) (not_le.2 hlt)

/-- The versions of the keys `P` go from layer `i` to the next one, where they meet those of the keys `Q`. -/
def compact (S : Nat → Set (Version K V)) (i : Nat) (P Q : Set K) (m : Nat) (bottom : Prop) : Nat → Set (Version K V) :=
  fun j =>
    if j = i then { e ∈ S i | e.1 ∉ P }
    else if j = i + 1 then
      { e ∈ S (i + 1) | e.1 ∉ Q } ∪ kept m bottom ({ e ∈ S i | e.1 ∈ P } ∪ { e ∈ S (i + 1) | e.1 ∈ Q })
    else S j

variable {P Q : Set K} {bottom : Prop}

theorem compact_self : compact S i P Q m bottom i = { e ∈ S i | e.1 ∉ P } := if_pos rfl

theorem compact_next : compact S i P Q m bottom (i + 1) =
    { e ∈ S (i + 1) | e.1 ∉ Q } ∪ kept m bottom ({ e ∈ S i | e.1 ∈ P } ∪ { e ∈ S (i + 1) | e.1 ∈ Q }) := by
  rw [compact, if_neg (by omega), if_pos rfl]

theorem compact_other {j : Nat} (h : j ≠ i) (h' : j ≠ i + 1) : compact S i P Q m bottom j = S j := by
  rw [compact, if_neg h, if_neg h']

/-- What arrives in the next layer was in one of the two. -/
theorem compact_next_subset : compact S i P Q m bottom (i + 1) ⊆ S i ∪ S (i + 1) := by
  rw [compact_next]
  rintro e (he | he)
  · exact .inr he.1
  · rcases kept_subset he with h | h
    · exact .inl h.1
    · exact .inr h.1

theorem Stacked.compact (hS : Stacked S) (hPQ : ∀ e ∈ S (i + 1), e.1 ∈ P → e.1 ∈ Q) :
    Stacked (compact S i P Q m bottom) := by
  have hself : ∀ {j}, i < j → Shields { e ∈ S i | e.1 ∉ P } (S j) := fun hj => (hS hj).restrict Pᶜ
  intro a b hab
  by_cases hai : a = i
  · subst hai
    rw [compact_self]
    by_cases hb : b = a + 1
    · subst hb
      rw [compact_next]
      intro k t v t' v' ha hb hlt
      -- a key that stays has all its versions of the next layer there
      have hb' : (k, t', v') ∈ S (a + 1) := by
        rcases hb with hb | hb
        · exact hb.1
        · exact ((kept_subset hb).resolve_left fun h => ha.2 h.2).1
      exact hself hab ha hb' hlt
    · rw [compact_other (by omega) hb]
      exact hself hab
  · by_cases han : a = i + 1
    · subst han
      rw [compact_next, compact_other (by omega) (by omega)]
      refine ((hS hab).restrict Qᶜ).union_left (Shields.kept ?_ bottom)
      exact ((hS (by omega : i < b)).restrict P).union_left ((hS hab).restrict Q)
    · rw [compact_other hai han]
      by_cases hb : b = i
      · subst hb
        rw [compact_self]
        exact (hS hab).mono_right fun _ h => h.1
      · by_cases hb' : b = i + 1
        · subst hb'
          exact ((hS (by omega : a < i)).union_right (hS hab)).mono_right compact_next_subset
        · rw [compact_other hb hb']
          exact hS hab

/-- What is not moved. -/
def unmoved (S : Nat → Set (Version K V)) (i : Nat) (P Q : Set K) : Set (Version K V) :=
  { e | ∃ j, e ∈ S j ∧ (j = i → e.1 ∉ P) ∧ (j = i + 1 → e.1 ∉ Q) }

theorem iUnion_split (S : Nat → Set (Version K V)) (i : Nat) (P Q : Set K) :
    ⋃ j, S j = unmoved S i P Q ∪ ({ e ∈ S i | e.1 ∈ P } ∪ { e ∈ S (i + 1) | e.1 ∈ Q }) := by
  ext e
  simp only [Set.mem_iUnion]
  constructor
  · rintro ⟨j, hj⟩
    by_cases h : (j = i → e.1 ∉ P) ∧ (j = i + 1 → e.1 ∉ Q)
    · exact .inl ⟨j, hj, h⟩
    · right
      by_cases hi : j = i
      · subst hi
        refine .inl ⟨hj, ?_⟩
        by_contra hp
        exact h ⟨fun _ => hp, fun h' => by omega⟩
      · refine .inr ?_
        by_contra hq
        refine h ⟨fun h' => absurd h' hi, fun h' hQ => hq ?_⟩
        subst h'
        exact ⟨hj, hQ⟩
  · rintro (⟨j, hj, _⟩ | h | h)
    · exact ⟨j, hj⟩
    · exact ⟨i, h.1⟩
    · exact ⟨i + 1, h.1⟩

theorem iUnion_compact :
    ⋃ j, compact S i P Q m bottom j =
      unmoved S i P Q ∪ kept m bottom ({ e ∈ S i | e.1 ∈ P } ∪ { e ∈ S (i + 1) | e.1 ∈ Q }) := by
  ext e
  simp only [Set.mem_iUnion]
  constructor
  · rintro ⟨j, hj⟩
    by_cases hi : j = i
    · subst hi
      rw [compact_self] at hj
      exact .inl ⟨j, hj.1, fun _ => hj.2, fun h' => by omega⟩
    · by_cases hn : j = i + 1
      · subst hn
        rw [compact_next] at hj
        rcases hj with hj | hj
        · exact .inl ⟨i + 1, hj.1, fun h' => by omega, fun _ => hj.2⟩
        · exact .inr hj
      · rw [compact_other hi hn] at hj
        exact .inl ⟨j, hj, fun h' => absurd h' hi, fun h' => absurd h' hn⟩
  · rintro (⟨j, hj, hP, hQ⟩ | h)
    · refine ⟨j, ?_⟩
      by_cases hi : j = i
      · subst hi
        rw [compact_self]
        exact ⟨hj, hP rfl⟩
      · by_cases hn : j = i + 1
        · subst hn
          rw [compact_next]
          exact .inl ⟨hj, hQ rfl⟩
        · rw [compact_other hi hn]
          exact hj
    · exact ⟨i + 1, by rw [compact_next]; exact .inr h⟩

/-- Readers from `m` on do not notice a compaction; deletions may be dropped if everything below is empty. -/
theorem agree_compact (hS : Stacked S) (hsingle : Single (⋃ j, S j)) (hPQ : ∀ e ∈ S (i + 1), e.1 ∈ P → e.1 ∈ Q)
    (hbottom : bottom → ∀ j, i + 1 < j → S j = ∅) : Agree m (⋃ j, compact S i P Q m bottom j) (⋃ j, S j) := by
  rw [iUnion_compact, iUnion_split S i P Q]
  refine agree_kept (by rw [← iUnion_split]; exact hsingle) ?_
  rintro hb k t t' v' hA ⟨j, hj, hP, hQ⟩ hlt
  -- a layer with the older version has the deletion
  have hboth : ∀ {l}, j < l → (k, t, none) ∈ S l → (k, t, none) ∈ S j := fun hl h => hS hl hj h hlt
  rcases Nat.lt_trichotomy j (i + 1) with hji | rfl | hij
  · have hin : (k, t, none) ∈ S j := by
      rcases hA with hA | hA
      · by_cases hi : j = i
        · subst hi; exact hA.1
        · exact hboth (by omega) hA.1
      · exact hboth hji hA.1
    exact ⟨j, hin, hP, hQ⟩
  · rcases hA with hA | hA
    · exact absurd (hPQ _ hj hA.2) (hQ rfl)
    · exact absurd hA.2 (hQ rfl)
  · rw [hbottom hb j hij] at hj
    cases hj

/-! ## A tree as the history of its writes -/

/-- The layers `S` show readers from `m` on the versions `H`. -/
structure Presents (m : Nat) (H : Set (Version K V)) (S : Nat → Set (Version K V)) : Prop where
  stacked : Stacked S
  subset : ⋃ j, S j ⊆ H
  agree : Agree m (⋃ j, S j) H

namespace Presents

theorem mono {m' : Nat} (h : Presents m H S) (hle : m ≤ m') : Presents m' H S := ⟨h.stacked, h.subset, h.agree.mono hle⟩

theorem mem_of_layer (h : Presents m H S) {e : Version K V} (he : e ∈ S i) :
    e ∈ H := h.subset (Set.mem_iUnion.2 ⟨i, he⟩)

/-- A read that ends at the first layer with a hit. -/
theorem read_hit (h : Presents m H S) (hms : m ≤ s) (hmiss : ∀ j < i, Newest (S j) k s none)
    (hhit : Newest (S i) k s (some p)) (hr : Newest H k s r) : p.2 = valueOf r :=
  h.agree hms (Newest.first_hit h.stacked hmiss hhit) hr

theorem read_miss (h : Presents m H S) (hms : m ≤ s) (hmiss : ∀ j, Newest (S j) k s none) (hr : Newest H k s r) :
    none = valueOf r :=
  h.agree hms (Newest.no_hit hmiss) hr

theorem compact (h : Presents m H S) (hsingle : Single H) (hPQ : ∀ e ∈ S (i + 1), e.1 ∈ P → e.1 ∈ Q)
    (hbottom : bottom → ∀ j, i + 1 < j → S j = ∅) : Presents m H (compact S i P Q m bottom) := by
  refine ⟨h.stacked.compact hPQ, ?_, (agree_compact h.stacked (hsingle.mono h.subset) hPQ hbottom).trans h.agree⟩
  rw [iUnion_compact]
  refine subset_trans (Set.union_subset_union_right _ kept_subset) ?_
  rw [← iUnion_split]
  exact h.subset

end Presents

/-- The versions `N` are added to the top layer. -/
def onTop (N : Set (Version K V)) (S : Nat → Set (Version K V)) : Nat → Set (Version K V)
  | 0 => S 0 ∪ N
  | j + 1 => S (j + 1)

theorem iUnion_onTop : ⋃ j, onTop N S j = N ∪ ⋃ j, S j := by
  ext e
  simp only [Set.mem_iUnion, Set.mem_union]
  constructor
  · rintro ⟨_ | j, he⟩
    · rcases he with he | he
      · exact .inr ⟨0, he⟩
      · exact .inl he
    · exact .inr ⟨j + 1, he⟩
  · rintro (he | ⟨_ | j, he⟩)
    · exact ⟨0, .inr he⟩
    · exact ⟨0, .inl he⟩
    · exact ⟨j + 1, he⟩

/-- A write adds versions that are newer than all others. -/
theorem Presents.onTop (h : Presents m H S) (hsingle : Single (N ∪ H))
    (hnew : ∀ {k t v t' v'}, (k, t, v) ∈ N → (k, t', v') ∈ H → t' ≤ t) : Presents m (N ∪ H) (onTop N S) := by
  refine ⟨?_, ?_, ?_⟩
  · rintro (_ | i) (_ | j) hij
    · omega
    · exact (h.stacked hij).union_left (shields_of_newer fun hn hs => hnew hn (h.mem_of_layer hs))
    · omega
    · exact h.stacked hij
  · rw [iUnion_onTop]
    exact Set.union_subset_union_right N h.subset
  · rw [iUnion_onTop]
    exact h.agree.union h.subset hsingle hnew

/-- The top layer is copied to the next one. -/
def copyDown (S : Nat → Set (Version K V)) : Nat → Set (Version K V)
  | 0 => S 0
  | 1 => S 1 ∪ S 0
  | j + 2 => S (j + 2)

theorem iUnion_copyDown : ⋃ j, copyDown S j = ⋃ j, S j := by
  ext e
  simp only [Set.mem_iUnion]
  constructor
  · rintro ⟨_ | _ | j, he⟩
    · exact ⟨0, he⟩
    · rcases he with he | he
      · exact ⟨1, he⟩
      · exact ⟨0, he⟩
    · exact ⟨j + 2, he⟩
  · rintro ⟨_ | _ | j, he⟩
    · exact ⟨0, he⟩
    · exact ⟨1, .inl he⟩
    · exact ⟨j + 2, he⟩

theorem Presents.copyDown (h : Presents m H S) : Presents m H (copyDown S) := by
  refine ⟨?_, by rw [iUnion_copyDown]; exact h.subset, by rw [iUnion_copyDown]; exact h.agree⟩
  rintro (_ | _ | i) (_ | _ | j) hij <;> try omega
  · exact (h.stacked hij).union_right fun _ _ _ _ _ _ hb _ => hb
  · exact h.stacked hij
  · exact (h.stacked hij).union_left (h.stacked (by omega))
  · exact h.stacked hij

/-- The top layer is emptied. -/
def clearTop (S : Nat → Set (Version K V)) : Nat → Set (Version K V)
  | 0 => ∅
  | j + 1 => S (j + 1)

/-- The top layer is not missed if the next one has all of it. -/
theorem Presents.clearTop (h : Presents m H S) (hsub : S 0 ⊆ S 1) : Presents m H (clearTop S) := by
  have hall : ⋃ j, Versions.clearTop S j = ⋃ j, S j := by
    ext e
    simp only [Set.mem_iUnion]
    constructor
    · rintro ⟨_ | j, he⟩
      · exact absurd he (Set.notMem_empty e)
      · exact ⟨j + 1, he⟩
    · rintro ⟨_ | j, he⟩
      · exact ⟨1, hsub he⟩
      · exact ⟨j + 1, he⟩
  refine ⟨?_, by rw [hall]; exact h.subset, by rw [hall]; exact h.agree⟩
  rintro (_ | i) (_ | j) hij
  · omega
  · intro k t v t' v' ha
    exact absurd ha (Set.notMem_empty _)
  · omega
  · exact h.stacked hij

end Versions

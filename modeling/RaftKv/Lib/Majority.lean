import Mathlib.Data.Finset.Card
import Mathlib.Data.List.Sort

/-!
# Majorities

Majorities of duplicate-free lists, and the "sort descending, take the middle element" rule by
which a coordinator reads off what a majority has reached.
-/

variable {α : Type}

/-- `Q` is a majority of `V`: more than half of its members. -/
def IsMajority (V : List α) (Q : Finset α) : Prop := (∀ v ∈ Q, v ∈ V) ∧ V.length / 2 + 1 ≤ Q.card

variable {V : List α}

/-- Majorities of two lists meet if the lists lie in a set one larger than their common part allows. -/
theorem IsMajority.meet [DecidableEq α] {V' : List α} {Q Q' U : Finset α} (hQ : IsMajority V Q)
    (hQ' : IsMajority V' Q') (hV : ∀ v ∈ V, v ∈ U) (hV' : ∀ v ∈ V', v ∈ U)
    (hU : U.card < V.length / 2 + V'.length / 2 + 2) : ∃ v, v ∈ Q ∧ v ∈ Q' := by
  have hcard : U.card < Q.card + Q'.card := by
    have h1 := hQ.2
    have h2 := hQ'.2
    omega
  obtain ⟨v, hv⟩ := Finset.inter_nonempty_of_card_lt_card_add_card
    (fun v hv => hV v (hQ.1 v hv)) (fun v hv => hV' v (hQ'.1 v hv)) hcard
  exact ⟨v, Finset.mem_inter.1 hv⟩

/-- Two majorities of one list meet. -/
theorem IsMajority.meet_self [DecidableEq α] {Q Q' : Finset α} (hQ : IsMajority V Q)
    (hQ' : IsMajority V Q') : ∃ v, v ∈ Q ∧ v ∈ Q' := by
  refine hQ.meet hQ' (U := V.toFinset) (fun v hv => List.mem_toFinset.2 hv)
    (fun v hv => List.mem_toFinset.2 hv) ?_
  have := V.toFinset_card_le
  omega

/-- Adding one member keeps majorities intersecting. -/
theorem IsMajority.meet_concat [DecidableEq α] {a : α} {Q Q' : Finset α} (hQ : IsMajority V Q)
    (hQ' : IsMajority (V ++ [a]) Q') : ∃ v, v ∈ Q ∧ v ∈ Q' := by
  refine hQ.meet hQ' (U := (V ++ [a]).toFinset) (fun v hv => ?_) (fun v hv => List.mem_toFinset.2 hv) ?_
  · exact List.mem_toFinset.2 (List.mem_append_left _ hv)
  · have := (V ++ [a]).toFinset_card_le
    simp only [List.length_append, List.length_singleton] at this ⊢
    omega

theorem length_filter_ne [DecidableEq α] {a : α} : ∀ {V : List α}, V.Nodup →
    V.length ≤ (V.filter (· ≠ a)).length + 1
  | [], _ => by simp
  | b :: V, h => by
    obtain ⟨hb, hV⟩ := List.nodup_cons.1 h
    by_cases hba : b = a
    · subst hba
      have hself : V.filter (· ≠ b) = V :=
        List.filter_eq_self.2 fun x hx => by
          simp only [decide_not, Bool.not_eq_eq_eq_not, Bool.not_true, decide_eq_false_iff_not]
          rintro rfl; exact hb hx
      rw [List.filter_cons_of_neg (by simp), hself]; simp
    · rw [List.filter_cons_of_pos (by simpa using hba)]
      have := length_filter_ne (a := a) hV
      simp only [List.length_cons]
      omega

/-- Removing one member keeps majorities intersecting. -/
theorem IsMajority.meet_filter [DecidableEq α] {a : α} {Q Q' : Finset α} (hV : V.Nodup)
    (hQ : IsMajority V Q) (hQ' : IsMajority (V.filter (· ≠ a)) Q') : ∃ v, v ∈ Q ∧ v ∈ Q' := by
  refine hQ.meet hQ' (U := V.toFinset) (fun v hv => List.mem_toFinset.2 hv)
    (fun v hv => List.mem_toFinset.2 (List.mem_of_mem_filter hv)) ?_
  have h1 := V.toFinset_card_le
  have h2 := length_filter_ne (a := a) hV
  omega

/-! ## The middle element -/

/-- In a list sorted in descending order, the first `k + 1` elements are at least the `k`-th. -/
theorem succ_le_countP_of_sorted {l : List Nat} {k x : Nat} (hs : l.Pairwise (· ≥ ·)) (hk : l[k]? = some x) :
    k + 1 ≤ l.countP fun y => decide (x ≤ y) := by
  obtain ⟨hlt, hx⟩ := List.getElem?_eq_some_iff.1 hk
  have hall : ∀ y ∈ l.take (k + 1), decide (x ≤ y) = true := by
    intro y hy
    obtain ⟨i, hi, rfl⟩ := List.mem_iff_getElem.1 hy
    rw [List.length_take] at hi
    rw [List.getElem_take, decide_eq_true_eq, ← hx]
    rcases Nat.lt_or_eq_of_le (show i ≤ k by omega) with hik | rfl
    · exact List.pairwise_iff_getElem.1 hs i k (by omega) hlt hik
    · exact Nat.le_refl _
  calc k + 1 = (l.take (k + 1)).length := by rw [List.length_take]; omega
    _ = (l.take (k + 1)).countP fun y => decide (x ≤ y) := (List.countP_eq_length.2 hall).symm
    _ ≤ l.countP fun y => decide (x ≤ y) := (List.take_sublist _ _).countP_le

/-- The `k`-th element of a descending list is the largest bound that `k + 1` elements reach. -/
theorem succ_le_countP_iff {l : List Nat} {k x : Nat} (hs : l.Pairwise (· ≥ ·)) (hk : l[k]? = some x) (y : Nat) :
    k + 1 ≤ l.countP (fun z => decide (y ≤ z)) ↔ y ≤ x := by
  constructor
  · intro h
    by_contra hlt
    obtain ⟨hk', hx⟩ := List.getElem?_eq_some_iff.1 hk
    have hnone : (l.drop k).countP (fun z => decide (y ≤ z)) = 0 := by
      refine List.countP_eq_zero.2 fun z hz => ?_
      obtain ⟨i, hi, rfl⟩ := List.mem_iff_getElem.1 hz
      rw [List.length_drop] at hi
      rw [List.getElem_drop, decide_eq_true_eq]
      rcases Nat.eq_zero_or_pos i with rfl | hpos
      · simpa [hx] using hlt
      · have := List.pairwise_iff_getElem.1 hs k (k + i) hk' (by omega) (by omega)
        omega
    have hle : (l.take k).countP (fun z => decide (y ≤ z)) ≤ k :=
      Nat.le_trans List.countP_le_length (List.length_take_le k l)
    rw [← List.take_append_drop k l, List.countP_append] at h
    omega
  · intro h
    refine Nat.le_trans (succ_le_countP_of_sorted hs hk) (List.countP_mono_left fun z _ hz => ?_)
    simp only [decide_eq_true_eq] at hz ⊢
    omega

/-- The `k`-th largest value of `f` on `V` is the largest bound that `k + 1` members reach. -/
theorem succ_le_countP_kth (f : α → Nat) {k x : Nat} (h : ((V.map f).insertionSort (· ≥ ·))[k]? = some x) (y : Nat) :
    k + 1 ≤ V.countP (fun v => decide (y ≤ f v)) ↔ y ≤ x := by
  rw [← succ_le_countP_iff (List.pairwise_insertionSort (· ≥ ·) (V.map f)) h y,
    (List.perm_insertionSort (· ≥ ·) (V.map f)).countP_eq, List.countP_map]
  rfl

/-- The members of `V` that have reached at least the `k`-th largest value of `f` number `k + 1`. -/
theorem card_of_kth [DecidableEq α] (hV : V.Nodup) (f : α → Nat) {k x : Nat}
    (h : ((V.map f).insertionSort (· ≥ ·))[k]? = some x) : k + 1 ≤ (V.toFinset.filter fun v => x ≤ f v).card := by
  have h1 := succ_le_countP_of_sorted (List.pairwise_insertionSort (· ≥ ·) (V.map f)) h
  rw [(List.perm_insertionSort (· ≥ ·) (V.map f)).countP_eq, List.countP_map] at h1
  refine Nat.le_trans h1 (Nat.le_of_eq ?_)
  rw [List.countP_eq_length_filter, ← List.toFinset_card_of_nodup (hV.filter _)]
  congr 1
  ext v
  simp

theorem isMajority_of_kth [DecidableEq α] (hV : V.Nodup) (f : α → Nat) {x : Nat}
    (h : ((V.map f).insertionSort (· ≥ ·))[V.length / 2 + 1 - 1]? = some x) :
    IsMajority V (V.toFinset.filter fun v => x ≤ f v) :=
  ⟨fun v hv => List.mem_toFinset.1 (Finset.mem_filter.1 hv).1, card_of_kth hV f (by simpa using h)⟩

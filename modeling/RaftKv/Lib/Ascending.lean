import Mathlib.Data.List.Chain
import Mathlib.Data.List.Sort

/-!
# Lists ascending in an index

Lists of elements with strictly increasing indexes, and two ways of adding an element: `put`
replaces the element with the same index, `cutAppend` drops everything from that index on. Adding a
sequence whose indexes rise by at most one at a time comes to the same with both as long as it ends
at its highest index (`foldl_put_eq`): on its way up it passes every index that it fell below.
-/

/-- The members are listed by strictly increasing index. -/
def AscendingBy {α : Type} (idx : α → Nat) (l : List α) : Prop := l.Pairwise fun a b => idx a < idx b

namespace AscendingBy

variable {α : Type} {idx : α → Nat} {l l' as : List α} {a x : α}

theorem ext (h : AscendingBy idx l) (h' : AscendingBy idx l') (hmem : ∀ a, a ∈ l ↔ a ∈ l') : l = l' := by
  exact List.Pairwise.eq_of_mem_iff h h' hmem

theorem filter (h : AscendingBy idx l) (p : α → Bool) : AscendingBy idx (l.filter p) := List.Pairwise.filter p h

theorem le_last {z : α} (h : AscendingBy idx l) (hz : l.getLast? = some z) (ha : a ∈ l) : idx a ≤ idx z := by
  obtain ⟨m, rfl⟩ := List.getLast?_eq_some_iff.1 hz
  rcases List.mem_append.1 ha with ha | ha
  · exact Nat.le_of_lt ((List.pairwise_append.1 h).2.2 a ha z (by simp))
  · rw [List.mem_singleton.1 ha]

/-! ## Adding an element -/

variable (idx) in
/-- Drop everything from the index of `a` on, then append `a`. -/
def cutAppend (l : List α) (a : α) : List α := l.filter (fun x => idx x < idx a) ++ [a]

variable (idx) in
/-- Replace the element with the index of `a`, or insert `a` in its place. -/
def put (l : List α) (a : α) : List α :=
  l.filter (fun x => idx x < idx a) ++ a :: l.filter (fun x => idx a < idx x)

theorem mem_cutAppend : x ∈ cutAppend idx l a ↔ x = a ∨ (x ∈ l ∧ idx x < idx a) := by
  simp [cutAppend, or_comm]

theorem mem_put : x ∈ put idx l a ↔ x = a ∨ (x ∈ l ∧ idx x ≠ idx a) := by
  simp only [put, List.mem_append, List.mem_cons, List.mem_filter, decide_eq_true_eq]
  constructor
  · rintro (⟨h, hlt⟩ | h | ⟨h, hlt⟩)
    · exact .inr ⟨h, Nat.ne_of_lt hlt⟩
    · exact .inl h
    · exact .inr ⟨h, Nat.ne_of_gt hlt⟩
  · rintro (h | ⟨h, hne⟩)
    · exact .inr (.inl h)
    · rcases Nat.lt_or_gt_of_ne hne with hlt | hlt
      · exact .inl ⟨h, hlt⟩
      · exact .inr (.inr ⟨h, hlt⟩)

theorem cutAppend_asc (h : AscendingBy idx l) : AscendingBy idx (cutAppend idx l a) := by
  refine List.pairwise_append.2 ⟨h.filter _, List.pairwise_singleton _ _, fun x hx y hy => ?_⟩
  rw [List.mem_singleton.1 hy]
  simpa using (List.mem_filter.1 hx).2

theorem put_asc (h : AscendingBy idx l) : AscendingBy idx (put idx l a) := by
  have hbelow : ∀ x ∈ l.filter (fun x => idx x < idx a), idx x < idx a := fun x hx => by
    simpa using (List.mem_filter.1 hx).2
  have habove : ∀ x ∈ l.filter (fun x => idx a < idx x), idx a < idx x := fun x hx => by
    simpa using (List.mem_filter.1 hx).2
  refine List.pairwise_append.2 ⟨h.filter _, List.pairwise_cons.2 ⟨habove, h.filter _⟩, fun x hx y hy => ?_⟩
  rcases List.mem_cons.1 hy with rfl | hy
  · exact hbelow x hx
  · exact Nat.lt_trans (hbelow x hx) (habove y hy)

theorem foldl {f : List α → α → List α} (hf : ∀ {l a}, AscendingBy idx l → AscendingBy idx (f l a))
    (h : AscendingBy idx l) : AscendingBy idx (as.foldl f l) := by
  induction as generalizing l with
  | nil => exact h
  | cons a as ih => exact ih (hf h)

/-- What is left when each addition keeps what is in relation `R` to the added element. -/
theorem mem_foldl {f : List α → α → List α} {R : α → α → Prop} (hf : ∀ {l a x}, x ∈ f l a ↔ x = a ∨ (x ∈ l ∧ R x a)) :
    x ∈ as.foldl f l ↔ (∃ u v, as = u ++ x :: v ∧ ∀ y ∈ v, R x y) ∨ (x ∈ l ∧ ∀ a ∈ as, R x a) := by
  induction as generalizing l with
  | nil => simp
  | cons a as ih =>
    rw [List.foldl_cons, ih, hf]
    constructor
    · rintro (⟨u, v, rfl, hv⟩ | ⟨rfl | ⟨hx, hR⟩, hall⟩)
      · exact .inl ⟨a :: u, v, rfl, hv⟩
      · exact .inl ⟨[], as, rfl, hall⟩
      · exact .inr ⟨hx, fun b hb => (List.mem_cons.1 hb).elim (fun h => h ▸ hR) (hall b)⟩
    · rintro (⟨u, v, huv, hv⟩ | ⟨hx, hall⟩)
      · cases u with
        | nil =>
          obtain ⟨rfl, rfl⟩ := List.cons.inj huv
          exact .inr ⟨.inl rfl, hv⟩
        | cons b u =>
          obtain ⟨rfl, rfl⟩ := List.cons.inj huv
          exact .inl ⟨u, v, rfl, hv⟩
      · exact .inr ⟨.inr ⟨hx, hall a (by simp)⟩, fun b hb => hall b (by simp [hb])⟩

/-! ## Sequences that rise by one -/

variable (idx) in
/-- Each index is at most one above the one before it. -/
def Rising (as : List α) : Prop := as.IsChain fun a b => idx b ≤ idx a + 1

/-- A rising sequence that ends at `j` or above and avoids `j` stays above it. -/
theorem Rising.above {j : Nat} (h : Rising idx as) (hne : ∀ a ∈ as, idx a ≠ j)
    (hlast : ∀ z, as.getLast? = some z → j ≤ idx z) : ∀ a ∈ as, j < idx a := by
  induction as with
  | nil => simp
  | cons b as ih =>
    have hb : j ≤ idx b := by
      cases as with
      | nil => exact hlast b rfl
      | cons b' as =>
        obtain ⟨hstep, hrest⟩ := List.isChain_cons_cons.1 h
        have := ih hrest (fun a ha => hne a (by simp [ha])) (fun z hz => hlast z hz) b' (by simp)
        omega
    intro a ha
    rcases List.mem_cons.1 ha with rfl | ha
    · have := hne a (by simp); omega
    · cases as with
      | nil => cases ha
      | cons b' as =>
        exact ih (List.isChain_cons_cons.1 h).2 (fun a ha => hne a (List.mem_cons_of_mem _ ha))
          (fun z hz => hlast z hz) a ha

theorem Rising.tail {u v : List α} (h : Rising idx (u ++ v)) : Rising idx v := h.right_of_append

/-- Cutting once, at the first index, and then replacing is the same as cutting at every index. -/
theorem foldl_put_eq {b z : α} {bs : List α} (hl : AscendingBy idx l) (h : Rising idx (b :: bs))
    (hz : (b :: bs).getLast? = some z) (htop : ∀ a ∈ b :: bs, idx a ≤ idx z) :
    (b :: bs).foldl (put idx) (l.filter fun x => idx x < idx b) = (b :: bs).foldl (cutAppend idx) l := by
  refine (foldl put_asc (hl.filter _)).ext (foldl cutAppend_asc hl) fun x => ?_
  rw [mem_foldl (R := fun x a => idx x ≠ idx a) mem_put, mem_foldl (R := fun x a => idx x < idx a) mem_cutAppend]
  constructor
  · rintro (⟨u, v, huv, hv⟩ | ⟨hx, hall⟩)
    · refine .inl ⟨u, v, huv, ?_⟩
      rw [huv] at h hz htop
      refine (h.tail.tail (u := [x])).above (fun a ha => (hv a ha).symm) fun w hw => ?_
      have hw' : (u ++ x :: v).getLast? = some w := by
        rw [List.getLast?_append, List.getLast?_cons, hw]; rfl
      rw [hw'] at hz
      cases hz
      exact htop x (by simp)
    · obtain ⟨hx, hlt⟩ := List.mem_filter.1 hx
      refine .inr ⟨hx, h.above (fun a ha => (hall a ha).symm) fun w hw => ?_⟩
      rw [hw] at hz
      cases hz
      have := htop b (by simp)
      have : idx x < idx b := by simpa using hlt
      omega
  · rintro (⟨u, v, huv, hv⟩ | ⟨hx, hall⟩)
    · exact .inl ⟨u, v, huv, fun y hy => Nat.ne_of_lt (hv y hy)⟩
    · refine .inr ⟨List.mem_filter.2 ⟨hx, by simpa using hall b (by simp)⟩, fun a ha => Nat.ne_of_lt (hall a ha)⟩

end AscendingBy

import Mathlib.Order.Basic
import Mathlib.Data.List.Sort

/-!
# Ordered maps

A finite map as an association list with strictly increasing keys; the invariant is a field, so
two maps with the same contents are equal and iteration is always in key order. All operations
are structural recursions, so closed maps evaluate in the kernel.
-/

/-- A finite map from `κ` to `ν`, listed in increasing order of the keys. -/
structure OrdMap (κ ν : Type) [LinearOrder κ] where
  toList : List (κ × ν)
  sorted : toList.Pairwise (fun a b => a.1 < b.1)

namespace OrdMap

variable {κ ν : Type} [LinearOrder κ]

instance [DecidableEq ν] : DecidableEq (OrdMap κ ν) := fun a b =>
  decidable_of_iff (a.toList = b.toList) ⟨fun h => by cases a; cases b; cases h; rfl, congrArg _⟩

theorem ext_toList {a b : OrdMap κ ν} (h : a.toList = b.toList) : a = b := by
  cases a; cases b; cases h; rfl

def empty : OrdMap κ ν := ⟨[], List.Pairwise.nil⟩

instance : EmptyCollection (OrdMap κ ν) := ⟨empty⟩

def keys (m : OrdMap κ ν) : List κ := m.toList.map Prod.fst

def find? (m : OrdMap κ ν) (k : κ) : Option ν := (m.toList.find? (fun p => p.1 = k)).map Prod.snd

/-- Insertion into the underlying list: replace at an equal key, else keep the order. -/
def insertList (k : κ) (v : ν) : List (κ × ν) → List (κ × ν)
  | [] => [(k, v)]
  | p :: l => if k < p.1 then (k, v) :: p :: l else if k = p.1 then (k, v) :: l else p :: insertList k v l

variable {k : κ} {v : ν} {m : OrdMap κ ν}

theorem mem_insertList {p : κ × ν} :
    ∀ {l : List (κ × ν)}, p ∈ insertList k v l → p = (k, v) ∨ p ∈ l
  | [], h => by simpa [insertList] using h
  | q :: l, h => by
    unfold insertList at h
    split at h
    · simpa using h
    · split at h
      · rcases List.mem_cons.1 h with h | h
        · exact .inl h
        · exact .inr (List.mem_cons_of_mem _ h)
      · rcases List.mem_cons.1 h with h | h
        · exact .inr (h ▸ List.mem_cons_self)
        · rcases mem_insertList h with h | h
          · exact .inl h
          · exact .inr (List.mem_cons_of_mem _ h)

theorem insertList_sorted (k : κ) (v : ν) :
    ∀ {l : List (κ × ν)}, l.Pairwise (fun a b => a.1 < b.1) →
      (insertList k v l).Pairwise (fun a b => a.1 < b.1)
  | [], _ => by simp [insertList]
  | q :: l, h => by
    obtain ⟨hq, hl⟩ := List.pairwise_cons.1 h
    unfold insertList
    split
    · rename_i hk
      refine List.pairwise_cons.2 ⟨fun a ha => ?_, h⟩
      rcases List.mem_cons.1 ha with rfl | ha
      · exact hk
      · exact lt_trans hk (hq a ha)
    · split
      · rename_i hk
        refine List.pairwise_cons.2 ⟨fun a ha => ?_, hl⟩
        exact hk ▸ hq a ha
      · rename_i h1 h2
        refine List.pairwise_cons.2 ⟨fun a ha => ?_, insertList_sorted k v hl⟩
        rcases mem_insertList ha with rfl | ha
        · exact lt_of_le_of_ne (not_lt.1 h1) (Ne.symm h2)
        · exact hq a ha

def insert (m : OrdMap κ ν) (k : κ) (v : ν) : OrdMap κ ν :=
  ⟨insertList k v m.toList, insertList_sorted k v m.sorted⟩

/-- Keep the bindings that satisfy `f` (`retain`). -/
def filter (m : OrdMap κ ν) (f : κ → ν → Bool) : OrdMap κ ν :=
  ⟨m.toList.filter fun p => f p.1 p.2, m.sorted.filter _⟩

def erase (m : OrdMap κ ν) (k : κ) : OrdMap κ ν := m.filter fun a _ => a ≠ k

/-! ## Lookup -/

@[simp] theorem find?_empty (k : κ) : (∅ : OrdMap κ ν).find? k = none := rfl

theorem find?_eq_some : m.find? k = some v ↔ (k, v) ∈ m.toList := by
  obtain ⟨l, hl⟩ := m
  simp only [find?]
  induction l with
  | nil => simp
  | cons p l ih =>
    obtain ⟨hp, hl'⟩ := List.pairwise_cons.1 hl
    by_cases hk : p.1 = k
    · rw [List.find?_cons_of_pos (by simpa using hk)]
      constructor
      · intro h
        simp only [Option.map_some, Option.some.injEq] at h
        exact List.mem_cons.2 (.inl (by rw [← hk, ← h]))
      · intro h
        rcases List.mem_cons.1 h with h | h
        · simp [← h]
        · exact absurd hk (ne_of_lt (hp _ h))
    · rw [List.find?_cons_of_neg (by simpa using hk), ih hl', List.mem_cons]
      constructor
      · exact .inr
      · rintro (h | h)
        · exact absurd (by rw [← h]) hk
        · exact h

theorem mem_keys : k ∈ m.keys ↔ ∃ v, m.find? k = some v := by
  simp [keys, find?_eq_some]

theorem nodup_keys (m : OrdMap κ ν) : m.keys.Nodup :=
  List.pairwise_map.2 (m.sorted.imp fun h => ne_of_lt h)

theorem mem_insertList_iff {p : κ × ν} :
    ∀ {l : List (κ × ν)}, l.Pairwise (fun a b => a.1 < b.1) →
      (p ∈ insertList k v l ↔ p = (k, v) ∨ (p ∈ l ∧ p.1 ≠ k))
  | [], _ => by simp [insertList]
  | q :: l, h => by
    obtain ⟨hq, hl⟩ := List.pairwise_cons.1 h
    unfold insertList
    split
    · rename_i hk
      have hne : ∀ a ∈ q :: l, a.1 ≠ k := by
        intro a ha
        rcases List.mem_cons.1 ha with rfl | ha
        · exact ne_of_gt hk
        · exact ne_of_gt (lt_trans hk (hq a ha))
      rw [List.mem_cons]
      exact or_congr_right ⟨fun hp => ⟨hp, hne p hp⟩, And.left⟩
    · split
      · rename_i _ hk
        have hne : ∀ a ∈ l, a.1 ≠ k := fun a ha => ne_of_gt (hk ▸ hq a ha)
        rw [List.mem_cons, List.mem_cons]
        refine or_congr_right ⟨fun hp => ⟨.inr hp, hne p hp⟩, ?_⟩
        rintro ⟨rfl | hp, hpk⟩
        · exact absurd hk.symm hpk
        · exact hp
      · rename_i _ hk
        rw [List.mem_cons, mem_insertList_iff hl, List.mem_cons]
        constructor
        · rintro (rfl | h | ⟨h, hne⟩)
          · exact .inr ⟨.inl rfl, Ne.symm hk⟩
          · exact .inl h
          · exact .inr ⟨.inr h, hne⟩
        · rintro (h | ⟨rfl | h, hne⟩)
          · exact .inr (.inl h)
          · exact .inl rfl
          · exact .inr (.inr ⟨h, hne⟩)

@[simp] theorem find?_insert (m : OrdMap κ ν) (k j : κ) (v : ν) :
    (m.insert k v).find? j = if j = k then some v else m.find? j := by
  ext w
  rw [find?_eq_some, insert, mem_insertList_iff m.sorted]
  by_cases hj : j = k
  · subst hj; simp [eq_comm]
  · simp [hj, find?_eq_some]

@[simp] theorem find?_filter (m : OrdMap κ ν) (f : κ → ν → Bool) (j : κ) :
    (m.filter f).find? j = (m.find? j).filter (f j) := by
  ext w
  rw [find?_eq_some, Option.filter_eq_some_iff, find?_eq_some]
  simp [filter]

/-- A fold of insertions of one value leaves only that value and old bindings. -/
theorem find?_foldl_insert (C : OrdMap κ ν → κ → Prop) [∀ m k, Decidable (C m k)] (x : ν) :
    ∀ (ks : List κ) (m : OrdMap κ ν) {k : κ} {v : ν},
      (ks.foldl (fun m k => if C m k then m.insert k x else m) m).find? k = some v →
        m.find? k = some v ∨ v = x
  | [], _, _, _, h => .inl h
  | a :: ks, m, k, v, h => by
    rw [List.foldl_cons] at h
    rcases find?_foldl_insert C x ks _ h with h | h
    · split at h
      · rw [find?_insert] at h
        split at h
        · exact .inr (Option.some.inj h).symm
        · exact .inl h
      · exact .inl h
    · exact .inr h

/-- The keys that such a fold adds are those with `P`. -/
theorem isSome_find?_foldl_insert (C : OrdMap κ ν → κ → Prop) [∀ m k, Decidable (C m k)] (x : ν) {P : κ → Prop}
    (hC : ∀ m k, C m k → P k) (hP : ∀ m k, P k → C m k ∨ (find? m k).isSome) (k : κ) :
    ∀ (ks : List κ) (m : OrdMap κ ν), ((ks.foldl (fun m k => if C m k then m.insert k x else m) m).find? k).isSome ↔
      (m.find? k).isSome ∨ (k ∈ ks ∧ P k)
  | [], m => by simp
  | a :: ks, m => by
    rw [List.foldl_cons, isSome_find?_foldl_insert C x hC hP k ks]
    have hone : ((if C m a then m.insert a x else m).find? k).isSome ↔ (m.find? k).isSome ∨ (k = a ∧ P k) := by
      split
      · rename_i hc
        rw [find?_insert]
        split
        · rename_i hk
          simp [hk, hC m a hc]
        · rename_i hk
          simp [hk]
      · rename_i hc
        refine ⟨.inl, ?_⟩
        rintro (h | ⟨rfl, h⟩)
        · exact h
        · exact (hP m k h).resolve_left hc
    rw [List.mem_cons]
    tauto

theorem mem_keys_insert {j : κ} : j ∈ (m.insert k v).keys ↔ j = k ∨ j ∈ m.keys := by
  simp only [mem_keys]
  by_cases hj : j = k <;> simp [hj]

end OrdMap

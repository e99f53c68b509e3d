import RaftKv.Lib.OrdMap

/-!
# Ordered key-value stores

An ordered map as a store: batches of puts and deletes applied as one write, and range scans. Two
scans are equal as soon as they have the same members (`range_eq_of_mem_iff`), so each write needs
one statement about membership.
-/

namespace OrdMap

variable {κ ν : Type} [LinearOrder κ]

/-- The bindings with keys in `[lo, hi)`, in key order. -/
def range (m : OrdMap κ ν) (lo hi : κ) : List (κ × ν) := m.toList.filter fun p => lo ≤ p.1 ∧ p.1 < hi

/-- One operation of a batch: a put, or a delete if there is no value. -/
def write (m : OrdMap κ ν) (op : κ × Option ν) : OrdMap κ ν :=
  match op.2 with
  | some v => m.insert op.1 v
  | none => m.erase op.1

/-- The operations in order; the last one on a key decides. -/
def writeBatch (m : OrdMap κ ν) (ops : List (κ × Option ν)) : OrdMap κ ν := ops.foldl write m

@[simp] theorem writeBatch_nil (m : OrdMap κ ν) : m.writeBatch [] = m := rfl

@[simp] theorem writeBatch_cons (m : OrdMap κ ν) (op : κ × Option ν) (ops : List (κ × Option ν)) :
    m.writeBatch (op :: ops) = (m.write op).writeBatch ops := rfl

theorem writeBatch_append (m : OrdMap κ ν) (ops ops' : List (κ × Option ν)) :
    m.writeBatch (ops ++ ops') = (m.writeBatch ops).writeBatch ops' := List.foldl_append ..

@[simp] theorem find?_erase (m : OrdMap κ ν) (k j : κ) : (m.erase k).find? j = if j = k then none else m.find? j := by
  rw [erase, find?_filter]
  by_cases hj : j = k
  · subst hj; cases m.find? j <;> simp
  · cases m.find? j <;> simp [hj]

theorem find?_write (m : OrdMap κ ν) (op : κ × Option ν) (k : κ) :
    (m.write op).find? k = if k = op.1 then op.2 else m.find? k := by
  obtain ⟨k₀, v₀⟩ := op
  cases v₀ <;> simp [write]

variable {m : OrdMap κ ν} {l : List (κ × ν)} {p : κ × ν}

theorem ext_find? {m' : OrdMap κ ν} (h : ∀ k, m.find? k = m'.find? k) : m = m' := by
  refine ext_toList (List.Pairwise.eq_of_mem_iff m.sorted m'.sorted fun p => ?_)
  rw [← find?_eq_some, ← find?_eq_some, h]

/-- The map with the listed bindings; the last one of a key counts. -/
def ofList (l : List (κ × ν)) : OrdMap κ ν := l.foldl (fun m p => m.insert p.1 p.2) ∅

theorem find?_foldl_insert_of_not_mem {k : κ} (h : ∀ p ∈ l, p.1 ≠ k) :
    (l.foldl (fun m p => m.insert p.1 p.2) m).find? k = m.find? k := by
  induction l generalizing m with
  | nil => rfl
  | cons p l ih =>
    rw [List.foldl_cons, ih fun q hq => h q (by simp [hq]), find?_insert, if_neg (h p (by simp)).symm]

theorem find?_foldl_insert_of_mem (hl : l.Pairwise fun a b => a.1 < b.1) {init : OrdMap κ ν} (hp : p ∈ l) :
    (l.foldl (fun m p => m.insert p.1 p.2) init).find? p.1 = some p.2 := by
  induction l generalizing init with
  | nil => cases hp
  | cons q l ih =>
    obtain ⟨hq, hl'⟩ := List.pairwise_cons.1 hl
    rw [List.foldl_cons]
    rcases List.mem_cons.1 hp with rfl | hp
    · rw [find?_foldl_insert_of_not_mem fun x hx => ne_of_gt (hq x hx), find?_insert, if_pos rfl]
    · exact ih hl' hp

/-- Loading a listing of the bindings gives the map back. -/
theorem ofList_toList (m : OrdMap κ ν) : ofList m.toList = m := by
  refine ext_find? fun k => ?_
  cases hk : m.find? k with
  | some v => exact find?_foldl_insert_of_mem m.sorted (find?_eq_some.1 hk)
  | none =>
    refine find?_foldl_insert_of_not_mem fun p hp hpk => ?_
    rw [← hpk, find?_eq_some.2 hp] at hk
    cases hk

/-- Deleting every key leaves nothing. -/
theorem writeBatch_deletes (m : OrdMap κ ν) : m.writeBatch (m.toList.map fun p => (p.1, none)) = ∅ := by
  have hdel : ∀ (ks : List (κ × ν)) (m : OrdMap κ ν) (k : κ),
      (m.writeBatch (ks.map fun p => (p.1, none))).find? k = if k ∈ ks.map Prod.fst then none else m.find? k := by
    intro ks
    induction ks with
    | nil => intro m k; simp
    | cons q ks ih =>
      intro m k
      rw [List.map_cons, writeBatch_cons, ih]
      simp only [write, find?_erase, List.map_cons, List.mem_cons]
      by_cases hk : k = q.1
      · simp [hk]
      · simp only [hk, false_or, if_false]
  refine ext_find? fun k => ?_
  rw [hdel]
  split
  · rfl
  · rename_i hk
    cases hf : m.find? k with
    | none => rfl
    | some v => exact absurd (List.mem_map.2 ⟨(k, v), find?_eq_some.1 hf, rfl⟩) hk

theorem mem_range {lo hi : κ} : p ∈ m.range lo hi ↔ m.find? p.1 = some p.2 ∧ lo ≤ p.1 ∧ p.1 < hi := by
  rw [range, find?_eq_some]; simp

theorem range_sorted (m : OrdMap κ ν) (lo hi : κ) : (m.range lo hi).Pairwise fun a b => a.1 < b.1 :=
  m.sorted.filter _

theorem range_eq_of_mem_iff {lo hi : κ}
    (hl : l.Pairwise fun a b => a.1 < b.1) (h : ∀ p, p ∈ m.range lo hi ↔ p ∈ l) : m.range lo hi = l := by
  exact List.Pairwise.eq_of_mem_iff (range_sorted m lo hi) hl h

theorem mem_range_insert {lo hi k : κ} {v : ν} :
    p ∈ (m.insert k v).range lo hi ↔ (p = (k, v) ∧ lo ≤ k ∧ k < hi) ∨ (p ∈ m.range lo hi ∧ p.1 ≠ k) := by
  obtain ⟨j, w⟩ := p
  simp only [mem_range]
  by_cases hj : j = k
  · subst hj; simp [eq_comm]
  · simp [hj]

theorem mem_range_erase {lo hi k : κ} : p ∈ (m.erase k).range lo hi ↔ p ∈ m.range lo hi ∧ p.1 ≠ k := by
  obtain ⟨j, w⟩ := p
  simp only [mem_range]
  by_cases hj : j = k
  · subst hj; simp
  · simp [hj]

/-- A write outside the range does not change the scan. -/
theorem range_insert_of_not_mem {lo hi k : κ} {v : ν} (hk : ¬ (lo ≤ k ∧ k < hi)) :
    (m.insert k v).range lo hi = m.range lo hi := by
  refine range_eq_of_mem_iff (range_sorted m lo hi) fun p => ?_
  rw [mem_range_insert]
  constructor
  · rintro (⟨_, h⟩ | ⟨h, _⟩)
    · exact absurd h hk
    · exact h
  · intro h
    refine Or.inr ⟨h, ?_⟩
    rintro rfl
    exact hk (mem_range.1 h).2

end OrdMap

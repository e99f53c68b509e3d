import RaftKv.Storage.Db

/-!
# The levels as a merge tree

The memtable and the levels are the layers of a merge tree (`layers`). `Catalog` says what the
read path relies on: every table in memory is on disk and reads as the list of its entries, and
below level 0 the tables of a level are sorted and do not overlap. Under it, and if the layers
show a history, a read returns what the history says (`getAt_eq`).
-/

namespace RaftKv.Storage

open Versions List

/-! ## Lists of levels -/

section levels
variable {α : Type} {levels : List (List α)} {i j : Nat}

theorem levelAt_eq_nil (h : levels.length ≤ i) : levelAt levels i = [] := by
  unfold levelAt
  rw [getD_eq_getElem?_getD, getElem?_eq_none h]
  rfl

theorem levelAt_modify_self {f : List α → List α} (h : i < levels.length) :
    levelAt (levels.modify i f) i = f (levelAt levels i) := by
  unfold levelAt
  rw [getD_eq_getElem?_getD, getD_eq_getElem?_getD, getElem?_modify_eq, getElem?_eq_getElem h]
  rfl

theorem levelAt_modify_ne {f : List α → List α} (h : i ≠ j) : levelAt (levels.modify i f) j = levelAt levels j := by
  unfold levelAt
  rw [getD_eq_getElem?_getD, getD_eq_getElem?_getD, getElem?_modify_ne f levels h]

theorem levelAt_padLevels (n : Nat) (levels : List (List α)) (i : Nat) :
    levelAt (Db.padLevels n levels) i = levelAt levels i := by
  by_cases h : i < levels.length
  · unfold levelAt Db.padLevels
    rw [getD_eq_getElem?_getD, getD_eq_getElem?_getD, getElem?_append_left h]
  · rw [levelAt_eq_nil (Nat.not_lt.1 h)]
    unfold levelAt Db.padLevels
    rw [getD_eq_getElem?_getD, getElem?_append_right (Nat.not_lt.1 h), getElem?_replicate]
    split <;> rfl

theorem length_padLevels (n : Nat) (levels : List (List α)) : n ≤ (Db.padLevels n levels).length := by
  unfold Db.padLevels
  rw [length_append, length_replicate]
  omega

theorem levelAt_of_drop {level : List α} {rest : List (List α)} (h : levels.drop i = level :: rest) :
    levelAt levels i = level ∧ levels.drop (i + 1) = rest := by
  constructor
  · unfold levelAt
    rw [getD_eq_getElem?_getD, ← head?_drop, h]
    rfl
  · rw [← tail_drop, h]
    rfl

end levels

/-! ## Tables on disk -/

variable (C : Coding)

namespace Disk

/-- The entries of a table; none if it cannot be read. -/
def entries (d : Disk) (t : SsTable) : List Entry :=
  match d.iterTable C t with
  | .ok es => es
  | .error _ => []

/-- The file of the table is there, and is whole. -/
def Stored (dir : String) (d : Disk) (t : SsTable) : Prop :=
  t.path = tablePath dir t.id ∧ ∃ file, d.table t.id = some file ∧ Reads C file t (d.entries C t)

variable {C} {dir : String} {d d' : Disk} {t : SsTable} {key : Bytes} {s : Nat}

theorem openTable_of_table {id : Nat} {file : Bytes} (h : d.table id = some file) :
    d.openTable C dir id = SsTable.openFile C file (tablePath dir id) id := by
  unfold openTable
  rw [h]

theorem stored_of_reads {file : Bytes} {es : List Entry} (hpath : t.path = tablePath dir t.id)
    (hf : d.table t.id = some file) (hr : Reads C file t es) : d.Stored C dir t ∧ d.entries C t = es := by
  have hiter : d.iterTable C t = .ok es := by
    unfold iterTable
    rw [hf]
    exact hr.iter_eq
  have hes : d.entries C t = es := by
    unfold entries
    rw [hiter]
  exact ⟨⟨hpath, file, hf, hes.symm ▸ hr⟩, hes⟩

theorem entries_congr (h : d'.table t.id = d.table t.id) : d'.entries C t = d.entries C t := by
  unfold entries iterTable
  rw [h]

theorem Stored.congr (hs : d.Stored C dir t) (h : d'.table t.id = d.table t.id) : d'.Stored C dir t := by
  obtain ⟨hpath, file, hf, hr⟩ := hs
  refine ⟨hpath, file, h.trans hf, ?_⟩
  rw [entries_congr h]
  exact hr

theorem Stored.openTable_eq (h : d.Stored C dir t) : d.openTable C dir t.id = .ok t := by
  obtain ⟨hpath, file, hf, hr⟩ := h
  rw [openTable_of_table hf, ← hpath]
  exact hr.openFile_eq

theorem Stored.iterTable_eq (h : d.Stored C dir t) : d.iterTable C t = .ok (d.entries C t) := by
  obtain ⟨_, file, hf, hr⟩ := h
  have heq := hr.iter_eq
  unfold iterTable
  rw [hf]
  exact heq

theorem Stored.getTable_eq (h : d.Stored C dir t) : d.getTable C t key s = .ok (lookup (d.entries C t) key s) := by
  obtain ⟨_, file, hf, hr⟩ := h
  unfold getTable
  rw [hf]
  exact hr.get_eq key s

theorem Stored.sorted (h : d.Stored C dir t) : Sorted (d.entries C t) := by
  obtain ⟨_, file, _, hr⟩ := h
  exact hr.sorted

theorem Stored.key_bounds (h : d.Stored C dir t) : ∀ e ∈ d.entries C t, t.minKey ≤ e.1 ∧ e.1 ≤ t.maxKey := by
  obtain ⟨_, file, _, hr⟩ := h
  exact Storage.key_bounds hr.sorted hr.min_eq hr.max_eq

/-- The first and the last key belong to entries. -/
theorem Stored.exists_bounds (h : d.Stored C dir t) :
    (∃ e ∈ d.entries C t, e.1 = t.minKey) ∧ ∃ e ∈ d.entries C t, e.1 = t.maxKey := by
  obtain ⟨_, file, _, hr⟩ := h
  obtain ⟨e, he, hmin⟩ := Option.map_eq_some_iff.1 hr.min_eq
  obtain ⟨e', he', hmax⟩ := Option.map_eq_some_iff.1 hr.max_eq
  exact ⟨⟨e, mem_of_mem_head? he, hmin⟩, e', mem_of_getLast? he', hmax⟩

theorem Stored.min_le_max (h : d.Stored C dir t) : t.minKey ≤ t.maxKey := by
  obtain ⟨⟨e, he, hmin⟩, _⟩ := h.exists_bounds
  rw [← hmin]
  exact (h.key_bounds e he).2

end Disk

/-! ## Layers -/

/-- The memtable, then the levels. -/
def layers (d : Disk) (mem : Set Entry) (levels : List (List SsTable)) : Nat → Set Entry
  | 0 => mem
  | i + 1 => { e | ∃ t ∈ levelAt levels i, e ∈ d.entries C t }

theorem mem_layers_succ {C : Coding} {d : Disk} {mem : Set Entry} {levels : List (List SsTable)} {i : Nat} {e : Entry} :
    e ∈ layers C d mem levels (i + 1) ↔ ∃ t ∈ levelAt levels i, e ∈ d.entries C t := Iff.rfl

/-- What the manifest records about a table, apart from its sizes. -/
def TableMeta.tag (t : TableMeta) : Nat × Bytes × Bytes := (t.id, t.minKey, t.maxKey)

def SsTable.tag (t : SsTable) : Nat × Bytes × Bytes := (t.id, t.minKey, t.maxKey)

/-- The tables in memory are those of the manifest and of the disk. -/
structure Catalog (dir : String) (d : Disk) (levels : List (List SsTable)) (m : Manifest) : Prop where
  listed : ∀ i, (levelAt m.levels i).map TableMeta.tag = (levelAt levels i).map SsTable.tag
  stored : ∀ i, ∀ t ∈ levelAt levels i, d.Stored C dir t
  sorted : ∀ i, (levelAt levels (i + 1)).Pairwise fun a b => a.maxKey < b.minKey
  /-- No file belongs to two levels. -/
  apart : ∀ ⦃i j t u⦄, t ∈ levelAt levels i → u ∈ levelAt levels j → t.id = u.id → i = j
  fresh : ∀ i, ∀ t ∈ levelAt levels i, t.id < m.nextTableId
  bounded : ∀ i, ∀ t ∈ levelAt levels i, ∀ e ∈ d.entries C t, e.2.1 ≤ m.lastSeq

/-! ## Reads -/

variable {C} {dir : String} {d : Disk} {levels : List (List SsTable)} {m : Manifest} {key : Bytes} {s : Nat}

theorem newest_table {t : SsTable} (h : d.Stored C dir t) (key : Bytes) (s : Nat) :
    Newest { e | e ∈ d.entries C t } key s (lookup (d.entries C t) key s) := newest_lookup h.sorted key s

theorem mem_flatMap_entries {ts : List SsTable} :
    { e | e ∈ ts.flatMap (d.entries C) } = { e | ∃ t ∈ ts, e ∈ d.entries C t } := by
  ext e
  exact mem_flatMap

/-- The tables of level 0 are read one after the other; of equal numbers the first one stays. -/
theorem newest_bestOf {ts : List SsTable} (hts : ∀ t ∈ ts, d.Stored C dir t) :
    ∀ {U : Set Entry} {best : Option (Nat × Option Bytes)}, Newest U key s best →
      ∃ r, Db.bestOf C d key s best ts = .ok r ∧ Newest (atop U (firsts (ts.flatMap (d.entries C)))) key s r := by
  induction ts with
  | nil =>
    intro U best hb
    have hnil : firsts ([] : List Entry) = ∅ := Set.subset_eq_empty firsts_subset (by simp)
    refine ⟨best, rfl, ?_⟩
    rw [flatMap_nil, hnil, atop_empty]
    exact hb
  | cons t ts ih =>
    intro U best hb
    have ht := hts t (by simp)
    have hts' : ∀ u ∈ ts, d.Stored C dir u := fun u hu => hts u (mem_cons_of_mem _ hu)
    have hnew := newest_table ht key s
    unfold Db.bestOf
    rw [ht.getTable_eq, flatMap_cons, firsts_append, firsts_of_single ht.sorted.single, ← atop_assoc]
    cases hl : lookup (d.entries C t) key s with
    | some p =>
      rw [hl] at hnew
      exact ih hts' (hb.atop_newer hnew)
    | none =>
      rw [hl] at hnew
      exact ih hts' (hb.atop_miss hnew)

/-- The list up to the partition point, and from there on. -/
theorem split_partitionPoint {α : Type} (p : α → Bool) (l : List α) :
    ∃ pre post, l = pre ++ post ∧ (∀ x ∈ pre, p x = true) ∧ l[partitionPoint p l]? = post.head? ∧
      ∀ x ∈ post.head?, p x = false := by
  induction l with
  | nil => exact ⟨[], [], rfl, by simp, rfl, by simp⟩
  | cons a l ih =>
    unfold partitionPoint
    by_cases ha : p a = true
    · obtain ⟨pre, post, rfl, hpre, hget, hpost⟩ := ih
      refine ⟨a :: pre, post, rfl, ?_, ?_, hpost⟩
      · intro x hx
        rcases mem_cons.1 hx with rfl | hx
        · exact ha
        · exact hpre x hx
      · rw [takeWhile_cons_of_pos ha]
        exact hget
    · refine ⟨[], a :: l, rfl, by simp, ?_, ?_⟩
      · rw [takeWhile_cons_of_neg ha]
        rfl
      · rintro x ⟨⟩
        exact eq_false_of_ne_true ha

/-- In a sorted level at most one table can have the key: the first that does not end below it. -/
theorem newest_sorted {ts : List SsTable} (hts : ∀ t ∈ ts, d.Stored C dir t)
    (hsorted : ts.Pairwise fun a b => a.maxKey < b.minKey) {i : Nat} (hi : i ≠ 0) :
    ∃ r, Db.getLevel C d key s i ts = .ok r ∧ Newest { e | ∃ t ∈ ts, e ∈ d.entries C t } key s r := by
  unfold Db.getLevel
  rw [if_neg hi]
  obtain ⟨pre, post, rfl, hpre, hget, hpost⟩ := split_partitionPoint (fun t : SsTable => decide (t.maxKey < key)) ts
  rw [hget]
  have hbounds : ∀ t ∈ pre ++ post, ∀ e ∈ d.entries C t, e.1 = key → t.minKey ≤ key ∧ key ≤ t.maxKey :=
    fun t ht e he hkey => hkey ▸ (hts t ht).key_bounds e he
  -- the tables before that one end below the key
  have hskip : ∀ t ∈ pre, ∀ e ∈ d.entries C t, e.1 ≠ key := fun t ht e he hkey =>
    absurd (hbounds t (mem_append_left _ ht) e he hkey).2 (not_le.2 (of_decide_eq_true (hpre t ht)))
  cases post with
  | nil =>
    refine ⟨none, rfl, ?_⟩
    rintro n v ⟨t, ht, he⟩
    rw [append_nil] at ht
    exact absurd rfl (hskip t ht _ he)
  | cons t post =>
    have htm : t ∈ pre ++ t :: post := by simp
    have hle : key ≤ t.maxKey := not_lt.1 (of_decide_eq_false (hpost t rfl))
    -- those after it start above its last key
    have hafter : ∀ u ∈ post, ∀ e ∈ d.entries C u, e.1 ≠ key := fun u hu e he hkey =>
      absurd (hbounds u (by simp [hu]) e he hkey).1 (not_le.2 (lt_of_le_of_lt hle
        ((pairwise_cons.1 (pairwise_append.1 hsorted).2.1).1 u hu)))
    have honly : ∀ u ∈ pre ++ t :: post, ∀ e ∈ d.entries C u, e.1 = key → u = t := by
      intro u hu e he hkey
      rcases mem_append.1 hu with hu | hu
      · exact absurd hkey (hskip u hu e he)
      · rcases mem_cons.1 hu with rfl | hu
        · rfl
        · exact absurd hkey (hafter u hu e he)
    by_cases hmin : t.minKey ≤ key
    · refine ⟨lookup (d.entries C t) key s, ?_, ?_⟩
      · simp only [head?_cons, hmin]
        exact (hts t htm).getTable_eq
      · have hnew := newest_table (hts t htm) key s
        cases hl : lookup (d.entries C t) key s with
        | none =>
          rw [hl] at hnew
          rintro n v ⟨u, hu, he⟩
          rw [honly u hu _ he rfl] at he
          exact hnew n v he
        | some p =>
          rw [hl] at hnew
          refine ⟨⟨t, htm, hnew.1⟩, hnew.2.1, ?_⟩
          rintro n v ⟨u, hu, he⟩
          rw [honly u hu _ he rfl] at he
          exact hnew.2.2 n v he
    · refine ⟨none, ?_, ?_⟩
      · simp only [head?_cons, hmin, if_false]
      · rintro n v ⟨u, hu, he⟩
        rw [honly u hu _ he rfl] at he
        exact absurd (hbounds t htm _ he rfl).1 hmin

/-- A level is read right. -/
theorem Catalog.newest_level (h : Catalog C dir d levels m) (mem : Set Entry) (key : Bytes) (s i : Nat) :
    ∃ r, Db.getLevel C d key s i (levelAt levels i) = .ok r ∧ Newest (layers C d mem levels (i + 1)) key s r := by
  cases i with
  | zero =>
    obtain ⟨r, hr, hnew⟩ := newest_bestOf (h.stored 0) (newest_empty (k := key) (s := s))
    rw [empty_atop] at hnew
    have hall := hnew.of_firsts
    rw [mem_flatMap_entries] at hall
    exact ⟨r, hr, hall⟩
  | succ i => exact newest_sorted (h.stored (i + 1)) (h.sorted i) (by omega)

/-- If each level is read right, the search takes the first hit. -/
theorem getLevels_finds {S : Nat → Set Entry}
    (hS : ∀ i, ∃ q, Db.getLevel C d key s i (levelAt levels i) = .ok q ∧ Newest (S (i + 1)) key s q) :
    ∀ (rest : List (List SsTable)) (i : Nat), levels.drop i = rest → (∀ j ≤ i, Newest (S j) key s none) →
      ∃ r, Finds S key s r ∧ Db.getLevels C d key s i rest = .ok (valueOf r) := by
  intro rest
  induction rest with
  | nil =>
    intro i hdrop hmiss
    refine ⟨none, fun j => ?_, rfl⟩
    by_cases hj : j ≤ i
    · exact hmiss j hj
    · obtain ⟨j, rfl⟩ := Nat.exists_eq_succ_of_ne_zero (by omega : j ≠ 0)
      obtain ⟨q, hq, hnew⟩ := hS j
      rw [levelAt_eq_nil ((drop_eq_nil_iff.1 hdrop).trans (by omega))] at hq
      have hnone : Db.getLevel C d key s j [] = .ok none := by
        unfold Db.getLevel
        split <;> rfl
      cases hnone.symm.trans hq
      exact hnew
  | cons level rest ih =>
    intro i hdrop hmiss
    obtain ⟨hlevel, hrest⟩ := levelAt_of_drop hdrop
    obtain ⟨q, hq, hnew⟩ := hS i
    rw [hlevel] at hq
    unfold Db.getLevels
    rw [hq]
    cases q with
    | some p => exact ⟨some p, ⟨i + 1, fun j hj => hmiss j (Nat.le_of_lt_succ hj), hnew⟩, rfl⟩
    | none =>
      refine ih (i + 1) hrest fun j hj => ?_
      rcases Nat.lt_or_eq_of_le hj with hj | rfl
      · exact hmiss j (Nat.le_of_lt_succ hj)
      · exact hnew

theorem getAt_finds {g : Engine} {S : Nat → Set Entry} (hmem : Newest (S 0) key s (lookup g.db.mem.iter key s))
    (hS : ∀ i, ∃ q, Db.getLevel C g.disk key s i (levelAt g.db.levels i) = .ok q ∧ Newest (S (i + 1)) key s q) :
    ∃ r, Finds S key s r ∧ Db.getAt C g key s = .ok (valueOf r) := by
  unfold Db.getAt
  rw [MemTable.get_eq]
  cases hl : lookup g.db.mem.iter key s with
  | some p =>
    rw [hl] at hmem
    exact ⟨some p, ⟨0, fun j hj => absurd hj (Nat.not_lt_zero j), hmem⟩, rfl⟩
  | none =>
    rw [hl] at hmem
    refine getLevels_finds hS _ 0 rfl fun j hj => ?_
    obtain rfl := Nat.le_zero.1 hj
    exact hmem

/-- A read returns what the history says. -/
theorem Catalog.getAt_eq {g : Engine} {H : Set Entry} {lo : Nat} {r : Option (Nat × Option Bytes)}
    (h : Catalog C dir g.disk g.db.levels g.db.manifest)
    (hp : Presents lo H (layers C g.disk { e | e ∈ g.db.mem.iter } g.db.levels)) (hlo : lo ≤ s)
    (hr : Newest H key s r) : Db.getAt C g key s = .ok (valueOf r) := by
  obtain ⟨q, hq, hget⟩ := getAt_finds (S := layers C g.disk { e | e ∈ g.db.mem.iter } g.db.levels)
    (newest_lookup g.db.mem.iter_sorted key s) fun i => h.newest_level _ key s i
  rw [hget]
  cases q with
  | none => exact congrArg Except.ok (hp.read_miss hlo hq hr)
  | some p =>
    obtain ⟨i, hmiss, hhit⟩ := hq
    exact congrArg Except.ok (hp.read_hit hlo hmiss hhit hr)

end RaftKv.Storage

import RaftKv.Storage.Levels

/-!
# What reads of a level can find

Two tables of level 0 may have the same version of a key, and nothing in the structure of the levels
says that they agree about its value. A read takes the value of the table that is listed first, and
so does a merge. `shown` are the versions of each level with these values. A read returns what it
finds first in them (`Catalog.newest_shown`); and if the levels are well formed, that is the newest
version (`WellFormed.topFirst`). To `shown`, the swap at the end of a compaction is `Versions.sink`
(`Catalog.shown_swapLevels`).
-/

namespace RaftKv.Storage

open Versions Db

variable {C : Coding} {dir : String} {d d' : Disk} {m m' : Manifest} {levels : List (List SsTable)} {mem : Set Entry}
  {key : Bytes} {s : Nat}

variable (C) in
/-- The memtable, then the levels, each version with the value that is listed first. -/
def shown (d : Disk) (mem : Set Entry) (levels : List (List SsTable)) : Nat → Set Entry
  | 0 => mem
  | i + 1 => firsts ((levelAt levels i).flatMap (d.entries C))

/-! ## Reads -/

theorem shown_subset (i : Nat) : shown C d mem levels i ⊆ layers C d mem levels i := by
  cases i with
  | zero => exact Set.Subset.rfl
  | succ i =>
    refine firsts_subset.trans ?_
    rw [mem_flatMap_entries]
    exact Set.Subset.rfl

variable {i : Nat}

/-- Every version of a level is shown, maybe with another value. -/
theorem exists_shown {t : Nat} {v : Option Bytes} (h : (key, t, v) ∈ layers C d mem levels i) :
    ∃ v', (key, t, v') ∈ shown C d mem levels i := by
  cases i with
  | zero => exact ⟨v, h⟩
  | succ i => exact exists_firsts (List.mem_flatMap.2 h)

theorem single_shown (hmem : Single mem) (i : Nat) : Single (shown C d mem levels i) := by
  cases i with
  | zero => exact hmem
  | succ i => exact single_firsts _

/-- In a sorted level all versions of a key are in one table. -/
theorem Catalog.single_level (hc : Catalog C dir d levels m) (i : Nat) : Single (layers C d mem levels (i + 2)) := by
  rintro k t v v' ⟨a, ha, hv⟩ ⟨b, hb, hv'⟩
  have hkey := (hc.stored _ a ha).key_bounds _ hv
  have hkey' := (hc.stored _ b hb).key_bounds _ hv'
  obtain rfl := hc.eq_of_key ha hb hkey hkey'
  exact (hc.stored _ a ha).sorted.single hv hv'

theorem Catalog.shown_sorted (hc : Catalog C dir d levels m) (i : Nat) :
    shown C d mem levels (i + 2) = layers C d mem levels (i + 2) := by
  have hsingle : Single (layers C d mem levels (i + 2)) := hc.single_level i
  show firsts _ = _
  rw [firsts_of_single]
  · exact mem_flatMap_entries
  · rw [mem_flatMap_entries]
    exact hsingle

theorem Catalog.newest_shown (hc : Catalog C dir d levels m) (mem : Set Entry) (key : Bytes) (s i : Nat) :
    ∃ r, Db.getLevel C d key s i (levelAt levels i) = .ok r ∧ Newest (shown C d mem levels (i + 1)) key s r := by
  cases i with
  | zero =>
    obtain ⟨r, hr, hnew⟩ := newest_bestOf (hc.stored 0) (newest_empty (k := key) (s := s))
    rw [empty_atop] at hnew
    exact ⟨r, hr, hnew⟩
  | succ i =>
    rw [hc.shown_sorted]
    exact hc.newest_level mem key s (i + 1)

/-- The first hit is the newest version. -/
theorem WellFormed.topFirst {g : Engine} (hw : WellFormed C g) :
    TopFirst (shown C g.disk { e | e ∈ g.db.mem.iter } g.db.levels) := by
  rintro k s p ⟨i, hmiss, hhit⟩ j t v ht hts
  -- the greatest version of all
  obtain ⟨r, hr⟩ := exists_newest (⋃ j, g.layers C j) k s
  have hmem : (k, t, v) ∈ ⋃ j, g.layers C j := Set.mem_iUnion.2 ⟨j, shown_subset j ht⟩
  cases r with
  | none => exact absurd hts (Nat.not_le.2 (hr t v hmem))
  | some q =>
    obtain ⟨hq, hqs, hmax⟩ := hr
    obtain ⟨j', hq⟩ := Set.mem_iUnion.1 hq
    have hfirst := hw.first_hit k s i ⟨p.1, hhit.2.1, p.2, shown_subset i hhit.1⟩
      (fun j hj t v ht => by
        obtain ⟨v', hv'⟩ := exists_shown ht
        exact hmiss j hj t v' hv')
      j' q.1 q.2 hq hqs fun j t' v' ht' => hmax t' v' (Set.mem_iUnion.2 ⟨j, ht'⟩)
    obtain ⟨v', hv'⟩ := exists_shown hfirst
    exact (hmax t v hmem hts).trans (hhit.2.2 _ v' hv' hqs)

/-- The same tables. -/
theorem shown_congr {levels' : List (List SsTable)} (hl : ∀ i, levelAt levels' i = levelAt levels i)
    (hd : ∀ i, ∀ t ∈ levelAt levels i, d'.table t.id = d.table t.id) :
    shown C d' mem levels' = shown C d mem levels := by
  funext j
  cases j with
  | zero => rfl
  | succ i =>
    show firsts _ = firsts _
    rw [hl]
    exact congrArg firsts (List.flatMap_congr fun t ht => Disk.entries_congr (hd i t ht))

/-! ## The swap -/

/-- Some of the tables, if their entries are told apart by the keys. -/
theorem flatMap_filter {α β : Type} {f : α → List β} {p : α → Bool} {q : β → Bool} {ts : List α}
    (h : ∀ t ∈ ts, ∀ e ∈ f t, q e = p t) : (ts.filter p).flatMap f = (ts.flatMap f).filter q := by
  induction ts with
  | nil => rfl
  | cons t ts ih =>
    rw [List.forall_mem_cons] at h
    rw [List.flatMap_cons, List.filter_append, ← ih h.2]
    cases hp : p t with
    | true =>
      rw [List.filter_cons_of_pos hp, List.flatMap_cons, List.filter_eq_self.2 fun e he => (h.1 e he).trans hp]
    | false =>
      have hnone : (f t).filter q = [] := List.filter_eq_nil_iff.2 fun e he => by simp [h.1 e he, hp]
      rw [List.filter_cons_of_neg (by simp [hp]), hnone, List.nil_append]

section swap
variable {level : Nat} {inp : Inputs}

variable {ids : List Nat}

open Classical in
/-- Where tables are told apart by their keys, what is shown of some of them is what is shown of these keys. -/
theorem firsts_tables (mem : Set Entry) {P : Bytes → Prop} {p : SsTable → Bool}
    (h : ∀ t ∈ levelAt levels i, ∀ e ∈ d.entries C t, P e.1 ↔ p t = true) :
    firsts (((levelAt levels i).filter p).flatMap (d.entries C)) = { e ∈ shown C d mem levels (i + 1) | P e.1 } := by
  rw [flatMap_filter (q := fun e => decide (P e.1)), firsts_filter]
  · rfl
  · intro t ht e he
    rw [Bool.eq_iff_iff, decide_eq_true_eq]
    exact h t ht e he

theorem Catalog.firsts_chosen (hc : Catalog C dir d levels m) (mem : Set Entry)
    (hall : i = 0 → ∀ t ∈ levelAt levels 0, t.id ∈ ids) :
    firsts (((levelAt levels i).filter fun t => t.id ∈ ids).flatMap (d.entries C)) =
      { e ∈ shown C d mem levels (i + 1) | e.1 ∈ spans levels i ids } := by
  refine firsts_tables mem fun t ht e he => ?_
  rw [hc.mem_spans_iff hall ht he, decide_eq_true_eq]

theorem Catalog.firsts_others (hc : Catalog C dir d levels m) (mem : Set Entry)
    (hall : i = 0 → ∀ t ∈ levelAt levels 0, t.id ∈ ids) :
    firsts (((levelAt levels i).filter fun t => t.id ∉ ids).flatMap (d.entries C)) =
      { e ∈ shown C d mem levels (i + 1) | e.1 ∉ spans levels i ids } := by
  refine firsts_tables (P := fun k => k ∉ spans levels i ids) mem fun t ht e he => ?_
  rw [hc.mem_spans_iff hall ht he, decide_eq_true_eq]

/-- The merge of the inputs: those of the upper level over the others. -/
theorem Catalog.firsts_sources {db : Db} (hc : Catalog C dir d db.levels m) (mem : Set Entry) {minK maxK : Bytes}
    (hch : Chosen db level inp minK maxK) :
    firsts ((db.sources level inp).map (d.entries C)).flatten =
      atop { e ∈ shown C d mem db.levels (level + 1) | e.1 ∈ spans db.levels level inp.srcIds }
        { e ∈ shown C d mem db.levels (level + 2) | e.1 ∈ spans db.levels (level + 1) inp.dstIds } := by
  rw [← hc.firsts_chosen mem fun h => h ▸ hch.all h, ← hc.firsts_chosen mem fun h => by omega, ← firsts_append,
    ← List.flatMap_append]
  rfl

/-- To what is shown, the swap is a compaction. -/
theorem Catalog.shown_swapLevels {db : Db} (hc : Catalog C dir d db.levels m) {minK maxK : Bytes}
    (hch : Chosen db level inp minK maxK) {tables : List SsTable} {lo : Nat} {bottom : Prop}
    (hc' : Catalog C dir d' (swapLevels SsTable.id SsTable.minKey level inp tables db.levels) m')
    (hlen : level + 1 < db.levels.length) (hd : ∀ i, ∀ t ∈ levelAt db.levels i, d'.table t.id = d.table t.id)
    (hout : ∀ e, (∃ t ∈ tables, e ∈ d'.entries C t) ↔
      e ∈ kept lo bottom (firsts ((db.sources level inp).map (d.entries C)).flatten)) :
    shown C d' mem (swapLevels SsTable.id SsTable.minKey level inp tables db.levels) =
      sink (shown C d mem db.levels) (level + 1) (spans db.levels level inp.srcIds)
        (spans db.levels (level + 1) inp.dstIds) lo bottom := by
  have hsame : ∀ {i} {ts : List SsTable}, (∀ t ∈ ts, t ∈ levelAt db.levels i) →
      ts.flatMap (d'.entries C) = ts.flatMap (d.entries C) := by
    intro i ts hts
    refine List.flatMap_congr fun t ht => Disk.entries_congr (hd i t (hts t ht))
  funext j
  cases j with
  | zero => rw [sink_other (by omega) (by omega)]; rfl
  | succ i =>
    by_cases h : i = level
    · subst h
      rw [sink_self, ← hc.firsts_others mem fun h => h ▸ hch.all h]
      show firsts _ = _
      rw [levelAt_swap_self hlen, hsame fun t ht => (List.mem_filter.1 ht).1]
    · by_cases h' : i = level + 1
      · subst h'
        have hstay : { e ∈ layers C d mem db.levels (level + 2) | e.1 ∉ spans db.levels (level + 1) inp.dstIds } = _ :=
          hc.layer_spans (fun h => by omega) Not
        rw [sink_next, ← hc.firsts_sources mem hch, hc'.shown_sorted, hc.shown_sorted, hstay]
        ext e
        rw [Set.mem_union, ← hout]
        exact mem_layers_swap_next hlen (hd _)
      · rw [sink_other (by omega) (by omega)]
        show firsts _ = firsts _
        rw [levelAt_swap_other h h', hsame fun t ht => ht]

end swap

end RaftKv.Storage

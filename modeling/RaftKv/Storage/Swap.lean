import Mathlib.Data.List.Pairwise
import RaftKv.Storage.Changes
import RaftKv.Storage.Turns

/-!
# The swap at the end of a compaction

`compact_level` chooses some tables of a level and all tables of the next one that overlap them,
and swaps them for its outputs. On the layers this is one step of `Versions.compact`
(`layers_swapLevels`), and the outputs fit between the tables that stay (`sorted_swapLevels`).
-/

namespace RaftKv.Storage

open Versions Db List

/-! ## The inputs -/

section best
variable {α β : Type} {f : α → β} {r : β → β → Prop} [DecidableRel r]

/-- A scan for the best item, beginning with `best`. -/
theorem foldl_best (hirr : ∀ a, ¬ r a a) (htrans : ∀ {a b c}, r a b → r b c → r a c)
    (hco : ∀ {a c} b, r a c → r a b ∨ r b c) :
    ∀ (l : List α) (best : Option β) {k : β},
      l.foldl (fun m a => if m.all fun k => r (f a) k then some (f a) else m) best = some k →
      (∀ b ∈ best, ¬ r b k) ∧ ∀ a ∈ l, ¬ r (f a) k := by
  intro l
  induction l with
  | nil =>
    intro best k hk
    obtain rfl : best = some k := hk
    exact ⟨by rintro b ⟨⟩; exact hirr k, by simp⟩
  | cons a l ih =>
    intro best k hk
    rw [foldl_cons] at hk
    obtain ⟨hbest, hl⟩ := ih _ hk
    by_cases hlt : (best.all fun k => decide (r (f a) k)) = true
    · rw [if_pos hlt] at hbest
      have ha : ¬ r (f a) k := hbest (f a) rfl
      refine ⟨?_, ?_⟩
      · rintro b ⟨⟩ hbk
        rw [Option.all_some, decide_eq_true_eq] at hlt
        exact ha (htrans hlt hbk)
      · intro x hx
        rcases mem_cons.1 hx with rfl | hx
        · exact ha
        · exact hl x hx
    · rw [if_neg hlt] at hbest
      refine ⟨hbest, ?_⟩
      intro x hx
      rcases mem_cons.1 hx with rfl | hx
      · cases best with
        | none => exact absurd rfl hlt
        | some b =>
          rw [Option.all_some, decide_eq_true_eq] at hlt
          exact fun hak => (hco b hak).elim hlt (hbest b rfl)
      · exact hl x hx

theorem isSome_foldl_best : ∀ (l : List α) (best : Option β), best.isSome ∨ l ≠ [] →
    (l.foldl (fun m a => if m.all fun k => r (f a) k then some (f a) else m) best).isSome := by
  intro l
  induction l with
  | nil =>
    rintro best (hb | hb)
    · exact hb
    · exact absurd rfl hb
  | cons a l ih =>
    intro best _
    rw [foldl_cons]
    refine ih _ (.inl ?_)
    cases best with
    | none => rfl
    | some b => split <;> rfl

end best

theorem lt_or_lt {a c : Bytes} (b : Bytes) (h : a < c) : a < b ∨ b < c :=
  (lt_or_ge a b).imp_right fun hle => lt_of_le_of_lt hle h

variable {ts tables : List SsTable} {k minK maxK : Bytes} {level i next : Nat} {metas : List TableMeta}
  {ids : List Nat} {mem : Set Entry} {db : Db}

theorem minKeyOf_le (h : minKeyOf ts = some k) : ∀ t ∈ ts, k ≤ t.minKey := fun t ht =>
  not_lt.1 ((foldl_best (r := fun a b : Bytes => a < b) (fun a => lt_irrefl a) lt_trans lt_or_lt ts none h).2 t ht)

theorem le_maxKeyOf (h : maxKeyOf ts = some k) : ∀ t ∈ ts, t.maxKey ≤ k := fun t ht =>
  not_lt.1 ((foldl_best (r := fun a b : Bytes => a > b) (fun a => lt_irrefl a) (fun h h' => lt_trans h' h)
    (fun b h => (lt_or_lt b h).symm) ts none h).2 t ht)

/-- What is known of the inputs: the tables of the level lie between two keys, and those of the next level are the
ones that overlap this range. -/
structure Chosen (db : Db) (level : Nat) (inp : Inputs) (minK maxK : Bytes) : Prop where
  all : level = 0 → ∀ t ∈ levelAt db.levels 0, t.id ∈ inp.srcIds
  sources : ∀ id ∈ inp.srcIds, ∃ t ∈ levelAt db.levels level, t.id = id
  within : ∀ t ∈ levelAt db.levels level, t.id ∈ inp.srcIds → minK ≤ t.minKey ∧ t.maxKey ≤ maxK
  overlapping : ∀ t ∈ levelAt db.levels (level + 1), overlaps minK maxK t = true → t.id ∈ inp.dstIds
  only : ∀ id ∈ inp.dstIds, ∃ t ∈ levelAt db.levels (level + 1), overlaps minK maxK t = true ∧ t.id = id
  nonempty : inp.srcIds ≠ []

theorem sourceIds_subset {id : Nat} (h : id ∈ sourceIds level ts) : ∃ t ∈ ts, t.id = id := by
  unfold sourceIds at h
  split at h
  · exact mem_map.1 h
  · exact mem_map.1 (min?_mem (Option.mem_toList.1 h))

theorem sourceIds_ne_nil (h : ts ≠ []) : sourceIds level ts ≠ [] := by
  unfold sourceIds
  split
  · simpa using h
  · have hne : ts.map SsTable.id ≠ [] := by simpa using h
    obtain ⟨id, hid⟩ := Option.isSome_iff_exists.1 (isSome_min?_of_ne_nil hne)
    rw [hid]
    exact cons_ne_nil _ _

/-- The inputs are found; none means that there is no table to compact. -/
theorem inputs_spec (db : Db) (level : Nat) :
    db.inputs level = .ok none ∧ levelAt db.levels level = [] ∨ ∃ inp minK maxK, db.inputs level = .ok (some inp) ∧
      Chosen db level inp minK maxK := by
  unfold inputs
  by_cases hne : sourceIds level (levelAt db.levels level) = []
  · refine .inl ⟨if_pos hne, ?_⟩
    by_contra hts
    exact sourceIds_ne_nil hts hne
  · rw [if_neg hne]
    set src := (levelAt db.levels level).filter fun t =>
      decide (t.id ∈ sourceIds level (levelAt db.levels level)) with hsrc
    have hsrc_ne : src ≠ [] := by
      obtain ⟨id, hid⟩ := exists_mem_of_ne_nil _ hne
      obtain ⟨t, ht, rfl⟩ := sourceIds_subset hid
      exact ne_nil_of_mem (mem_filter.2 ⟨ht, decide_eq_true hid⟩)
    obtain ⟨minK, hmin⟩ := Option.isSome_iff_exists.1
      (isSome_foldl_best (f := SsTable.minKey) (r := fun a b : Bytes => a < b)
      src none (.inr hsrc_ne))
    obtain ⟨maxK, hmax⟩ := Option.isSome_iff_exists.1
      (isSome_foldl_best (f := SsTable.maxKey) (r := fun a b : Bytes => a > b)
      src none (.inr hsrc_ne))
    have hmin' : minKeyOf src = some minK := hmin
    have hmax' : maxKeyOf src = some maxK := hmax
    right
    refine ⟨{ srcIds := sourceIds level (levelAt db.levels level)
              dstIds := ((levelAt db.levels (level + 1)).filter (overlaps minK maxK)).map SsTable.id }, minK, maxK,
                ?_, ?_⟩
    · dsimp only
      rw [hmin', hmax']
      rfl
    · refine ⟨?_, fun id hid => sourceIds_subset hid, ?_, ?_, ?_, hne⟩
      · rintro rfl t ht
        exact mem_map.2 ⟨t, ht, rfl⟩
      · intro t ht hid
        have hmem : t ∈ src := mem_filter.2 ⟨ht, decide_eq_true hid⟩
        exact ⟨minKeyOf_le hmin' t hmem, le_maxKeyOf hmax' t hmem⟩
      · intro t ht hov
        exact mem_map.2 ⟨t, mem_filter.2 ⟨ht, hov⟩, rfl⟩
      · intro id hid
        obtain ⟨t, ht, heq⟩ := mem_map.1 hid
        exact ⟨t, (mem_filter.1 ht).1, (mem_filter.1 ht).2, heq⟩

/-! ## The levels after the swap -/

section
variable {α : Type} {id : α → Nat} {minKey : α → Bytes} {level : Nat} {inp : Inputs} {outputs : List α}
  {levels : List (List α)}

theorem levelAt_swap_self (hlen : level + 1 < levels.length) :
    levelAt (swapLevels id minKey level inp outputs levels) level =
      (levelAt levels level).filter fun t => id t ∉ inp.srcIds := by
  unfold swapLevels
  rw [levelAt_modify_ne (by omega), levelAt_modify_self (by omega)]

theorem levelAt_swap_next (hlen : level + 1 < levels.length) :
    levelAt (swapLevels id minKey level inp outputs levels) (level + 1) =
      ((levelAt levels (level + 1)).filter (fun t => id t ∉ inp.dstIds) ++ outputs).insertionSort
        fun a b => minKey a ≤ minKey b := by
  unfold swapLevels
  rw [levelAt_modify_self (by rw [length_modify]; exact hlen), levelAt_modify_ne (by omega)]

theorem levelAt_swap_other (h : i ≠ level) (h' : i ≠ level + 1) :
    levelAt (swapLevels id minKey level inp outputs levels) i = levelAt levels i := by
  unfold swapLevels
  rw [levelAt_modify_ne (Ne.symm h'), levelAt_modify_ne (Ne.symm h)]

/-- A table after the swap is an output, or one that was there and is no input. -/
theorem mem_levelAt_swap (hlen : level + 1 < levels.length) {a : α} :
    a ∈ levelAt (swapLevels id minKey level inp outputs levels) i ↔
      a ∈ levelAt levels i ∧ (i = level → id a ∉ inp.srcIds) ∧ (i = level + 1 → id a ∉ inp.dstIds) ∨
        i = level + 1 ∧ a ∈ outputs := by
  by_cases h : i = level
  · subst h
    rw [levelAt_swap_self hlen]
    simp
  · by_cases h' : i = level + 1
    · subst h'
      rw [levelAt_swap_next hlen]
      simp
    · rw [levelAt_swap_other h h']
      simp [h, h']

end

/-- The swap does the same to the manifest and to the tables. -/
theorem map_tag_swapLevels {inp : Inputs}
    {mlevels : List (List TableMeta)} {levels : List (List SsTable)} (hm : level + 1 < mlevels.length)
    (hl : level + 1 < levels.length) (htag : metas.map TableMeta.tag = tables.map SsTable.tag)
    (hlisted : ∀ i, (levelAt mlevels i).map TableMeta.tag = (levelAt levels i).map SsTable.tag) (i : Nat) :
    (levelAt (swapLevels TableMeta.id TableMeta.minKey level inp metas mlevels) i).map TableMeta.tag =
      (levelAt (swapLevels SsTable.id SsTable.minKey level inp tables levels) i).map SsTable.tag := by
  -- both sides filter and sort by what is in the tags
  have hfilter : ∀ (ids : List Nat) (j : Nat),
      ((levelAt mlevels j).filter fun t => t.id ∉ ids).map TableMeta.tag =
        ((levelAt levels j).filter fun t => t.id ∉ ids).map SsTable.tag := by
    intro ids j
    have h₁ := filter_map (f := TableMeta.tag) (p := fun p => decide (p.1 ∉ ids)) (l := levelAt mlevels j)
    have h₂ := filter_map (f := SsTable.tag) (p := fun p => decide (p.1 ∉ ids)) (l := levelAt levels j)
    rw [hlisted j] at h₁
    exact h₁.symm.trans h₂
  by_cases h : i = level
  · subst h
    rw [levelAt_swap_self hm, levelAt_swap_self hl]
    exact hfilter _ _
  · by_cases h' : i = level + 1
    · subst h'
      rw [levelAt_swap_next hm, levelAt_swap_next hl,
        map_insertionSort (fun a b : TableMeta => a.minKey ≤ b.minKey)
          (fun a b : Nat × Bytes × Bytes => a.2.1 ≤ b.2.1) TableMeta.tag _ fun _ _ _ _ => Iff.rfl,
        map_insertionSort (fun a b : SsTable => a.minKey ≤ b.minKey)
          (fun a b : Nat × Bytes × Bytes => a.2.1 ≤ b.2.1) SsTable.tag _ fun _ _ _ _ => Iff.rfl,
        map_append, map_append, hfilter, htag]
    · rw [levelAt_swap_other h h', levelAt_swap_other h h']
      exact hlisted i

/-! ## The layers after the swap -/

variable {C : Coding} {dir : String} {d d' : Disk} {m : Manifest} {levels : List (List SsTable)} {level : Nat}
  {inp : Inputs} {e : Entry} {t u : SsTable}

/-- The keys in the ranges of these tables of level `i`. -/
def spans (levels : List (List SsTable)) (i : Nat) (ids : List Nat) : Set Bytes :=
  { k | ∃ t ∈ levelAt levels i, t.id ∈ ids ∧ t.minKey ≤ k ∧ k ≤ t.maxKey }

theorem Catalog.eq_of_id (hc : Catalog C dir d levels m) {j : Nat} (ht : t ∈ levelAt levels i)
    (hu : u ∈ levelAt levels j) (h : t.id = u.id) : t = u := by
  have h₁ := (hc.stored i t ht).openTable_eq
  have h₂ := (hc.stored j u hu).openTable_eq
  rw [h, h₂] at h₁
  exact (Except.ok.inj h₁).symm

/-- The ranges of two tables do not meet. -/
def SsTable.Apart (a b : SsTable) : Prop := a.maxKey < b.minKey ∨ b.maxKey < a.minKey

instance : Std.Symm SsTable.Apart := ⟨fun _ _ h => h.symm⟩

theorem Catalog.pairwise_apart (hc : Catalog C dir d levels m) (i : Nat) :
    (levelAt levels (i + 1)).Pairwise SsTable.Apart := (hc.sorted i).imp .inl

/-- Two tables of a sorted level are the same if they share a key. -/
theorem Catalog.eq_of_key (hc : Catalog C dir d levels m) (ht : t ∈ levelAt levels (i + 1))
    (hu : u ∈ levelAt levels (i + 1)) (h : t.minKey ≤ k ∧ k ≤ t.maxKey) (h' : u.minKey ≤ k ∧ k ≤ u.maxKey) :
    t = u := by
  by_contra hne
  rcases (hc.pairwise_apart i).forall ht hu hne with hlt | hlt
  · exact absurd (h'.1.trans h.2) (not_le.2 hlt)
  · exact absurd (h.1.trans h'.2) (not_le.2 hlt)

theorem Catalog.mem_spans (hc : Catalog C dir d levels m) (ht : t ∈ levelAt levels i)
    (hid : t.id ∈ ids) (he : e ∈ d.entries C t) : e.1 ∈ spans levels i ids :=
  ⟨t, ht, hid, (hc.stored i t ht).key_bounds e he⟩

/-- The entries of the chosen tables of a level, and those of the others, are told apart by their keys. -/
theorem Catalog.mem_spans_iff (hc : Catalog C dir d levels m) (hall : i = 0 → ∀ t ∈ levelAt levels 0, t.id ∈ ids)
    (ht : t ∈ levelAt levels i) (he : e ∈ d.entries C t) : e.1 ∈ spans levels i ids ↔ t.id ∈ ids := by
  refine ⟨fun hk => ?_, fun hid => hc.mem_spans ht hid he⟩
  cases i with
  | zero => exact hall rfl t ht
  | succ i =>
    obtain ⟨u, hu, hid, hrange⟩ := hk
    rw [hc.eq_of_key ht hu ((hc.stored _ t ht).key_bounds e he) hrange]
    exact hid

theorem Catalog.layer_spans (hc : Catalog C dir d levels m) (hall : i = 0 → ∀ t ∈ levelAt levels 0, t.id ∈ ids)
    (P : Prop → Prop) :
    { e ∈ layers C d mem levels (i + 1) | P (e.1 ∈ spans levels i ids) } =
      { e | ∃ t ∈ levelAt levels i, P (t.id ∈ ids) ∧ e ∈ d.entries C t } := by
  ext e
  constructor
  · rintro ⟨⟨t, ht, he⟩, hP⟩
    rw [hc.mem_spans_iff hall ht he] at hP
    exact ⟨t, ht, hP, he⟩
  · rintro ⟨t, ht, hP, he⟩
    rw [← hc.mem_spans_iff hall ht he] at hP
    exact ⟨⟨t, ht, he⟩, hP⟩

/-- The entries of all inputs. -/
def inputEntries (C : Coding) (d : Disk) (levels : List (List SsTable)) (level : Nat) (inp : Inputs) : Set Entry :=
  { e | ∃ t ∈ levelAt levels level, t.id ∈ inp.srcIds ∧ e ∈ d.entries C t } ∪
    { e | ∃ t ∈ levelAt levels (level + 1), t.id ∈ inp.dstIds ∧ e ∈ d.entries C t }

/-- The next level after the swap: what stays there, and the outputs. -/
theorem mem_layers_swap_next (hlen : level + 1 < levels.length)
    (hd : ∀ t ∈ levelAt levels (level + 1), d'.table t.id = d.table t.id) :
    e ∈ layers C d' mem (swapLevels SsTable.id SsTable.minKey level inp tables levels) (level + 2) ↔
      (∃ t ∈ levelAt levels (level + 1), t.id ∉ inp.dstIds ∧ e ∈ d.entries C t) ∨ ∃ t ∈ tables, e ∈ d'.entries C t := by
  have hsame : ∀ {t}, t ∈ levelAt levels (level + 1) → (e ∈ d'.entries C t ↔ e ∈ d.entries C t) := fun ht => by
    rw [Disk.entries_congr (hd _ ht)]
  constructor
  · rintro ⟨t, ht, he⟩
    rcases (mem_levelAt_swap hlen).1 ht with ⟨ht, -, hdst⟩ | ⟨-, ht⟩
    · exact .inl ⟨t, ht, hdst rfl, (hsame ht).1 he⟩
    · exact .inr ⟨t, ht, he⟩
  · rintro (⟨t, ht, hid, he⟩ | ⟨t, ht, he⟩)
    · exact ⟨t, (mem_levelAt_swap hlen).2 (.inl ⟨ht, fun h => by omega, fun _ => hid⟩), (hsame ht).2 he⟩
    · exact ⟨t, (mem_levelAt_swap hlen).2 (.inr ⟨rfl, ht⟩), he⟩

/-- To the layers, the swap is a compaction. -/
theorem Catalog.layers_swapLevels (hc : Catalog C dir d levels m) {lo : Nat}
    {bottom : Prop} (hlen : level + 1 < levels.length) (hall : level = 0 → ∀ t ∈ levelAt levels 0, t.id ∈ inp.srcIds)
    (hd : ∀ i, ∀ t ∈ levelAt levels i, d'.table t.id = d.table t.id)
    (hout : ∀ e, (∃ t ∈ tables, e ∈ d'.entries C t) ↔ e ∈ kept lo bottom (inputEntries C d levels level inp)) :
    layers C d' mem (swapLevels SsTable.id SsTable.minKey level inp tables levels) =
      Versions.compact (layers C d mem levels) (level + 1) (spans levels level inp.srcIds)
        (spans levels (level + 1) inp.dstIds) lo bottom := by
  have hsame : ∀ {i t}, t ∈ levelAt levels i → ∀ {e}, e ∈ d'.entries C t ↔ e ∈ d.entries C t := fun ht e => by
    rw [Disk.entries_congr (hd _ _ ht)]
  funext j
  cases j with
  | zero => rw [compact_other (by omega) (by omega)]; rfl
  | succ i =>
    by_cases h : i = level
    · subst h
      rw [compact_self, hc.layer_spans hall Not]
      ext e
      constructor
      · rintro ⟨t, ht, he⟩
        rcases (mem_levelAt_swap hlen).1 ht with ⟨ht, hsrc, -⟩ | ⟨hne, -⟩
        · exact ⟨t, ht, hsrc rfl, (hsame ht).1 he⟩
        · omega
      · rintro ⟨t, ht, hid, he⟩
        exact ⟨t, (mem_levelAt_swap hlen).2 (.inl ⟨ht, fun _ => hid, fun h => by omega⟩), (hsame ht).2 he⟩
    · by_cases h' : i = level + 1
      · subst h'
        rw [compact_next, hc.layer_spans (fun h => by omega) Not, hc.layer_spans hall fun p => p,
          hc.layer_spans (fun h => by omega) fun p => p]
        ext e
        show _ ↔ _ ∨ e ∈ kept lo bottom (inputEntries C d levels level inp)
        rw [← hout]
        exact mem_layers_swap_next hlen (hd _)
      · rw [compact_other (by omega) (by omega)]
        exact layer_congr mem mem (hd i) (levelAt_swap_other h h')

/-! ## The outputs among the tables that stay -/

/-- A table that is no input lies on one side of all of them. -/
theorem Chosen.beside (hch : Chosen db level inp minK maxK)
    (hc : Catalog C dir d db.levels m) (ht : t ∈ levelAt db.levels (level + 1)) (hid : t.id ∉ inp.dstIds) :
    (∀ e ∈ inputEntries C d db.levels level inp, t.maxKey < e.1) ∨
      ∀ e ∈ inputEntries C d db.levels level inp, e.1 < t.minKey := by
  have hmm := (hc.stored _ t ht).min_le_max
  have hside : t.maxKey < minK ∨ maxK < t.minKey := by
    by_contra hno
    rw [not_or] at hno
    exact hid (hch.overlapping t ht (by simp [overlaps, not_lt.1 hno.1, not_lt.1 hno.2]))
  -- an input of the same level is on the side that the range lies on
  have hnext : ∀ u ∈ levelAt db.levels (level + 1), u.id ∈ inp.dstIds →
      minK ≤ u.maxKey ∧ u.minKey ≤ maxK ∧ SsTable.Apart t u := by
    intro u hu huid
    obtain ⟨w, hw, hov, heq⟩ := hch.only _ huid
    obtain rfl := hc.eq_of_id hw hu heq
    simp only [overlaps, Bool.not_eq_true', Bool.or_eq_false_iff, decide_eq_false_iff_not, not_lt] at hov
    refine ⟨hov.1, hov.2, (hc.pairwise_apart level).forall ht hw ?_⟩
    rintro rfl
    exact hid huid
  rcases hside with hlt | hlt
  · left
    rintro e (⟨u, hu, huid, he⟩ | ⟨u, hu, huid, he⟩)
    · have hb := (hc.stored _ u hu).key_bounds e he
      exact lt_of_lt_of_le hlt ((hch.within u hu huid).1.trans hb.1)
    · have hb := (hc.stored _ u hu).key_bounds e he
      obtain ⟨hmin, -, hap | hap⟩ := hnext u hu huid
      · exact lt_of_lt_of_le hap hb.1
      · exact absurd (hmm.trans hlt.le) (not_le.2 (lt_of_le_of_lt hmin hap))
  · right
    rintro e (⟨u, hu, huid, he⟩ | ⟨u, hu, huid, he⟩)
    · have hb := (hc.stored _ u hu).key_bounds e he
      exact lt_of_le_of_lt (hb.2.trans (hch.within u hu huid).2) hlt
    · have hb := (hc.stored _ u hu).key_bounds e he
      obtain ⟨-, hmax, hap | hap⟩ := hnext u hu huid
      · exact absurd (hmm.trans hap.le) (not_le.2 (lt_of_le_of_lt hmax hlt))
      · exact lt_of_le_of_lt hb.2 hap

/-- A key of the inputs is in an input of the next level, if it is there at all. -/
theorem Catalog.spans_next (hc : Catalog C dir d db.levels m)
    (hch : Chosen db level inp minK maxK) (he : e ∈ layers C d mem db.levels (level + 2))
    (hk : e.1 ∈ spans db.levels level inp.srcIds) : e.1 ∈ spans db.levels (level + 1) inp.dstIds := by
  obtain ⟨t, ht, he⟩ := he
  obtain ⟨u, hu, huid, hrange⟩ := hk
  have hb := (hc.stored _ t ht).key_bounds e he
  have hw := hch.within u hu huid
  refine hc.mem_spans ht (hch.overlapping t ht ?_) he
  simp only [overlaps, Bool.not_eq_true', Bool.or_eq_false_iff, decide_eq_false_iff_not, not_lt]
  exact ⟨hw.1.trans (hrange.1.trans hb.2), hb.1.trans (hrange.2.trans hw.2)⟩

/-- A sorted list of tables with ranges that do not meet. -/
theorem pairwise_of_insertionSort {l : List SsTable} (hap : l.Pairwise SsTable.Apart)
    (hmm : ∀ t ∈ l, t.minKey ≤ t.maxKey) :
    (l.insertionSort fun a b => a.minKey ≤ b.minKey).Pairwise fun a b => a.maxKey < b.minKey := by
  have hsorted := pairwise_insertionSort (fun a b : SsTable => a.minKey ≤ b.minKey) l
  have hperm := perm_insertionSort (fun a b : SsTable => a.minKey ≤ b.minKey) l
  have hap' := hperm.symm.pairwise hap fun h => h.symm
  refine (hsorted.and hap').imp_of_mem fun {a b} ha hb hab => ?_
  obtain ⟨hle, hlt | hlt⟩ := hab
  · exact hlt
  · exact absurd (hle.trans (hmm b (hperm.mem_iff.1 hb))) (not_le.2 hlt)

/-- What the tables that a compaction has written must satisfy: new files, apart from each other, with entries of the
inputs. -/
structure Outputs (C : Coding) (dir : String) (d d' : Disk) (db : Db) (level : Nat) (inp : Inputs) (next : Nat)
    (metas : List TableMeta) (tables : List SsTable) : Prop where
  others : ∀ i, ∀ t ∈ levelAt db.levels i, d'.table t.id = d.table t.id
  stored : ∀ t ∈ tables, d'.Stored C dir t
  tags : metas.map TableMeta.tag = tables.map SsTable.tag
  apart : tables.Pairwise SsTable.Apart
  inputs : ∀ t ∈ tables, ∀ e ∈ d'.entries C t, e ∈ inputEntries C d db.levels level inp
  ids : ∀ t ∈ tables, db.manifest.nextTableId ≤ t.id ∧ t.id < next
  next_le : db.manifest.nextTableId ≤ next
  count_le : d'.count C tables ≤ d.count C (db.sources level inp)

theorem Catalog.swap (hc : Catalog C dir d db.levels db.manifest) (hch : Chosen db level inp minK maxK)
    (hout : Outputs C dir d d' db level inp next metas tables) (hl : level + 1 < db.levels.length)
    (hm : level + 1 < db.manifest.levels.length) :
    Catalog C dir d' (swapLevels SsTable.id SsTable.minKey level inp tables db.levels)
      (db.swappedManifest level inp next metas) := by
  have hstored : ∀ {i t}, t ∈ levelAt db.levels i → d'.Stored C dir t := fun ht =>
    (hc.stored _ _ ht).congr (hout.others _ _ ht)
  refine ⟨map_tag_swapLevels hm hl hout.tags hc.listed, fun i t ht => ?_, fun i => ?_, fun i j t u ht hu heq => ?_,
    fun i t ht => ?_, fun i t ht e he => ?_⟩
  · rcases (mem_levelAt_swap hl).1 ht with ⟨ht, -⟩ | ⟨-, ht⟩
    · exact hstored ht
    · exact hout.stored t ht
  · by_cases h : i + 1 = level
    · rw [h, levelAt_swap_self hl, ← h]
      exact (hc.sorted i).sublist filter_sublist
    · by_cases h' : i = level
      · subst h'
        rw [levelAt_swap_next hl]
        refine pairwise_of_insertionSort ?_ fun t ht => ?_
        · refine pairwise_append.2 ⟨(hc.pairwise_apart i).sublist filter_sublist, hout.apart, fun t ht u hu => ?_⟩
          obtain ⟨ht, hid⟩ := mem_filter.1 ht
          obtain ⟨⟨e, he, hmin⟩, e', he', hmax⟩ := (hout.stored u hu).exists_bounds
          rcases hch.beside hc ht (by simpa using hid) with hb | hb
          · exact .inl (hmin ▸ hb e (hout.inputs u hu e he))
          · exact .inr (hmax ▸ hb e' (hout.inputs u hu e' he'))
        · rcases mem_append.1 ht with ht | ht
          · exact (hc.stored _ t (mem_filter.1 ht).1).min_le_max
          · exact (hout.stored t ht).min_le_max
      · rw [levelAt_swap_other h (by omega)]
        exact hc.sorted i
  · -- the ids of the outputs are new
    rcases (mem_levelAt_swap hl).1 ht with ⟨ht, -⟩ | ⟨hi, ht⟩
    · rcases (mem_levelAt_swap hl).1 hu with ⟨hu, -⟩ | ⟨-, hu⟩
      · exact hc.apart ht hu heq
      · exact absurd (hout.ids u hu).1 (Nat.not_le.2 (heq ▸ hc.fresh i t ht))
    · rcases (mem_levelAt_swap hl).1 hu with ⟨hu, -⟩ | ⟨hj, -⟩
      · exact absurd (hout.ids t ht).1 (Nat.not_le.2 (heq ▸ hc.fresh j u hu))
      · rw [hi, hj]
  · rcases (mem_levelAt_swap hl).1 ht with ⟨ht, -⟩ | ⟨-, ht⟩
    · exact Nat.lt_of_lt_of_le (hc.fresh i t ht) hout.next_le
    · exact (hout.ids t ht).2
  · rcases (mem_levelAt_swap hl).1 ht with ⟨ht, -⟩ | ⟨-, ht⟩
    · rw [Disk.entries_congr (hout.others i t ht)] at he
      exact hc.bounded i t ht e he
    · rcases hout.inputs t ht e he with ⟨u, hu, -, he⟩ | ⟨u, hu, -, he⟩
      · exact hc.bounded _ u hu e he
      · exact hc.bounded _ u hu e he

/-- The files of the inputs are not used after the swap. -/
theorem Catalog.id_notMem_swap (hc : Catalog C dir d db.levels db.manifest) (hch : Chosen db level inp minK maxK)
    (hout : Outputs C dir d d' db level inp next metas tables) (hl : level + 1 < db.levels.length)
    (ht : t ∈ levelAt (swapLevels SsTable.id SsTable.minKey level inp tables db.levels) i) :
    t.id ∉ inp.srcIds ++ inp.dstIds := by
  intro hid
  -- an input with this id
  have hinput : ∃ u j, u ∈ levelAt db.levels j ∧ u.id = t.id ∧
      (j = level ∧ t.id ∈ inp.srcIds ∨ j = level + 1 ∧ t.id ∈ inp.dstIds) := by
    rcases mem_append.1 hid with hid | hid
    · obtain ⟨u, hu, heq⟩ := hch.sources _ hid
      exact ⟨u, level, hu, heq, .inl ⟨rfl, hid⟩⟩
    · obtain ⟨u, hu, -, heq⟩ := hch.only _ hid
      exact ⟨u, level + 1, hu, heq, .inr ⟨rfl, hid⟩⟩
  obtain ⟨u, j, hu, heq, hj⟩ := hinput
  rcases (mem_levelAt_swap hl).1 ht with ⟨ht, hsrc, hdst⟩ | ⟨-, ht⟩
  · have hij : i = j := hc.apart ht hu heq.symm
    rcases hj with ⟨rfl, hm⟩ | ⟨rfl, hm⟩
    · exact hsrc hij hm
    · exact hdst hij hm
  · exact absurd (hout.ids t ht).1 (Nat.not_le.2 (heq ▸ hc.fresh j u hu))

/-- The versions of the inputs sink to the next level. -/
theorem Catalog.sinks_swap (hc : Catalog C dir d db.levels db.manifest) (hch : Chosen db level inp minK maxK)
    (hout : Outputs C dir d d' db level inp next metas tables) (hl : level + 1 < db.levels.length) :
    Sinks level (fun i => d.count C (levelAt db.levels i))
      fun i => d'.count C (levelAt (swapLevels SsTable.id SsTable.minKey level inp tables db.levels) i) := by
  have hstay : ∀ i p, d'.count C ((levelAt db.levels i).filter p) = d.count C ((levelAt db.levels i).filter p) :=
    fun i p =>
    Disk.count_congr fun t ht => hout.others i t (mem_filter.1 ht).1
  have hsplit : ∀ i (ids : List Nat), d.count C ((levelAt db.levels i).filter fun t => t.id ∈ ids) +
      d.count C ((levelAt db.levels i).filter fun t => t.id ∉ ids) = d.count C (levelAt db.levels i) := by
    intro i ids
    simp only [decide_not]
    exact Disk.count_filter fun t => decide (t.id ∈ ids)
  refine ⟨d.count C ((levelAt db.levels level).filter fun t => t.id ∈ inp.srcIds), ?_, ?_, ?_, fun j h h' => ?_⟩
  · -- there is an input, and it is not empty
    obtain ⟨id, hid⟩ := exists_mem_of_ne_nil _ hch.nonempty
    obtain ⟨t, ht, rfl⟩ := hch.sources id hid
    obtain ⟨⟨e, he, -⟩, -⟩ := (hc.stored level t ht).exists_bounds
    exact (length_pos_of_mem he).trans_le (Disk.le_count (mem_filter.2 ⟨ht, decide_eq_true hid⟩))
  · dsimp only
    rw [levelAt_swap_self hl, hstay, Nat.add_comm]
    exact hsplit level inp.srcIds
  · dsimp only
    rw [levelAt_swap_next hl, Disk.count_perm (perm_insertionSort _ _), Disk.count_append, hstay,
      ← hsplit (level + 1) inp.dstIds]
    have hle := hout.count_le
    unfold Db.sources at hle
    rw [Disk.count_append] at hle
    omega
  · dsimp only
    rw [levelAt_swap_other h h']
    exact Disk.count_congr fun t ht => hout.others j t ht

variable {W : LogRel} {opts : Options} {snaps : OrdMap Nat Nat} {H : Set Entry} {n : Nat} {g : Engine}

/-- All levels from `n` on are empty. -/
theorem levelAt_of_all_isEmpty {α : Type} {levels : List (List α)} {n : Nat}
    (hb : (levels.drop n).all List.isEmpty = true) (hi : n ≤ i) : levelAt levels i = [] := by
  by_cases hlt : i < levels.length
  · unfold levelAt
    rw [getD_eq_getElem?_getD, getElem?_eq_getElem hlt]
    refine isEmpty_iff.1 (all_eq_true.1 hb _ ?_)
    exact mem_drop_iff_getElem.2 ⟨i - n, by omega, by simp [Nat.add_sub_cancel' hi]⟩
  · exact levelAt_eq_nil (Nat.not_lt.1 hlt)

/-- The swap keeps the invariant. -/
theorem Inv.swapped (hi : Inv C dir W opts snaps H n g) (hch : Chosen g.db level inp minK maxK)
    (hout : Outputs C dir g.disk d g.db level inp next metas tables) (hl : level + 1 < g.db.levels.length)
    (hm : level + 1 < g.db.manifest.levels.length)
    (hkept : ∀ e, (∃ t ∈ tables, e ∈ d.entries C t) ↔ e ∈ kept (g.db.compactionSpec level).minSnap
      ((g.db.compactionSpec level).bottom = true) (inputEntries C g.disk g.db.levels level inp))
    (hman : d.manifest = { main := some ((g.db.swappedManifest level inp next metas).file C) })
    (hwal : d.wal = g.disk.wal) (hsync : d.synced = g.disk.synced) :
    Inv C dir W opts snaps H n
      { g with
        disk := d
        db := { g.db with
          manifest := g.db.swappedManifest level inp next metas
          levels := swapLevels SsTable.id SsTable.minKey level inp tables g.db.levels } } := by
  have hmin : (g.db.compactionSpec level).minSnap = floor snaps n := by
    show g.db.minSnap = _
    unfold Db.minSnap floor
    rw [hi.snaps_eq, hi.seq_eq]
  refine
    { single := hi.single
      bound := hi.bound
      short := hi.short
      seq_eq := hi.seq_eq
      dir_eq := hi.dir_eq
      opts_eq := hi.opts_eq
      snaps_eq := hi.snaps_eq
      snaps_le := hi.snaps_le
      started := by unfold swapLevels; rw [length_modify, length_modify]; exact hi.started
      saved := ⟨_, by rw [hman]; exact congrArg _ (Manifest.load_main C rfl), fun _ => rfl, rfl, rfl⟩
      catalog := hi.catalog.swap hch hout hl hm
      log := by rw [hwal, hsync]; exact hi.log
      last := hi.last
      shows := ?_ }
  · rw [hi.catalog.layers_swapLevels hl hch.all hout.others hkept, hmin]
    refine hi.shows.compact hi.single ?_ ?_
    · exact fun e he hP => hi.catalog.spans_next hch he hP
    · intro hb j hj
      obtain ⟨j, rfl⟩ := Nat.exists_eq_succ_of_ne_zero (by omega : j ≠ 0)
      ext e
      rw [mem_layers_succ, levelAt_of_all_isEmpty hb (by omega)]
      simp

end RaftKv.Storage

import RaftKv.Storage.Compacted
import RaftKv.Storage.Shown

/-!
# What a compaction preserves

Of any engine whose levels are well formed, not only of one that a run has reached: `compact_level`
writes tables with the entries of the reference, and no reader from the oldest snapshot on notices
it (`Preserves`), if and only if a buffer for a block can be allocated and the lengths in the tables
that it has to write fit their fields (`Writable`). One direction follows the call: the outputs can
be built and opened, and to what reads can find the swap is `Versions.sink`
(`preserves_of_writable`). For the other one there are only the new tables to go by. They have
opened, so their indices fit; and if no entry is missing in them, then no block was cut short
(`writable_of_preserves`).

| here | there |
| --- | --- |
| `Preserves`      | `compact_level` (`db.rs:349-506`), `get_at` (`db.rs:181-207`) |
| `inputLists`     | the iterators that are merged (`db.rs:403-413`) |
| `newTables`      | the tables for `outputs`, as they are found in the level (`db.rs:497-500`) |
| `Swapped`        | the levels after the swap (`db.rs:484-505`) |
-/

namespace RaftKv.Storage

open Versions Db List

variable {C : Coding} {dir : String} {W : LogRel} {opts : Options} {snaps : OrdMap Nat Nat} {H : Set Entry} {n : Nat}
  {g g' : Engine} {d : Disk} {db : Db} {level : Nat} {inp : Inputs} {es : List Entry} {m : Manifest}

/-! ## States -/

/-- Every table in memory has a file of its own, and it reads as the list of its entries. -/
structure Engine.Backed (C : Coding) (g : Engine) : Prop where
  stored : ∀ i, ∀ t ∈ levelAt g.db.levels i, g.disk.Stored C g.db.dir t
  apart : ∀ ⦃i j t u⦄, t ∈ levelAt g.db.levels i → u ∈ levelAt g.db.levels j → t.id = u.id → i = j

theorem Inv.backed (hi : Inv C dir W opts snaps H n g) : g.Backed C :=
  ⟨hi.dir_eq ▸ hi.catalog.stored, hi.catalog.apart⟩

/-- All numbers that were given out bound those in the tables. -/
def Db.caughtUp (db : Db) : Db := { db with manifest := { db.manifest with lastSeq := db.seq } }

/-- The tables in memory are those of the manifest and of the disk. -/
def Engine.Filed (C : Coding) (g : Engine) : Prop :=
  Catalog C g.db.dir g.disk g.db.caughtUp.levels g.db.caughtUp.manifest

theorem WellFormed.filed (hw : WellFormed C g) (hb : g.Backed C) : g.Filed C where
  listed := hw.listed
  stored := hb.stored
  sorted i := (hw.apart (i + 1) (by omega)).imp fun h => h.2
  apart := hb.apart
  fresh := hw.fresh
  bounded i t ht e he := hw.numbers (i + 1) e ⟨t, ht, he⟩

theorem Shelved.filed (hf : Shelved C dir opts g) : g.Filed C := by
  unfold Engine.Filed
  rw [hf.dir_eq]
  exact hf.catalog.congr (fun _ _ _ => rfl) (fun _ => rfl) (fun _ => rfl) le_rfl hf.last_le

theorem Engine.Filed.id_lt (hc : g.Filed C) {i : Nat} {t : SsTable} (ht : t ∈ levelAt g.db.levels i) :
    t.id < g.db.manifest.nextTableId := hc.fresh i t ht

theorem lt_length_padded (level : Nat) (db : Db) : level + 1 < (padded level db).levels.length :=
  length_padLevels (level + 2) db.levels

theorem Catalog.padded (hc : Catalog C dir d db.levels db.manifest) (level : Nat) :
    Catalog C dir d (Storage.padded level db).levels (Storage.padded level db).manifest :=
  hc.congr (fun _ _ _ => rfl) (levelAt_padLevels _ _) (levelAt_padLevels _ _) le_rfl le_rfl

theorem Engine.Filed.padded (hc : g.Filed C) (level : Nat) :
    Catalog C g.db.dir g.disk (Storage.padded level g.db.caughtUp).levels
      (Storage.padded level g.db.caughtUp).manifest :=
  Catalog.padded hc level

theorem Chosen.padded {minK maxK : Bytes} (hch : Chosen db level inp minK maxK) :
    Chosen (Storage.padded level db.caughtUp) level inp minK maxK := by
  obtain ⟨hall, hsrc, hwithin, hover, honly, hne⟩ := hch
  have hsame : ∀ i, levelAt (Storage.padded level db.caughtUp).levels i = levelAt db.levels i := levelAt_padLevels _ _
  refine ⟨?_, ?_, ?_, ?_, ?_, hne⟩
  all_goals
    simp only [hsame]
    assumption

/-! ## What is asked -/

deriving instance DecidableEq for CompactionSpec

/-- A table with these entries can be built, and the lengths in it fit their fields. -/
structure TableFits (C : Coding) (blockBytes bitsPerKey : Nat) (es : List Entry) : Prop where
  blocks : ∀ c ∈ cutBlocks blockBytes [] es, (records c).length < 2 ^ 32
  index : IndexFits C blockBytes bitsPerKey es

/-- The entries of the tables that a compaction of the level reads. -/
def inputLists (C : Coding) (g : Engine) (level : Nat) : List (List Entry) :=
  match g.db.inputs level with
  | .ok (some inp) => (g.db.sources level inp).map (g.disk.entries C)
  | _ => []

/-- The tables that it has to write can be written. -/
def Writable (C : Coding) (g : Engine) (level : Nat) : Prop :=
  ∀ es ∈ outputGroups (g.db.compactionSpec level) (inputLists C g level),
    TableFits C g.db.opts.blockBytes g.db.opts.bitsPerKey es

/-- The tables that it has written. -/
def newTables (g g' : Engine) (level : Nat) : List SsTable :=
  (levelAt g'.db.levels (level + 1)).filter fun t => g.db.manifest.nextTableId ≤ t.id

/-- The compaction returns; the tables that it writes have the entries of the reference; and no reader from the oldest
snapshot on notices it. -/
def Preserves (C : Coding) (g : Engine) (level : Nat) : Prop :=
  ∃ g', compactLevel C level g = .ok () g' ∧
    (∃ lists, (newTables g g' level).mapM (g'.disk.iterTable C) = .ok lists ∧
      lists.flatten = reference (g.db.compactionSpec level).minSnap (g.db.compactionSpec level).bottom
        (inputLists C g level)) ∧
    ∀ k s, g.db.minSnap ≤ s → getAt C g' k s = getAt C g k s

/-! ## Reads -/

theorem getAt_congr {m' : Manifest} {dir' : String} (g g' : Engine) (hc : Catalog C dir g.disk g.db.levels m)
    (hc' : Catalog C dir' g'.disk g'.db.levels m') (hmem : g'.db.mem = g.db.mem) {k : Bytes} {s : Nat}
    (hfinds : ∀ r, Finds (shown C g.disk { e | e ∈ g.db.mem.iter } g.db.levels) k s r →
      ∃ r', Finds (shown C g'.disk { e | e ∈ g.db.mem.iter } g'.db.levels) k s r' ∧ valueOf r' = valueOf r) :
    getAt C g' k s = getAt C g k s := by
  have hnew := newest_lookup g.db.mem.iter_sorted k s
  obtain ⟨r, hr, hget⟩ := getAt_finds (S := shown C g.disk { e | e ∈ g.db.mem.iter } g.db.levels) hnew
    fun i => hc.newest_shown _ k s i
  obtain ⟨q, hq, hget'⟩ := getAt_finds (g := g') (S := shown C g'.disk { e | e ∈ g.db.mem.iter } g'.db.levels)
    (hmem ▸ hnew) fun i => hc'.newest_shown _ k s i
  obtain ⟨r', hr', hval⟩ := hfinds r hr
  have hsingle : ∀ j, Single (shown C g'.disk { e | e ∈ g.db.mem.iter } g'.db.levels j) :=
    single_shown g.db.mem.iter_sorted.single
  rw [hget, hget', hq.unique hsingle hr', hval]

/-! ## The call -/

/-- There is nothing to compact. -/
theorem preserves_of_none (hc : g.Filed C) (hnone : g.db.inputs level = .ok none) : Preserves C g level := by
  have hsame : ∀ i, levelAt (padded level g.db).levels i = levelAt g.db.levels i := levelAt_padLevels _ _
  have hnil : newTables g { g with db := padded level g.db } level = [] := by
    refine filter_eq_nil_iff.2 fun t ht => ?_
    rw [hsame] at ht
    simpa using hc.id_lt ht
  have hlists : inputLists C g level = [] := by
    unfold inputLists
    rw [hnone]
  refine ⟨_, compactLevel_none hnone, ⟨[], ?_, ?_⟩, fun k s _ => ?_⟩
  · rw [hnil]
    rfl
  · rw [hlists]
    rfl
  · refine getAt_congr g { g with db := padded level g.db } hc (hc.padded level) rfl fun r hr => ⟨r, ?_, rfl⟩
    rw [shown_congr hsame fun _ _ _ => rfl]
    exact hr

/-- What a table for these entries needs. -/
def Groups (C : Coding) (p : CompactionSpec) (groups : List (List Entry)) : Prop :=
  ∀ gr ∈ groups, gr ≠ [] ∧ Sorted gr ∧ (∀ e ∈ gr, FitsU32 e ∧ e.2.1 < 2 ^ 64) ∧ TableFits C p.blockBytes p.bitsPerKey gr

/-- What a compaction does to well formed levels. -/
theorem compactLevel_pack (hc : g.Filed C) (hinp : g.db.inputs level = .ok (some inp)) :
    Ensures (compactLevel C level) g
      (fun _ g' => ∃ c tables, Compactor.pack C (g.db.compactionSpec level) g.db.manifest.nextTableId
          (outputGroups (g.db.compactionSpec level) (inputLists C g level)) = .ok (c.outputs, c.nextId, c.fits) ∧
        Compacted C g g' level inp c tables)
      (fun _ _ => ∀ r, Compactor.pack C (g.db.compactionSpec level) g.db.manifest.nextTableId
          (outputGroups (g.db.compactionSpec level) (inputLists C g level)) = .ok r →
        ∃ o ∈ r.1, ∀ t, SsTable.openFile C o.2 (Disk.tablePath g.db.dir o.1.id) o.1.id ≠ .ok t) := by
  have hlists : inputLists C g level = (g.db.sources level inp).map (g.disk.entries C) := by
    unfold inputLists
    rw [hinp]
  rw [hlists]
  have hs : ∀ src ∈ (g.db.sources level inp).map (g.disk.entries C), Sorted src := hc.sources_sorted
  refine (compactLevel_result hinp (hc.sources_eq level inp) fun c hrun => ?_).mono ?_ ?_
  · obtain ⟨-, hids, -⟩ := Compactor.pack_spec (pack_of_run hs hrun)
    rw [hids]
    exact nodup_range'
  · rintro _ g' ⟨c, tables, hrun, hcomp⟩
    exact ⟨c, tables, pack_of_run hs hrun, hcomp⟩
  · intro _ _ h r hr
    obtain ⟨c, hrun⟩ := run_of_pack hs hr
    obtain ⟨o, ho, hno⟩ := h c hrun
    rw [pack_of_run hs hrun] at hr
    cases hr
    exact ⟨o, ho, hno⟩

variable {c : Compactor} {tables : List SsTable} {minK maxK : Bytes}

theorem newTables_perm (hc : g.Filed C) (hcomp : Compacted C g g' level inp c tables)
    (hids : ∀ t ∈ tables, g.db.manifest.nextTableId ≤ t.id) : (newTables g g' level).Perm tables := by
  unfold newTables
  rw [hcomp.db_eq]
  rw [levelAt_swap_next (lt_length_padded ..)]
  refine ((perm_insertionSort _ _).filter _).trans ?_
  have hold : ((levelAt (padded level g.db).levels (level + 1)).filter fun t => t.id ∉ inp.dstIds).filter
      (fun t => decide (g.db.manifest.nextTableId ≤ t.id)) = [] := by
    refine filter_eq_nil_iff.2 fun t ht => ?_
    have ht' : t ∈ levelAt (padded level g.db).levels (level + 1) := (mem_filter.1 ht).1
    rw [show levelAt (padded level g.db).levels (level + 1) = _ from levelAt_padLevels ..] at ht'
    simpa using hc.id_lt ht'
  rw [filter_append, hold, nil_append, filter_eq_self.2 fun t ht => decide_eq_true (hids t ht)]

theorem inputLists_eq (hinp : g.db.inputs level = .ok (some inp)) :
    inputLists C g level = ((padded level g.db.caughtUp).sources level inp).map (g.disk.entries C) := by
  unfold inputLists
  rw [hinp, sources_padded]
  rfl

theorem Writable.groups (hwr : Writable C g level) (hc : g.Filed C) (hinp : g.db.inputs level = .ok (some inp)) :
    Groups C (g.db.compactionSpec level) (outputGroups (g.db.compactionSpec level) (inputLists C g level)) := by
  intro gr hgr
  have hfits := hwr gr hgr
  rw [inputLists_eq hinp] at hgr
  obtain ⟨hne, hsort, hkv⟩ := Catalog.group_facts (g := { g with db := padded level g.db.caughtUp })
    (hc.padded level) _ gr hgr
  exact ⟨hne, hsort, hkv, hfits⟩

theorem Writable.build (hwr : Writable C g level) (hc : g.Filed C) (hinp : g.db.inputs level = .ok (some inp)) :
    ∀ gr ∈ outputGroups (g.db.compactionSpec level) (inputLists C g level), ∃ t,
      TableBuilder.build C (g.db.compactionSpec level).blockBytes (g.db.compactionSpec level).bitsPerKey gr = .ok t ∧
        t.fits = true := by
  intro gr hgr
  obtain ⟨-, -, hkv, hblocks, hindex⟩ := hwr.groups hc hinp gr hgr
  exact build_of_fits (fun e he => (hkv e he).1) hblocks hindex

/-- If the tables can be written, the compaction returns. -/
theorem compactLevel_of_writable (hc : g.Filed C) (hinp : g.db.inputs level = .ok (some inp))
    (hwr : Writable C g level) : ∃ g', compactLevel C level g = .ok () g' := by
  have hbuild := hwr.build hc hinp
  obtain ⟨r, hr⟩ := Compactor.pack_ok g.db.manifest.nextTableId fun gr hgr => (hbuild gr hgr).imp fun _ h => h.1
  have hrun := compactLevel_pack hc hinp
  cases h : compactLevel C level g with
  | ok a g' => exact ⟨g', rfl⟩
  | error e g' =>
    -- every output can be opened
    obtain ⟨o, ho, hno⟩ := hrun.of_error h r hr
    obtain ⟨hbuilt, -⟩ := Compactor.pack_spec hr
    obtain ⟨gr, hgr, bt, hbt, hfile, -⟩ := forall₂_mem_left hbuilt ho
    obtain ⟨bt', hbt', hfit⟩ := hbuild gr hgr
    obtain ⟨hne, hsort, hkv, -⟩ := hwr.groups hc hinp gr hgr
    rw [hbt] at hbt'
    cases hbt'
    obtain ⟨t, hopen, -⟩ := build_reads hsort hne (fun e he => (hkv e he).2) hbt hfit
      (Disk.tablePath g.db.dir o.1.id) o.1.id
    exact absurd (hfile ▸ hopen) (hno t)

/-- The state after a compaction whose tables could be written: the outputs have the entries of the reference. `d`
has the files before those of the inputs are removed. -/
structure Swapped (C : Coding) (g g' : Engine) (level : Nat) (inp : Inputs) (c : Compactor) (tables : List SsTable)
    (d : Disk) : Prop extends Compacted C g g' level inp c tables where
  built : List.Forall₂ (fun o gr => ∃ t, TableBuilder.build C (g.db.compactionSpec level).blockBytes
      (g.db.compactionSpec level).bitsPerKey gr = .ok t ∧ o.2 = t.file ∧
      o.1 = { id := o.1.id, minKey := t.minKey, maxKey := t.maxKey, entries := t.entries, bytes := t.bytes })
    c.outputs (outputGroups (g.db.compactionSpec level) (inputLists C g level))
  stored : List.Forall₂ (fun t gr => d.Stored C g.db.dir t ∧ d.entries C t = gr) tables
    (outputGroups (g.db.compactionSpec level) (inputLists C g level))
  outputs : Outputs C g.db.dir g.disk d (padded level g.db.caughtUp) level inp c.nextId (c.outputs.map Prod.fst) tables
  remaining : ∀ id ∉ inp.srcIds ++ inp.dstIds, g'.disk.table id = d.table id

theorem swapped_of_writable (hc : g.Filed C) (hinp : g.db.inputs level = .ok (some inp)) (hwr : Writable C g level) :
    ∃ g' c tables d, compactLevel C level g = .ok () g' ∧ Swapped C g g' level inp c tables d := by
  obtain ⟨g', hg'⟩ := compactLevel_of_writable hc hinp hwr
  obtain ⟨c, tables, hpack, hcomp⟩ := (compactLevel_pack hc hinp).of_ok hg'
  obtain ⟨d, hold, hnew, hrest⟩ := hcomp.files
  obtain ⟨hbuilt, hids, -⟩ := Compactor.pack_spec hpack
  have hold' : ∀ id < g.db.manifest.nextTableId, d.table id = g.disk.table id := by
    intro id hid
    refine hold id fun o ho heq => ?_
    have hmem : id ∈ c.outputs.map fun o => o.1.id := heq ▸ mem_map.2 ⟨o, ho, rfl⟩
    rw [hids, mem_range'_1] at hmem
    omega
  have hfits : ∀ gr ∈ outputGroups (g.db.compactionSpec level) (inputLists C g level), ∀ bt,
      TableBuilder.build C (g.db.compactionSpec level).blockBytes (g.db.compactionSpec level).bitsPerKey gr = .ok bt →
      bt.fits = true := by
    intro gr hgr bt hbt
    obtain ⟨bt', hbt', hfit⟩ := hwr.build hc hinp gr hgr
    rw [hbt] at hbt'
    cases hbt'
    exact hfit
  have hlists := inputLists_eq (C := C) hinp
  obtain ⟨tables', hopen, hstored, hout⟩ := Catalog.packed (g := { g with db := padded level g.db.caughtUp })
    (hc.padded level)
    (hlists ▸ hpack) (hlists ▸ hfits) hold' hnew
  -- the tables that open are those that were opened
  obtain rfl : tables' = tables := by
    refine forall₂_unique hopen (forall₂_imp_mem hcomp.opened fun o t ho _ ht => ?_)
    exact (Disk.openTable_of_table (hnew o ho)).trans ht
  exact ⟨g', c, tables', d, hg', hcomp, hbuilt, hlists ▸ hstored, hout, hrest⟩

theorem Swapped.levels_eq (h : Swapped C g g' level inp c tables d) :
    g'.db.levels = swapLevels SsTable.id SsTable.minKey level inp tables (padded level g.db.caughtUp).levels := by
  rw [h.db_eq]
  rfl

/-- The inputs are not missed. -/
theorem Swapped.table_eq (h : Swapped C g g' level inp c tables d) (hc : g.Filed C)
    (hch : Chosen g.db level inp minK maxK) :
    ∀ i, ∀ t ∈ levelAt g'.db.levels i, g'.disk.table t.id = d.table t.id := by
  intro i t ht
  rw [h.levels_eq] at ht
  exact h.remaining _ ((hc.padded level).id_notMem_swap hch.padded h.outputs (lt_length_padded ..) ht)

/-- The levels are in order again. -/
theorem Swapped.filed (h : Swapped C g g' level inp c tables d) (hc : g.Filed C)
    (hch : Chosen g.db level inp minK maxK) : g'.Filed C := by
  have hswap := (hc.padded level).swap hch.padded h.outputs (lt_length_padded ..) (length_padLevels (level + 2) _)
  have hfiles := h.table_eq hc hch
  rw [h.levels_eq] at hfiles
  unfold Engine.Filed
  rw [h.db_eq]
  exact hswap.congr hfiles (fun _ => rfl) (fun _ => rfl) le_rfl le_rfl

/-- The new tables have the entries of the reference. -/
theorem Swapped.newTables_eq (h : Swapped C g g' level inp c tables d) (hc : g.Filed C)
    (hch : Chosen g.db level inp minK maxK) : (newTables g g' level).mapM (g'.disk.iterTable C) =
      .ok (outputGroups (g.db.compactionSpec level) (inputLists C g level)) := by
  have hperm := newTables_perm hc h.toCompacted fun t ht => (h.outputs.ids t ht).1
  -- they are in the order of their keys, as the outputs are
  have hnew : newTables g g' level = tables := by
    refine hperm.eq_of_pairwise ?_ (((h.filed hc hch).sorted level).sublist filter_sublist)
      (maxKey_lt_of_keysBelow h.stored (keysBelow_outputGroups ..))
    intro a b ha hb hab hba
    have ha := h.outputs.stored a (hperm.mem_iff.1 ha)
    exact absurd (ha.min_le_max.trans_lt (hab.trans_le (h.outputs.stored b hb).min_le_max)) (not_lt.2 hba.le)
  rw [hnew]
  refine mapM_eq_ok (forall₂_imp_mem h.stored fun t gr ht _ hst => ?_)
  have hfile := h.table_eq hc hch (level + 1) t (mem_of_mem_filter (hnew.symm ▸ ht : t ∈ newTables g g' level))
  rw [← hst.2, ← Disk.entries_congr hfile]
  exact (hst.1.congr hfile).iterTable_eq

/-- Readers that are recent enough find the same values. -/
theorem Swapped.getAt_eq (h : Swapped C g g' level inp c tables d) (hw : WellFormed C g) (hc : g.Filed C)
    (hinp : g.db.inputs level = .ok (some inp)) (hch : Chosen g.db level inp minK maxK) {k : Bytes} {s : Nat}
    (hs : g.db.minSnap ≤ s) : getAt C g' k s = getAt C g k s := by
  have hmem : g'.db.mem = g.db.mem := by rw [h.db_eq]; rfl
  refine getAt_congr g g' hc (h.filed hc hch) hmem fun r hr => ?_
  have hkept : ∀ e, (∃ t ∈ tables, e ∈ d.entries C t) ↔
    e ∈ kept g.db.minSnap ((g.db.compactionSpec level).bottom = true)
      (firsts (((padded level g.db.caughtUp).sources level inp).map (g.disk.entries C)).flatten) := by
    intro e
    rw [mem_of_groups h.stored, flatten_outputGroups, mem_reference, inputLists_eq hinp]
    rfl
  have hswap := (hc.padded level).swap hch.padded h.outputs (lt_length_padded ..) (length_padLevels (level + 2) _)
  have hpad : shown C g.disk { e | e ∈ g.db.mem.iter } (padded level g.db.caughtUp).levels =
      shown C g.disk { e | e ∈ g.db.mem.iter } g.db.levels :=
    shown_congr (levelAt_padLevels _ _) fun _ _ _ => rfl
  rw [shown_congr (fun _ => rfl) (h.table_eq hc hch), h.levels_eq, (hc.padded level).shown_swapLevels hch.padded hswap
    (lt_length_padded ..) h.outputs.others hkept, hpad]
  refine hr.sink hw.topFirst (single_shown g.db.mem.iter_sorted.single) (fun e he hk => ?_) (fun hbot j hj => ?_) hs
  · rw [← hpad] at he
    exact (hc.padded level).spans_next hch.padded (shown_subset _ he) hk
  · obtain ⟨j, rfl⟩ := Nat.exists_eq_succ_of_ne_zero (by omega : j ≠ 0)
    show firsts _ = ∅
    rw [levelAt_of_all_isEmpty hbot (by omega)]
    exact Set.subset_eq_empty firsts_subset (by simp)

theorem preserves_of_writable (hw : WellFormed C g) (hc : g.Filed C) (hwr : Writable C g level) :
    Preserves C g level := by
  rcases inputs_spec g.db level with ⟨hnone, -⟩ | ⟨inp, minK, maxK, hinp, hch⟩
  · exact preserves_of_none hc hnone
  · obtain ⟨g', c, tables, d, hg', h⟩ := swapped_of_writable hc hinp hwr
    exact ⟨g', hg', ⟨_, h.newTables_eq hc hch, flatten_outputGroups ..⟩, fun k s hs => h.getAt_eq hw hc hinp hch hs⟩

/-! ## What the new tables tell -/

theorem sum_mod_le (b : Nat) : ∀ l : List Nat, (l.map (· % b)).sum ≤ l.sum
  | [] => le_rfl
  | n :: l => by
    exact Nat.add_le_add (Nat.mod_le n b) (sum_mod_le b l)

/-- If nothing is lost of the sum, then nothing was cut off. -/
theorem lt_of_sum_mod {b : Nat} (hb : 0 < b) : ∀ {l : List Nat}, l.sum ≤ (l.map (· % b)).sum → ∀ n ∈ l, n < b
  | [], _, n, hn => by cases hn
  | a :: l, h, n, hn => by
    rw [map_cons, sum_cons, sum_cons] at h
    have hmod := Nat.mod_le a b
    have hle := sum_mod_le b l
    rcases mem_cons.1 hn with rfl | hn
    · rw [show n = n % b by omega]
      exact Nat.mod_lt n hb
    · exact lt_of_sum_mod hb (by omega) n hn

/-- Of an output that opens, the index fits, and as much is read as the lengths of the blocks tell. -/
theorem opened_lengths (hwhole : C.index.Whole) {p : CompactionSpec} {outs : List (TableMeta × Bytes)}
    {groups : List (List Entry)}
    (hbuilt : List.Forall₂ (fun o gr => ∃ t, TableBuilder.build C p.blockBytes p.bitsPerKey gr = .ok t ∧ o.2 = t.file ∧
      o.1 = { id := o.1.id, minKey := t.minKey, maxKey := t.maxKey, entries := t.entries, bytes := t.bytes }) outs
        groups)
    (hopened : List.Forall₂ (fun o t => SsTable.openFile C o.2 (Disk.tablePath dir o.1.id) o.1.id =
      .ok t) outs tables) :
    List.Forall₂ (fun o t => SsTable.id t = o.1.id) outs tables ∧
      List.Forall₂ (fun t gr => IndexFits C p.blockBytes p.bitsPerKey gr ∧ ∀ file es, SsTable.iter C t file = .ok es →
        (records es).length = ((cutBlocks p.blockBytes [] gr).map fun c => (records c).length % 2 ^ 32).sum) tables
          groups := by
  induction hbuilt generalizing tables with
  | nil =>
    cases hopened
    exact ⟨.nil, .nil⟩
  | @cons o gr outs groups hbuilt _ ih =>
    obtain ⟨bt, hbt, hfile, -⟩ := hbuilt
    cases hopened with
    | @cons _ t _ tables hopen hopened =>
      obtain ⟨hids, hlens⟩ := ih hopened
      rw [hfile] at hopen
      obtain ⟨hid, hindex, hlen⟩ := open_of_built hwhole hbt hopen
      exact ⟨.cons hid hids, .cons ⟨hindex, fun file es hiter => hlen hiter⟩ hlens⟩

theorem flatten_blocks (blockBytes : Nat) (groups : List (List Entry)) :
    (groups.flatMap (cutBlocks blockBytes [])).flatten = groups.flatten := by
  induction groups with
  | nil => rfl
  | cons gr groups ih =>
    rw [flatMap_cons, flatten_append, flatten_cutBlocks, ih]
    rfl

theorem sum_blocks (blockBytes : Nat) (f : List Entry → Nat) (groups : List (List Entry)) :
    ((groups.flatMap (cutBlocks blockBytes [])).map f).sum =
      (groups.map fun gr => ((cutBlocks blockBytes [] gr).map f).sum).sum := by
  induction groups with
  | nil => rfl
  | cons gr groups ih =>
    rw [flatMap_cons, map_append, sum_append, ih]
    rfl

/-- If as much is read from the tables as was to be written, no block is too long. -/
theorem blocks_of_lengths {blockBytes : Nat} {groups : List (List Entry)} {ts : List SsTable}
    {lists : List (List Entry)} (hread : ts.mapM (d.iterTable C) = .ok lists) (hperm : ts.Perm tables)
    (hflat : lists.flatten = groups.flatten)
    (hlens : List.Forall₂ (fun t gr => ∀ file es, SsTable.iter C t file = .ok es →
      (records es).length = ((cutBlocks blockBytes [] gr).map fun c => (records c).length % 2 ^ 32).sum) tables
        groups) :
    ∀ gr ∈ groups, ∀ c ∈ cutBlocks blockBytes [] gr, (records c).length < 2 ^ 32 := by
  have hread := forall₂_of_mapM hread
  have hentries : ∀ {t es}, d.iterTable C t = .ok es → d.entries C t = es := by
    intro t es h
    unfold Disk.entries
    rw [h]
  have hlists : ts.map (d.entries C) = lists := by
    rw [← forall₂_eq_eq_eq, forall₂_map_left_iff]
    exact hread.imp fun t es h => hentries h
  have hsums : tables.map (fun t => (records (d.entries C t)).length) =
      groups.map fun gr => ((cutBlocks blockBytes [] gr).map fun c => (records c).length % 2 ^ 32).sum := by
    rw [← forall₂_eq_eq_eq, forall₂_map_left_iff, forall₂_map_right_iff]
    refine forall₂_imp_mem hlens fun t gr ht _ hlen => ?_
    obtain ⟨es, -, hes⟩ := forall₂_mem_left hread (hperm.mem_iff.2 ht)
    rw [hentries hes]
    unfold Disk.iterTable at hes
    split at hes
    · cases hes
    · exact hlen _ _ hes
  have htotal : (records groups.flatten).length =
      (groups.map fun gr => ((cutBlocks blockBytes [] gr).map fun c => (records c).length % 2 ^ 32).sum).sum :=
    calc (records groups.flatten).length
        = (ts.map fun t => (records (d.entries C t)).length).sum := by
          rw [← hflat, length_records_flatten, ← hlists, map_map]
          rfl
      _ = (tables.map fun t => (records (d.entries C t)).length).sum := (hperm.map _).sum_eq
      _ = _ := by rw [hsums]
  rw [← flatten_blocks blockBytes, length_records_flatten, ← sum_blocks] at htotal
  intro gr hgr c hc
  refine lt_of_sum_mod (l := (groups.flatMap (cutBlocks blockBytes [])).map fun c => (records c).length)
    (by decide) ?_ _
    (mem_map.2 ⟨c, mem_flatMap.2 ⟨gr, hgr, hc⟩, rfl⟩)
  rw [htotal, map_map]
  rfl

/-- Only tables that can be written show the reference. -/
theorem writable_of_preserves (hwhole : C.index.Whole) (hc : g.Filed C) (h : Preserves C g level) :
    Writable C g level := by
  rcases inputs_spec g.db level with ⟨hnone, -⟩ | ⟨inp, minK, maxK, hinp, hch⟩
  · unfold Writable inputLists
    rw [hnone]
    intro es hes
    cases hes
  obtain ⟨g', hg', ⟨lists, hlists, hflat⟩, -⟩ := h
  obtain ⟨c, tables, hpack, hcomp⟩ := (compactLevel_pack hc hinp).of_ok hg'
  obtain ⟨hbuilt, hrange, -⟩ := Compactor.pack_spec hpack
  obtain ⟨hids, hlens⟩ := opened_lengths hwhole hbuilt hcomp.opened
  have hnew : (newTables g g' level).Perm tables := by
    refine newTables_perm hc hcomp fun t ht => ?_
    obtain ⟨o, ho, hid⟩ := forall₂_mem_right hids ht
    have hmem : o.1.id ∈ c.outputs.map fun o => o.1.id := mem_map.2 ⟨o, ho, rfl⟩
    rw [hrange, mem_range'_1] at hmem
    exact hid ▸ hmem.1
  have hblocks := blocks_of_lengths hlists hnew (hflat.trans (flatten_outputGroups ..).symm)
    (hlens.imp fun _ _ h => h.2)
  intro gr hgr
  obtain ⟨t, -, hindex, -⟩ := forall₂_mem_right hlens hgr
  exact ⟨hblocks gr hgr, hindex⟩

/-- **Compaction preserves every visible version** exactly if its tables can be written. -/
theorem compaction_preserves (C : Coding) (level : Nat) (hw : WellFormed C g) (hb : g.Backed C) :
    (Writable C g level → Preserves C g level) ∧ (C.index.Whole → Preserves C g level → Writable C g level) :=
  ⟨preserves_of_writable hw (hw.filed hb), fun hwhole => writable_of_preserves hwhole (hw.filed hb)⟩

/-- Two tables of level 0; the deletion in the newer one hides a version that a snapshot still sees. -/
theorem compaction_preserves_snapshot :
    ∃ s, Runs (Host.exec Coding.plain) (fun s a => s.Numberable a ∧ s.KeepsFlushed Coding.plain a) (Host.new "db") s ∧
      inputLists Coding.plain s.engine 0 = [[([1], 2, some [11]), ([1], 1, some [10])], [([1], 3, none)]] ∧
      Preserves Coding.plain s.engine 0 := by
  obtain ⟨s, hr, hfit, hup, hlists, hspec⟩ := Runs.reached (Host.exec Coding.plain)
    (fun s a => s.Numberable a ∧ s.KeepsFlushed Coding.plain a) (Host.new "db")
    [.start {} 9, .call (.writeBatch [([1], some [10])] 9), .call (.writeBatch [([1], some [11])] 9), .snapshot,
      .call .flush, .call (.writeBatch [([1], none)] 9), .call .flush]
    (P := fun s => s.engine.fits = true ∧ s.up = true ∧
      inputLists Coding.plain s.engine 0 = [[([1], 2, some [11]), ([1], 1, some [10])], [([1], 3, none)]] ∧
      s.engine.db.compactionSpec 0 = ⟨4096, 10, 4 * 2 ^ 20, 2, true⟩)
    (by decide +kernel)
  have hgroups : outputGroups ⟨4096, 10, 4 * 2 ^ 20, 2, true⟩
      [[([1], 2, some [11]), ([1], 1, some [10])], [([1], 3, none)]] = [[([1], 3, none), ([1], 2, some [11])]] := by
    decide +kernel
  obtain ⟨opts, H, n, -, hi⟩ := (Host.intact_of_runs hr hfit).opened hup
  refine ⟨s, hr, hlists, (compaction_preserves Coding.plain 0 hi.wellFormed hi.backed).1 ?_⟩
  have hblock : s.engine.db.opts.blockBytes = 4096 := congrArg CompactionSpec.blockBytes hspec
  have hbits : s.engine.db.opts.bitsPerKey = 10 := congrArg CompactionSpec.bitsPerKey hspec
  unfold Writable
  rw [hspec, hlists, hgroups, hblock, hbits]
  intro es hes
  rw [mem_singleton] at hes
  subst hes
  exact ⟨by decide, by decide, by decide +kernel, by decide⟩

/-- A table of one key, and then the database is opened with a filter of `2 ^ 35` bits a key. -/
theorem filter_stops_compaction :
    ∃ s, Runs (Host.exec Coding.plain) (fun s a => s.Numberable a ∧ s.KeepsFlushed Coding.plain a) (Host.new "db") s ∧
      s.up = true ∧ WellFormed Coding.plain s.engine ∧ s.engine.Backed Coding.plain ∧
        ¬ Preserves Coding.plain s.engine 0 := by
  obtain ⟨s, hr, hfit, hup, hlists, hspec⟩ := Runs.reached (Host.exec Coding.plain)
    (fun s a => s.Numberable a ∧ s.KeepsFlushed Coding.plain a) (Host.new "db")
    [.start {} 9, .call (.writeBatch [([1], some [5])] 9), .call .flush, .stop 0, .start { bitsPerKey := 2 ^ 35 } 9]
    (P := fun s => s.engine.fits = true ∧ s.up = true ∧
      inputLists Coding.plain s.engine 0 = [[([1], 1, some [5])]] ∧
      s.engine.db.compactionSpec 0 = ⟨4096, 2 ^ 35, 4 * 2 ^ 20, 1, true⟩)
    (by decide +kernel)
  obtain ⟨opts, H, n, -, hi⟩ := (Host.intact_of_runs hr hfit).opened hup
  refine ⟨s, hr, hup, hi.wellFormed, hi.backed, fun h => ?_⟩
  have hwr := writable_of_preserves TableIndex.format.serde_whole hi.shelved.filed h
  have hblock : s.engine.db.opts.blockBytes = 4096 := congrArg CompactionSpec.blockBytes hspec
  have hbits : s.engine.db.opts.bitsPerKey = 2 ^ 35 := congrArg CompactionSpec.bitsPerKey hspec
  unfold Writable at hwr
  rw [hspec, hlists, hblock, hbits] at hwr
  exact not_indexFits_filter (hwr _ (mem_singleton_self _)).index

end RaftKv.Storage

import RaftKv.Lib.InStep
import RaftKv.Storage.Calls
import RaftKv.Storage.Reference

/-!
# Compaction

`compact_level` writes its outputs under ids that are not taken, saves the manifest with them, and
only then removes its inputs. So there is always a manifest on disk whose tables are all there:
before the save the old one, after it the new one (`compactLevel_spec`).
-/

namespace RaftKv.Storage

open Versions Db List

/-! ## The outputs -/

variable {C : Coding} {dir : String} {W : LogRel} {opts : Options} {snaps : OrdMap Nat Nat} {H : Set Entry} {n : Nat}
  {g : Engine}
  {d : Disk} {level : Nat} {inp : Inputs} {I : Disk → Db → Prop} {J : Engine → Prop} {E : Error → Engine → Prop}
  {levels : List (List SsTable)} {m : Manifest}

/-- What the inputs hold was written. -/
theorem Inv.inputEntries_subset (hi : Inv C dir W opts snaps H n g) {e : Entry}
    (he : e ∈ inputEntries C g.disk g.db.levels level inp) : e ∈ H := by
  rcases he with ⟨t, ht, -, he⟩ | ⟨t, ht, -, he⟩
  · exact hi.shows.mem_of_layer (i := level + 1) ⟨t, ht, he⟩
  · exact hi.shows.mem_of_layer (i := level + 2) ⟨t, ht, he⟩

variable {db : Db} {tables : List SsTable} {groups : List (List Entry)} {outs : List (TableMeta × Bytes)}

/-- The inputs are tables of the two levels. -/
theorem Catalog.stored_of_mem_sources (hc : Catalog C dir d db.levels m) {t : SsTable}
    (ht : t ∈ db.sources level inp) : d.Stored C dir t := by
  rcases mem_append.1 ht with ht | ht
  · exact hc.stored _ t (mem_filter.1 ht).1
  · exact hc.stored _ t (mem_filter.1 ht).1

/-- The inputs can be read. -/
theorem Catalog.sources_eq (hc : Catalog C dir d db.levels m) (level : Nat) (inp : Inputs) :
    (db.sources level inp).mapM (d.iterTable C) = .ok ((db.sources level inp).map (d.entries C)) := by
  refine mapM_eq_ok ?_
  rw [forall₂_map_right_iff, forall₂_same]
  exact fun t ht => (hc.stored_of_mem_sources ht).iterTable_eq

theorem Catalog.sources_sorted (hc : Catalog C dir d db.levels m) :
    ∀ src ∈ (db.sources level inp).map (d.entries C), Sorted src := by
  intro src hsrc
  obtain ⟨t, ht, rfl⟩ := mem_map.1 hsrc
  exact (hc.stored_of_mem_sources ht).sorted

theorem mem_sources {e : Entry} :
    e ∈ ((g.db.sources level inp).map (g.disk.entries C)).flatten ↔
      e ∈ inputEntries C g.disk g.db.levels level inp := by
  rw [mem_flatten]
  unfold Db.sources inputEntries
  simp only [mem_map, mem_append, mem_filter, decide_eq_true_eq]
  constructor
  · rintro ⟨_, ⟨t, ⟨ht, hid⟩ | ⟨ht, hid⟩, rfl⟩, he⟩
    · exact .inl ⟨t, ht, hid, he⟩
    · exact .inr ⟨t, ht, hid, he⟩
  · rintro (⟨t, ht, hid, he⟩ | ⟨t, ht, hid, he⟩)
    · exact ⟨_, ⟨t, .inl ⟨ht, hid⟩, rfl⟩, he⟩
    · exact ⟨_, ⟨t, .inr ⟨ht, hid⟩, rfl⟩, he⟩

theorem Disk.Stored.fits {t : SsTable} (h : d.Stored C dir t) : ∀ e ∈ d.entries C t, FitsU32 e ∧ e.2.1 < 2 ^ 64 := by
  obtain ⟨_, file, _, hr⟩ := h
  exact (iterFrom_spec hr.iter_eq).2

theorem Catalog.group_facts (hc : Catalog C dir g.disk g.db.levels m) (p : CompactionSpec) :
    ∀ gr ∈ outputGroups p ((g.db.sources level inp).map (g.disk.entries C)),
      gr ≠ [] ∧ Sorted gr ∧ ∀ e ∈ gr, FitsU32 e ∧ e.2.1 < 2 ^ 64 := by
  intro gr hgr
  refine ⟨Compactor.ne_nil_of_mem_cutTables gr hgr,
    (sorted_outputGroups p _).sublist (sublist_flatten_of_mem hgr), fun e he => ?_⟩
  obtain ⟨src, hsrc, he⟩ := mem_flatten.1 (mem_of_outputGroups (mem_flatten.2 ⟨gr, hgr, he⟩))
  obtain ⟨t, ht, rfl⟩ := mem_map.1 hsrc
  exact (hc.stored_of_mem_sources ht).fits e he

theorem maxKey_lt_of_keysBelow
    (hgroups : List.Forall₂ (fun t gr => d.Stored C dir t ∧ d.entries C t = gr) tables groups)
    (hbelow : groups.Pairwise Compactor.KeysBelow) : tables.Pairwise fun a b => a.maxKey < b.minKey := by
  refine pairwise_of_forall₂ hgroups hbelow ?_
  rintro t gr t' gr' ⟨hst, rfl⟩ ⟨hst', rfl⟩ hb
  obtain ⟨-, e, he, hmax⟩ := hst.exists_bounds
  obtain ⟨⟨e', he', hmin⟩, -⟩ := hst'.exists_bounds
  exact hmax ▸ hmin ▸ hb e he e' he'

/-- New tables with entries of the inputs, none of them twice. -/
theorem Catalog.outputs (hc : Catalog C dir g.disk g.db.levels g.db.manifest)
    (htags : List.Forall₂ (fun o t => o.1.tag = SsTable.tag t) outs tables)
    (hgroups : List.Forall₂ (fun t gr => d.Stored C dir t ∧ d.entries C t = gr) tables groups)
    (hbelow : groups.Pairwise Compactor.KeysBelow) (hnodup : groups.flatten.Nodup)
    (hsub : ∀ e ∈ groups.flatten, e ∈ inputEntries C g.disk g.db.levels level inp)
    (hids : outs.map (fun o => o.1.id) = List.range' g.db.manifest.nextTableId groups.length)
    (hold : ∀ id < g.db.manifest.nextTableId, d.table id = g.disk.table id) :
    Outputs C dir g.disk d g.db level inp (g.db.manifest.nextTableId + groups.length) (outs.map Prod.fst) tables := by
  have hin : ∀ t ∈ tables, ∃ gr ∈ groups, d.Stored C dir t ∧ d.entries C t = gr :=
    fun t ht => forall₂_mem_left hgroups ht
  have hcount : d.count C tables = groups.flatten.length := by
    have hlists : tables.map (d.entries C) = groups := by
      rw [← forall₂_eq_eq_eq, forall₂_map_left_iff]
      exact hgroups.imp fun _ _ h => h.2
    rw [← hlists, length_flatten, map_map]
    rfl
  refine
    { others := fun i t ht => hold t.id (hc.fresh i t ht)
      stored := fun t ht => let ⟨_, _, hst, _⟩ := hin t ht; hst
      tags := ?_
      apart := (maxKey_lt_of_keysBelow hgroups hbelow).imp .inl
      inputs := fun t ht e he => ?_
      ids := fun t ht => ?_
      next_le := Nat.le_add_right _ _
      count_le := ?_ }
  · rw [← forall₂_eq_eq_eq, map_map, forall₂_map_left_iff, forall₂_map_right_iff]
    exact htags
  · obtain ⟨gr, hgr, -, rfl⟩ := hin t ht
    exact hsub e (mem_flatten.2 ⟨_, hgr, he⟩)
  · obtain ⟨o, ho, htag⟩ := forall₂_mem_right htags ht
    have hid : t.id = o.1.id := (congrArg Prod.fst htag).symm
    have hmem : t.id ∈ outs.map fun o => o.1.id := hid ▸ mem_map.2 ⟨o, ho, rfl⟩
    rw [hids, mem_range'_1] at hmem
    exact hmem
  · -- no version is written twice
    have hsub' : groups.flatten ⊆ ((g.db.sources level inp).map (g.disk.entries C)).flatten := fun e he =>
      mem_sources.2 (hsub e he)
    have hle := (subperm_of_subset hnodup hsub').length_le
    rw [length_flatten (L := List.map _ _), map_map] at hle
    rw [hcount]
    exact hle

theorem mem_of_groups (hgroups : List.Forall₂ (fun t gr => d.Stored C dir t ∧ d.entries C t = gr) tables groups)
    (e : Entry) : (∃ t ∈ tables, e ∈ d.entries C t) ↔ e ∈ groups.flatten := by
  rw [mem_flatten]
  constructor
  · rintro ⟨t, ht, he⟩
    obtain ⟨gr, hgr, -, rfl⟩ := forall₂_mem_left hgroups ht
    exact ⟨_, hgr, he⟩
  · rintro ⟨gr, hgr, he⟩
    obtain ⟨t, ht, -, rfl⟩ := forall₂_mem_right hgroups hgr
    exact ⟨t, ht, he⟩

/-- Outputs that are on disk as they were built open as tables with the entries that they were built of. -/
theorem opened_of_built {p : CompactionSpec}
    (hbuilt : List.Forall₂ (fun o gr => ∃ bt, TableBuilder.build C p.blockBytes p.bitsPerKey gr = .ok bt ∧
      o.2 = bt.file ∧
      o.1 = { id := o.1.id, minKey := bt.minKey, maxKey := bt.maxKey, entries := bt.entries, bytes := bt.bytes }) outs
        groups)
    (hgroups : ∀ gr ∈ groups, gr ≠ [] ∧ Sorted gr ∧ ∀ e ∈ gr, FitsU32 e ∧ e.2.1 < 2 ^ 64)
    (hfits : ∀ gr ∈ groups, ∀ bt, TableBuilder.build C p.blockBytes p.bitsPerKey gr = .ok bt → bt.fits = true)
    (hnew : ∀ o ∈ outs, d.table o.1.id = some o.2) :
    ∃ tables, List.Forall₂ (fun o t => d.openTable C dir o.1.id = .ok t ∧ o.1.tag = SsTable.tag t) outs tables ∧
      List.Forall₂ (fun t gr => d.Stored C dir t ∧ d.entries C t = gr) tables groups := by
  refine forall₂_between hbuilt ?_
  rintro o gr ho hgr ⟨bt, hbt, hfile, hmeta⟩
  obtain ⟨hne, hsort, hkv⟩ := hgroups gr hgr
  obtain ⟨t, hopen, hid, hpath, hmin, hmax, hr⟩ := build_reads hsort hne (fun e he => (hkv e he).2) hbt
    (hfits gr hgr bt hbt) (Disk.tablePath dir o.1.id) o.1.id
  have htable : d.table t.id = some bt.file := by rw [hid, hnew o ho, hfile]
  refine ⟨t, ⟨?_, ?_⟩, Disk.stored_of_reads (hid ▸ hpath) htable hr⟩
  · rw [← hid, Disk.openTable_of_table htable, hid]
    exact hopen
  · rw [hmeta]
    simp [TableMeta.tag, SsTable.tag, hid, hmin, hmax]

/-- The outputs open as tables with the entries of the reference. -/
theorem Catalog.packed (hc : Catalog C dir g.disk g.db.levels g.db.manifest) {p : CompactionSpec}
    {r : List (TableMeta × Bytes) × Nat × Bool} (hpack : Compactor.pack C p g.db.manifest.nextTableId
      (outputGroups p ((g.db.sources level inp).map (g.disk.entries C))) = .ok r)
    (hfits : ∀ gr ∈ outputGroups p ((g.db.sources level inp).map (g.disk.entries C)), ∀ bt,
      TableBuilder.build C p.blockBytes p.bitsPerKey gr = .ok bt → bt.fits = true)
    (hold : ∀ id < g.db.manifest.nextTableId, d.table id = g.disk.table id)
    (hnew : ∀ o ∈ r.1, d.table o.1.id = some o.2) :
    ∃ tables, List.Forall₂ (fun o t => d.openTable C dir o.1.id = .ok t) r.1 tables ∧
      List.Forall₂ (fun t gr => d.Stored C dir t ∧ d.entries C t = gr) tables
        (outputGroups p ((g.db.sources level inp).map (g.disk.entries C))) ∧
      Outputs C dir g.disk d g.db level inp r.2.1 (r.1.map Prod.fst) tables := by
  obtain ⟨hbuilt, hids, hnext, -⟩ := Compactor.pack_spec hpack
  obtain ⟨tables, hopen, hgroups⟩ := opened_of_built hbuilt (hc.group_facts p) hfits hnew
  have hsub : ∀ e ∈ (outputGroups p ((g.db.sources level inp).map (g.disk.entries C))).flatten,
      e ∈ inputEntries C g.disk g.db.levels level inp := fun e he =>
    mem_sources.1 (mem_of_outputGroups he)
  refine ⟨tables, hopen.imp fun _ _ h => h.1, hgroups, ?_⟩
  rw [hnext]
  exact hc.outputs (hopen.imp fun _ _ h => h.2) hgroups (keysBelow_outputGroups ..)
    (sorted_outputGroups ..).nodup hsub hids hold

/-- If each version has one value, these are exactly the versions that are to be kept. -/
theorem Inv.outputs (hi : Inv C dir W opts snaps H n g) {c : Compactor}
    (hrun : Compactor.run C (g.db.compactionSpec level) g.db.manifest.nextTableId
      (MergeIter.mergeAll ((g.db.sources level inp).map (g.disk.entries C))) = .ok c)
    (hfit : c.fits = true) (hold : ∀ id < g.db.manifest.nextTableId, d.table id = g.disk.table id)
    (hnew : ∀ o ∈ c.outputs, d.table o.1.id = some o.2) :
    ∃ tables, List.Forall₂ (fun o t => d.openTable C dir o.1.id = .ok t) c.outputs tables ∧
      Outputs C dir g.disk d g.db level inp c.nextId (c.outputs.map Prod.fst) tables ∧
      ∀ e, (∃ t ∈ tables, e ∈ d.entries C t) ↔ e ∈ kept (g.db.compactionSpec level).minSnap
        ((g.db.compactionSpec level).bottom = true) (inputEntries C g.disk g.db.levels level inp) := by
  have hpack := pack_of_run hi.catalog.sources_sorted hrun
  obtain ⟨tables, hopen, hgroups, hout⟩ := hi.catalog.packed hpack ((Compactor.pack_spec hpack).2.2.2 hfit) hold hnew
  have hinputs : { e | e ∈ ((g.db.sources level inp).map (g.disk.entries C)).flatten } =
      inputEntries C g.disk g.db.levels level inp := Set.ext fun _ => mem_sources
  have hsingle : Single { e | e ∈ ((g.db.sources level inp).map (g.disk.entries C)).flatten } :=
    hinputs ▸ hi.single.mono fun e he => hi.inputEntries_subset he
  refine ⟨tables, hopen, hout, fun e => ?_⟩
  rw [mem_of_groups hgroups, flatten_outputGroups, mem_reference, firsts_of_single hsingle, hinputs]

/-! ## The manifest ahead of the tables -/

theorem Catalog.map_id (hc : Catalog C dir d levels m) (i : Nat) :
    (levelAt m.levels i).map TableMeta.id = (levelAt levels i).map SsTable.id := by
  have htags := congrArg (List.map Prod.fst) (hc.listed i)
  rwa [map_map, map_map] at htags

/-- While the manifest is saved, the inputs are still in memory. -/
theorem Catalog.not_listed_swapped {minK maxK : Bytes} (hc : Catalog C dir d db.levels db.manifest)
    (hch : Chosen db level inp minK maxK) (hm : level + 1 < db.manifest.levels.length) (next : Nat)
    (metas : List TableMeta) : ¬ Db.Listed { db with manifest := db.swappedManifest level inp next metas } := by
  refine Db.not_listed_of_length (i := level) ?_
  dsimp only [swappedManifest]
  rw [levelAt_swap_self hm]
  obtain ⟨id, hid⟩ := exists_mem_of_ne_nil _ hch.nonempty
  obtain ⟨t, ht, rfl⟩ := hch.sources id hid
  have hmem : t.id ∈ (levelAt db.manifest.levels level).map TableMeta.id := by
    rw [hc.map_id]
    exact mem_map.2 ⟨t, ht, rfl⟩
  obtain ⟨tm, htm, heq⟩ := mem_map.1 hmem
  have hlt : ((levelAt db.manifest.levels level).filter fun t => t.id ∉ inp.srcIds).length <
      (levelAt db.manifest.levels level).length := by
    refine length_filter_lt_length_iff_exists.2 ⟨tm, htm, ?_⟩
    simpa [heq] using hid
  have hlen := congrArg List.length (hc.map_id level)
  rw [length_map, length_map] at hlen
  omega

/-- Before the outputs are opened. -/
theorem Catalog.length_swapped_next (hc : Catalog C dir d db.levels db.manifest) (hl : level + 1 < db.levels.length)
    (hm : level + 1 < db.manifest.levels.length) (next : Nat) (outs : List (TableMeta × Bytes)) :
    (levelAt (db.swappedManifest level inp next (outs.map Prod.fst)).levels (level + 1)).length =
      (levelAt (takeInputs SsTable.id level inp db.levels) (level + 1)).length + outs.length := by
  have htaken : levelAt (takeInputs SsTable.id level inp db.levels) (level + 1) =
      (levelAt db.levels (level + 1)).filter fun t => t.id ∉ inp.dstIds := by
    unfold takeInputs
    rw [levelAt_modify_self (by rw [length_modify]; exact hl), levelAt_modify_ne (by omega)]
  have hfilter : ((levelAt db.manifest.levels (level + 1)).filter fun t => t.id ∉ inp.dstIds).length =
      ((levelAt db.levels (level + 1)).filter fun t => t.id ∉ inp.dstIds).length := by
    have h₁ := filter_map (f := TableMeta.id) (p := fun i => decide (i ∉ inp.dstIds))
      (l := levelAt db.manifest.levels (level + 1))
    have h₂ := filter_map (f := SsTable.id) (p := fun i => decide (i ∉ inp.dstIds)) (l := levelAt db.levels (level + 1))
    rw [hc.map_id] at h₁
    have hlen := congrArg List.length (h₁.symm.trans h₂)
    rwa [length_map, length_map] at hlen
  dsimp only [swappedManifest]
  rw [levelAt_swap_next hm, (perm_insertionSort _ _).length_eq, length_append, length_map, htaken, hfilter]

/-! ## The two invariants -/

theorem Inv.shelved (hi : Inv C dir W opts snaps H n g) : Shelved C dir opts g where
  dir_eq := hi.dir_eq
  opts_eq := hi.opts_eq
  started := hi.started
  saved := hi.saved
  catalog := hi.catalog
  last_le := hi.seq_eq.symm ▸ hi.last.1
  bound e he := hi.seq_eq.symm ▸ hi.bound e (hi.mem_subset he)
  short := hi.seq_eq.symm ▸ hi.short

/-- The invariant with its history is stable, if the log may be empty. -/
theorem Inv.stable (hW : ∀ last, W {} last (some []) 0) (hI : ∀ g, Inv C dir W.any opts snaps H n g → I g.disk g.db) :
    Stable C dir opts I (Inv C dir W opts snaps H n) where
  shelved := Inv.shelved
  safe hi := hI _ hi.any
  same hi := hi.same
  otherFiles hi := hi.otherFiles
  otherLevels hi := hi.otherLevels
  flushed {g t bt} hi hid hpath hmin hmax hr d hd := by
    subst hd
    have hi₂ := hi.flushed hid hpath hmin hmax hr
    have hes := (Disk.stored_of_reads (d := g.disk.setTable t.id (some bt.file)) hpath (Disk.setTable_self ..) hr).2
    have hcopy : ∀ e ∈ g.db.mem.iter, ∃ u ∈ levelAt (g.db.levels.modify 0 (· ++ [t])) 0,
        e ∈ (g.disk.setTable t.id (some bt.file)).entries C u := fun e he =>
      ⟨t, (mem_levelAt_push hi.started).2 (.inr ⟨rfl, rfl⟩), hes ▸ he⟩
    exact ⟨hI _ hi₂, (hi₂.cleared W hi.seq_eq hcopy (hW n)).same rfl rfl⟩
  swapped hi hch hl hm hrun hfit hold hnew hman hwal hsync := by
    obtain ⟨tables, hopen, hout, hkept⟩ := hi.outputs hrun hfit hold hnew
    exact ⟨tables, hopen, hout, hi.swapped hch hout hl hm hkept hman hwal hsync⟩

/-! ## The call -/

/-- The outputs `outs` are written, and nothing else has changed. -/
structure Writing (g g' : Engine) (outs : List (TableMeta × Bytes)) : Prop where
  db_eq : g'.db = g.db
  manifest_eq : g'.disk.manifest = g.disk.manifest
  wal_eq : g'.disk.wal = g.disk.wal
  synced_eq : g'.disk.synced = g.disk.synced
  old : ∀ id < g.db.manifest.nextTableId, g'.disk.table id = g.disk.table id
  new : ∀ o ∈ outs, g'.disk.table o.1.id = some o.2

theorem writeTables_spec (hst : Stable C dir opts I J) (hj : J g) (hs : g.Safe I)
    (hnodup : (outs.map fun o => o.1.id).Nodup) (hfresh : ∀ o ∈ outs, g.db.manifest.nextTableId ≤ o.1.id) :
    Ensures (outs.forM fun o => emit C (.writeTable o.1.id o.2)) g (fun _ g' => Writing g g' outs ∧ g'.Safe I) E := by
  have hcat := (hst.shelved hj).catalog
  refine Ensures.forM (I := fun outs g' => Writing g g' outs ∧ g'.Safe I)
    ⟨⟨rfl, rfl, rfl, rfl, fun _ _ => rfl, by simp⟩, hs⟩ ?_
  rintro pre o post hl g' ⟨hw, hs'⟩
  have ho : g.db.manifest.nextTableId ≤ o.1.id := hfresh o (by rw [hl]; simp)
  have hold : ∀ file, ∀ id < g.db.manifest.nextTableId, (g'.disk.setTable o.1.id file).table id = g.disk.table id :=
    fun file id hid => (Disk.setTable_ne _ (by omega) file).trans (hw.old id hid)
  have hnow : I g'.disk g'.db := by
    rw [hw.db_eq]
    exact hst.safe (hst.otherFiles (d := g'.disk) hj hw.manifest_eq hw.wal_eq hw.synced_eq
      fun i t ht => hw.old t.id (hcat.fresh i t ht))
  have hfile : ∀ file, I (g'.disk.setTable o.1.id file) g'.db := fun file => by
    rw [hw.db_eq]
    exact hst.safe (hst.otherFiles (d := g'.disk.setTable o.1.id file) hj hw.manifest_eq hw.wal_eq hw.synced_eq
      fun i t ht => hold file t.id (hcat.fresh i t ht))
  refine ensures_emit_last ⟨⟨hw.db_eq, hw.manifest_eq, hw.wal_eq, hw.synced_eq, hold _, ?_⟩,
    hs'.after_write (hw.db_eq ▸ ho) _ hnow hfile⟩
  intro o' ho'
  rcases mem_append.1 ho' with ho' | ho'
  · -- the ids are different
    rw [hl, map_append] at hnodup
    have hne : o'.1.id ≠ o.1.id := fun heq =>
      (nodup_append.1 hnodup).2.2 o'.1.id (mem_map.2 ⟨o', ho', rfl⟩) o.1.id (by simp) heq
    exact (Disk.setTable_ne _ hne _).trans (hw.new o' ho')
  · rw [mem_singleton.1 ho']
    exact Disk.setTable_self ..

/-- Until the last output is opened, the manifest has more tables. -/
theorem openOutputs_spec
    (hopen : List.Forall₂ (fun o t => d.openTable C dir o.1.id = .ok t) outs tables) : ∀ {g : Engine}, g.disk = d →
    (∀ o ∈ outs, o.1.id < g.db.manifest.nextTableId) → level + 1 < g.db.levels.length →
    (levelAt g.db.manifest.levels (level + 1)).length = (levelAt g.db.levels (level + 1)).length + outs.length →
      g.Safe I →
    Ensures (outs.forM (openOutput C dir level)) g
      (fun _ g' => g'.disk = d ∧ g'.db = { g.db with levels := g.db.levels.modify (level + 1) (· ++ tables) } ∧
        g'.Safe I) E := by
  induction hopen with
  | nil =>
    intro g hd _ _ _ hs
    refine Ensures.pure ⟨hd, ?_, hs⟩
    have hid : (fun l : List SsTable => l ++ []) = id := funext append_nil
    rw [hid, modify_id]
  | @cons o t outs tables ht _ ih =>
    intro g hd hlisted hl hlen hs
    rw [length_cons] at hlen
    have hs₁ : (g.after C (.openTable o.1.id)).Safe I :=
      hs.after_unlike hs.1 (fun hu => absurd (hlisted o (by simp)) (Nat.not_lt.2 hu)) (by rintro id file ⟨⟩)
        (Db.not_listed_of_length (i := level + 1) (by omega))
    have hone : Ensures (openOutput C dir level o) g
        (fun _ g' => g' = { g.after C (.openTable o.1.id) with
          db := { g.db with levels := g.db.levels.modify (level + 1) (· ++ [t]) } }) E := by
      have ht' : g.disk.openTable C dir o.1.id = .ok t := hd ▸ ht
      exact ensures_emit (ensures_get (ensures_lift_ok ht' (Ensures.modify rfl)))
    refine hone.bind fun _ g₁ hg₁ => ?_
    have hd₁ : g₁.disk = d := hg₁ ▸ hd
    have hlisted₁ : ∀ o' ∈ outs, o'.1.id < g₁.db.manifest.nextTableId := fun o' ho' =>
      hg₁ ▸ hlisted o' (mem_cons_of_mem _ ho')
    have hl₁ : level + 1 < g₁.db.levels.length := by
      rw [hg₁]
      simpa using hl
    have hlen₁ : (levelAt g₁.db.manifest.levels (level + 1)).length =
        (levelAt g₁.db.levels (level + 1)).length + outs.length := by
      rw [hg₁]
      dsimp only [Engine.after]
      rw [levelAt_modify_self hl, length_append, length_singleton]
      omega
    refine (ih hd₁ hlisted₁ hl₁ hlen₁ (hg₁ ▸ hs₁.withDb _)).mono ?_ fun _ _ h => h
    subst hg₁
    rintro _ g' ⟨hd', hdb, hs'⟩
    refine ⟨hd', ?_, hs'⟩
    rw [hdb]
    simp only [modify_modify_eq]
    congr 2
    funext l
    exact append_assoc l [t] tables

/-- Files that are in no level can be removed. -/
theorem removeTables_spec (hst : Stable C dir opts I J) (hj : J g) (hs : g.Safe I) {ids : List Nat}
    (hdead : ∀ i, ∀ t ∈ levelAt g.db.levels i, t.id ∉ ids) :
    Ensures (ids.forM fun id => emit C (.removeTable id)) g
      (fun _ g' => J g' ∧ g'.Safe I ∧ g'.size C = g.size C ∧ g'.db = g.db) E := by
  refine Ensures.forM (I := fun _ g' => J g' ∧ g'.Safe I ∧ g'.size C = g.size C ∧ g'.db = g.db) ⟨hj, hs, rfl, rfl⟩ ?_
  rintro pre id post hl g' ⟨hj', hs', hsize, hdb⟩
  have hlive : ∀ i, ∀ t ∈ levelAt g'.db.levels i, (g'.disk.setTable id none).table t.id = g'.disk.table t.id := by
    intro i t ht
    refine Disk.setTable_ne _ (fun heq => ?_) none
    rw [hdb] at ht
    exact hdead i t ht (by rw [hl, heq]; simp)
  have hrm := hst.otherFiles (d := g'.disk.setTable id none) hj' rfl rfl rfl hlive
  have hsize' : (g'.after C (.removeTable id)).size C = g.size C := by
    rw [← hsize]
    funext i
    exact Disk.count_congr fun t ht => hlive i t ht
  exact ensures_emit_last ⟨hst.same hrm rfl rfl, hs'.after_other ⟨_, hst.safe hrm⟩ fun h => h, hsize', hdb⟩

theorem sortLevel_takeInputs (level : Nat) (inp : Inputs) (tables : List SsTable) (levels : List (List SsTable)) :
    sortLevel SsTable.minKey (level + 1) ((takeInputs SsTable.id level inp levels).modify (level + 1) (· ++ tables)) =
      swapLevels SsTable.id SsTable.minKey level inp tables levels := by
  unfold sortLevel takeInputs swapLevels
  rw [modify_modify_eq, modify_modify_eq]
  rfl

theorem fitsBack_openOutput (C : Coding) (dir : String) (level : Nat) (o : TableMeta × Bytes) :
    FitsBack (openOutput C dir level o) :=
  (FitsBack.emit C _).bind fun _ => FitsBack.get.bind fun _ => (FitsBack.lift _).bind fun _ => FitsBack.setDb _

theorem fitsBack_compactLevel (C : Coding) (level : Nat) : FitsBack (compactLevel C level) := by
  unfold compactLevel
  refine (FitsBack.setDb _).bind fun _ => FitsBack.get.bind fun g => (FitsBack.lift _).bind fun r => ?_
  cases r with
  | none => exact FitsBack.pure _
  | some inp =>
    refine (FitsBack.lift _).bind fun srcs => (FitsBack.lift _).bind fun c => (FitsBack.note _).bind fun _ =>
      (FitsBack.forM _ fun o => FitsBack.emit C _).bind fun _ => (FitsBack.setDb _).bind fun _ =>
      (FitsBack.emit C _).bind fun _ => (FitsBack.setDb _).bind fun _ => ?_
    exact (FitsBack.forM _ fun o => fitsBack_openOutput C _ level o).bind fun _ => (FitsBack.setDb _).bind fun _ =>
      FitsBack.forM _ fun id => FitsBack.emit C _

theorem compactLevel_spec (hst : Stable C dir opts I J) (hj : J g) (hs : g.Safe I) (level : Nat) :
    Meets (compactLevel C level) g (fun _ g' => J g' ∧ g'.Safe I ∧
      (levelAt g.db.levels level ≠ [] → Sinks level (g.size C) (g'.size C)) ∧ g'.db.mem = g.db.mem) (Fails I) := by
  unfold compactLevel
  refine ensures_setDb (ensures_get ?_)
  have hsame := levelAt_padLevels (level + 2) g.db.levels
  have hj := hst.otherLevels (m := { g.db.manifest with levels := padLevels (level + 2) g.db.manifest.levels }) hj
    (levelAt_padLevels (level + 2) g.db.levels) ((by omega : 0 < level + 2).trans_le (length_padLevels _ _))
    ⟨levelAt_padLevels _ _, rfl, rfl⟩
  have hl : level + 1 < (padLevels (level + 2) g.db.levels).length := length_padLevels (level + 2) _
  have hm : level + 1 < (padLevels (level + 2) g.db.manifest.levels).length := length_padLevels (level + 2) _
  generalize hg : ({ g with db := { g.db with
    levels := padLevels (level + 2) g.db.levels
    manifest := { g.db.manifest with levels := padLevels (level + 2) g.db.manifest.levels } } } : Engine) = g₀ at hj ⊢
  have hs : g₀.Safe I := hg ▸ hs
  replace hl : level + 1 < g₀.db.levels.length := hg ▸ hl
  replace hm : level + 1 < g₀.db.manifest.levels.length := hg ▸ hm
  replace hsame : ∀ i, levelAt g₀.db.levels i = levelAt g.db.levels i := hg ▸ hsame
  have hsize : g.size C = g₀.size C := by
    funext i
    unfold Engine.size
    rw [hsame, ← hg]
  have hmem : g.db.mem = g₀.db.mem := by rw [← hg]
  rw [hsize, ← hsame, hmem]
  have hf := hst.shelved hj
  rcases inputs_spec g₀.db level with ⟨hnone, hempty⟩ | ⟨inp, minK, maxK, hsome, hch⟩
  · exact ensures_lift_ok hnone (Ensures.pure fun _ => ⟨hj, hs, fun hne => absurd hempty hne, rfl⟩)
  refine ensures_lift_ok hsome (ensures_lift_ok (hf.catalog.sources_eq level inp) ?_)
  refine ensures_lift (fun e he _ => ⟨run_limited _ hf.catalog.sources_sorted e he, hs⟩) fun c hc => ?_
  refine meets_note ?_ fun hfit => ?_
  · refine (FitsBack.forM _ fun o => FitsBack.emit C _).bind fun _ => (FitsBack.setDb _).bind fun _ =>
      (FitsBack.emit C _).bind fun _ => (FitsBack.setDb _).bind fun _ => ?_
    exact (FitsBack.forM _ fun o => fitsBack_openOutput C _ level o).bind fun _ => (FitsBack.setDb _).bind fun _ =>
      FitsBack.forM _ fun id => FitsBack.emit C _
  obtain ⟨-, hids, hnext, -⟩ := Compactor.pack_spec (pack_of_run hf.catalog.sources_sorted hc)
  dsimp only at hids hnext
  have hrange : ∀ o ∈ c.outputs, g₀.db.manifest.nextTableId ≤ o.1.id ∧ o.1.id < c.nextId := by
    intro o ho
    have hmem : o.1.id ∈ c.outputs.map fun o => o.1.id := mem_map.2 ⟨o, ho, rfl⟩
    rw [hids, mem_range'_1] at hmem
    rw [hnext]
    exact hmem
  have hnodup : (c.outputs.map fun o => o.1.id).Nodup := by
    rw [hids]
    exact nodup_range'
  refine (writeTables_spec hst hj hs hnodup fun o ho => (hrange o ho).1).bind fun _ g₁ hg₁ => ?_
  obtain ⟨hw, hs₁⟩ := hg₁
  -- with the new manifest, the outputs are the tables that count
  obtain ⟨tables, hopen, hout, hj₂⟩ := hst.swapped
    (d := { g₁.disk with manifest := { main := some ((g₀.db.swappedManifest level inp c.nextId
      (c.outputs.map Prod.fst)).file C) } })
    hj hch hl hm hc hfit hw.old hw.new rfl hw.wal_eq hw.synced_eq
  have hsinks := hf.catalog.sinks_swap hch hout hl
  have hs₂ := (hs₁.withDb
    { g₁.db with manifest := g₀.db.swappedManifest level inp c.nextId (c.outputs.map Prod.fst) }).after_unlike
    (C := C) (e := .saveManifest (g₀.db.swappedManifest level inp c.nextId (c.outputs.map Prod.fst))) ⟨_, hst.safe hj₂⟩
    (fun h => h) (by rintro id file ⟨⟩) (by rw [hw.db_eq]; exact hf.catalog.not_listed_swapped hch hm _ _)
  rw [← hf.dir_eq] at hopen
  refine ensures_setDb (ensures_emit (ensures_setDb ?_))
  have htake : level + 1 < (takeInputs SsTable.id level inp g₁.db.levels).length := by
    rw [hw.db_eq]
    simpa [takeInputs] using hl
  have hcounts : (levelAt (g₀.db.swappedManifest level inp c.nextId (c.outputs.map Prod.fst)).levels
    (level + 1)).length =
      (levelAt (takeInputs SsTable.id level inp g₁.db.levels) (level + 1)).length + c.outputs.length := by
    rw [hw.db_eq]
    exact hf.catalog.length_swapped_next hl hm _ _
  refine Ensures.bind (openOutputs_spec hopen rfl (fun o ho => (hrange o ho).2) htake hcounts (hs₂.withDb _))
    fun _ g₃ hg₃ => ?_
  obtain ⟨hd₃, hdb₃, hs₃⟩ := hg₃
  have hdb : { g₃.db with levels := sortLevel SsTable.minKey (level + 1) g₃.db.levels } =
      g₀.db.swappedDb level inp c.nextId (c.outputs.map Prod.fst) tables := by
    rw [hdb₃]
    rw [sortLevel_takeInputs, hw.db_eq]
    rfl
  have hlevels : sortLevel SsTable.minKey (level + 1) g₃.db.levels =
      swapLevels SsTable.id SsTable.minKey level inp tables g₀.db.levels := congrArg Db.levels hdb
  have hmem : g₃.db.mem = g₀.db.mem := by
    rw [hdb₃]
    dsimp only [Engine.after]
    rw [hw.db_eq]
  have hj₃ : J { g₃ with db := { g₃.db with levels := sortLevel SsTable.minKey (level + 1) g₃.db.levels } } :=
    hst.same hj₂ hd₃ hdb
  refine (removeTables_spec hst hj₃ hs₃ fun i t ht => ?_).mono (fun _ g' h _ => ⟨h.1, h.2.1, fun _ => ?_, ?_⟩)
    fun _ _ h => h
  · rw [hlevels] at ht
    exact hf.catalog.id_notMem_swap hch hout hl ht
  · rw [h.2.2.1]
    rw [hlevels, hd₃]
    exact hsinks
  · rw [h.2.2.2]
    exact hmem

theorem overfull_limited (db : Db) (is : List Nat) : Limited (db.overfull is) := by
  induction is with
  | nil => exact Limited.ok none
  | cons i is ih =>
    have hlimit : Limited (db.levelLimit i) := by
      unfold levelLimit
      dsimp only
      split
      · exact Limited.overflow
      · exact Limited.ok _
    refine hlimit.bind fun limit _ => ?_
    split
    · exact Limited.ok _
    · exact ih

theorem fitsBack_maybeCompact (C : Coding) (fuel : Nat) : FitsBack (maybeCompact C fuel) := by
  induction fuel with
  | zero => exact FitsBack.throw _
  | succ fuel ih =>
    unfold maybeCompact
    refine FitsBack.get.bind fun g => ?_
    dsimp only
    split
    · exact (fitsBack_compactLevel C 0).bind fun _ => ih
    · refine (FitsBack.lift _).bind fun r => ?_
      cases r with
      | none => exact FitsBack.pure _
      | some i => exact (fitsBack_compactLevel C i).bind fun _ => ih

/-- A level that is over its limit has a table. -/
theorem Catalog.level_ne_nil (hc : Catalog C dir d db.levels db.manifest) {i : Nat} (hb : 0 < db.levelBytes i) :
    levelAt db.levels i ≠ [] := by
  intro hnil
  have htags := hc.listed i
  rw [hnil, map_nil, map_eq_nil_iff] at htags
  unfold levelBytes at hb
  rw [htags] at hb
  exact Nat.lt_irrefl 0 hb

/-- Every turn of the loop keeps the invariant, and makes the levels lighter. -/
theorem maybeCompact_spec (hst : Stable C dir opts I J) : ∀ (fuel : Nat) {g : Engine}, J g → g.Safe I →
    Meets (maybeCompact C fuel) g (fun _ g' => J g' ∧ g'.Safe I ∧ g'.db.mem = g.db.mem)
      (Ends opts (g.load C + 1) fuel I) := by
  intro fuel
  induction fuel with
  | zero =>
    intro g _ hs
    exact Ensures.throw fun _ => ⟨⟨trivial, hs⟩, fun _ hle => (by omega)⟩
  | succ fuel ih =>
    intro g hj hs
    have hf := hst.shelved hj
    have hturn : ∀ level, (opts.Tame → level < 65 ∧ levelAt g.db.levels level ≠ []) →
        Meets (compactLevel C level >>= fun _ => maybeCompact C fuel) g
          (fun _ g' => J g' ∧ g'.Safe I ∧ g'.db.mem = g.db.mem) (Ends opts (g.load C + 1) (fuel + 1) I) := by
      intro level hlevel
      refine ((compactLevel_spec hst hj hs level).ends _ _ _).bind (fun _ => fitsBack_maybeCompact C fuel)
        fun _ g' hg' => ?_
      obtain ⟨hj', hs', hsinks, hmem⟩ := hg'
      rw [← hmem]
      refine (ih hj' hs').mono (fun _ _ h => h) fun e _ h hfit => ⟨(h hfit).1, fun htame hle => ?_⟩
      obtain ⟨hlt, hne⟩ := hlevel htame
      have hlight : g'.load C < g.load C := (hsinks hne).weigh_lt hlt
      exact (h hfit).2 htame (by omega)
    unfold maybeCompact
    refine ensures_get ?_
    dsimp only
    rw [hf.opts_eq]
    split
    · rename_i htrigger
      refine hturn 0 fun htame => ⟨by omega, fun hnil => ?_⟩
      rw [hnil] at htrigger
      exact absurd htame.1 (by simpa using htrigger)
    · refine ensures_lift (fun e he _ => Fails.ends ⟨overfull_limited _ _ e he, hs⟩) fun r hr => ?_
      cases r with
      | none => exact Ensures.pure fun _ => ⟨hj, hs, rfl⟩
      | some i =>
        obtain ⟨limit, hlimit, hlt⟩ := overfull_eq_some hr
        refine hturn i fun htame => ⟨lt_of_levelLimit (hf.opts_eq ▸ htame) hlimit, hf.catalog.level_ne_nil (by omega)⟩

theorem fitsBack_maybeFlush (C : Coding) (fuel : Nat) : FitsBack (maybeFlush C fuel) := by
  unfold maybeFlush
  refine FitsBack.get.bind fun g => ?_
  dsimp only
  split
  · exact (fitsBack_flush C).bind fun _ => fitsBack_maybeCompact C fuel
  · exact FitsBack.pure _

theorem maybeFlush_spec (hst : Stable C dir opts I J) (hj : J g) (hs : g.Safe I) (fuel : Nat) :
    Meets (maybeFlush C fuel) g
      (fun _ g' => J g' ∧ g'.Safe I ∧ (opts.memtableBytes ≤ g.db.mem.bytes → g'.db.mem.iter = []))
      (Ends opts (g.load C + 65 * g.db.mem.iter.length + 1) fuel I) := by
  unfold maybeFlush
  refine ensures_get ?_
  dsimp only
  split
  · refine ((flush_spec hst hj hs).ends _ _ _).bind (fun _ => fitsBack_maybeCompact C fuel) fun _ g' hg' => ?_
    obtain ⟨hj', hs', hload, hmem⟩ := hg'
    refine (maybeCompact_spec hst fuel hj' hs').mono (fun _ _ h hfit => ?_) fun e _ h hfit =>
      ⟨(h hfit).1, fun htame hle => ?_⟩
    · obtain ⟨hj₂, hs₂, hmem₂⟩ := h hfit
      exact ⟨hj₂, hs₂, fun _ => by rw [hmem₂, hmem]⟩
    · exact (h hfit).2 htame (by omega)
  · rename_i hsmall
    exact Ensures.pure fun _ => ⟨hj, hs, fun hle => absurd ((hst.shelved hj).opts_eq ▸ hle) hsmall⟩

end RaftKv.Storage

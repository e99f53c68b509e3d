import RaftKv.Storage.Compaction

/-!
# What a compaction leaves behind

`compact_level` without an invariant: if its inputs can be read and the loop ends, the state after it
is that of the swap, or one of the outputs could not be opened (`compactLevel_result`). Files under
other ids are as they were.
-/

namespace RaftKv.Storage

open Versions Db

variable {C : Coding} {g g' : Engine} {db : Db} {level : Nat} {inp : Inputs} {outs : List (TableMeta × Bytes)}
  {E : Error → Engine → Prop}

/-! ## The levels that are added -/

/-- The database with levels up to the one that is written. -/
def padded (level : Nat) (db : Db) : Db :=
  { db with
    levels := padLevels (level + 2) db.levels
    manifest := { db.manifest with levels := padLevels (level + 2) db.manifest.levels } }

theorem drop_padLevels {α : Type} (n : Nat) (levels : List (List α)) : (padLevels n levels).drop n = levels.drop n := by
  unfold padLevels
  rw [List.drop_append, List.drop_replicate, Nat.sub_self, List.replicate_zero, List.append_nil]

theorem inputs_padded (level : Nat) (db : Db) : (padded level db).inputs level = db.inputs level := by
  unfold inputs padded
  simp only [levelAt_padLevels]

theorem sources_padded (level : Nat) (db : Db) (inp : Inputs) :
    (padded level db).sources level inp = db.sources level inp := by
  unfold sources padded
  simp only [levelAt_padLevels]

theorem compactionSpec_padded (level : Nat) (db : Db) :
    (padded level db).compactionSpec level = db.compactionSpec level := by
  unfold compactionSpec padded
  simp only [drop_padLevels]
  rfl

/-! ## The loops over the files -/

/-- The outputs `outs` are written, and no other file. -/
structure Wrote (g : Engine) (outs : List (TableMeta × Bytes)) (g' : Engine) : Prop where
  db_eq : g'.db = g.db
  old : ∀ id, (∀ o ∈ outs, o.1.id ≠ id) → g'.disk.table id = g.disk.table id
  new : ∀ o ∈ outs, g'.disk.table o.1.id = some o.2

theorem writeTables_files (hnodup : (outs.map fun o => o.1.id).Nodup) :
    Ensures (outs.forM fun o => emit C (.writeTable o.1.id o.2)) g (fun _ => Wrote g outs) E := by
  refine Ensures.forM (I := Wrote g) ⟨rfl, fun _ _ => rfl, by simp⟩ ?_
  rintro pre o post rfl g' ⟨hdb, hold, hnew⟩
  refine ensures_emit_last ⟨hdb, fun id hid => ?_, fun o' ho' => ?_⟩
  · refine (Disk.setTable_ne _ (hid o (by simp)).symm _).trans (hold id fun o' ho' => hid o' ?_)
    exact List.mem_append_left _ ho'
  · rcases List.mem_append.1 ho' with ho' | ho'
    · -- the ids are different
      rw [List.map_append] at hnodup
      have hne : o'.1.id ≠ o.1.id := fun heq =>
        (List.nodup_append.1 hnodup).2.2 o'.1.id (List.mem_map.2 ⟨o', ho', rfl⟩) o.1.id (by simp) heq
      exact (Disk.setTable_ne _ hne _).trans (hnew o' ho')
    · rw [List.mem_singleton.1 ho']
      exact Disk.setTable_self ..

theorem openOutputs_files (dir : String) (level : Nat) :
    Ensures (outs.forM (openOutput C dir level)) g
      (fun _ g' => ∃ tables, List.Forall₂ (fun o t => g.disk.openTable C dir o.1.id = .ok t) outs tables ∧
        g'.disk = g.disk ∧ g'.db = { g.db with levels := g.db.levels.modify (level + 1) (· ++ tables) })
      (fun _ _ => ∃ o ∈ outs, ∀ t, g.disk.openTable C dir o.1.id ≠ .ok t) := by
  have hid : (fun l : List SsTable => l ++ []) = id := funext List.append_nil
  refine Ensures.forM (I := fun (outs : List (TableMeta × Bytes)) (g' : Engine) =>
    ∃ tables, List.Forall₂ (fun o t => g.disk.openTable C dir o.1.id = .ok t) outs tables ∧
    g'.disk = g.disk ∧ g'.db = { g.db with levels := g.db.levels.modify (level + 1) (· ++ tables) })
    ⟨[], .nil, rfl, by rw [hid, List.modify_id]⟩ ?_
  rintro pre o post rfl g' ⟨tables, hopen, hdisk, hdb⟩
  refine ensures_emit (ensures_get (ensures_lift (fun e he => ⟨o, by simp, fun t ht => ?_⟩) fun t ht => ?_))
  · rw [show (g'.after C (.openTable o.1.id)).disk = g'.disk from rfl, hdisk, ht] at he
    cases he
  · rw [show (g'.after C (.openTable o.1.id)).disk = g'.disk from rfl, hdisk] at ht
    refine Ensures.modify ⟨tables ++ [t], List.rel_append hopen (.cons ht .nil), hdisk, ?_⟩
    dsimp only [Engine.after]
    rw [hdb]
    simp only [List.modify_modify_eq]
    congr 2
    funext l
    exact List.append_assoc l tables [t]

theorem removeTables_files (ids : List Nat) :
    Ensures (ids.forM fun id => emit C (.removeTable id)) g
      (fun _ g' => g'.db = g.db ∧ ∀ id ∉ ids, g'.disk.table id = g.disk.table id) E := by
  refine Ensures.forM (I := fun (ids : List Nat) (g' : Engine) => g'.db = g.db ∧ ∀ id ∉ ids,
    g'.disk.table id = g.disk.table id)
    ⟨rfl, fun _ _ => rfl⟩ ?_
  rintro pre id post rfl g' ⟨hdb, hold⟩
  refine ensures_emit_last ⟨hdb, fun id' hid' => ?_⟩
  rw [List.mem_append, List.mem_singleton, not_or] at hid'
  exact (Disk.setTable_ne _ hid'.2 _).trans (hold id' hid'.1)

/-! ## The call -/

/-- The state after a compaction of which the loop has ended with `c`, and whose outputs open as `tables`. -/
structure Compacted (C : Coding) (g g' : Engine) (level : Nat) (inp : Inputs) (c : Compactor)
    (tables : List SsTable) : Prop where
  opened : List.Forall₂ (fun o t => SsTable.openFile C o.2 (Disk.tablePath g.db.dir o.1.id) o.1.id =
    .ok t) c.outputs tables
  db_eq : g'.db = { padded level g.db with
    manifest := (padded level g.db).swappedManifest level inp c.nextId (c.outputs.map Prod.fst)
    levels := swapLevels SsTable.id SsTable.minKey level inp tables (padded level g.db).levels }
  /-- The files before those of the inputs are removed. -/
  files : ∃ d : Disk, (∀ id, (∀ o ∈ c.outputs, o.1.id ≠ id) → d.table id = g.disk.table id) ∧
    (∀ o ∈ c.outputs, d.table o.1.id = some o.2) ∧ ∀ id ∉ inp.srcIds ++ inp.dstIds, g'.disk.table id = d.table id

theorem compactLevel_none (h : g.db.inputs level = .ok none) :
    compactLevel C level g = .ok () { g with db := padded level g.db } := by
  have hsome := (inputs_padded level g.db).trans h
  have hrun : Ensures (compactLevel C level) g (fun _ g' => g' = { g with db := padded level g.db }) fun _ _ =>
    False := by
    unfold compactLevel
    exact ensures_setDb (ensures_get (ensures_lift_ok hsome rfl))
  obtain ⟨_, g', hg', rfl⟩ := hrun.exists_ok
  exact hg'

theorem compactLevel_result {srcs : List (List Entry)} (hinp : g.db.inputs level = .ok (some inp))
    (hsrc : (g.db.sources level inp).mapM (g.disk.iterTable C) = .ok srcs)
    (hids : ∀ c, Compactor.run C (g.db.compactionSpec level) g.db.manifest.nextTableId (MergeIter.mergeAll srcs) =
      .ok c →
      (c.outputs.map fun o => o.1.id).Nodup) :
    Ensures (compactLevel C level) g
      (fun _ g' => ∃ c tables,
        Compactor.run C (g.db.compactionSpec level) g.db.manifest.nextTableId (MergeIter.mergeAll srcs) = .ok c ∧
          Compacted C g g' level inp c tables)
      (fun _ _ => ∀ c,
        Compactor.run C (g.db.compactionSpec level) g.db.manifest.nextTableId (MergeIter.mergeAll srcs) = .ok c →
          ∃ o ∈ c.outputs, ∀ t, SsTable.openFile C o.2 (Disk.tablePath g.db.dir o.1.id) o.1.id ≠ .ok t) := by
  unfold compactLevel
  refine ensures_setDb (ensures_get (ensures_lift_ok ((inputs_padded level g.db).trans hinp) ?_))
  have hsrc' : ((padded level g.db).sources level inp).mapM (g.disk.iterTable C) = .ok srcs := by
    rw [sources_padded]
    exact hsrc
  refine ensures_lift_ok hsrc' (ensures_lift (fun e he c hc => ?_) fun c hc => ?_)
  · have he' : Compactor.run C ((padded level g.db).compactionSpec level) g.db.manifest.nextTableId
        (MergeIter.mergeAll srcs) = .error e := he
    rw [compactionSpec_padded, hc] at he'
    cases he'
  have hc' : Compactor.run C ((padded level g.db).compactionSpec level) g.db.manifest.nextTableId
    (MergeIter.mergeAll srcs) = .ok c := hc
  rw [compactionSpec_padded] at hc'
  refine ensures_note (Ensures.bind (writeTables_files (hids c hc')) fun _ g₁ hg₁ => ?_)
  obtain ⟨hdb₁, hold₁, hnew₁⟩ := hg₁
  refine ensures_setDb (ensures_emit (ensures_setDb ?_))
  have hopen : ∀ o ∈ c.outputs, ∀ (d : Disk), d.table = g₁.disk.table →
      d.openTable C g.db.dir o.1.id = SsTable.openFile C o.2 (Disk.tablePath g.db.dir o.1.id) o.1.id := by
    intro o ho d hd
    exact Disk.openTable_of_table (by rw [hd]; exact hnew₁ o ho)
  refine Ensures.bind ((openOutputs_files g.db.dir level).mono (fun _ _ h => h) ?_) fun _ g₂ hg₂ => ?_
  · rintro _ _ ⟨o, ho, hno⟩ c' hc''
    rw [hc'] at hc''
    cases hc''
    exact ⟨o, ho, fun t ht => hno t ((hopen o ho _ rfl).trans ht)⟩
  obtain ⟨tables, htables, hd₂, hdb₂⟩ := hg₂
  refine ensures_setDb ((removeTables_files _).mono (fun _ g' hg' => ?_) fun _ _ h => h)
  obtain ⟨hdb', hfiles'⟩ := hg'
  refine ⟨c, tables, hc', ?_, ?_, ⟨g₂.disk, ?_, ?_, hfiles'⟩⟩
  · exact forall₂_imp_mem htables fun o t ho _ ht => (hopen o ho _ rfl).symm.trans ht
  · rw [hdb']
    rw [hdb₂]
    dsimp only [Engine.after]
    rw [hdb₁, sortLevel_takeInputs]
    rfl
  · intro id hid
    rw [hd₂]
    exact hold₁ id hid
  · intro o ho
    rw [hd₂]
    exact hnew₁ o ho

end RaftKv.Storage

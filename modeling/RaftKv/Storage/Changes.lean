import RaftKv.Storage.Invariant

/-!
# What the calls change

The three ways in which an open database moves on: a batch is written, the memtable is copied to a
table of level 0 and then dropped together with the log, and the inputs of a compaction are swapped
for its outputs. Each keeps the invariant; these are facts about states, and `Calls` says when the
calls reach them.
-/

namespace RaftKv.Storage

open Versions

variable {C : Coding} {dir : String} {W V : LogRel} {D Z : Prop} {opts : Options} {snaps : OrdMap Nat Nat}
  {H : Set Entry} {n : Nat}
  {g : Engine} {d : Disk}

/-! ## A batch -/

theorem Inv.mem_subset (hi : Inv C dir W opts snaps H n g) {e : Entry} (he : e ∈ g.db.mem.iter) : e ∈ H :=
  hi.shows.mem_of_layer (i := 0) he

/-- The numbers of a batch are new, and each is given once. -/
theorem single_numberFrom_union {U : Set Entry} (hU : Single U) {first : Nat} (hlt : ∀ e ∈ U, e.2.1 < first)
    (ops : List (Bytes × Option Bytes)) : Single ({ e | e ∈ numberFrom first ops } ∪ U) := by
  have hnew : ∀ e ∈ numberFrom first ops, first ≤ e.2.1 := fun e he => (mem_numberFrom he).1
  have hnodup : ((numberFrom first ops).map fun e => e.2.1).Nodup := by
    rw [map_numberFrom]
    exact List.nodup_range'
  rintro k t v v' (hv | hv) (hv' | hv')
  · exact congrArg (fun e => e.2.2) (List.inj_on_of_nodup_map hnodup hv hv' rfl)
  · exact absurd (hnew (k, t, v) hv) (Nat.not_le.2 (hlt (k, t, v') hv'))
  · exact absurd (hnew (k, t, v') hv') (Nat.not_le.2 (hlt (k, t, v) hv))
  · exact hU hv hv'

theorem Inv.single_written (hi : Inv C dir W opts snaps H n g) (ops : List (Bytes × Option Bytes)) :
    Single ({ e | e ∈ numberFrom (n + 1) ops } ∪ H) :=
  single_numberFrom_union hi.single (fun e he => Nat.lt_succ_of_le (hi.bound e he)) ops

/-- The batch is added to what was written. -/
theorem Inv.written (hi : Inv C dir W opts snaps H n g) {b : WalBatch} (hfirst : b.firstSeq = n + 1) (hne : b.ops ≠ [])
    (hs : b.firstSeq + b.ops.length < 2 ^ 64) (hm : d.manifest = g.disk.manifest) (ht : d.table = g.disk.table)
    (hW : V (g.db.mem.insertAll b.entries) g.db.manifest.lastSeq d.wal d.synced) :
    Inv C dir V opts snaps ({ e | e ∈ b.entries } ∪ H) (n + b.ops.length)
      { g with
        disk := d
        db := { g.db with mem := g.db.mem.insertAll b.entries, seq := b.firstSeq + b.ops.length - 1 } } := by
  have hentries : b.entries = numberFrom (n + 1) b.ops := by rw [WalBatch.entries, hfirst]
  have hsingle := hi.single_written b.ops
  rw [← hentries] at hsingle
  have hpos : 0 < b.ops.length := List.length_pos_iff.2 hne
  have hmem : { e | e ∈ (g.db.mem.insertAll b.entries).iter } = { e | e ∈ g.db.mem.iter } ∪ { e | e ∈ b.entries } := by
    ext e
    refine MemTable.mem_iter_insertAll (hsingle.mono ?_) e
    rintro e (he | he)
    · exact .inr (hi.mem_subset he)
    · exact .inl he
  have hlayers : layers C d { e | e ∈ (g.db.mem.insertAll b.entries).iter } g.db.levels =
      onTop { e | e ∈ b.entries } (layers C g.disk { e | e ∈ g.db.mem.iter } g.db.levels) := by
    rw [hmem]
    funext i
    cases i with
    | zero => rfl
    | succ i => exact layer_congr { e | e ∈ g.db.mem.iter } _ (fun _ _ => by rw [ht]) rfl
  refine
    { single := hsingle
      bound := ?_
      short := by omega
      seq_eq := by
        show b.firstSeq + b.ops.length - 1 = _
        omega
      dir_eq := hi.dir_eq
      opts_eq := hi.opts_eq
      snaps_eq := hi.snaps_eq
      snaps_le := fun s hmem => (hi.snaps_le s hmem).trans (Nat.le_add_right _ _)
      started := hi.started
      saved := by
        rw [hm]; exact hi.saved
      catalog := hi.catalog.congr (fun _ _ _ => by rw [ht]) (fun _ => rfl) (fun _ => rfl) le_rfl le_rfl
      log := hW
      last := ?_
      shows := ?_ }
  · rintro e (he | he)
    · have hlt := (mem_numberFrom he).2
      omega
    · exact (hi.bound e he).trans (Nat.le_add_right _ _)
  · have hlast : n + b.ops.length ∈ b.entries.map fun e => e.2.1 := by
      rw [hentries, map_numberFrom, List.mem_range'_1]
      omega
    obtain ⟨e, he, heq⟩ := List.mem_map.1 hlast
    refine ⟨hi.last.1.trans (Nat.le_add_right _ _), .inr ⟨e, ?_, heq⟩⟩
    rw [hmem]
    exact .inr he
  · rw [hlayers]
    refine (hi.shows.onTop hsingle ?_).mono (floor_mono hi.snaps_le (Nat.le_add_right _ _) fun s hs => .inl hs)
    intro k t v t' v' hnew hold
    rw [hentries] at hnew
    exact (hi.bound _ hold).trans (Nat.le_of_succ_le (mem_numberFrom hnew).1)

theorem replayed_concat (bs : List WalBatch) (b : WalBatch) :
    replayed (bs ++ [b]) = (replayed bs).insertAll b.entries := by
  unfold replayed MemTable.insertAll
  rw [List.flatMap_append, List.foldl_append, List.flatMap_singleton]

/-- A frame at the end of a clean log, for a batch at the end of the memtable. -/
theorem LogRel.clean_append {mem : MemTable} {last last' synced synced' : Nat} {wal : Option Bytes} {b : WalBatch}
    (hW : LogRel.clean C D Z mem last wal synced) (hb : Frameable C b) (hnew : ∀ e ∈ mem.iter, e.2.1 < b.firstSeq)
    (hs : D → synced' = (wal.getD [] ++ frame C b).length) :
    LogRel.clean C D Z (mem.insertAll b.entries) last' (some (wal.getD [] ++ frame C b)) synced' := by
  obtain ⟨⟨bs, hwal, hbs, rfl⟩, hok⟩ := hW
  have hbs' : ∀ b' ∈ bs ++ [b], Frameable C b' := by
    intro b' hb'
    rcases List.mem_append.1 hb' with hb' | hb'
    · exact hbs b' hb'
    · rw [List.mem_singleton.1 hb']
      exact hb
  have hlog : wal.getD [] ++ frame C b = frames C (bs ++ [b]) := by
    rw [hwal, frames_append, frames_singleton]
    rfl
  refine ⟨⟨bs ++ [b], congrArg some hlog, hbs', (replayed_concat bs b).symm⟩, hs, fun hZ => ?_⟩
  have hold := hok.distinct hZ
  rw [hwal] at hold
  show Single { e | e ∈ (replay C (wal.getD [] ++ frame C b)).1.flatMap WalBatch.entries }
  rw [hlog, replay_whole hbs', List.flatMap_append, List.flatMap_singleton]
  rw [Option.getD_some, replay_whole hbs] at hold
  refine (single_numberFrom_union hold (fun e he => ?_) b.ops).mono fun e he => (List.mem_append.1 he).symm
  obtain ⟨v, hv⟩ := MemTable.exists_mem_iter_insertAll (m := {}) (k := e.1) (t := e.2.1) (.inr ⟨e.2.2, he⟩)
  exact hnew (e.1, e.2.1, v) hv

/-- An empty log, for an empty memtable. -/
theorem LogRel.clean_nil (last : Nat) : LogRel.clean C D Z {} last (some []) 0 := by
  refine ⟨⟨[], rfl, fun b hb => (by cases hb), rfl⟩, fun _ => rfl, fun _ k t v v' hv => ?_⟩
  rw [show (some []).getD [] = frames C [] from rfl, replay_whole fun b hb => (by cases hb)] at hv
  cases hv

/-! ## A new table in level 0 -/

variable {α : Type}

theorem levelAt_ensure (levels : List (List α)) (i : Nat) :
    levelAt (if levels.isEmpty then [[]] else levels) i = levelAt levels i := by
  cases levels with
  | nil => cases i <;> rfl
  | cons l levels => rfl

theorem length_ensure (levels : List (List α)) : 0 < (if levels.isEmpty then [[]] else levels).length := by
  cases levels <;> simp

/-- A level after something was appended to level 0. -/
theorem levelAt_push {levels : List (List α)} (hpos : 0 < levels.length) (a : α) (i : Nat) :
    levelAt (levels.modify 0 (· ++ [a])) i = if i = 0 then levelAt levels 0 ++ [a] else levelAt levels i := by
  by_cases hi : i = 0
  · subst hi
    rw [if_pos rfl, levelAt_modify_self hpos]
  · rw [if_neg hi, levelAt_modify_ne (Ne.symm hi)]

theorem mem_levelAt_push {levels : List (List α)} (hpos : 0 < levels.length) {a b : α} {i : Nat} :
    b ∈ levelAt (levels.modify 0 (· ++ [a])) i ↔ b ∈ levelAt levels i ∨ i = 0 ∧ b = a := by
  rw [levelAt_push hpos]
  by_cases hi : i = 0 <;> simp [hi]

theorem Catalog.push {levels : List (List SsTable)} {m : Manifest} {t : SsTable} (bt : BuiltTable) {db : Db}
    (hc : Catalog C dir d levels m) (hpos : 0 < levels.length) (hdb : db.manifest = m) (hid : t.id = m.nextTableId)
    (hst : d.Stored C dir t) (hmin : t.minKey = bt.minKey) (hmax : t.maxKey = bt.maxKey) (hlast : m.lastSeq ≤ db.seq)
    (hseq : ∀ e ∈ d.entries C t, e.2.1 ≤ db.seq) :
    Catalog C dir d (levels.modify 0 (· ++ [t])) (db.flushedManifest bt) := by
  have hold : ∀ {i u}, u ∈ levelAt levels i → u.id ≠ t.id := fun hu => hid ▸ Nat.ne_of_lt (hc.fresh _ _ hu)
  refine ⟨fun i => ?_, fun i u hu => ?_, fun i => ?_, fun i j u w hu hw heq => ?_, fun i u hu => ?_,
    fun i u hu e he => ?_⟩
  · show (levelAt ((if db.manifest.levels.isEmpty then [[]] else db.manifest.levels).modify 0 _) i).map _ = _
    rw [levelAt_push (length_ensure _), levelAt_push hpos]
    by_cases hi : i = 0
    · rw [if_pos hi, if_pos hi, List.map_append, levelAt_ensure, hdb, hc.listed 0]
      simp [TableMeta.tag, SsTable.tag, hid, hmin, hmax]
    · rw [if_neg hi, if_neg hi, levelAt_ensure, hdb]
      exact hc.listed i
  · rcases (mem_levelAt_push hpos).1 hu with hu | ⟨-, rfl⟩
    · exact hc.stored i u hu
    · exact hst
  · rw [levelAt_push hpos]
    exact hc.sorted i
  · rcases (mem_levelAt_push hpos).1 hu with hu | ⟨rfl, rfl⟩
    · rcases (mem_levelAt_push hpos).1 hw with hw | ⟨-, hw⟩
      · exact hc.apart hu hw heq
      · exact absurd (hw ▸ heq) (hold hu)
    · rcases (mem_levelAt_push hpos).1 hw with hw | ⟨rfl, -⟩
      · exact absurd heq.symm (hold hw)
      · rfl
  · show u.id < db.manifest.nextTableId + 1
    rw [hdb]
    rcases (mem_levelAt_push hpos).1 hu with hu | ⟨-, rfl⟩
    · exact (hc.fresh i u hu).trans (Nat.lt_succ_self _)
    · rw [hid]
      exact Nat.lt_succ_self _
  · rcases (mem_levelAt_push hpos).1 hu with hu | ⟨-, rfl⟩
    · exact (hc.bounded i u hu e he).trans hlast
    · exact hseq e he

/-- The memtable has become a table, but is still there. -/
theorem Inv.flushed (hi : Inv C dir W opts snaps H n g) {t : SsTable} {bt : BuiltTable}
    (hid : t.id = g.db.manifest.nextTableId) (hpath : t.path = Disk.tablePath dir t.id) (hmin : t.minKey = bt.minKey)
    (hmax : t.maxKey = bt.maxKey) (hr : Reads C bt.file t g.db.mem.iter) :
    Inv C dir W.any opts snaps H n
      { g with
        disk :=
          { g.disk.setTable t.id (some bt.file) with manifest := { main := some ((g.db.flushedManifest bt).file C) } }
        db := { g.db with manifest := g.db.flushedManifest bt, levels := g.db.levels.modify 0 (· ++ [t]) } } := by
  have hi' : Inv C dir W opts snaps H n { g with disk := g.disk.setTable t.id (some bt.file) } := hi.setTable hid.ge _
  obtain ⟨hst, hes⟩ := Disk.stored_of_reads (d := g.disk.setTable t.id (some bt.file)) hpath
    (Disk.setTable_self ..) hr
  have hlayers : layers C (g.disk.setTable t.id (some bt.file)) { e | e ∈ g.db.mem.iter }
      (g.db.levels.modify 0 (· ++ [t])) =
      copyDown (layers C (g.disk.setTable t.id (some bt.file)) { e | e ∈ g.db.mem.iter } g.db.levels) := by
    funext i
    match i with
    | 0 => rfl
    | 1 =>
      ext e
      rw [mem_layers_succ, levelAt_push hi.started, if_pos rfl]
      show _ ↔ e ∈ layers _ _ _ _ 1 ∨ e ∈ g.db.mem.iter
      simp only [List.mem_append, List.mem_singleton, or_and_right, exists_or, exists_eq_left, hes, mem_layers_succ]
    | i + 2 =>
      ext e
      rw [mem_layers_succ, levelAt_push hi.started]
      rfl
  refine
    { single := hi.single
      bound := hi.bound
      short := hi.short
      seq_eq := hi.seq_eq
      dir_eq := hi.dir_eq
      opts_eq := hi.opts_eq
      snaps_eq := hi.snaps_eq
      snaps_le := hi.snaps_le
      started := by rw [List.length_modify]; exact hi.started
      saved := ⟨g.db.flushedManifest bt, congrArg _ (Manifest.load_main C rfl), fun _ => rfl, rfl, rfl⟩
      catalog := ?_
      log := ⟨_, hi.log⟩
      last := ⟨hi.seq_eq.le, .inl hi.seq_eq⟩
      shows := ?_ }
  · have hpush := hi'.catalog.push bt hi.started rfl hid hst hmin hmax (hi.seq_eq.symm ▸ hi.last.1) (by
      rw [hes]
      exact fun e he => hi.seq_eq.symm ▸ hi.bound e (hi.mem_subset he))
    exact hpush.congr (fun _ _ _ => rfl) (fun _ => rfl) (fun _ => rfl) le_rfl le_rfl
  · have hshows := hi'.shows.copyDown
    rw [← hlayers] at hshows
    exact hshows

/-- The memtable and the log are not needed any more. -/
theorem Inv.cleared (hi : Inv C dir W opts snaps H n g) (W' : LogRel) (hlast : g.db.manifest.lastSeq = n)
    (hsub : ∀ e ∈ g.db.mem.iter, ∃ t ∈ levelAt g.db.levels 0, e ∈ g.disk.entries C t) (hW : W' {} n (some []) 0) :
    Inv C dir W' opts snaps H n
      { g with disk := { g.disk with wal := some [], synced := 0 }, db := { g.db with mem := {} } } := by
  have hempty : { e | e ∈ ({} : MemTable).iter } = (∅ : Set Entry) := by
    ext e
    exact ⟨fun he => (by cases he), fun he => absurd he (Set.notMem_empty e)⟩
  have hlayers : layers C { g.disk with wal := some [], synced := 0 } { e | e ∈ ({} : MemTable).iter } g.db.levels =
      clearTop (layers C g.disk { e | e ∈ g.db.mem.iter } g.db.levels) := by
    rw [hempty]
    funext i
    cases i with
    | zero => rfl
    | succ i => exact layer_congr { e | e ∈ g.db.mem.iter } _ (fun _ _ => rfl) rfl
  refine { hi with catalog := ?_, log := ?_, last := ?_, shows := ?_ }
  · exact hi.catalog.congr (fun _ _ _ => rfl) (fun _ => rfl) (fun _ => rfl) le_rfl le_rfl
  · rw [hlast]
    exact hW
  · exact ⟨hlast.le, .inl hlast⟩
  · have hshows := hi.shows.clearTop fun e he => hsub e he
    rw [← hlayers] at hshows
    exact hshows

end RaftKv.Storage

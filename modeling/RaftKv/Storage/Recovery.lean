import RaftKv.Storage.Compaction

/-!
# Writing and opening

A batch is written as soon as its frame is whole on disk, whatever happens next
(`writeBatch_spec`). Opening a directory gives a database with the versions that the directory has
(`openDir_spec`), and every step of it leaves the directory as good as it was.
-/

namespace RaftKv.Storage

open Versions Db List

variable {C : Coding} {dir : String} {W V : LogRel} {D Z : Prop} {opts : Options} {snaps : OrdMap Nat Nat}
  {H : Set Entry} {n : Nat}
  {g : Engine} {d : Disk} {I : Disk → Db → Prop} {J : Engine → Prop}

/-! ## Writes -/

/-- The log ends with the frame; with `SyncPolicy::Always` it is on stable storage. -/
structure Appended (C : Coding) (g g' : Engine) (b : WalBatch) : Prop where
  db_eq : g'.db = g.db
  manifest_eq : g'.disk.manifest = g.disk.manifest
  wal_eq : g'.disk.wal = some (g.disk.log ++ frame C b)
  table_eq : g'.disk.table = g.disk.table
  synced : g.db.opts.sync = .always → g'.disk.synced = (g.disk.log ++ frame C b).length

/-- The two states of the files during an append. -/
def Appends (C : Coding) (I : Disk → Db → Prop) (d : Disk) (b : WalBatch) : Prop :=
  (∃ db, I (d.apply C (.walWrite (frame C b))) db) ∧ ∃ db, I ((d.apply C (.walWrite (frame C b))).apply C .walSync) db

theorem Appends.mono {J : Disk → Db → Prop} {b : WalBatch} (h : Appends C I d b) (himp : ∀ d db, I d db → J d db) :
    Appends C J d b := by
  obtain ⟨⟨db, hdb⟩, db', hdb'⟩ := h
  exact ⟨⟨db, himp _ _ hdb⟩, db', himp _ _ hdb'⟩

theorem fitsBack_append (C : Coding) (b : WalBatch) : FitsBack (append C b) := by
  refine (FitsBack.note _).bind fun _ => (FitsBack.emit C _).bind fun _ => FitsBack.get.bind fun g => ?_
  split
  · exact FitsBack.emit C _
  · exact FitsBack.pure _

theorem append_spec (hs : g.Safe I) {b : WalBatch} (happ : Frameable C b → Appends C I g.disk b) :
    Meets (append C b) g (fun _ g' => Frameable C b ∧ Appended C g g' b ∧ g'.Safe I) (Fails I) := by
  unfold append
  refine meets_note ?_ fun hfit => ?_
  · refine (FitsBack.emit C _).bind fun _ => FitsBack.get.bind fun g => ?_
    split
    · exact FitsBack.emit C _
    · exact FitsBack.pure _
  have hf : Frameable C b := of_decide_eq_true hfit
  have hs₁ := hs.after_other (C := C) (e := .walWrite (frame C b)) (happ hf).1 fun h => h
  refine ensures_emit (ensures_get ?_)
  split
  · exact ensures_emit_last fun _ => ⟨hf, ⟨rfl, rfl, rfl, rfl, fun _ => rfl⟩,
      hs₁.after_other (happ hf).2 fun h => h⟩
  · rename_i hpol
    exact Ensures.pure fun _ => ⟨hf, ⟨rfl, rfl, rfl, rfl, fun h => absurd h hpol⟩, hs₁⟩

theorem fitsBack_writeBatch (C : Coding) (fuel : Nat) (ops : List (Bytes × Option Bytes)) :
    FitsBack (writeBatch C fuel ops) := by
  unfold writeBatch
  refine FitsBack.get.bind fun g => ?_
  split
  · exact FitsBack.pure _
  · refine (FitsBack.lift _).bind fun first => (fitsBack_append C _).bind fun _ => (FitsBack.lift _).bind fun next => ?_
    exact (FitsBack.setDb _).bind fun _ => (fitsBack_maybeFlush C fuel).bind fun _ => FitsBack.get.bind fun _ =>
      FitsBack.pure _

/-- So many turns are enough for a batch: every version can sink through all levels. -/
def turns (C : Coding) (g : Engine) (ops : List (Bytes × Option Bytes)) : Nat :=
  g.load C + 65 * (g.db.mem.insertAll (numberFrom (g.db.seq + 1) ops)).iter.length + 1

/-- The frame is appended and the memtable gets the batch; then it may be flushed. The call returns the last number. -/
theorem writeBatch_rule (hst : Stable C dir opts I J) (hs : g.Safe I) (ops : List (Bytes × Option Bytes))
    (hnil : ops = [] → J g)
    (hwritten : ∀ d : Disk, ops ≠ [] → g.db.seq + 1 + ops.length < 2 ^ 64 →
      Frameable C { firstSeq := g.db.seq + 1, ops } →
      Appended C g { g with disk := d } { firstSeq := g.db.seq + 1, ops } →
      J { g with
        disk := d
        db := { g.db with
          mem := g.db.mem.insertAll (numberFrom (g.db.seq + 1) ops), seq := g.db.seq + 1 + ops.length - 1 } })
    (happ : ops ≠ [] → Frameable C { firstSeq := g.db.seq + 1, ops } →
      Appends C I g.disk { firstSeq := g.db.seq + 1, ops })
    (fuel : Nat) :
    Meets (writeBatch C fuel ops) g
      (fun k g' => J g' ∧ g'.Safe I ∧ k = g'.db.seq ∧
        (ops ≠ [] → opts.memtableBytes ≤ (g.db.mem.insertAll (numberFrom (g.db.seq + 1) ops)).bytes →
          g'.db.mem.iter = []))
      (Ends opts (turns C g ops) fuel I) := by
  unfold writeBatch
  refine ensures_get ?_
  split
  · rename_i hempty
    exact Ensures.pure fun _ => ⟨hnil hempty, hs, rfl, fun hne => absurd hempty hne⟩
  · rename_i hne
    refine ensures_lift (fun e he _ => Fails.ends ⟨limited_u64 _ e he, hs⟩) fun first hfirst => ?_
    obtain ⟨-, rfl⟩ := u64_eq_ok hfirst
    refine ((append_spec hs (happ hne)).ends _ _ _).bind (fun _ => ?_) fun _ g₁ hg₁ => ?_
    · exact (FitsBack.lift _).bind fun _ => (FitsBack.setDb _).bind fun _ => (fitsBack_maybeFlush C fuel).bind fun _ =>
        FitsBack.get.bind fun _ => FitsBack.pure _
    obtain ⟨hf, ha, hs₁⟩ := hg₁
    refine ensures_lift (fun e he _ => Fails.ends ⟨limited_u64 _ e he, hs₁⟩) fun next hnext => ?_
    obtain ⟨hlt, rfl⟩ := u64_eq_ok hnext
    refine ensures_setDb ?_
    have hj₁ := hwritten g₁.disk hne hlt hf ⟨rfl, ha.manifest_eq, ha.wal_eq, ha.table_eq, ha.synced⟩
    rw [ha.db_eq]
    have hload : Engine.load C { g₁ with
        db := { g.db with
          mem := g.db.mem.insertAll (numberFrom (g.db.seq + 1) ops)
          seq := g.db.seq + 1 + ops.length - 1 } } = g.load C :=
      Engine.load_congr ha.table_eq rfl
    unfold turns
    rw [← hload]
    refine Meets.bind (maybeFlush_spec hst ?_ (hs₁.withDb _) fuel) (fun _ => ?_) fun _ g' hg' => ?_
    · exact hst.same hj₁ rfl rfl
    · exact FitsBack.get.bind fun _ => FitsBack.pure _
    · exact ensures_get (Ensures.pure fun _ => ⟨hg'.1, hg'.2.1, rfl, fun _ => hg'.2.2⟩)

/-- The batch is added to what was written. -/
theorem writeBatch_spec (hi : Inv C dir W opts snaps H n g) (hs : g.Safe I) (hW : ∀ last, V {} last (some []) 0)
    (ops : List (Bytes × Option Bytes)) (hnil : ops = [] → Inv C dir V opts snaps H n g)
    (hlog : ∀ synced, ops ≠ [] → n + 1 + ops.length < 2 ^ 64 → Frameable C { firstSeq := n + 1, ops } →
      (opts.sync = .always → synced = (g.disk.log ++ frame C { firstSeq := n + 1, ops }).length) →
      V (g.db.mem.insertAll (numberFrom (n + 1) ops)) g.db.manifest.lastSeq
        (some (g.disk.log ++ frame C { firstSeq := n + 1, ops })) synced)
    (happ : ops ≠ [] → Frameable C { firstSeq := n + 1, ops } → Appends C I g.disk { firstSeq := n + 1, ops })
    (hI : ∀ g', Inv C dir V.any opts snaps ({ e | e ∈ numberFrom (n + 1) ops } ∪ H) (n + ops.length) g' →
      I g'.disk g'.db)
    (fuel : Nat) :
    Meets (writeBatch C fuel ops) g
      (fun k g' => Inv C dir V opts snaps ({ e | e ∈ numberFrom (n + 1) ops } ∪ H) (n + ops.length) g' ∧ g'.Safe I ∧
        k = g'.db.seq ∧ (ops ≠ [] → opts.memtableBytes ≤ (g.db.mem.insertAll (numberFrom (n + 1) ops)).bytes →
          g'.db.mem.iter = [])) (Ends opts (turns C g ops) fuel I) := by
  obtain rfl := hi.seq_eq
  refine writeBatch_rule (Inv.stable hW hI) hs ops (fun heq => ?_) (fun d hne hlt hf ha => ?_) happ fuel
  · subst heq
    have hnone : { e | e ∈ numberFrom (g.db.seq + 1) [] } ∪ H = H := by
      ext e
      simp [numberFrom]
    rw [hnone]
    exact hnil rfl
  · refine hi.written (d := d) (b := { firstSeq := g.db.seq + 1, ops }) rfl hne hlt ha.manifest_eq ha.table_eq ?_
    have hwal : d.wal = some (g.disk.log ++ frame C { firstSeq := g.db.seq + 1, ops }) := ha.wal_eq
    rw [hwal]
    exact hlog _ hne hlt hf fun hsync => ha.synced (hi.opts_eq ▸ hsync)

/-! ## The directory at the start -/

section
variable {m : Manifest} {levels : List (List SsTable)} {bs : List WalBatch} {tail : Bytes}

theorem map_levelAt {α : Type} (levels : List (List α)) : (List.range levels.length).map (levelAt levels) = levels := by
  refine ext_getElem (by simp) fun i h₁ h₂ => ?_
  rw [getElem_map, getElem_range, levelAt, getD_eq_getElem?_getD, getElem?_eq_getElem h₂]
  rfl

theorem levelAt_map_range {n i : Nat} (f : Nat → List SsTable) (hf : ∀ i, n ≤ i → f i = []) :
    levelAt ((List.range n).map f) i = f i := by
  unfold levelAt
  rw [getD_eq_getElem?_getD, getElem?_map]
  by_cases hi : i < n
  · rw [getElem?_range hi]
    rfl
  · rw [getElem?_eq_none (by simpa using hi), hf i (Nat.not_lt.1 hi)]
    rfl

/-- The tables of the manifest open, level by level. -/
theorem Catalog.open_eq (hc : Catalog C dir d levels m) :
    ∃ levels', m.levels.mapM (fun level => level.mapM fun t => d.openTable C dir t.id) = .ok levels' ∧
      ∀ i, levelAt levels' i = levelAt levels i := by
  have hlevel : ∀ i, (levelAt m.levels i).mapM (fun t => d.openTable C dir t.id) = .ok (levelAt levels i) := by
    intro i
    have htags : List.Forall₂ (fun (t : TableMeta) (u : SsTable) => t.tag = u.tag) (levelAt m.levels i)
      (levelAt levels i) := by
      rw [← forall₂_map_right_iff, ← forall₂_map_left_iff, forall₂_eq_eq_eq]
      exact hc.listed i
    refine mapM_eq_ok (forall₂_imp_mem htags fun t u _ hu htag => ?_)
    rw [show t.id = u.id from congrArg Prod.fst htag]
    exact (hc.stored i u hu).openTable_eq
  refine ⟨(List.range m.levels.length).map (levelAt levels), mapM_eq_ok ?_, fun i => levelAt_map_range _ fun i hi => ?_⟩
  · conv => arg 2; rw [← map_levelAt m.levels]
    rw [forall₂_map_left_iff, forall₂_map_right_iff, forall₂_same]
    exact fun i _ => hlevel i
  · have hnil := hc.listed i
    rw [levelAt_eq_nil hi] at hnil
    exact map_eq_nil_iff.1 hnil.symm

theorem foldl_max_eq {n last : Nat} : ∀ {es : List Entry}, last ≤ n → (∀ e ∈ es, e.2.1 ≤ n) →
    (last = n ∨ ∃ e ∈ es, e.2.1 = n) → es.foldl (fun s e => max s e.2.1) last = n := by
  intro es
  induction es generalizing last with
  | nil =>
    rintro - - (hl | ⟨e, he, -⟩)
    · exact hl
    · cases he
  | cons e es ih =>
    intro hle hall hex
    have he := hall e (by simp)
    refine ih (max_le hle he) (fun x hx => hall x (mem_cons_of_mem _ hx)) ?_
    rcases hex with rfl | ⟨x, hx, heq⟩
    · exact Or.inl (max_eq_left he)
    · rcases mem_cons.1 hx with rfl | hx
      · exact Or.inl (heq ▸ max_eq_right (heq ▸ hle))
      · exact Or.inr ⟨x, hx, heq⟩

theorem Image.mem_subset (hd : Image C dir H n d m levels bs tail) {e : Entry} (he : e ∈ logged bs) : e ∈ H :=
  hd.shows.mem_of_layer (i := 0) he

/-- The numbers in the log are those of versions that were written. -/
theorem Image.seq_le (hd : Image C dir H n d m levels bs tail) {e : Entry} (he : e ∈ bs.flatMap WalBatch.entries) :
    e.2.1 ≤ n := by
  obtain ⟨v, hv⟩ := MemTable.exists_mem_iter_insertAll (m := {}) (k := e.1) (t := e.2.1) (Or.inr ⟨e.2.2, he⟩)
  exact hd.bound (e.1, e.2.1, v) (hd.mem_subset hv)

theorem mem_of_mem_replayed {e : Entry} (he : e ∈ (replayed bs).iter) : e ∈ bs.flatMap WalBatch.entries := by
  rcases MemTable.mem_of_mem_insertAll he with h | h
  · cases h
  · exact h

/-- The same directory, with another torn frame at the end of the log. -/
theorem Image.withTail (hd : Image C dir H n d m levels bs tail) (d' : Disk) (hm : d'.manifest = d.manifest)
    (ht : d'.table = d.table) {tail' : Bytes} (hlog : d'.log = frames C bs ++ tail')
    (htorn : readFrame C tail' = none) : Image C dir H n d' m levels bs tail' := by
  refine
    { single := hd.single
      bound := hd.bound
      short := hd.short
      load_eq := by rw [hm]; exact hd.load_eq
      catalog := hd.catalog.congr (fun _ _ _ => by rw [ht]) (fun _ => rfl) (fun _ => rfl) le_rfl le_rfl
      log_eq := hlog
      torn := htorn
      frameable := hd.frameable
      last := hd.last
      shows := ?_ }
  have hlayers : layers C d' (logged bs) levels = layers C d (logged bs) levels :=
    layers_congr (fun _ _ _ => by rw [ht]) fun _ => rfl
  rw [hlayers]
  exact hd.shows

theorem Image.whole (hd : Image C dir H n d m levels bs tail) (d' : Disk) (hm : d'.manifest = d.manifest)
    (ht : d'.table = d.table) (hlog : d'.log = frames C bs) : Image C dir H n d' m levels bs [] :=
  hd.withTail d' hm ht (hlog.trans (append_nil _).symm) rfl

theorem fitsBack_replayLog (C : Coding) : FitsBack (replayLog C) := by
  unfold replayLog
  refine FitsBack.get.bind fun g => ?_
  dsimp only
  split
  · exact (FitsBack.emit C _).bind fun _ => FitsBack.pure _
  · exact (FitsBack.pure _).bind fun _ => FitsBack.pure _

/-- Replay finds the batches, and leaves a log that is whole. -/
theorem replayLog_spec {E : Error → Engine → Prop} (hd : Image C dir H n g.disk m levels bs tail)
    (hok : LogOk C D Z g.disk.log g.disk.synced) (hs : g.Safe I)
    (hI : ∀ d, Recoverable C dir H n d → LogOk C D Z d.log d.synced → ∃ db, I d db) :
    Ensures (replayLog C) g
      (fun bs' g' => bs' = bs ∧ Image C dir H n g'.disk m levels bs [] ∧ LogOk C D Z g'.disk.log g'.disk.synced ∧
        g'.disk.table = g.disk.table ∧ g'.Safe I) E := by
  have hrep : replay C g.disk.log = (bs, (frames C bs).length) := by
    rw [hd.log_eq]
    exact replay_frames hd.frameable hd.torn
  unfold replayLog
  refine ensures_get ?_
  dsimp only
  rw [hrep]
  split
  · -- a torn frame is cut off
    have hlog : (g.disk.apply C (.walSetLen (frames C bs).length)).log = frames C bs := by
      show g.disk.log.take _ = _
      rw [hd.log_eq]
      exact take_left
    have hok' : LogOk C D Z (g.disk.apply C (.walSetLen (frames C bs).length)).log (frames C bs).length := by
      rw [hlog]
      refine ⟨fun _ => rfl, fun hZ => ?_⟩
      rw [replay_whole hd.frameable, ← (Prod.mk.inj hrep).1]
      exact hok.distinct hZ
    have hd' := hd.whole (g.disk.apply C (.walSetLen (frames C bs).length)) rfl rfl hlog
    refine ensures_emit (Ensures.pure ⟨rfl, hd', hok', rfl, ?_⟩)
    exact hs.after_other (hI _ ⟨m, levels, bs, [], hd'⟩ hok') fun h => h
  · rename_i hlen
    have htail : tail = [] := by
      rw [hd.log_eq, length_append] at hlen
      exact length_eq_zero_iff.1 (by omega)
    subst htail
    exact ⟨rfl, hd, hok, rfl, hs⟩

/-- The database that is opened, before its first flush. -/
theorem Image.inv (hd : Image C dir H n d m levels bs []) {levels' : List (List SsTable)}
    (hl : ∀ i, levelAt levels' i = levelAt levels i) (hok : LogOk C D Z d.log d.synced)
    (hwal : d.wal = some (frames C bs)) :
    Inv C dir (LogRel.clean C D Z) opts ∅ H n
      { disk := d
        db :=
          { dir, opts, manifest := m
            mem := replayed bs
            levels := if levels'.isEmpty then [[]] else levels'
            seq := (bs.flatMap WalBatch.entries).foldl (fun s e => max s e.2.1) m.lastSeq } } := by
  have hl' : ∀ i, levelAt (if levels'.isEmpty then [[]] else levels') i = levelAt levels i := fun i =>
    (levelAt_ensure levels' i).trans (hl i)
  have hlast : m.lastSeq = n ∨ ∃ e ∈ bs.flatMap WalBatch.entries, e.2.1 = n :=
    hd.last.2.imp_right fun ⟨e, he, heq⟩ => ⟨e, mem_of_mem_replayed he, heq⟩
  refine
    { single := hd.single
      bound := hd.bound
      short := hd.short
      seq_eq := foldl_max_eq hd.last.1 (fun e he => hd.seq_le he) hlast
      dir_eq := rfl
      opts_eq := rfl
      snaps_eq := rfl
      snaps_le := fun s hs => (by cases hs)
      started := length_ensure levels'
      saved := ⟨m, hd.load_eq, fun _ => rfl, rfl, rfl⟩
      catalog := hd.catalog.congr (fun _ _ _ => rfl) hl' (fun _ => rfl) le_rfl le_rfl
      log := ⟨⟨bs, hwal, hd.frameable, rfl⟩, hok⟩
      last := hd.last
      shows := ?_ }
  rw [layers_congr (fun _ _ _ => rfl) hl']
  exact hd.shows

theorem fitsBack_openDir (C : Coding) (dir : String) (opts : Options) (fuel : Nat) :
    FitsBack (openDir C dir opts fuel) := by
  unfold openDir
  refine FitsBack.get.bind fun g => (FitsBack.lift _).bind fun m => (FitsBack.lift _).bind fun levels => ?_
  refine (fitsBack_replayLog C).bind fun bs => (FitsBack.lift _).bind fun mem => (FitsBack.emit C _).bind fun _ => ?_
  exact (FitsBack.setDb _).bind fun _ => fitsBack_maybeFlush C fuel

theorem LogRel.clean_of_any {mem : MemTable} {last synced : Nat} {wal : Option Bytes}
    (h : (LogRel.clean C D Z).any mem last wal synced) : LogRel.clean C D Z mem last wal synced := by
  obtain ⟨_, h⟩ := h
  exact h

/-- So many turns are enough for a compaction while the directory is opened. -/
def openTurns (C : Coding) (dir : String) (d : Disk) : Nat :=
  let m : Manifest := ((Manifest.load C d.manifest).toOption.getD none).getD {}
  let levels : Except Error (List (List SsTable)) := m.levels.mapM fun level => level.mapM fun t =>
    d.openTable C dir t.id
  weigh 65 (fun i => d.count C (levelAt (levels.toOption.getD []) i)) + 65 *
    (replayed (replay C d.log).1).iter.length + 1

/-- The database is put together from the directory; it remains to flush what was replayed. -/
theorem openDir_rule {Q : Unit → Engine → Prop} {E : Error → Engine → Prop} {fuel : Nat}
    (hr : Recoverable C dir H n g.disk) (hok : LogOk C D Z g.disk.log g.disk.synced) (hs : g.Safe I)
    (hR : ∀ d, Recoverable C dir H n d → LogOk C D Z d.log d.synced → ∃ db, I d db)
    (hflush : ∀ g₁, Inv C dir (LogRel.clean C D Z) opts ∅ H n g₁ → g₁.Safe I →
      g₁.db.mem = replayed (replay C g.disk.log).1 →
      g₁.load C + 65 * g₁.db.mem.iter.length + 1 = openTurns C dir g.disk → Ensures (maybeFlush C fuel) g₁ Q E) :
    Ensures (openDir C dir opts fuel) g Q E := by
  obtain ⟨m, levels, bs, tail, hd⟩ := hr
  obtain ⟨om, hload, hom⟩ := map_eq_ok hd.load_eq
  obtain ⟨levels', hopen, hl⟩ := hd.catalog.open_eq
  have hrep : (replay C g.disk.log).1 = bs := by rw [hd.log_eq, replay_frames hd.frameable hd.torn]
  have hturns : openTurns C dir g.disk =
      weigh 65 (fun i => g.disk.count C (levelAt levels' i)) + 65 * (replayed bs).iter.length + 1 := by
    unfold openTurns
    rw [hload]
    simp only [Except.toOption, Option.getD_some, hom, hopen, hrep]
  unfold openDir
  refine ensures_get (ensures_lift_ok hload ?_)
  rw [hom]
  refine ensures_lift_ok hopen ((replayLog_spec hd hok hs hR).bind fun bs' g₁ hg₁ => ?_)
  obtain ⟨rfl, hd₁, hok₁, htable, hs₁⟩ := hg₁
  have hmem : replayMem (bs'.flatMap WalBatch.entries) = .ok (replayed bs') :=
    if_pos fun e he => Nat.lt_of_le_of_lt (hd.seq_le he) hd.short
  refine ensures_lift_ok hmem (ensures_emit (ensures_setDb ?_))
  have hlog : g₁.disk.log = frames C bs' := by rw [hd₁.log_eq, append_nil]
  have hd₂ := hd₁.whole (g₁.disk.apply C .walCreate) rfl rfl hlog
  have hok₂ : LogOk C D Z (g₁.disk.apply C .walCreate).log (g₁.disk.apply C .walCreate).synced := hok₁
  have hs₂ := hs₁.after_other (C := C) (e := .walCreate) (hR _ ⟨m, levels, bs', [], hd₂⟩ hok₂) fun h => h
  refine hflush _ ?_ (hs₂.withDb _) (congrArg replayed hrep.symm) ?_
  · exact (hd₂.inv hl hok₂ (congrArg some hlog)).same rfl rfl
  · rw [hturns]
    have hsize : ∀ i, g₁.disk.count C (levelAt (if levels'.isEmpty then [[]] else levels') i) =
        g.disk.count C (levelAt levels' i) := by
      intro i
      rw [levelAt_ensure]
      exact Disk.count_congr fun t _ => by rw [htable]
    have hload' : (fun i => g₁.disk.count C (levelAt (if levels'.isEmpty then [[]] else levels') i)) =
        fun i => g.disk.count C (levelAt levels' i) := funext hsize
    rw [← hload']
    rfl

/-- Opening the directory gives a database with its versions. -/
theorem openDir_spec (opts : Options) (hr : Recoverable C dir H n g.disk) (hok : LogOk C D Z g.disk.log g.disk.synced)
    (hs : g.Safe I) (hR : ∀ d, Recoverable C dir H n d → LogOk C D Z d.log d.synced → ∃ db, I d db)
    (hI : ∀ g, Inv C dir (LogRel.clean C D Z) opts ∅ H n g → I g.disk g.db) (fuel : Nat) :
    Meets (openDir C dir opts fuel) g (fun _ g' => Inv C dir (LogRel.clean C D Z) opts ∅ H n g' ∧ g'.Safe I)
      (Ends opts (openTurns C dir g.disk) fuel I) :=
  openDir_rule hr hok hs hR fun _ hi hs₁ _ hturns =>
    hturns ▸ (maybeFlush_spec (Inv.stable LogRel.clean_nil
      fun g hi => hI g (hi.mono LogRel.clean_of_any)) hi hs₁ fuel).mono
      (fun _ _ h hfit => ⟨(h hfit).1, (h hfit).2.1⟩) fun _ _ h => h

/-- If the memtable is within its budget, nothing can fail. -/
theorem openDir_small (opts : Options) (hnil : g.steps = []) (hr : Recoverable C dir H n g.disk)
    (hok : LogOk C D Z g.disk.log g.disk.synced)
    (hsmall : (replayed (replay C g.disk.log).1).bytes < opts.memtableBytes) (fuel : Nat) :
    Ensures (openDir C dir opts fuel) g
      (fun _ g' => Inv C dir (LogRel.clean C D Z) opts ∅ H n g' ∧ g'.db.mem = replayed (replay C g.disk.log).1)
      fun _ _ => False := by
  refine openDir_rule (I := fun _ _ => True) hr hok ⟨⟨g.db, trivial⟩, fun p hp => ?_⟩
    (fun _ _ _ => ⟨g.db, trivial⟩) fun g₁ hi _ hmem _ => ?_
  · rw [hnil] at hp
    cases hp
  · refine ensures_get ?_
    rw [if_neg (by rw [hi.opts_eq, hmem]; omega)]
    exact Ensures.pure ⟨hi, hmem⟩

/-- A write that leaves the memtable within its budget. -/
theorem writeBatch_small (ops : List (Bytes × Option Bytes)) (hne : ops ≠ []) (hlt : g.db.seq + 1 + ops.length < 2 ^ 64)
    (hsmall : (g.db.mem.insertAll (numberFrom (g.db.seq + 1) ops)).bytes < g.db.opts.memtableBytes) (fuel : Nat) :
    Ensures (writeBatch C fuel ops) g
      (fun _ g' => g'.disk.manifest = g.disk.manifest ∧ g'.disk.table = g.disk.table ∧
        g'.disk.wal = some (g.disk.log ++ frame C { firstSeq := g.db.seq + 1, ops }) ∧ g'.db.dir = g.db.dir)
      fun _ _ => False := by
  have happ : Ensures (append C { firstSeq := g.db.seq + 1, ops }) g
      (fun _ g' => Appended C g g' { firstSeq := g.db.seq + 1, ops }) fun _ _ => False := by
    unfold append
    refine ensures_note (ensures_emit (ensures_get ?_))
    split
    · exact ensures_emit_last ⟨rfl, rfl, rfl, rfl, fun _ => rfl⟩
    · rename_i hpol
      exact Ensures.pure ⟨rfl, rfl, rfl, rfl, fun h => absurd h hpol⟩
  unfold writeBatch
  refine ensures_get ?_
  rw [if_neg hne]
  refine ensures_lift_ok (if_pos (by omega)) (happ.bind fun _ g₁ ha => ensures_lift_ok (if_pos hlt) (ensures_setDb ?_))
  rw [ha.db_eq]
  unfold maybeFlush
  refine Ensures.bind (ensures_get ?_) fun _ g₂ hg₂ => ensures_get (Ensures.pure hg₂)
  dsimp only [WalBatch.entries]
  rw [if_neg (Nat.not_le.2 hsmall)]
  exact Ensures.pure ⟨ha.manifest_eq, ha.table_eq, ha.wal_eq, rfl⟩

end

end RaftKv.Storage

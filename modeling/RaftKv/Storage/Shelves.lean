import RaftKv.Storage.Crash

/-!
# The tables after any crash

The log decides what is in the memtable, and after a crash it may have lost its end. The manifest and
its tables do not depend on it: every step of every call leaves a manifest on disk whose tables are all
there (`Openable`), and a database that is opened from it has them in its levels (`Shelved`). So this
holds of every run, however much of the log each crash has left (`shelved_of_run`). With the memtable it
is different: see `Storage.Levels` for the runs in which it is on top of the levels.

| here | there |
| --- | --- |
| `Openable` | what `Db::open` needs of the manifest and its tables (`db.rs:93-106`) |
| `Shelved`  | `self.manifest`, `self.levels` and `self.seq` of an open `Db` |
-/

namespace RaftKv.Storage

open Versions Db

variable {C : Coding} {dir : String} {opts : Options} {H : Set Entry} {n : Nat} {g g' : Engine} {d d' : Disk}
  {I : Disk → Db → Prop} {E : Error → Engine → Prop}

/-! ## Directories -/

/-- The manifest can be read, and its tables are there and in order. -/
def Openable (C : Coding) (dir : String) (d : Disk) : Prop :=
  ∃ m levels, (Manifest.load C d.manifest).map (·.getD {}) = .ok m ∧ Catalog C dir d levels m ∧ m.lastSeq < 2 ^ 64

theorem Openable.congr (h : Openable C dir d) (hm : d'.manifest = d.manifest) (ht : d'.table = d.table) :
    Openable C dir d' := by
  obtain ⟨m, levels, hload, hcat, hshort⟩ := h
  refine ⟨m, levels, ?_, hcat.congr (fun _ _ _ => by rw [ht]) (fun _ => rfl) (fun _ => rfl) le_rfl le_rfl, hshort⟩
  rw [hm]
  exact hload

theorem Recoverable.openable (h : Recoverable C dir H n d) : Openable C dir d := by
  obtain ⟨m, levels, _, _, hd⟩ := h
  exact ⟨m, levels, hd.load_eq, hd.catalog, Nat.lt_of_le_of_lt hd.last.1 hd.short⟩

theorem Shelved.openable (hf : Shelved C dir opts g) : Openable C dir g.disk := by
  obtain ⟨m, hm, hsame⟩ := hf.saved
  have hcat : Catalog C dir g.disk g.db.levels m :=
    hf.catalog.congr (fun _ _ _ => rfl) (fun _ => rfl) hsame.levels hsame.nextTableId.symm.le hsame.lastSeq.symm.le
  refine ⟨m, g.db.levels, hm, hcat, ?_⟩
  rw [hsame.lastSeq]
  exact Nat.lt_of_le_of_lt hf.last_le hf.short

/-! ## What flushes and compactions do -/

theorem Shelved.same (hf : Shelved C dir opts g) (hd : g'.disk = g.disk) (hdb : g'.db = g.db) :
    Shelved C dir opts g' := by
  obtain ⟨d, db, steps, fits⟩ := g'
  obtain rfl : d = g.disk := hd
  obtain rfl : db = g.db := hdb
  exact { hf with }

theorem Shelved.otherFiles (hf : Shelved C dir opts g) (hm : d.manifest = g.disk.manifest)
    (ht : ∀ i, ∀ t ∈ levelAt g.db.levels i, d.table t.id = g.disk.table t.id) :
    Shelved C dir opts { g with disk := d } := by
  refine { hf with saved := ?_, catalog := ?_ }
  · rw [hm]
    exact hf.saved
  · exact hf.catalog.congr ht (fun _ => rfl) (fun _ => rfl) le_rfl le_rfl

theorem Shelved.otherLevels (hf : Shelved C dir opts g) {levels : List (List SsTable)} {m : Manifest}
    (hl : ∀ i, levelAt levels i = levelAt g.db.levels i) (hpos : 0 < levels.length) (hm : m.Same g.db.manifest) :
    Shelved C dir opts { g with db := { g.db with levels, manifest := m } } := by
  refine { hf with started := hpos, saved := ?_, catalog := ?_, last_le := ?_ }
  · obtain ⟨m', hload, hsame⟩ := hf.saved
    exact ⟨m', hload, fun i => (hsame.levels i).trans (hm.levels i).symm, hsame.nextTableId.trans hm.nextTableId.symm,
      hsame.lastSeq.trans hm.lastSeq.symm⟩
  · exact hf.catalog.congr (fun _ _ _ => rfl) hl hm.levels hm.nextTableId.symm.le hm.lastSeq.symm.le
  · rw [hm.lastSeq]
    exact hf.last_le

/-- The memtable has become a table and is dropped. -/
theorem Shelved.flushed (hf : Shelved C dir opts g) {t : SsTable} {bt : BuiltTable}
    (hid : t.id = g.db.manifest.nextTableId) (hpath : t.path = Disk.tablePath dir t.id) (hmin : t.minKey = bt.minKey)
    (hmax : t.maxKey = bt.maxKey) (hr : Reads C bt.file t g.db.mem.iter)
    (hm : d.manifest = { main := some ((g.db.flushedManifest bt).file C) })
    (ht : d.table = (g.disk.setTable t.id (some bt.file)).table) :
    Shelved C dir opts { g with disk := d, db := { g.db.flushedDb bt t with mem := {} } } := by
  have hold : ∀ i, ∀ u ∈ levelAt g.db.levels i, d.table u.id = g.disk.table u.id := by
    intro i u hu
    have hlt := hf.catalog.fresh i u hu
    rw [ht]
    exact Disk.setTable_ne _ (by omega) _
  have hcat : Catalog C dir d g.db.levels g.db.manifest :=
    hf.catalog.congr hold (fun _ => rfl) (fun _ => rfl) le_rfl le_rfl
  have htable : d.table t.id = some bt.file := by
    rw [ht]
    exact Disk.setTable_self ..
  obtain ⟨hst, hes⟩ := Disk.stored_of_reads hpath htable hr
  refine
    { dir_eq := hf.dir_eq
      opts_eq := hf.opts_eq
      started := by
        show 0 < (g.db.levels.modify 0 _).length
        rw [List.length_modify]
        exact hf.started
      saved := ⟨g.db.flushedManifest bt, by rw [hm]; exact congrArg _ (Manifest.load_main C rfl),
        fun _ => rfl, rfl, rfl⟩
      catalog := hcat.push bt hf.started rfl hid hst hmin hmax hf.last_le ?_
      last_le := le_rfl
      bound := fun e he => (by cases he)
      short := hf.short }
  rw [hes]
  exact hf.bound

/-- The outputs of a compaction are swapped for its inputs. -/
theorem Shelved.swapped (hf : Shelved C dir opts g) {level : Nat} {inp : Inputs} {minK maxK : Bytes} {next : Nat}
    {metas : List TableMeta} {tables : List SsTable} (hch : Chosen g.db level inp minK maxK)
    (hout : Outputs C dir g.disk d g.db level inp next metas tables) (hl : level + 1 < g.db.levels.length)
    (hm : level + 1 < g.db.manifest.levels.length)
    (hman : d.manifest = { main := some ((g.db.swappedManifest level inp next metas).file C) }) :
    Shelved C dir opts { g with disk := d, db := g.db.swappedDb level inp next metas tables } where
  dir_eq := hf.dir_eq
  opts_eq := hf.opts_eq
  started := by
    show 0 < (swapLevels _ _ _ _ _ g.db.levels).length
    unfold swapLevels
    rw [List.length_modify, List.length_modify]
    exact hf.started
  saved := ⟨_, by rw [hman]; exact congrArg _ (Manifest.load_main C rfl), fun _ => rfl, rfl, rfl⟩
  catalog := hf.catalog.swap hch hout hl hm
  last_le := hf.last_le
  bound := hf.bound
  short := hf.short

theorem Shelved.stable (C : Coding) (dir : String) (opts : Options) :
    Stable C dir opts (fun d _ => Openable C dir d) (Shelved C dir opts) where
  shelved hf := hf
  safe hf := hf.openable
  same hf := hf.same
  otherFiles hf hm _ _ ht := hf.otherFiles hm ht
  otherLevels hf := hf.otherLevels
  flushed hf hid hpath hmin hmax hr d hd := by
    subst hd
    have hf' :=
      hf.flushed (d := { Disk.setTable _ _ _ with manifest := _, wal := some [], synced := 0 }) hid hpath hmin hmax hr
      rfl rfl
    exact ⟨hf'.openable.congr rfl rfl, hf'⟩
  swapped hf hch hl hm hrun hfit hold hnew hman _ _ := by
    have hpack := pack_of_run hf.catalog.sources_sorted hrun
    obtain ⟨-, -, -, hfits⟩ := Compactor.pack_spec hpack
    obtain ⟨tables, hopen, -, hout⟩ := hf.catalog.packed hpack (hfits hfit) hold hnew
    exact ⟨tables, hopen, hout, hf.swapped hch hout hl hm hman⟩

/-! ## Calls -/

theorem Shelved.withSnapshots (hf : Shelved C dir opts g) (snapshots : OrdMap Nat Nat) :
    Shelved C dir opts { g with db := { g.db with snapshots } } := { hf with }

/-- The memtable has the batch. -/
theorem Shelved.written (hf : Shelved C dir opts g) (ops : List (Bytes × Option Bytes))
    (hlt : g.db.seq + 1 + ops.length < 2 ^ 64) (hm : d.manifest = g.disk.manifest) (ht : d.table = g.disk.table) :
    Shelved C dir opts { g with
      disk := d
      db := { g.db with
        mem := g.db.mem.insertAll (numberFrom (g.db.seq + 1) ops), seq := g.db.seq + 1 + ops.length - 1 } } := by
  have hf' := hf.otherFiles hm fun _ _ _ => by rw [ht]
  have hle : g.db.seq ≤ g.db.seq + 1 + ops.length - 1 := by omega
  refine { hf' with last_le := hf.last_le.trans hle, bound := fun e he => ?_, short := ?_ }
  · rcases MemTable.mem_of_mem_insertAll he with he | he
    · exact (hf.bound e he).trans hle
    · have hnum := (mem_numberFrom he).2
      show e.2.1 ≤ g.db.seq + 1 + ops.length - 1
      omega
  · show g.db.seq + 1 + ops.length - 1 < 2 ^ 64
    omega

theorem Shelved.call (hf : Shelved C dir opts g) (hs : g.Safe fun d _ => Openable C dir d) (c : Call) :
    Meets (c.run C) g (fun _ g' => Shelved C dir opts g' ∧ g'.Safe fun d _ => Openable C dir d)
      (Stops fun d _ => Openable C dir d) := by
  have hst := Shelved.stable C dir opts
  cases c with
  | writeBatch ops fuel =>
    have hwrite := writeBatch_rule hst hs ops (fun _ => hf)
      (fun d _ hlt _ ha => hf.written ops hlt ha.manifest_eq ha.table_eq)
      (fun _ _ => ⟨⟨g.db, hf.openable.congr rfl rfl⟩, g.db, hf.openable.congr rfl rfl⟩) fuel
    refine hwrite.stops.bind (fun _ => FitsBack.pure _) fun _ g' hg' => ?_
    exact Ensures.pure fun _ => ⟨hg'.1, hg'.2.1⟩
  | flush => exact (flush_spec hst hf hs).mono (fun _ _ h hfit => ⟨(h hfit).1, (h hfit).2.1⟩) fun _ _ h hfit =>
    (h hfit).stops
  | maybeCompact fuel =>
    exact (maybeCompact_spec hst fuel hf hs).stops.mono (fun _ _ h hfit => ⟨(h hfit).1, (h hfit).2.1⟩) fun _ _ h => h

/-! ## Openings -/

/-- The last number after the entries were replayed. -/
theorem foldl_max_spec (es : List Entry) : ∀ last : Nat,
    last ≤ es.foldl (fun s e => max s e.2.1) last ∧ (∀ e ∈ es, e.2.1 ≤ es.foldl (fun s e => max s e.2.1) last) ∧
      ∀ b, last < b → (∀ e ∈ es, e.2.1 < b) → es.foldl (fun s e => max s e.2.1) last < b := by
  induction es with
  | nil => exact fun last => ⟨le_rfl, by simp, fun b hb _ => hb⟩
  | cons e es ih =>
    intro last
    obtain ⟨hle, hall, hlt⟩ := ih (max last e.2.1)
    refine ⟨(le_max_left _ _).trans hle, fun x hx => ?_, fun b hb hbs => ?_⟩
    · rcases List.mem_cons.1 hx with rfl | hx
      · exact (le_max_right _ _).trans hle
      · exact hall x hx
    · exact hlt b (max_lt hb (hbs e (by simp))) fun x hx => hbs x (List.mem_cons_of_mem _ hx)

theorem replayMem_eq_ok {es : List Entry} {mem : MemTable} (h : replayMem es = .ok mem) :
    (∀ e ∈ es, e.2.1 < 2 ^ 64) ∧ mem = MemTable.insertAll {} es := by
  unfold replayMem at h
  split at h
  · cases h
    exact ⟨‹_›, rfl⟩
  · cases h

theorem replayMem_limited (es : List Entry) : Limited (replayMem es) := by
  unfold replayMem
  split
  · exact Limited.ok _
  · exact Limited.overflow

/-- Replay touches the log only. -/
theorem replayLog_files (hs : g.Safe fun d _ => Openable C dir d) :
    Ensures (replayLog C) g (fun _ g' => g'.disk.manifest = g.disk.manifest ∧ g'.disk.table = g.disk.table ∧
      g'.Safe fun d _ => Openable C dir d) E := by
  obtain ⟨db, ho⟩ := hs.1
  unfold replayLog
  refine ensures_get ?_
  dsimp only
  split
  · refine ensures_emit (Ensures.pure ⟨rfl, rfl, ?_⟩)
    exact hs.after_other ⟨db, ho.congr rfl rfl⟩ fun h => h
  · exact ⟨rfl, rfl, hs⟩

/-- The database that is put together from the directory, whatever the log has. -/
theorem Openable.shelved {m : Manifest} {levels levels' : List (List SsTable)} {es : List Entry}
    (hload : (Manifest.load C d.manifest).map (·.getD {}) = .ok m) (hcat : Catalog C dir d levels m)
    (hshort : m.lastSeq < 2 ^ 64) (hl : ∀ i, levelAt levels' i = levelAt levels i) (hes : ∀ e ∈ es, e.2.1 < 2 ^ 64)
    (hd : g.disk = d)
    (hdb : g.db = { dir, opts, mem := MemTable.insertAll {} es, manifest := m
                    levels := if levels'.isEmpty then [[]] else levels'
                    seq := es.foldl (fun s e => max s e.2.1) m.lastSeq }) : Shelved C dir opts g := by
  obtain ⟨hle, hall, hlt⟩ := foldl_max_spec es m.lastSeq
  obtain ⟨d, db, steps, fits⟩ := g
  obtain rfl : d = _ := hd
  obtain rfl : db = _ := hdb
  refine
    { dir_eq := rfl
      opts_eq := rfl
      started := length_ensure levels'
      saved := ⟨m, hload, fun _ => rfl, rfl, rfl⟩
      catalog := hcat.congr (fun _ _ _ => rfl) (fun i => (levelAt_ensure levels' i).trans (hl i))
        (fun _ => rfl) le_rfl le_rfl
      last_le := hle
      bound := fun e he => ?_
      short := hlt _ hshort hes }
  rcases MemTable.mem_of_mem_insertAll he with he | he
  · cases he
  · exact hall e he

theorem openDir_shelved (opts : Options) (ho : Openable C dir g.disk) (hs : g.Safe fun d _ => Openable C dir d)
    (fuel : Nat) :
    Meets (openDir C dir opts fuel) g (fun _ g' => Shelved C dir opts g' ∧ g'.Safe fun d _ => Openable C dir d)
      (Stops fun d _ => Openable C dir d) := by
  obtain ⟨m, levels, hload, hcat, hshort⟩ := ho
  obtain ⟨om, hom, hm⟩ := map_eq_ok hload
  obtain ⟨levels', hopen, hl⟩ := hcat.open_eq
  unfold openDir
  refine ensures_get (ensures_lift_ok hom ?_)
  rw [hm]
  refine ensures_lift_ok hopen ((replayLog_files hs).bind fun bs g₁ hg₁ => ?_)
  obtain ⟨hman, htable, hs₁⟩ := hg₁
  refine ensures_lift (fun e he _ => Fails.stops ⟨replayMem_limited _ e he, hs₁⟩) fun mem hmem => ?_
  obtain ⟨hes, rfl⟩ := replayMem_eq_ok hmem
  refine ensures_emit (ensures_setDb ?_)
  have hs₂ := hs₁.after_other (C := C) (e := .walCreate) (hs₁.1.imp fun _ ho => ho.congr rfl rfl) fun h => h
  have hload₂ : (Manifest.load C (g₁.disk.apply C .walCreate).manifest).map (·.getD {}) = .ok m := by
    show (Manifest.load C g₁.disk.manifest).map _ = _
    rw [hman]
    exact hload
  have hcat₂ : Catalog C dir (g₁.disk.apply C .walCreate) levels m :=
    hcat.congr (fun _ _ _ => congrFun htable _) (fun _ => rfl) (fun _ => rfl) le_rfl le_rfl
  refine (maybeFlush_spec (Shelved.stable C dir opts) ?_ (hs₂.withDb _) fuel).stops.mono
    (fun _ _ h hfit => ⟨(h hfit).1, (h hfit).2.1⟩) fun _ _ h => h
  exact Openable.shelved hload₂ hcat₂ hshort hl hes rfl rfl

/-! ## Runs -/

namespace Host

variable {s t : Host} {a : HostAction}

/-- The tables of an open database are on their shelves, and the directory of one that is not open can be opened. -/
structure Orderly (C : Coding) (dir : String) (s : Host) : Prop where
  dir_eq : s.engine.db.dir = dir
  opened : s.up = true → ∃ opts, Shelved C dir opts s.engine
  stopped : s.up = false → Openable C dir s.engine.disk

theorem orderly_up (hup : s.up = true) (hf : Shelved C dir opts s.engine) : s.Orderly C dir :=
  ⟨hf.dir_eq, fun _ => ⟨opts, hf⟩, fun hdown => absurd hup (by rw [hdown]; decide)⟩

/-- Of a process that is gone, the log may be cut anywhere. -/
theorem Orderly.halted (h : s.Orderly C dir) (ho : Openable C dir d) {fits : Bool} {k : Nat} {pending : List Entry} :
    Orderly C dir { s with engine := { s.engine with disk := d.cut k, fits }, up := false, pending } :=
  ⟨h.dir_eq, fun hup => (by cases hup), fun _ => ho.congr rfl rfl⟩

theorem Orderly.opens (h : s.Orderly C dir) (hup : s.up = false) (opts : Options) (fuel : Nat) :
    Meets (openDir C dir opts fuel) { s.engine.close dir opts with steps := [] }
      (fun _ g' => Shelved C dir opts g' ∧ g'.Safe fun d _ => Openable C dir d) (Stops fun d _ => Openable C dir d) :=
  openDir_shelved (g := { s.engine.close dir opts with steps := [] }) opts (h.stopped hup)
    ⟨⟨s.engine.db, h.stopped hup⟩, fun p hp => (by cases hp)⟩ fuel

theorem Orderly.calls (h : s.Orderly C dir) (hup : s.up = true) (c : Call) : ∃ opts,
    Meets (c.run C) { s.engine with steps := [] }
      (fun _ g' => Shelved C dir opts g' ∧ g'.Safe fun d _ => Openable C dir d)
        (Stops fun d _ => Openable C dir d) := by
  obtain ⟨opts, hf⟩ := h.opened hup
  exact ⟨opts, Shelved.call (g := { s.engine with steps := [] }) (hf.same rfl rfl)
    ⟨⟨s.engine.db, hf.openable⟩, fun p hp => (by cases hp)⟩ c⟩

/-- As long as no length is cut off. -/
theorem Orderly.exec (h : s.engine.fits = true → s.Orderly C dir) (he : s.exec C a = some t)
    (hfit : t.engine.fits = true) : t.Orderly C dir := by
  have h := h (fits_of_exec he hfit)
  cases moves_of_exec he with
  | @start opts fuel g hup hg =>
    rw [h.dir_eq] at hg
    obtain ⟨-, hf, -⟩ := finish_spec (h.opens hup opts fuel) hg hfit
    exact orderly_up rfl hf
  | @call c g hup hg =>
    obtain ⟨opts, hspec⟩ := h.calls hup c
    obtain ⟨-, hf, -⟩ := finish_spec hspec hg hfit
    exact orderly_up hup hf
  | snapshot hup hs =>
    obtain ⟨opts, hf⟩ := h.opened hup
    obtain ⟨-, rfl⟩ := snapshot_eq_ok hs
    exact orderly_up hup (hf.withSnapshots _)
  | @drop seq hup =>
    obtain ⟨opts, hf⟩ := h.opened hup
    rw [dropSnapshot_eq]
    exact orderly_up hup (hf.withSnapshots _)
  | stop hup ht =>
    obtain ⟨-, rfl⟩ := halt_eq_some ht
    obtain ⟨opts, hf⟩ := h.opened hup
    exact h.halted hf.openable
  | @stopCall c p g t hup hg ht =>
    subst hg
    obtain ⟨-, rfl⟩ := halt_eq_some ht
    obtain ⟨opts, hspec⟩ := h.calls hup c
    obtain ⟨-, ho⟩ := (final_safe hspec hfit).stopped p
    exact h.halted ho
  | @stopStart opts fuel p g t hup hg ht =>
    obtain ⟨-, rfl⟩ := halt_eq_some ht
    rw [h.dir_eq] at hg
    obtain ⟨-, ho⟩ := (hg ▸ final_safe (h.opens hup opts fuel) (hg.symm ▸ hfit) : g.Safe _).stopped p
    exact h.halted ho

end Host

end RaftKv.Storage

import RaftKv.Storage.Swap

/-!
# The calls keep the invariant

A call is specified by what it ensures as long as no length is cut off (`Meets`). Once a length is
cut off it stays so (`FitsBack`), and nothing is said about the rest of the run.

`Safe` follows the files through a call: at every step they are such that the process could be
stopped, and a step on a table that is not in the manifest yet may also fail without doing harm.
-/

namespace RaftKv.Storage

open Versions

variable {C : Coding} {I : Disk → Db → Prop} {g : Engine} {e : Effect} {α β : Type} {Q : α → Engine → Prop}
  {E : Error → Engine → Prop}

/-! ## Steps on the files -/

/-- A step on a table or on the manifest. -/
def Effect.OnTables : Effect → Prop
  | .writeTable _ _ | .openTable _ | .saveManifest _ => True
  | .walCreate | .walWrite _ | .walSync | .walSetLen _ | .removeTable _ => False

/-- The step is about a table that the manifest in memory does not have. -/
def Step.Unlisted (p : Step) : Prop :=
  match p.effect with
  | .writeTable id _ | .openTable id => p.db.manifest.nextTableId ≤ id
  | _ => False

theorem Step.Unlisted.onTables {p : Step} (h : p.Unlisted) : p.effect.OnTables := by
  unfold Step.Unlisted at h
  split at h <;> simp_all [Effect.OnTables]

/-- The manifest in memory has the tables in memory. -/
def Db.Listed (db : Db) : Prop :=
  ∀ i, (levelAt db.manifest.levels i).map TableMeta.id = (levelAt db.levels i).map SsTable.id

theorem Db.not_listed_of_length {db : Db} {i : Nat}
    (h : (levelAt db.manifest.levels i).length ≠ (levelAt db.levels i).length) : ¬ db.Listed := by
  intro hlisted
  have hlen := congrArg List.length (hlisted i)
  rw [List.length_map, List.length_map] at hlen
  exact h hlen

/-- Before the step there is a database for the files. It is the one in memory if the step is about a table that is not
listed, and the file of a table may then be anything. -/
structure Step.Safe (I : Disk → Db → Prop) (p : Step) : Prop where
  holds : ∃ db, I p.disk db ∧ (p.Unlisted → db = p.db) ∧
    ∀ id file, p.effect = .writeTable id file → ∀ junk, I (p.disk.setTable id junk) db
  /-- From the first change to the manifest on, the tables in memory are not those of the manifest. -/
  unlike : p.effect.OnTables → ¬ p.Unlisted → ¬ p.db.Listed

variable {id : Nat} {f : Unit → EngineM α} {x : EngineM α}

namespace Engine

/-- After one more step. -/
def after (C : Coding) (g : Engine) (e : Effect) : Engine :=
  { g with disk := g.disk.apply C e, steps := g.steps ++ [{ disk := g.disk, db := g.db, effect := e }] }

/-- There is a database for the files, now and at every step so far. -/
def Safe (I : Disk → Db → Prop) (g : Engine) : Prop := (∃ db, I g.disk db) ∧ ∀ p ∈ g.steps, p.Safe I

theorem Safe.after (h : g.Safe I) (hI : ∃ db, I (g.disk.apply C e) db)
    (hp : Step.Safe I { disk := g.disk, db := g.db, effect := e }) : (g.after C e).Safe I := by
  refine ⟨hI, fun p hp' => ?_⟩
  rcases List.mem_append.1 hp' with hp' | hp'
  · exact h.2 p hp'
  · rw [List.mem_singleton.1 hp']
    exact hp

theorem Safe.withDb (h : g.Safe I) (db : Db) : Safe I { g with db } := h

/-- A step that is not about the tables. -/
theorem Safe.after_other (h : g.Safe I) (hI : ∃ db, I (g.disk.apply C e) db) (he : ¬ e.OnTables) :
    (g.after C e).Safe I := by
  obtain ⟨db, hdb⟩ := h.1
  refine h.after hI ⟨⟨db, hdb, fun hu => absurd hu.onTables he, fun id file heq => ?_⟩, fun ht => absurd ht he⟩
  obtain rfl : e = .writeTable id file := heq
  exact absurd trivial he

/-- A step during which the tables in memory are not those of the manifest. -/
theorem Safe.after_unlike (h : g.Safe I) (hI : ∃ db, I (g.disk.apply C e) db)
    (hu : ¬ Step.Unlisted { disk := g.disk, db := g.db, effect := e }) (hw : ∀ id file, e ≠ .writeTable id file)
    (hne : ¬ g.db.Listed) : (g.after C e).Safe I := by
  obtain ⟨db, hdb⟩ := h.1
  exact h.after hI ⟨⟨db, hdb, fun hu' => absurd hu' hu, fun id file he => absurd he (hw id file)⟩, fun _ _ => hne⟩

/-- A table that is not listed is written. -/
theorem Safe.after_write (h : g.Safe I) (hid : g.db.manifest.nextTableId ≤ id) (file : Bytes) (hI : I g.disk g.db)
    (hjunk : ∀ junk, I (g.disk.setTable id junk) g.db) : (g.after C (.writeTable id file)).Safe I := by
  refine h.after ⟨g.db, hjunk _⟩ ⟨⟨g.db, hI, fun _ => rfl, ?_⟩, fun _ hu => absurd hid hu⟩
  rintro id file ⟨⟩ junk
  exact hjunk junk

/-- Such a table is opened, and nothing has changed since it was written. -/
theorem Safe.after_open (h : g.Safe I) (hid : g.db.manifest.nextTableId ≤ id) (hI : I g.disk g.db) :
    (g.after C (.openTable id)).Safe I :=
  h.after ⟨g.db, hI⟩ ⟨⟨g.db, hI, fun _ => rfl, fun _ _ he => (by cases he)⟩, fun _ hu => absurd hid hu⟩

end Engine

/-! ## Running a program -/

theorem ensures_get {f : Engine → EngineM α} (h : Ensures (f g) g Q E) : Ensures (get >>= f) g Q E := h

theorem ensures_emit (h : Ensures (f ()) (g.after C e) Q E) : Ensures (emit C e >>= f) g Q E := h

theorem ensures_setDb {u : Db → Db} (h : Ensures (f ()) { g with db := u g.db } Q E) :
    Ensures (setDb u >>= f) g Q E := h

theorem ensures_lift {β : Type} {x : Except Error β} {f : β → EngineM α} (herr : ∀ e, x = .error e → E e g)
    (hok : ∀ b, x = .ok b → Ensures (f b) g Q E) : Ensures (liftExcept x >>= f) g Q E := by
  cases x with
  | ok b => exact hok b rfl
  | error e => exact herr e rfl

theorem ensures_lift_ok {β : Type} {x : Except Error β} {b : β} {f : β → EngineM α} (hx : x = .ok b)
    (h : Ensures (f b) g Q E) : Ensures (liftExcept x >>= f) g Q E := by
  rw [hx]
  exact h

theorem ensures_note {fits : Bool} (h : Ensures (f ()) { g with fits := g.fits && fits } Q E) :
    Ensures (noteFits fits >>= f) g Q E := h

theorem ensures_emit_last {Q : Unit → Engine → Prop} (h : Q () (g.after C e)) : Ensures (emit C e) g Q E := h

/-! ## Lengths that are cut off -/

/-- If no length was cut off in the end, none was before. -/
def FitsBack (x : EngineM α) : Prop :=
  ∀ g, Ensures x g (fun _ g' => g'.fits = true → g.fits = true) fun _ g' => g'.fits = true → g.fits = true

namespace FitsBack

theorem pure (a : α) : FitsBack (Pure.pure a) := fun _ h => h

theorem get : FitsBack (MonadState.get : EngineM Engine) := fun _ h => h

theorem throw (e : Error) : FitsBack (MonadExcept.throw e : EngineM α) := fun _ h => h

theorem emit (C : Coding) (e : Effect) : FitsBack (emit C e) := fun _ h => h

theorem setDb (u : Db → Db) : FitsBack (setDb u) := fun _ h => h

theorem note (fits : Bool) : FitsBack (noteFits fits) := fun _ h => (Bool.and_eq_true_iff.1 h).1

theorem lift (x : Except Error α) : FitsBack (liftExcept x) := by
  intro g
  cases x with
  | ok a => exact fun h => h
  | error e => exact fun h => h

theorem bind {f : α → EngineM β} (hx : FitsBack x) (hf : ∀ a, FitsBack (f a)) : FitsBack (x >>= f) := by
  intro g
  show Ensures (EStateM.bind x f) g _ _
  have hg := hx g
  unfold Ensures EStateM.bind
  unfold Ensures at hg
  cases hr : x g with
  | ok a g₁ =>
    rw [hr] at hg
    have hg₁ := hf a g₁
    unfold Ensures at hg₁
    dsimp only
    cases hr₁ : f a g₁ with
    | ok b g₂ =>
      rw [hr₁] at hg₁
      exact fun h => hg (hg₁ h)
    | error e g₂ =>
      rw [hr₁] at hg₁
      exact fun h => hg (hg₁ h)
  | error e g₁ =>
    rw [hr] at hg
    exact hg

theorem forM (l : List β) {body : β → EngineM PUnit} (h : ∀ b, FitsBack (body b)) : FitsBack (l.forM body) := by
  induction l with
  | nil => exact pure _
  | cons b l ih => exact (h b).bind fun _ => ih

end FitsBack

/-- What a program ensures if no length is cut off. -/
def Meets (x : EngineM α) (g : Engine) (Q : α → Engine → Prop) (E : Error → Engine → Prop) : Prop :=
  Ensures x g (fun a g' => g'.fits = true → Q a g') fun e g' => g'.fits = true → E e g'

theorem Meets.bind {f : α → EngineM β} {R : β → Engine → Prop} (hx : Meets x g Q E)
    (hback : ∀ a, FitsBack (f a)) (hf : ∀ a g', Q a g' → Meets (f a) g' R E) : Meets (x >>= f) g R E := by
  refine Ensures.bind hx fun a g' hQ => ?_
  by_cases hfit : g'.fits = true
  · exact hf a g' (hQ hfit)
  · exact (hback a g').mono (fun _ _ h h' => absurd (h h') hfit) fun _ _ h h' => absurd (h h') hfit

theorem meets_note {fits : Bool} (hback : FitsBack (f ())) (h : fits = true → Meets (f ()) g Q E) :
    Meets (noteFits fits >>= f) g Q E := by
  show Ensures (f ()) { g with fits := g.fits && fits } _ _
  cases fits with
  | true =>
    rw [Bool.and_true]
    exact h rfl
  | false =>
    rw [Bool.and_false]
    refine (hback { g with fits := false }).mono (fun _ _ h h' => ?_) fun _ _ h h' => ?_
    · cases h h'
    · cases h h'

variable {dir : String} {W : LogRel} {opts : Options} {snaps : OrdMap Nat Nat} {H : Set Entry} {n : Nat}

/-- A call that fails does so for one of the limits, and at a point where the process might as well be stopped. -/
def Stops (I : Disk → Db → Prop) (e : Error) (g : Engine) : Prop := e.IsLimit ∧ g.Safe I

/-- The same for a call without a loop. -/
def Fails (I : Disk → Db → Prop) (e : Error) (g : Engine) : Prop := e = .overflow ∧ g.Safe I

theorem Fails.stops {e : Error} (h : Fails I e g) : Stops I e g := ⟨by rw [h.1]; trivial, h.2⟩

/-- A call with a loop runs out of turns only if the loop was given fewer than `need`. -/
def Ends (opts : Options) (need fuel : Nat) (I : Disk → Db → Prop) (e : Error) (g : Engine) : Prop :=
  Stops I e g ∧ (opts.Tame → need ≤ fuel → e = .overflow)

theorem Fails.ends {e : Error} {opts : Options} {need fuel : Nat} (h : Fails I e g) : Ends opts need fuel I e g :=
  ⟨h.stops, fun _ _ => h.1⟩

theorem Meets.ends (h : Meets x g Q (Fails I)) (opts : Options) (need fuel : Nat) :
    Meets x g Q (Ends opts need fuel I) := h.mono (fun _ _ h => h) fun _ _ h hfit => (h hfit).ends

theorem Meets.stops {opts : Options} {need fuel : Nat} (h : Meets x g Q (Ends opts need fuel I)) :
    Meets x g Q (Stops I) := h.mono (fun _ _ h => h) fun _ _ h hfit => (h hfit).1

/-! ## What flushes and compactions keep -/

/-- The tables in memory are those of the manifest and of the disk, and the last number is the greatest. -/
structure Shelved (C : Coding) (dir : String) (opts : Options) (g : Engine) : Prop where
  dir_eq : g.db.dir = dir
  opts_eq : g.db.opts = opts
  started : 0 < g.db.levels.length
  saved : ∃ m, (Manifest.load C g.disk.manifest).map (·.getD {}) = .ok m ∧ m.Same g.db.manifest
  catalog : Catalog C dir g.disk g.db.levels g.db.manifest
  last_le : g.db.manifest.lastSeq ≤ g.db.seq
  bound : ∀ e ∈ g.db.mem.iter, e.2.1 ≤ g.db.seq
  short : g.db.seq < 2 ^ 64

/-- The database after a flush, before the memtable is dropped. -/
def Db.flushedDb (db : Db) (bt : BuiltTable) (t : SsTable) : Db :=
  { db with manifest := db.flushedManifest bt, levels := db.levels.modify 0 (· ++ [t]) }

/-- The database after a compaction. -/
def Db.swappedDb (db : Db) (level : Nat) (inp : Db.Inputs) (next : Nat) (metas : List TableMeta)
    (tables : List SsTable) : Db :=
  { db with
    manifest := db.swappedManifest level inp next metas
    levels := Db.swapLevels SsTable.id SsTable.minKey level inp tables db.levels }

/-- `J` is about the files and the database only, and is kept by what a flush and a compaction do to them; where the
process might be stopped, there is `I`. -/
structure Stable (C : Coding) (dir : String) (opts : Options) (I : Disk → Db → Prop) (J : Engine → Prop) : Prop where
  shelved : ∀ {g}, J g → Shelved C dir opts g
  safe : ∀ {g}, J g → I g.disk g.db
  same : ∀ {g g'}, J g → g'.disk = g.disk → g'.db = g.db → J g'
  otherFiles : ∀ {g} {d : Disk}, J g → d.manifest = g.disk.manifest → d.wal = g.disk.wal → d.synced = g.disk.synced →
    (∀ i, ∀ t ∈ levelAt g.db.levels i, d.table t.id = g.disk.table t.id) → J { g with disk := d }
  otherLevels : ∀ {g levels m}, J g → (∀ i, levelAt levels i = levelAt g.db.levels i) → 0 < levels.length →
    Manifest.Same m g.db.manifest → J { g with db := { g.db with levels, manifest := m } }
  /-- The memtable has become a table; then it is dropped together with the log. -/
  flushed : ∀ {g} {t : SsTable} {bt : BuiltTable}, J g → t.id = g.db.manifest.nextTableId →
    t.path = Disk.tablePath dir t.id →
    t.minKey = bt.minKey → t.maxKey = bt.maxKey → Reads C bt.file t g.db.mem.iter →
    ∀ d : Disk,
      d = { g.disk.setTable t.id (some bt.file) with manifest := { main := some ((g.db.flushedManifest bt).file C) } } →
    I d (g.db.flushedDb bt t) ∧
      J { g with disk := { d with wal := some [], synced := 0 }, db := { g.db.flushedDb bt t with mem := {} } }
  /-- The outputs of a compaction can be opened, and are swapped for its inputs. -/
  swapped : ∀ {g level inp minK maxK} {c : Compactor} {d : Disk}, J g → Chosen g.db level inp minK maxK →
    level + 1 < g.db.levels.length → level + 1 < g.db.manifest.levels.length →
    Compactor.run C (g.db.compactionSpec level) g.db.manifest.nextTableId
      (MergeIter.mergeAll ((g.db.sources level inp).map (g.disk.entries C))) = .ok c → c.fits = true →
    (∀ id < g.db.manifest.nextTableId, d.table id = g.disk.table id) → (∀ o ∈ c.outputs, d.table o.1.id = some o.2) →
    d.manifest = { main := some ((g.db.swappedManifest level inp c.nextId (c.outputs.map Prod.fst)).file C) } →
    d.wal = g.disk.wal → d.synced = g.disk.synced →
    ∃ tables, List.Forall₂ (fun o t => d.openTable C dir o.1.id = .ok t) c.outputs tables ∧
      Outputs C dir g.disk d g.db level inp c.nextId (c.outputs.map Prod.fst) tables ∧
      J { g with disk := d, db := g.db.swappedDb level inp c.nextId (c.outputs.map Prod.fst) tables }

variable {J : Engine → Prop}

/-- A file with an id that is not taken yet may be anything. -/
theorem Stable.setTable (hst : Stable C dir opts I J) (hj : J g) (hid : g.db.manifest.nextTableId ≤ id)
    (file : Option Bytes) : J { g with disk := g.disk.setTable id file } := by
  refine hst.otherFiles hj rfl rfl rfl fun i t ht => ?_
  have hlt := (hst.shelved hj).catalog.fresh i t ht
  exact Disk.setTable_ne _ (by omega) file

/-! ## Flush -/

/-- While the manifest is saved, only it has the new table. -/
theorem Shelved.not_listed_flushed (hf : Shelved C dir opts g) (bt : BuiltTable) :
    ¬ Db.Listed { g.db with manifest := g.db.flushedManifest bt } := by
  refine Db.not_listed_of_length (i := 0) ?_
  have hlen := congrArg List.length (hf.catalog.listed 0)
  rw [List.length_map, List.length_map] at hlen
  simp only [Db.flushedManifest, levelAt_push (length_ensure _), levelAt_ensure, if_true, List.length_append,
    List.length_singleton]
  omega

/-- A new table in level 0. -/
theorem Shelved.load_push (hf : Shelved C dir opts g) {file : Bytes} {t : SsTable} {es : List Entry}
    (hes : (g.disk.setTable g.db.manifest.nextTableId (some file)).entries C t = es) {g' : Engine}
    (htable : g'.disk.table = (g.disk.setTable g.db.manifest.nextTableId (some file)).table)
    (hlevels : g'.db.levels = g.db.levels.modify 0 (· ++ [t])) : g'.load C ≤ g.load C + 65 * es.length := by
  have hold : ∀ i, g'.disk.count C (levelAt g.db.levels i) = g.size C i := fun i =>
    Disk.count_congr fun u hu => by
      rw [htable]
      exact Disk.setTable_ne _ (Nat.ne_of_lt (hf.catalog.fresh i u hu)) _
  have hnew : g'.disk.count C [t] = es.length := by
    have hsame : g'.disk.entries C t = es := (Disk.entries_congr (by rw [htable])).trans hes
    simp [Disk.count, hsame]
  refine weigh_le_add ?_ fun i => ?_
  · have hsize : g'.size C 0 = g.size C 0 + es.length := by
      conv_lhs => unfold Engine.size
      rw [hlevels, levelAt_push hf.started, if_pos rfl, Disk.count_append, hold, hnew]
    exact hsize.le
  · conv_lhs => unfold Engine.size
    rw [hlevels, levelAt_push hf.started]
    exact hold (i + 1)

theorem fitsBack_flush (C : Coding) : FitsBack (Db.flush C) := by
  unfold Db.flush
  refine FitsBack.get.bind fun g => ?_
  dsimp only
  split
  · exact FitsBack.pure _
  · refine (FitsBack.lift _).bind fun t => (FitsBack.note _).bind fun _ => (FitsBack.emit C _).bind fun _ =>
      (FitsBack.emit C _).bind fun _ => FitsBack.get.bind fun g => (FitsBack.lift _).bind fun table => ?_
    exact (FitsBack.setDb _).bind fun _ => (FitsBack.emit C _).bind fun _ => (FitsBack.setDb _).bind fun _ =>
      FitsBack.emit C _

/-- A flush keeps what is stable. -/
theorem flush_spec (hst : Stable C dir opts I J) (hj : J g) (hs : g.Safe I) :
    Meets (Db.flush C) g (fun _ g' => J g' ∧ g'.Safe I ∧
      g'.load C ≤ g.load C + 65 * g.db.mem.iter.length ∧ g'.db.mem.iter = []) (Fails I) := by
  have hf := hst.shelved hj
  unfold Db.flush
  refine ensures_get ?_
  dsimp only
  split
  · rename_i hempty
    exact fun _ => ⟨hj, hs, Nat.le_add_right _ _, MemTable.isEmpty_iff.1 hempty⟩
  · rename_i hne
    refine ensures_lift (fun e he _ => ⟨TableBuilder.build_limited _ _ _ e he, hs⟩) fun bt hbt => ?_
    refine meets_note ?_ fun hfit => ?_
    · refine (FitsBack.emit C _).bind fun _ => (FitsBack.emit C _).bind fun _ => FitsBack.get.bind fun g =>
        (FitsBack.lift _).bind fun table => (FitsBack.setDb _).bind fun _ => (FitsBack.emit C _).bind fun _ => ?_
      exact (FitsBack.setDb _).bind fun _ => FitsBack.emit C _
    obtain ⟨t, hopen, hid, hpath, hmin, hmax, hr⟩ := build_reads g.db.mem.iter_sorted
      (fun hnil => hne (MemTable.isEmpty_iff.2 hnil)) (fun e he => Nat.lt_of_le_of_lt (hf.bound e he) hf.short) hbt hfit
      (Disk.tablePath dir g.db.manifest.nextTableId) g.db.manifest.nextTableId
    -- the new file has an id that is not taken
    have hfile : ∀ file, I (g.disk.setTable g.db.manifest.nextTableId file) g.db := fun file =>
      hst.safe (hst.setTable hj le_rfl file)
    have hopen' : (g.disk.setTable g.db.manifest.nextTableId
      (some bt.file)).openTable C g.db.dir g.db.manifest.nextTableId =
        .ok t := by
      rw [Disk.openTable_of_table (Disk.setTable_self ..), hf.dir_eq]
      exact hopen
    have hs₁ := hs.after_write (C := C) le_rfl bt.file (hst.safe hj) hfile
    have hs₂ := hs₁.after_open (C := C) le_rfl (hfile _)
    refine ensures_emit (ensures_emit (ensures_get (ensures_lift_ok hopen' (ensures_setDb ?_))))
    -- now the manifest has the table, too
    obtain ⟨hsaved, hj'⟩ := hst.flushed hj hid (hid ▸ hpath) hmin hmax hr _ rfl
    rw [hid] at hsaved hj'
    have hs₃ := (hs₂.withDb { g.db with manifest := g.db.flushedManifest bt }).after_unlike (C := C)
      (e := .saveManifest (g.db.flushedManifest bt)) ⟨_, hsaved⟩ (fun h => h) (by rintro id file ⟨⟩)
        (hf.not_listed_flushed bt)
    refine ensures_emit (ensures_setDb (ensures_emit_last fun _ => ?_))
    have hes := (Disk.stored_of_reads (d := g.disk.setTable g.db.manifest.nextTableId (some bt.file)) (hid ▸ hpath)
      (hid ▸ Disk.setTable_self ..) hr).2
    refine ⟨hst.same hj' rfl rfl, (hs₃.withDb _).after_other ⟨_, hst.safe hj'⟩ (fun h => h), ?_, rfl⟩
    exact hf.load_push hes rfl rfl

end RaftKv.Storage

import RaftKv.Storage.Faults
import RaftKv.Storage.Scan

/-!
# Appends that fail

If the append to the log fails, `write_batch` returns the error and changes nothing in memory: the
next batch gets the same numbers. In the log a part of the frame is left, or, if it is the sync that
failed, the whole of it. A whole frame does no harm. Its batch is found when the directory is opened
again, but then it only adds to the keys that it wrote.

A torn frame stays where it is, and the next batch is appended behind it, is acknowledged, and is
dropped together with the torn frame by the next opening (`acknowledged_behind_torn`). If no batch
is acknowledged behind a torn frame, all of them are there (`acknowledged_after_failures`).

| here | there |
| --- | --- |
| `failAppend` | `self.wal.append(..)?` in `write_batch` (`db.rs:155`), `Wal::append` (`wal.rs:57-71`) |
| `Writer` | the calls of `write_batch` on one open `Db` |
-/

namespace RaftKv.Storage

open Versions Db List

variable {C : Coding} {dir : String} {W : LogRel} {opts : Options} {snaps : OrdMap Nat Nat} {H : Set Entry}
  {n last synced : Nat}
  {g g' : Engine} {d : Disk} {F F' : Set Bytes} {mem mem' : MemTable} {m : OrdMap Bytes Bytes} {bs : List WalBatch}
  {b : WalBatch} {f : Fault} {ops : List (Bytes × Option Bytes)}

/-! ## A failed append -/

/-- `write_batch` returns the error of `append`. -/
def failAppend (C : Coding) (g : Engine) (ops : List (Bytes × Option Bytes)) (f : Fault) : Option Engine :=
  if ops = [] then none else (append C { firstSeq := g.db.seq + 1, ops }).failAt C g f

theorem append_final (C : Coding) (g : Engine) (b : WalBatch) :
    ((append C b).final g).fits = (g.fits && decide (Frameable C b)) ∧
      ((append C b).final g).steps = { disk := g.disk, db := g.db, effect := .walWrite (frame C b) } ::
        if g.db.opts.sync = .always then
          [{ disk := g.disk.apply C (.walWrite (frame C b)), db := g.db, effect := .walSync }] else [] := by
  have happ : append C b { g with steps := [] } =
      if g.db.opts.sync = .always then
        .ok () { disk := (g.disk.apply C (.walWrite (frame C b))).apply C .walSync, db := g.db
                 fits := g.fits && decide (Frameable C b)
                 steps := [{ disk := g.disk, db := g.db, effect := .walWrite (frame C b) },
                   { disk := g.disk.apply C (.walWrite (frame C b)), db := g.db, effect := .walSync }] }
      else
        .ok () { disk := g.disk.apply C (.walWrite (frame C b)), db := g.db, fits := g.fits && decide (Frameable C b)
                 steps := [{ disk := g.disk, db := g.db, effect := .walWrite (frame C b) }] } := by
    cases hsync : g.db.opts.sync with
    | always =>
      show (if g.db.opts.sync = .always then emit C .walSync else pure ()) _ = _
      rw [if_pos hsync]
      rfl
    | never =>
      show (if g.db.opts.sync = .always then emit C .walSync else pure ()) _ = _
      rw [if_neg (by rw [hsync]; decide)]
      rfl
  unfold EngineM.final
  rw [happ]
  by_cases hsync : g.db.opts.sync = .always
  · simp only [if_pos hsync, and_self]
  · simp only [if_neg hsync, and_self]

/-- The log ends with a part of the frame, or with all of it. -/
theorem failAppend_eq_some (h : failAppend C g ops f = some g') : ops ≠ [] ∧ ∃ k,
    g' = { disk := { g.disk with wal := some (g.disk.log ++ (frame C { firstSeq := g.db.seq + 1, ops }).take k) }
           db := g.db, fits := g.fits && decide (Frameable C { firstSeq := g.db.seq + 1, ops }) } := by
  unfold failAppend at h
  split at h
  · cases h
  · rename_i hne
    refine ⟨hne, ?_⟩
    obtain ⟨p, disk, hp, hd, rfl⟩ := failAt_eq_some h
    obtain ⟨hfits, hsteps⟩ := append_final C g { firstSeq := g.db.seq + 1, ops }
    rw [hfits]
    rw [hsteps] at hp
    have hmem := mem_of_getElem? hp
    rcases mem_cons.1 hmem with rfl | hmem
    · cases hd
      exact ⟨f.written, rfl⟩
    · split at hmem
      · rw [mem_singleton] at hmem
        subst hmem
        cases hd
        refine ⟨(frame C { firstSeq := g.db.seq + 1, ops }).length, ?_⟩
        rw [take_length]
        rfl
      · cases hmem

/-! ## A log with failed batches -/

/-- `mem'` has what `mem` has, and besides that only new versions of the keys in `F`. -/
structure Beside (F : Set Bytes) (last : Nat) (mem mem' : MemTable) : Prop where
  sub : ∀ e ∈ mem.iter, e ∈ mem'.iter
  failed : ∀ e ∈ mem'.iter, e ∉ mem.iter → e.1 ∈ F ∧ last < e.2.1
  short : ∀ e ∈ mem'.iter, e.2.1 < 2 ^ 64

theorem Beside.mono (h : Beside F last mem mem') (hsub : F ⊆ F') : Beside F' last mem mem' :=
  ⟨h.sub, fun e he hne => ⟨hsub (h.failed e he hne).1, (h.failed e he hne).2⟩, h.short⟩

variable {es : List Entry}

/-- A batch that is written to both. -/
theorem Beside.insertAll (h : Beside F last mem mem') (hes : ∀ e ∈ es, e.2.1 < 2 ^ 64) :
    Beside F last (mem.insertAll es) (mem'.insertAll es) := by
  induction es generalizing mem mem' with
  | nil => exact h
  | cons x es ih =>
    have hone : Beside F last (mem.insert x.1 x.2.1 x.2.2) (mem'.insert x.1 x.2.1 x.2.2) := by
      refine ⟨?_, ?_, ?_⟩
      · intro e he
        rcases MemTable.mem_iter_insert.1 he with rfl | ⟨he, hne⟩
        · exact MemTable.mem_iter_insert.2 (.inl rfl)
        · exact MemTable.mem_iter_insert.2 (.inr ⟨h.sub e he, hne⟩)
      · intro e he hnot
        rcases MemTable.mem_iter_insert.1 he with rfl | ⟨he, hne⟩
        · exact absurd (MemTable.mem_iter_insert.2 (.inl rfl)) hnot
        · exact h.failed e he fun hmem => hnot (MemTable.mem_iter_insert.2 (.inr ⟨hmem, hne⟩))
      · intro e he
        rcases MemTable.mem_iter_insert.1 he with rfl | ⟨he, -⟩
        · exact hes x (mem_cons_self ..)
        · exact h.short e he
    exact ih hone fun e he => hes e (mem_cons_of_mem _ he)

/-- A batch that is only in the log; its numbers are above those of the memtable. -/
theorem Beside.insertFailed (h : Beside F last mem mem') (hes : ∀ e ∈ es, last < e.2.1 ∧ e.2.1 < 2 ^ 64)
    (hkeys : ∀ e ∈ es, e.1 ∈ F) (hnew : ∀ e ∈ mem.iter, ∀ x ∈ es, e.2.1 < x.2.1) :
    Beside F last mem (mem'.insertAll es) := by
  induction es generalizing mem' with
  | nil => exact h
  | cons x es ih =>
    have hone : Beside F last mem (mem'.insert x.1 x.2.1 x.2.2) := by
      refine ⟨?_, ?_, ?_⟩
      · intro e he
        have hlt := hnew e he x (mem_cons_self ..)
        exact MemTable.mem_iter_insert.2 (.inr ⟨h.sub e he, fun hsame => absurd hsame.2 (Nat.ne_of_lt hlt)⟩)
      · intro e he hnot
        rcases MemTable.mem_iter_insert.1 he with rfl | ⟨he, -⟩
        · exact ⟨hkeys x (mem_cons_self ..), (hes x (mem_cons_self ..)).1⟩
        · exact h.failed e he hnot
      · intro e he
        rcases MemTable.mem_iter_insert.1 he with rfl | ⟨he, -⟩
        · exact (hes x (mem_cons_self ..)).2
        · exact h.short e he
    exact ih hone (fun e he => hes e (mem_cons_of_mem _ he)) (fun e he => hkeys e (mem_cons_of_mem _ he))
      fun e he y hy => hnew e he y (mem_cons_of_mem _ hy)

/-- The log has the batches of the memtable, batches that have failed with keys in `F`, and perhaps a torn frame. -/
def LogRel.mixed (C : Coding) (F : Set Bytes) : LogRel := fun mem last wal _ =>
  ∃ bs tail, wal = some (frames C bs ++ tail) ∧ readFrame C tail = none ∧ (∀ b ∈ bs, Frameable C b) ∧
    Beside F last mem (replayed bs)

/-- The log ends with a whole frame. -/
def Disk.Whole (C : Coding) (d : Disk) : Prop := (replay C d.log).2 = d.log.length

instance (C : Coding) (d : Disk) : Decidable (d.Whole C) :=
  inferInstanceAs (Decidable ((replay C d.log).2 = d.log.length))

theorem LogRel.mixed_nil (last : Nat) : LogRel.mixed C F {} last (some []) 0 :=
  ⟨[], [], rfl, rfl, fun b hb => (by cases hb), fun _ h => h, fun _ he => (by cases he), fun _ he => (by cases he)⟩

theorem LogRel.mixed_of_clean {D Z : Prop} {wal : Option Bytes} (h : LogRel.clean C D Z mem last wal synced)
    (hshort : ∀ e ∈ mem.iter, e.2.1 < 2 ^ 64) : LogRel.mixed C F mem last wal synced := by
  obtain ⟨⟨bs, hwal, hbs, rfl⟩, -⟩ := h
  refine ⟨bs, [], ?_, rfl, hbs, fun _ h => h, fun e he hne => absurd he hne, hshort⟩
  rw [hwal, append_nil]

theorem log_of_wal {log : Bytes} (h : d.wal = some log) : d.log = log := by
  rw [Disk.log, h]
  rfl

/-- There is nothing behind the frames of a log that is whole. -/
theorem Disk.Whole.tail_eq_nil {tail : Bytes} (hw : d.Whole C) (hwal : d.wal = some (frames C bs ++ tail))
    (htail : readFrame C tail = none) (hbs : ∀ b ∈ bs, Frameable C b) : tail = [] := by
  unfold Disk.Whole at hw
  rw [log_of_wal hwal, replay_frames hbs htail, length_append] at hw
  exact length_eq_zero_iff.1 (by omega)

theorem frameable_concat (hbs : ∀ b ∈ bs, Frameable C b) (hb : Frameable C b) : ∀ b' ∈ bs ++ [b], Frameable C b' := by
  intro b' hb'
  rcases mem_append.1 hb' with hb' | hb'
  · exact hbs b' hb'
  · rw [mem_singleton.1 hb']
    exact hb

/-- A batch behind whole frames. -/
theorem LogRel.mixed_append (h : LogRel.mixed C F mem last d.wal synced) (hw : d.Whole C) (hb : Frameable C b)
    (hes : ∀ e ∈ b.entries, e.2.1 < 2 ^ 64) (synced' : Nat) :
    LogRel.mixed C F (mem.insertAll b.entries) last (some (d.log ++ frame C b)) synced' := by
  obtain ⟨bs, tail, hwal, htail, hbs, hmem⟩ := h
  obtain rfl := hw.tail_eq_nil hwal htail hbs
  refine ⟨bs ++ [b], [], ?_, rfl, frameable_concat hbs hb, ?_⟩
  · rw [log_of_wal hwal, frames_append, frames_singleton, append_nil, append_nil]
  · rw [replayed_concat]
    exact hmem.insertAll hes

/-- What is replayed of a log is as long as before. -/
def Disk.SameReplay (C : Coding) (d : Disk) (more : Bytes) : Prop := (replay C (d.log ++ more)).2 = (replay C d.log).2

instance (C : Coding) (d : Disk) (more : Bytes) : Decidable (d.SameReplay C more) :=
  inferInstanceAs (Decidable ((replay C (d.log ++ more)).2 = (replay C d.log).2))

theorem readFrame_of_replay {data : Bytes} (h : (replay C data).2 = 0) : readFrame C data = none := by
  cases hr : readFrame C data with
  | none => rfl
  | some p =>
    have hlt := readFrame_lt hr
    rw [replay_of_some hr] at h
    omega

/-- A batch that fails, behind whole frames or behind a torn one. -/
theorem LogRel.mixed_failed (h : LogRel.mixed C F mem last d.wal synced) {k : Nat}
    (hw : d.Whole C ∨ d.SameReplay C ((frame C b).take k)) (hb : Frameable C b)
    (hes : ∀ e ∈ b.entries, last < e.2.1 ∧ e.2.1 < 2 ^ 64) (hnew : ∀ e ∈ mem.iter, ∀ x ∈ b.entries, e.2.1 < x.2.1)
    (synced' : Nat) :
    LogRel.mixed C (F ∪ { x | x ∈ b.entries.map Prod.fst }) mem last (some (d.log ++ (frame C b).take k)) synced' := by
  obtain ⟨bs, tail, hwal, htail, hbs, hmem⟩ := h
  have hmem' : Beside (F ∪ { x | x ∈ b.entries.map Prod.fst }) last mem (replayed bs) := hmem.mono Set.subset_union_left
  have hlog := log_of_wal hwal
  rcases hw with hw | hw
  · obtain rfl := hw.tail_eq_nil hwal htail hbs
    rw [hlog, append_nil]
    rcases lt_or_ge k (frame C b).length with hk | hk
    · exact ⟨bs, (frame C b).take k, rfl, readFrame_torn hb hk, hbs, hmem'⟩
    · -- the whole frame was written, and the sync has failed
      rw [take_of_length_le hk]
      refine ⟨bs ++ [b], [], ?_, rfl, frameable_concat hbs hb, ?_⟩
      · rw [frames_append, frames_singleton, append_nil]
      · rw [replayed_concat]
        exact hmem'.insertFailed hes (fun e he => .inr (mem_map.2 ⟨e, he, rfl⟩)) hnew
  · refine ⟨bs, tail ++ (frame C b).take k, ?_, ?_, hbs, hmem'⟩
    · rw [hlog, append_assoc]
    · unfold Disk.SameReplay at hw
      rw [hlog, replay_frames hbs htail, append_assoc, replay_append hbs] at hw
      exact readFrame_of_replay (by omega)

/-! ## Opening the directory again -/

/-- Only the log changes. -/
theorem Inv.otherLog {V : LogRel} {wal : Option Bytes} (hi : Inv C dir W opts snaps H n g)
    (hV : V g.db.mem g.db.manifest.lastSeq wal g.disk.synced) :
    Inv C dir V opts snaps H n { g with disk := { g.disk with wal } } := by
  have hlayers : layers C { g.disk with wal } { e | e ∈ g.db.mem.iter } g.db.levels =
      layers C g.disk { e | e ∈ g.db.mem.iter } g.db.levels := layers_congr (fun _ _ _ => rfl) fun _ => rfl
  exact
    { hi with
      log := hV
      catalog := hi.catalog.congr (fun _ _ _ => rfl) (fun _ => rfl) (fun _ => rfl) le_rfl le_rfl
      shows := hlayers ▸ hi.shows }

/-- The directory has the versions of the database, and besides them only versions of the keys in `F`. -/
theorem Inv.recoverable_mixed (hi : Inv C dir (LogRel.mixed C F) opts snaps H n g) :
    ∃ H' n', Recoverable C dir H' n' g.disk ∧
      ∀ k, k ∉ F → ∀ t v, (k, t, v) ∈ H' ↔ (k, t, v) ∈ ⋃ i, g.layers C i := by
  obtain ⟨bs, tail, hwal, htail, hbs, hmem⟩ := hi.log
  obtain ⟨m, hm, hsame⟩ := hi.saved
  have hcat : Catalog C dir g.disk g.db.levels m :=
    hi.catalog.congr (fun _ _ _ => rfl) (fun _ => rfl) hsame.levels hsame.nextTableId.symm.le hsame.lastSeq.symm.le
  -- a version of the log is in the memtable, or newer than the tables
  have hlog : ∀ e ∈ logged bs, e ∈ g.db.mem.iter ∨ (e.1 ∈ F ∧ m.lastSeq < e.2.1) := by
    intro e he
    rw [hsame.lastSeq]
    exact or_iff_not_imp_left.2 fun hne => hmem.failed e he hne
  have hunder : ∀ i e, e ∈ layers C g.disk (logged bs) g.db.levels (i + 1) → e ∈ g.layers C (i + 1) ∧
    e.2.1 ≤ m.lastSeq := by
    intro i e he
    obtain ⟨t, ht, hmem⟩ := mem_layers_succ.1 he
    exact ⟨he, hcat.bounded i t ht e hmem⟩
  have hstacked : Stacked (layers C g.disk (logged bs) g.db.levels) := by
    intro a b hab k t v t' v' ha hb hlt
    cases a with
    | succ a => exact hi.shows.stacked hab ha (by cases b with | zero => omega | succ b => exact hb) hlt
    | zero =>
      obtain ⟨b, rfl⟩ := Nat.exists_eq_succ_of_ne_zero (Nat.ne_of_gt hab)
      obtain ⟨hb', hle⟩ := hunder b _ hb
      rcases hlog _ ha with ha | ⟨-, ha⟩
      · exact hmem.sub _ (hi.shows.stacked hab ha hb' hlt)
      · exact absurd hlt (not_lt.2 (hle.trans ha.le))
  have hsingle : Single (⋃ i, layers C g.disk (logged bs) g.db.levels i) := by
    -- the versions of the log that are not in the memtable are newer than all tables
    have hmixed : ∀ {k t v v'}, (k, t, v) ∈ logged bs →
      ∀ i, (k, t, v') ∈ layers C g.disk (logged bs) g.db.levels (i + 1) →
        v = v' := by
      intro k t v v' hv i hv'
      obtain ⟨hv', hle⟩ := hunder i _ hv'
      rcases hlog _ hv with hv | ⟨-, hlt⟩
      · exact hi.single (hi.mem_subset hv) (hi.shows.mem_of_layer hv')
      · exact absurd hlt (not_lt.2 hle)
    intro k t v v' hv hv'
    obtain ⟨i, hv⟩ := Set.mem_iUnion.1 hv
    obtain ⟨j, hv'⟩ := Set.mem_iUnion.1 hv'
    cases i with
    | zero =>
      cases j with
      | zero => exact MemTable.single_iter (replayed bs) hv hv'
      | succ j => exact hmixed hv j hv'
    | succ i =>
      cases j with
      | zero => exact (hmixed hv' i hv).symm
      | succ j => exact hi.single (hi.shows.mem_of_layer (hunder i _ hv).1) (hi.shows.mem_of_layer (hunder j _ hv').1)
  obtain ⟨n', hlast, hle, hn'⟩ := exists_last m.lastSeq (replayed bs).iter
  refine ⟨⋃ i, layers C g.disk (logged bs) g.db.levels i, n', ⟨m, g.db.levels, bs, tail, ?_⟩, fun k hk t v => ?_⟩
  · refine
      { single := hsingle
        bound := ?_
        short := ?_
        load_eq := hm
        catalog := hcat
        log_eq := log_of_wal hwal
        torn := htail
        frameable := hbs
        last := ⟨hlast, hn'⟩
        shows := ⟨hstacked, Set.Subset.rfl, Agree.refl hsingle⟩ }
    · intro e he
      obtain ⟨i, he⟩ := Set.mem_iUnion.1 he
      cases i with
      | zero => exact hle e he
      | succ i => exact (hunder i e he).2.trans hlast
    · rcases hn' with rfl | ⟨e, he, rfl⟩
      · exact lt_of_le_of_lt (hsame.lastSeq ▸ hi.last.1) hi.short
      · exact hmem.short e he
  · simp only [Set.mem_iUnion]
    refine exists_congr fun i => ?_
    cases i with
    | zero => exact ⟨fun he => (hlog _ he).resolve_right fun h => hk h.1, fun he => hmem.sub _ he⟩
    | succ i => exact Iff.rfl

/-- A read after the directory was opened again, of a key that is not in `F`. -/
theorem Inv.reopens_mixed (hi : Inv C dir (LogRel.mixed C F) opts snaps H n g) (hs : Shows H n m) (opts' : Options)
    (fuel : Nat) :
    Meets (openDir C dir opts' fuel) (g.close dir opts')
      (fun _ g' => ∀ key, key ∉ F → Db.getAt C g' key g'.db.seq = .ok (m.find? key))
      fun e _ => opts'.Tame → openTurns C dir g.disk ≤ fuel → e = .overflow := by
  obtain ⟨H', n', hr, hsame⟩ := hi.recoverable_mixed
  have hspec := openDir_spec (D := False) (Z := False) (g := g.close dir opts') (I := fun _ _ => True) opts' hr
    ⟨False.elim, False.elim⟩ (safe_true (g.close dir opts')) (fun _ _ _ => ⟨g.db, trivial⟩) (fun _ _ => trivial) fuel
  refine hspec.mono (fun _ g' h hfit key hkey => ?_) fun _ _ h hfit => (h hfit).2
  obtain ⟨hi', -⟩ := h hfit
  obtain ⟨r, hr'⟩ := exists_newest H' key n'
  obtain ⟨r₀, hr₀⟩ := exists_newest H key n
  have hopen : Newest (⋃ i, g.layers C i) key n r := by
    refine hr'.of_same (hsame key hkey) fun t v hmem => ⟨?_, ?_⟩
    · exact hi'.bound (key, t, v) ((hsame key hkey t v).2 hmem)
    · exact hi.bound (key, t, v) (hi.shows.subset hmem)
  rw [hi'.seq_eq, hi'.catalog.getAt_eq hi'.shows hi'.floor_le hr', hi.shows.agree hi.floor_le hopen hr₀, hs key r₀ hr₀]

/-! ## Writers -/

/-- An open database, the operations of the batches that were acknowledged, and the keys of those that have failed. -/
structure Writer where
  engine : Engine
  acked : List (Bytes × Option Bytes) := []
  failed : List Bytes := []

inductive WriterAction where
  | write (ops : List (Bytes × Option Bytes)) (fuel : Nat)
  | fail (ops : List (Bytes × Option Bytes)) (f : Fault)
deriving DecidableEq, Repr

namespace Writer

variable {w w' : Writer} {a : WriterAction}

def exec (C : Coding) (w : Writer) : WriterAction → Option Writer
  | .write ops fuel => ((writeBatch C fuel ops).finish w.engine).map fun engine =>
    { w with engine, acked := w.acked ++ ops }
  | .fail ops f => (failAppend C w.engine ops f).map fun engine =>
    { w with engine, failed := w.failed ++ ops.map Prod.fst }

/-- A batch is not acknowledged behind a torn frame, unless it is flushed at once. A batch that fails behind a torn
frame does not make it a whole one. -/
def Undamaged (C : Coding) (w : Writer) : WriterAction → Prop
  | .write ops _ => ops = [] ∨ w.engine.disk.Whole C ∨
      w.engine.db.opts.memtableBytes ≤ (w.engine.db.mem.insertAll (numberFrom (w.engine.db.seq + 1) ops)).bytes
  | .fail ops f => w.engine.db.seq + 1 + ops.length < 2 ^ 64 ∧ (w.engine.disk.Whole C ∨
      (failAppend C w.engine ops f).all fun g => (replay C g.disk.log).2 = (replay C w.engine.disk.log).2)

instance (C : Coding) (w : Writer) : (a : WriterAction) → Decidable (w.Undamaged C a)
  | .write ops _ => inferInstanceAs (Decidable (ops = [] ∨ w.engine.disk.Whole C ∨
      w.engine.db.opts.memtableBytes ≤ (w.engine.db.mem.insertAll (numberFrom (w.engine.db.seq + 1) ops)).bytes))
  | .fail ops f => inferInstanceAs (Decidable (w.engine.db.seq + 1 + ops.length < 2 ^ 64 ∧ (w.engine.disk.Whole C ∨
      ((failAppend C w.engine ops f).all fun g => (replay C g.disk.log).2 = (replay C w.engine.disk.log).2) = true)))

/-- The database has what was acknowledged, and the log has it, too. -/
def Keeps (C : Coding) (dir : String) (m : OrdMap Bytes Bytes) (w : Writer) : Prop :=
  ∃ opts snaps H n, Inv C dir (LogRel.mixed C { k | k ∈ w.failed }) opts snaps H n w.engine ∧
    Shows H n (m.writeBatch w.acked)

theorem map_fst_numberFrom (n : Nat) (ops : List (Bytes × Option Bytes)) :
    (numberFrom n ops).map Prod.fst = ops.map Prod.fst := by
  induction ops generalizing n with
  | nil => rfl
  | cons op ops ih => rw [numberFrom, map_cons, map_cons, ih]

theorem numberFrom_ne_nil (hne : ops ≠ []) : numberFrom n ops ≠ [] := by
  intro hnil
  have hlen := length_numberFrom n ops
  rw [hnil] at hlen
  exact hne (length_eq_zero_iff.1 hlen.symm)

theorem insertAll_ne_nil (hne : es ≠ []) : (mem.insertAll es).iter ≠ [] := by
  intro hnil
  obtain ⟨e, es, rfl⟩ := exists_cons_of_ne_nil hne
  obtain ⟨v, hv⟩ := MemTable.exists_mem_iter_insertAll (m := mem) (k := e.1) (t := e.2.1)
    (.inr ⟨e.2.2, mem_cons_self (l := es)⟩)
  rw [hnil] at hv
  cases hv

/-- A batch that is written, with a log that is whole or that is dropped at once. -/
theorem written_mixed (hi : Inv C dir (LogRel.mixed C F) opts snaps H n g) {fuel : Nat}
    (hok : ops = [] ∨ g.disk.Whole C ∨ opts.memtableBytes ≤ (g.db.mem.insertAll (numberFrom (n + 1) ops)).bytes)
    (hg : (writeBatch C fuel ops).finish g = some g') (hfit : g'.fits = true) :
    Inv C dir (LogRel.mixed C F) opts snaps ({ e | e ∈ numberFrom (n + 1) ops } ∪ H) (n + ops.length) g' := by
  have hi₀ : Inv C dir (LogRel.mixed C F) opts snaps H n { g with steps := [] } := hi.same rfl rfl
  rcases Decidable.em (ops = [] ∨ g.disk.Whole C) with hw | hw
  · have hspec := writeBatch_spec (I := fun _ _ => True) hi₀ (safe_true _) LogRel.mixed_nil ops (fun _ => hi₀)
      (fun synced hne hlt hb _ => LogRel.mixed_append (d := g.disk) (b := { firstSeq := n + 1, ops }) hi.log
        (hw.resolve_left hne) hb (fun e he => (mem_numberFrom he).2.trans hlt) synced)
      (fun _ _ => ⟨⟨g.db, trivial⟩, g.db, trivial⟩) (fun _ _ => trivial) fuel
    obtain ⟨-, hi', -⟩ := finish_spec hspec hg hfit
    exact hi'
  · rw [not_or] at hw
    have hfull := (hok.resolve_left hw.1).resolve_left hw.2
    -- all that matters is that the log goes with the memtable
    have hspec := writeBatch_spec (I := fun _ _ => True) (V := fun mem _ wal _ => mem.iter = [] → wal = some []) hi₀
      (safe_true _) (fun _ _ => rfl) ops (fun hnil => absurd hnil hw.1)
      (fun synced hne _ _ _ hnil => absurd hnil (insertAll_ne_nil (numberFrom_ne_nil hne)))
      (fun _ _ => ⟨⟨g.db, trivial⟩, g.db, trivial⟩) (fun _ _ => trivial) fuel
    obtain ⟨-, hi', -, -, hnil⟩ := finish_spec hspec hg hfit
    have hempty := hnil hw.1 hfull
    refine hi'.mono fun hwal => ⟨[], [], hwal hempty, rfl, fun b hb => (by cases hb), ?_, ?_, ?_⟩
    · rw [hempty]
      exact fun e he => (by cases he)
    · exact fun e he => (by cases he)
    · exact fun e he => (by cases he)

theorem Keeps.write (hk : w.Keeps C dir m) {fuel : Nat} (hok : w.Undamaged C (.write ops fuel))
    (hg : (writeBatch C fuel ops).finish w.engine = some g) (hfit : g.fits = true) :
    Keeps C dir m { w with engine := g, acked := w.acked ++ ops } := by
  obtain ⟨opts, snaps, H, n, hi, hs⟩ := hk
  unfold Undamaged at hok
  rw [hi.opts_eq, hi.seq_eq] at hok
  refine ⟨opts, snaps, _, _, written_mixed hi hok hg hfit, ?_⟩
  rw [OrdMap.writeBatch_append]
  exact hs.writeBatch hi.single hi.bound ops

theorem Keeps.fail (hk : w.Keeps C dir m) (hok : w.Undamaged C (.fail ops f))
    (hg : failAppend C w.engine ops f = some g) (hfit : g.fits = true) :
    Keeps C dir m { w with engine := g, failed := w.failed ++ ops.map Prod.fst } := by
  obtain ⟨opts, snaps, H, n, hi, hs⟩ := hk
  obtain ⟨hlt, hw⟩ := hok
  obtain ⟨-, k, rfl⟩ := failAppend_eq_some hg
  have hb : Frameable C { firstSeq := w.engine.db.seq + 1, ops } := of_decide_eq_true (Bool.and_eq_true_iff.1 hfit).2
  have hlog : w.engine.disk.Whole C ∨ w.engine.disk.SameReplay C
    ((frame C { firstSeq := w.engine.db.seq + 1, ops }).take k) := by
    refine hw.imp_right fun hw => ?_
    rw [hg] at hw
    exact of_decide_eq_true hw
  have hseq : w.engine.db.seq = n := hi.seq_eq
  have hentries : ∀ e ∈ WalBatch.entries { firstSeq := w.engine.db.seq + 1, ops }, n < e.2.1 ∧ e.2.1 < 2 ^ 64 := by
    intro e he
    have hrange := mem_numberFrom he
    exact ⟨hseq ▸ hrange.1, hrange.2.trans hlt⟩
  have hmixed := LogRel.mixed_failed hi.log hlog hb
    (fun e he => ⟨lt_of_le_of_lt hi.last.1 (hentries e he).1, (hentries e he).2⟩)
    (fun e he x hx => lt_of_le_of_lt (hi.bound e (hi.mem_subset he)) (hentries x hx).1) w.engine.disk.synced
  have hkeys : ({ k | k ∈ w.failed } ∪
    { x | x ∈ (WalBatch.entries { firstSeq := w.engine.db.seq + 1, ops }).map Prod.fst } : Set Bytes) =
      { k | k ∈ w.failed ++ ops.map Prod.fst } := by
    rw [WalBatch.entries, map_fst_numberFrom]
    ext x
    simp
  rw [hkeys] at hmixed
  exact ⟨opts, snaps, H, n, (hi.otherLog hmixed).same rfl rfl, hs⟩

theorem fits_of_exec (he : w.exec C a = some w') (hfit : w'.engine.fits = true) : w.engine.fits = true := by
  cases a with
  | write ops fuel =>
    obtain ⟨g, hg, rfl⟩ := Option.map_eq_some_iff.1 he
    exact (fitsBack_writeBatch C fuel ops).finish hg hfit
  | fail ops f =>
    obtain ⟨g, hg, rfl⟩ := Option.map_eq_some_iff.1 he
    obtain ⟨-, k, rfl⟩ := failAppend_eq_some hg
    exact (Bool.and_eq_true_iff.1 hfit).1

theorem Keeps.exec (hk : w.engine.fits = true → w.Keeps C dir m) (hok : w.Undamaged C a) (he : w.exec C a = some w')
    (hfit : w'.engine.fits = true) : w'.Keeps C dir m := by
  cases a with
  | write ops fuel =>
    have hback := fits_of_exec he hfit
    obtain ⟨g, hg, rfl⟩ := Option.map_eq_some_iff.1 he
    exact (hk hback).write hok hg hfit
  | fail ops f =>
    have hback := fits_of_exec he hfit
    obtain ⟨g, hg, rfl⟩ := Option.map_eq_some_iff.1 he
    exact (hk hback).fail hok hg hfit

theorem fits_of_runs {ok : Writer → WriterAction → Prop} (hr : Runs (Writer.exec C) ok w w')
    (hfit : w'.engine.fits = true) : w.engine.fits = true :=
  hr.invariant (P := fun w' => w'.engine.fits = true → w.engine.fits = true) id
    (fun h _ he hfit => h (fits_of_exec he hfit)) hfit

theorem keeps_of_runs (hk : w.Keeps C dir m) (hr : Runs (Writer.exec C) (Undamaged C) w w')
    (hfit : w'.engine.fits = true) : w'.Keeps C dir m :=
  hr.invariant (P := fun w => w.engine.fits = true → w.Keeps C dir m) (fun _ => hk)
    (fun hk hok he => Keeps.exec hk hok he) hfit

end Writer

/-! ## What was acknowledged -/

/-- Batches are written to an open database, and some appends fail. If no batch is acknowledged behind a torn frame,
unless it is flushed at once, a read after the directory was opened again returns what was last acknowledged for the
key, or what the database had for it before; only keys of batches that have failed are excepted. The opening can
only fail for a number that does not fit. -/
theorem acknowledged_after_failures (C : Coding) (dir : String) {s : Host}
    (hr : Runs (Host.ioExec C) (Host.Harmless C) (Host.new dir) s) (hup : s.up = true) {w : Writer}
    (hw : Runs (Writer.exec C) (Writer.Undamaged C) { engine := s.engine } w) (hfit : w.engine.fits = true) :
    ∃ m : OrdMap Bytes Bytes, (∀ key, Db.getAt C s.engine key s.engine.db.seq = .ok (m.find? key)) ∧
      ∀ opts fuel, Meets (openDir C dir opts fuel) (w.engine.close dir opts)
        (fun _ g' => ∀ key, key ∉ w.failed → Db.getAt C g' key g'.db.seq = .ok ((m.writeBatch w.acked).find? key))
        fun e _ => opts.Tame → openTurns C dir w.engine.disk ≤ fuel → e = .overflow := by
  obtain ⟨opts, H, n, -, hi⟩ := (Host.intact_of_ioRuns hr (Writer.fits_of_runs hw hfit)).opened hup
  obtain ⟨m, hs⟩ := hi.exists_shows
  have hstart : Writer.Keeps C dir m { engine := s.engine } := by
    refine ⟨opts, s.engine.db.snapshots, H, n, hi.mono fun hlog => LogRel.mixed_of_clean hlog fun e he => ?_, hs⟩
    exact lt_of_le_of_lt (hi.bound e (hi.mem_subset he)) hi.short
  obtain ⟨opts', snaps, H', n', hi', hs'⟩ := Writer.keeps_of_runs hstart hw hfit
  exact ⟨m, hi.getAt_shows hs, fun opts fuel => hi'.reopens_mixed hs' opts fuel⟩

/-- A sync that fails, a torn frame with another one behind it, and a batch that is flushed. -/
theorem acknowledged_after_failures_run :
    ∃ s w, Runs (Host.ioExec Coding.plain) (Host.Harmless Coding.plain) (Host.new "db") s ∧
      Runs (Writer.exec Coding.plain) (Writer.Undamaged Coding.plain) { engine := s.engine } w ∧
      w.acked = [([2], some [20]), ([5], some [50])] ∧ w.failed = [[1], [3], [4]] ∧
      ∃ m : OrdMap Bytes Bytes, (∀ key, Db.getAt Coding.plain s.engine key s.engine.db.seq = .ok (m.find? key)) ∧
        ∀ opts fuel, Meets (openDir Coding.plain "db" opts fuel) (w.engine.close "db" opts)
          (fun _ g' => ∀ key, key ∉ w.failed →
            Db.getAt Coding.plain g' key g'.db.seq = .ok ((m.writeBatch w.acked).find? key))
          fun e _ => opts.Tame → openTurns Coding.plain "db" w.engine.disk ≤ fuel → e = .overflow := by
  obtain ⟨s, hr, hup, hall⟩ := Runs.reached (Host.ioExec Coding.plain) (Host.Harmless Coding.plain) (Host.new "db")
    [.host (.start { memtableBytes := 50 } 9)]
    (P := fun s => s.up = true ∧ (Runs.replay (Writer.exec Coding.plain) (Writer.Undamaged Coding.plain)
      { engine := s.engine }
      [.fail [([1], some [10])] { step := 1 }, .write [([2], some [20])] 9,
        .fail [([3], some [30])] { step := 0, written := 9 },
        .fail [([4], some [40])] { step := 0, written := 3 }, .write [([5], some [50])] 9]).any (fun w =>
          w.engine.fits = true ∧ w.acked = [([2], some [20]), ([5], some [50])] ∧ w.failed = [[1], [3], [4]]) = true)
    (by decide +kernel)
  obtain ⟨w, hw, hall⟩ := (Option.any_eq_true _ _).1 hall
  obtain ⟨hfit, hacked, hfailed⟩ := of_decide_eq_true hall
  have hruns := Runs.of_replay .refl hw
  exact ⟨s, w, hr, hruns, hacked, hfailed, acknowledged_after_failures Coding.plain "db" hr hup hruns hfit⟩

/-- The frame of `[1]` is torn. `[2]` is acknowledged behind it, and is gone after the directory was opened again. -/
theorem acknowledged_behind_torn :
    ∃ s w g', Runs (Host.ioExec Coding.plain) (Host.Harmless Coding.plain) (Host.new "db") s ∧ s.up = true ∧
      Runs (Writer.exec Coding.plain) (fun _ _ => True) { engine := s.engine } w ∧
      w.acked = [([2], some [20])] ∧ w.failed = [[1]] ∧
        Db.getAt Coding.plain w.engine [2] w.engine.db.seq = .ok (some [20]) ∧
      (openDir Coding.plain "db" {} 9).finish (w.engine.close "db" {}) = some g' ∧ g'.fits = true ∧
      Db.getAt Coding.plain g' [2] g'.db.seq = .ok none := by
  obtain ⟨s, hr, hup, hall⟩ := Runs.reached (Host.ioExec Coding.plain) (Host.Harmless Coding.plain) (Host.new "db")
    [.host (.start {} 9)]
    (P := fun s => s.up = true ∧ (Runs.replay (Writer.exec Coding.plain) (fun _ _ => True) { engine := s.engine }
      [.fail [([1], some [10])] { step := 0, written := 9 }, .write [([2], some [20])] 9]).any (fun w =>
        w.acked = [([2], some [20])] ∧ w.failed = [[1]] ∧
          Db.getAt Coding.plain w.engine [2] w.engine.db.seq = .ok (some [20]) ∧
        ((openDir Coding.plain "db" {} 9).finish (w.engine.close "db" {})).any (fun g' => g'.fits = true ∧
          Db.getAt Coding.plain g' [2] g'.db.seq = .ok none) = true) = true) (by decide +kernel)
  obtain ⟨w, hw, hall⟩ := (Option.any_eq_true _ _).1 hall
  obtain ⟨hacked, hfailed, hget, hall⟩ := of_decide_eq_true hall
  obtain ⟨g', hg', hall⟩ := (Option.any_eq_true _ _).1 hall
  obtain ⟨hfit, hget'⟩ := of_decide_eq_true hall
  exact ⟨s, w, g', hr, hup, Runs.of_replay .refl hw, hacked, hfailed, hget, hg', hfit, hget'⟩

end RaftKv.Storage

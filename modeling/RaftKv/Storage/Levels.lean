import RaftKv.Storage.Crash

/-!
# The structure of the levels

What `get_at` relies on: sorted tables with exact key ranges, levels without overlaps, a manifest
that agrees with the tables in memory, and that the first of the memtable and the levels with a
version up to `s` has the greatest one of all (`WellFormed`). Calls, snapshots and openings keep it,
and so does a crash that leaves the log as it was (`wellFormed_of_run`).

The log and the tables may overlap after a crash between a flush's manifest save and its truncation
of the log. A comment in `Db::open` says that this is harmless, and it is if the whole log is
replayed. But with `SyncPolicy::Never` the end of the log may be lost while the table, which is
synced, is not. The replayed memtable then has an old version of a key and the table a newer one,
and the memtable is read first (`not_wellFormed`). `Unflushed` rules this out.

| here | there |
| --- | --- |
| `WellFormed.first_hit` | the level invariant (`db.rs:10-12`), as far as it holds |
| `Disk.Unflushed` | the comment on replay (`db.rs:108-110`) |
-/

namespace RaftKv.Storage

open Versions Db

variable {C : Coding} {dir : String} {W : LogRel} {D Z : Prop} {opts : Options} {snaps : OrdMap Nat Nat}
  {H : Set Entry} {n : Nat}
  {g : Engine} {d : Disk} {m : Manifest} {levels : List (List SsTable)} {bs : List WalBatch} {tail : Bytes}

/-! ## A log that is cut -/

/-- Of the versions up to the last flush the log still has all, or none, if `n` bytes of it are left. -/
def Disk.Unflushed (C : Coding) (d : Disk) (n : Nat) : Prop :=
  ∀ m, (Manifest.load C d.manifest).map (·.getD {}) = .ok m →
    (∀ e ∈ (replay C (d.log.take n)).1.flatMap WalBatch.entries, m.lastSeq < e.2.1) ∨
    ∀ e ∈ ((replay C d.log).1.drop (replay C (d.log.take n)).1.length).flatMap WalBatch.entries, m.lastSeq < e.2.1

instance (C : Coding) (d : Disk) (n : Nat) : Decidable (d.Unflushed C n) :=
  match h : (Manifest.load C d.manifest).map (·.getD {}) with
  | .error _ => isTrue fun m hm => (by rw [h] at hm; cases hm)
  | .ok m => decidable_of_iff
      ((∀ e ∈ (replay C (d.log.take n)).1.flatMap WalBatch.entries, m.lastSeq < e.2.1) ∨
        ∀ e ∈ ((replay C d.log).1.drop (replay C (d.log.take n)).1.length).flatMap WalBatch.entries, m.lastSeq < e.2.1)
      ⟨fun hu m' hm' => (by rw [h] at hm'; cases hm'; exact hu), fun hu => hu m h⟩

theorem mem_replayed_iff (hs : Single { e | e ∈ bs.flatMap WalBatch.entries }) (e : Entry) :
    e ∈ (replayed bs).iter ↔ e ∈ bs.flatMap WalBatch.entries := by
  unfold replayed
  rw [MemTable.mem_iter_insertAll (hs.mono ?_)]
  · exact ⟨fun h => h.resolve_left fun he => (by cases he), .inr⟩
  · rintro e (he | he)
    · cases he
    · exact he

theorem mem_take_entries {j : Nat} {e : Entry} (he : e ∈ (bs.take j).flatMap WalBatch.entries) :
    e ∈ bs.flatMap WalBatch.entries := by
  obtain ⟨b, hb, he⟩ := List.mem_flatMap.1 he
  exact List.mem_flatMap.2 ⟨b, List.mem_of_mem_take hb, he⟩

/-- The last number that is left. -/
theorem exists_last (last : Nat) (es : List Entry) :
    ∃ n, last ≤ n ∧ (∀ e ∈ es, e.2.1 ≤ n) ∧ (last = n ∨ ∃ e ∈ es, e.2.1 = n) := by
  induction es with
  | nil => exact ⟨last, le_rfl, fun e he => (by cases he), .inl rfl⟩
  | cons e es ih =>
    obtain ⟨n, hlast, hle, hn⟩ := ih
    rcases le_total e.2.1 n with h | h
    · refine ⟨n, hlast, ?_, hn.imp_right fun ⟨x, hx, hxn⟩ => ⟨x, List.mem_cons_of_mem _ hx, hxn⟩⟩
      intro x hx
      rcases List.mem_cons.1 hx with rfl | hx
      · exact h
      · exact hle x hx
    · refine ⟨e.2.1, hlast.trans h, ?_, .inr ⟨e, List.mem_cons_self .., rfl⟩⟩
      intro x hx
      rcases List.mem_cons.1 hx with rfl | hx
      · exact le_rfl
      · exact (hle x hx).trans h

/-- The layers as they are now, with the versions that are left. -/
theorem Image.cut (hd : Image C dir H n d m levels bs tail) (hs : Single { e | e ∈ bs.flatMap WalBatch.entries })
    (k : Nat) (hu : d.Unflushed C k) :
    ∃ H' n', H' ⊆ H ∧ Recoverable C dir H' n' (d.cut k) ∧ LogOk C False True (d.cut k).log (d.cut k).synced := by
  obtain ⟨j, tail', htake, htorn, -⟩ := frames_take hd.frameable tail hd.torn k
  have hlog : (d.cut k).log = frames C (bs.take j) ++ tail' := by rw [Disk.log_cut, hd.log_eq, htake]
  have hframe : ∀ b ∈ bs.take j, Frameable C b := fun b hb => hd.frameable b (List.mem_of_mem_take hb)
  have hrep : (replay C (d.cut k).log).1 = bs.take j := by rw [hlog, replay_frames hframe htorn]
  have hs' : Single { e | e ∈ (bs.take j).flatMap WalBatch.entries } := hs.mono fun e he => mem_take_entries he
  have hsub : logged (bs.take j) ⊆ logged bs := fun e he =>
    (mem_replayed_iff hs e).2 (mem_take_entries ((mem_replayed_iff hs' e).1 he))
  -- what is left of the log is not older than the tables, or has all of theirs
  have hleft : (∀ e ∈ logged (bs.take j), m.lastSeq < e.2.1) ∨ ∀ e ∈ logged bs, e.2.1 ≤ m.lastSeq →
    e ∈ logged (bs.take j) := by
    have hu' := hu m hd.load_eq
    rw [← Disk.log_cut, hrep, hd.log_eq, replay_frames hd.frameable hd.torn] at hu'
    rcases hu' with hu' | hu'
    · exact .inl fun e he => hu' e ((mem_replayed_iff hs' e).1 he)
    · refine .inr fun e he hle => (mem_replayed_iff hs' e).2 ?_
      have hmem := (mem_replayed_iff hs e).1 he
      rw [← List.take_append_drop j bs, List.flatMap_append, List.mem_append] at hmem
      refine hmem.resolve_right fun hdrop => absurd hle (not_le.2 (hu' e ?_))
      rcases le_total j bs.length with hj | hj
      · rw [List.length_take_of_le hj]
        exact hdrop
      · rw [List.drop_of_length_le hj] at hdrop
        cases hdrop
  have hlayers : ∀ i, layers C (d.cut k) (logged (bs.take j)) levels i ⊆ layers C d (logged bs) levels i := by
    intro i e he
    cases i with
    | zero => exact hsub he
    | succ i => exact he
  have hstacked : Stacked (layers C (d.cut k) (logged (bs.take j)) levels) := by
    intro a b hab k' t v t' v' ha hb hlt
    have hold := hd.shows.stacked hab (hlayers a ha) (hlayers b hb) hlt
    cases a with
    | succ a => exact hold
    | zero =>
      obtain ⟨b, rfl⟩ := Nat.exists_eq_succ_of_ne_zero (Nat.ne_of_gt hab)
      obtain ⟨u, hu, he⟩ := mem_layers_succ.1 hb
      have hflushed : t' ≤ m.lastSeq := hd.catalog.bounded b u hu _ he
      rcases hleft with hleft | hleft
      · exact absurd hlt (not_lt.2 (hflushed.trans (hleft _ ha).le))
      · exact hleft _ hold hflushed
  have hsub' : ⋃ i, layers C (d.cut k) (logged (bs.take j)) levels i ⊆ H := by
    refine Set.iUnion_subset fun i e he => hd.shows.mem_of_layer (hlayers i he)
  obtain ⟨n', hlast, hle, hn'⟩ := exists_last m.lastSeq (replayed (bs.take j)).iter
  have hshort : n' ≤ n := by
    rcases hn' with rfl | ⟨e, he, rfl⟩
    · exact hd.last.1
    · exact hd.bound e (hd.mem_subset (hsub he))
  refine ⟨⋃ i, layers C (d.cut k) (logged (bs.take j)) levels i, n', hsub', ⟨m, levels, bs.take j, tail', ?_⟩,
    False.elim, fun _ => ?_⟩
  · refine
      { single := hd.single.mono hsub'
        bound := ?_
        short := lt_of_le_of_lt hshort hd.short
        load_eq := hd.load_eq
        catalog := hd.catalog.congr (fun _ _ _ => rfl) (fun _ => rfl) (fun _ => rfl) le_rfl le_rfl
        log_eq := hlog
        torn := htorn
        frameable := hframe
        last := ⟨hlast, hn'⟩
        shows := ⟨hstacked, Set.Subset.rfl, Agree.refl (hd.single.mono hsub')⟩ }
    intro e he
    obtain ⟨i, he⟩ := Set.mem_iUnion.1 he
    cases i with
    | zero => exact hle e he
    | succ i =>
      obtain ⟨u, hu, he⟩ := mem_layers_succ.1 he
      exact (hd.catalog.bounded i u hu e he).trans hlast
  · rw [hrep]
    exact hs'

/-! ## Hosts with well-formed files -/

/-- Every version has a number of its own, from 1 on. -/
structure Numbers (H : Set Entry) : Prop where
  pos : ∀ e ∈ H, 1 ≤ e.2.1
  inj : ∀ e ∈ H, ∀ e' ∈ H, e.2.1 = e'.2.1 → e = e'

theorem Numbers.mono {H' : Set Entry} (h : Numbers H) (hsub : H' ⊆ H) : Numbers H' :=
  ⟨fun e he => h.pos e (hsub he), fun e he e' he' => h.inj e (hsub he) e' (hsub he')⟩

theorem numbers_empty :
    Numbers ∅ := ⟨fun e he => absurd he (Set.notMem_empty e), fun e he => absurd he (Set.notMem_empty e)⟩

theorem Numbers.written (h : Numbers H) (hbound : ∀ e ∈ H, e.2.1 ≤ n) (ops : List (Bytes × Option Bytes)) :
    Numbers ({ e | e ∈ numberFrom (n + 1) ops } ∪ H) := by
  have hnew : ∀ e ∈ numberFrom (n + 1) ops, n < e.2.1 := fun e he => (mem_numberFrom he).1
  have hnodup : ((numberFrom (n + 1) ops).map fun e => e.2.1).Nodup := by
    rw [map_numberFrom]
    exact List.nodup_range'
  refine ⟨?_, ?_⟩
  · rintro e (he | he)
    · exact Nat.one_le_of_lt (hnew e he)
    · exact h.pos e he
  · rintro e (he | he) e' (he' | he') heq
    · exact List.inj_on_of_nodup_map hnodup he he' heq
    · exact absurd (heq ▸ hbound e' he') (not_le.2 (hnew e he))
    · exact absurd (heq ▸ hbound e he) (not_le.2 (hnew e' he'))
    · exact h.inj e he e' he' heq

theorem Numbers.call (h : Numbers H) (hbound : ∀ e ∈ H, e.2.1 ≤ n) (c : Call) :
    Numbers ({ e | e ∈ c.entries n } ∪ H) := by
  cases c with
  | writeBatch ops fuel => exact h.written hbound ops
  | flush => rw [Call.entries, nil_union]; exact h
  | maybeCompact fuel => rw [Call.entries, nil_union]; exact h

/-- The files and the database of some history. -/
def Opened (C : Coding) (dir : String) (d : Disk) (db : Db) : Prop :=
  ∃ opts snaps H n, Numbers H ∧ Inv C dir (LogRel.clean C False True) opts snaps H n { disk := d, db }

theorem Inv.opened (hn : Numbers H) (hi : Inv C dir (LogRel.clean C False True) opts snaps H n g) :
    Opened C dir g.disk g.db :=
  ⟨opts, snaps, H, n, hn, hi.same rfl rfl⟩

/-- The states of the files while a frame is written. -/
theorem Inv.opened_appends (hn : Numbers H) (hi : Inv C dir (LogRel.clean C False True) opts snaps H n g)
    {ops : List (Bytes × Option Bytes)} (hne : ops ≠ []) (hb : Frameable C { firstSeq := n + 1, ops })
    (hlt : n + 1 + ops.length < 2 ^ 64) : Appends C (Opened C dir) g.disk { firstSeq := n + 1, ops } := by
  have hlog : ∀ synced, LogRel.clean C False True (g.db.mem.insertAll (numberFrom (n + 1) ops)) g.db.manifest.lastSeq
      (some (g.disk.log ++ frame C { firstSeq := n + 1, ops })) synced := fun synced =>
    LogRel.clean_append (b := { firstSeq := n + 1, ops }) hi.log hb
      (fun e he => Nat.lt_succ_of_le (hi.bound e (hi.mem_subset he))) False.elim
  have hi' : ∀ d : Disk, d.manifest = g.disk.manifest → d.table = g.disk.table →
      d.wal = some (g.disk.log ++ frame C { firstSeq := n + 1, ops }) → ∃ db, Opened C dir d db := by
    intro d hm ht hw
    have hwritten := hi.written (d := d) (b := { firstSeq := n + 1, ops }) rfl hne hlt hm ht (hw ▸ hlog d.synced)
    exact ⟨_, Inv.opened (hn.written hi.bound ops) hwritten⟩
  exact ⟨hi' _ rfl rfl rfl, hi' _ rfl rfl rfl⟩

/-- The files are those of some history, and the log has no number twice. -/
def Sound (C : Coding) (dir : String) (d : Disk) (_ : Db) : Prop :=
  ∃ H n, Numbers H ∧ Recoverable C dir H n d ∧ LogOk C False True d.log d.synced

namespace Host

variable {s t : Host} {a : HostAction}

/-- No crash loses a part of the log that was flushed, and keeps another. -/
def KeepsFlushed (C : Coding) (s : Host) : HostAction → Prop
  | .stop keep => s.engine.disk.Unflushed C keep
  | .stopCall c p => (((c.run C).final s.engine).stopped p).Unflushed C p.keep
  | .stopStart opts fuel p =>
    (((openDir C s.engine.db.dir opts fuel).final (s.engine.close s.engine.db.dir opts)).stopped p).Unflushed C p.keep
  | .start _ _ | .call _ | .snapshot | .drop _ => True

instance (C : Coding) (s : Host) : (a : HostAction) → Decidable (s.KeepsFlushed C a)
  | .stop keep => inferInstanceAs (Decidable (s.engine.disk.Unflushed C keep))
  | .stopCall c p => inferInstanceAs (Decidable ((((c.run C).final s.engine).stopped p).Unflushed C p.keep))
  | .stopStart opts fuel p => inferInstanceAs (Decidable
      ((((openDir C s.engine.db.dir opts fuel).final (s.engine.close s.engine.db.dir opts)).stopped p).Unflushed C
        p.keep))
  | .start _ _ | .call _ | .snapshot | .drop _ => isTrue trivial

/-- An open database has some history, and so have the files of one that is not open. -/
structure Intact (C : Coding) (dir : String) (s : Host) : Prop where
  dir_eq : s.engine.db.dir = dir
  opened : s.up = true → ∃ opts H n, Numbers H ∧
    Inv C dir (LogRel.clean C False True) opts s.engine.db.snapshots H n s.engine
  stopped : s.up = false → Sound C dir s.engine.disk s.engine.db

theorem sound_of_inv (hn : Numbers H) (hi : Inv C dir (LogRel.clean C False True) opts snaps H n g) :
    Sound C dir g.disk g.db :=
  ⟨H, n, hn, hi.recoverable, hi.log.2⟩

theorem Sound.cut {db : Db} (hs : Sound C dir d db) {k : Nat} (hu : d.Unflushed C k) : Sound C dir (d.cut k) db := by
  obtain ⟨H, n, hn, ⟨m, levels, bs, tail, hd⟩, hok⟩ := hs
  have hsingle := hok.distinct trivial
  rw [hd.log_eq, replay_frames hd.frameable hd.torn] at hsingle
  obtain ⟨H', n', hsub, hr⟩ := hd.cut hsingle k hu
  exact ⟨H', n', hn.mono hsub, hr⟩

theorem intact_new (C : Coding) (dir : String) : (new dir).Intact C dir :=
  ⟨rfl, fun hup => (by cases hup), fun _ => ⟨∅, 0, numbers_empty, recoverable_empty, logOk_empty⟩⟩

theorem Intact.start (hl : s.Intact C dir) (hup : s.up = false) {fuel : Nat} {h : List Entry}
    (hg : (openDir C s.engine.db.dir opts fuel).finish (s.engine.close s.engine.db.dir opts) = some g)
    (hfit : g.fits = true) : Intact C dir { engine := g, up := true, history := h } := by
  obtain ⟨H, n, hn, hr, hok⟩ := hl.stopped hup
  rw [hl.dir_eq] at hg
  have hi := hr.opened hok hg hfit
  refine ⟨hi.dir_eq, fun _ => ⟨opts, H, n, hn, ?_⟩, fun hup' => (by cases hup')⟩
  rw [hi.snaps_eq]
  exact hi

theorem Intact.call (hl : s.Intact C dir) (hup : s.up = true) {c : Call} {h : List Entry}
    (hg : (c.run C).finish s.engine = some g) (hfit : g.fits = true) :
    Intact C dir { s with engine := g, history := h } := by
  obtain ⟨opts, H, n, hn, hi⟩ := hl.opened hup
  obtain ⟨-, hi', -⟩ := finish_spec
    (Call.run_clean (g := { s.engine with steps := [] }) (I := fun _ _ => True) (hi.same rfl rfl)
      (safe_true _) False.elim c
      (fun _ _ _ _ _ => ⟨⟨s.engine.db, trivial⟩, s.engine.db, trivial⟩) fun _ _ => trivial) hg hfit
  have hsnaps : g.db.snapshots = s.engine.db.snapshots := hi'.snaps_eq
  rw [← hsnaps] at hi'
  exact ⟨hi'.dir_eq, fun _ => ⟨opts, _, _, hn.call hi.bound c, hi'⟩, fun hup' => absurd hup (by rw [hup']; decide)⟩

theorem Intact.withSnapshots (hl : s.Intact C dir) (hup : s.up = true) {db : Db}
    (hdb : ∀ {W opts snaps H n}, Inv C dir W opts snaps H n s.engine →
      Inv C dir W opts db.snapshots H n { s.engine with db }) :
    Intact C dir { s with engine := { s.engine with db } } := by
  obtain ⟨opts, H, n, hn, hi⟩ := hl.opened hup
  exact ⟨(hdb hi).dir_eq, fun _ => ⟨opts, H, n, hn, hdb hi⟩, fun hup' => absurd hup (by rw [hup']; decide)⟩

theorem Intact.halted (hl : s.Intact C dir) {db : Db} (hd : Sound C dir d db) {fits : Bool} {k : Nat}
    (hu : d.Unflushed C k) {pending : List Entry} :
    Intact C dir { s with engine := { s.engine with disk := d.cut k, fits }, up := false, pending } :=
  ⟨hl.dir_eq, fun hup => (by cases hup), fun _ => Sound.cut hd hu⟩

/-- Wherever a call is stopped. -/
theorem Intact.sound_stopped (hl : s.Intact C dir) (hup : s.up = true) {c : Call} {p : Stop}
    (hnum : s.Numberable (.stopCall c p)) (hfit : ((c.run C).final s.engine).fits = true) :
    ∃ db, Sound C dir (((c.run C).final s.engine).stopped p) db := by
  obtain ⟨opts, H, n, hn, hi⟩ := hl.opened hup
  have hi₀ : Inv C dir (LogRel.clean C False True) opts s.engine.db.snapshots H n { s.engine with steps := [] } :=
    hi.same rfl rfl
  have hspec := Call.run_clean (I := Sound C dir) hi₀ ⟨⟨s.engine.db, sound_of_inv hn hi₀⟩, fun p hp => (by cases hp)⟩
    False.elim c (fun ops fuel hc hne hb => ?_) fun g' hi' => sound_of_inv (hn.call hi.bound c) hi'
  · exact (final_safe hspec hfit).stopped p
  · subst hc
    have hlt : n + 1 + ops.length < 2 ^ 64 := hi.seq_eq ▸ hnum
    refine (Inv.opened_appends hn hi₀ hne hb hlt).mono ?_
    rintro d db ⟨_, _, _, _, hn', hi'⟩
    exact sound_of_inv hn' hi'

/-- Wherever an opening is stopped. -/
theorem Intact.sound_stopStart (hl : s.Intact C dir) (hup : s.up = false) {fuel : Nat} {p : Stop}
    (hg : (openDir C s.engine.db.dir opts fuel).final (s.engine.close s.engine.db.dir opts) = g)
    (hfit : g.fits = true) : ∃ db, Sound C dir (g.stopped p) db := by
  obtain ⟨H, n, hn, hr, hok⟩ := hl.stopped hup
  rw [hl.dir_eq] at hg
  have hspec := openDir_spec (g := { s.engine.close dir opts with steps := [] }) (I := Sound C dir) opts hr hok
    ⟨⟨s.engine.db, H, n, hn, hr, hok⟩, fun p hp => (by cases hp)⟩ (fun d hr hok => ⟨s.engine.db, H, n, hn, hr, hok⟩)
    (fun g hi => sound_of_inv hn hi) fuel
  exact (hg ▸ final_safe hspec.stops (hg.symm ▸ hfit) : g.Safe _).stopped p

/-- As long as no length is cut off. -/
theorem Intact.exec (hl : s.engine.fits = true → s.Intact C dir) (hn : s.Numberable a) (hu : s.KeepsFlushed C a)
    (he : s.exec C a = some t) (hfit : t.engine.fits = true) : t.Intact C dir := by
  have hl := hl (fits_of_exec he hfit)
  cases moves_of_exec he with
  | start hup hg => exact hl.start hup hg hfit
  | call hup hg => exact hl.call hup hg hfit
  | snapshot hup hs => exact hl.withSnapshots hup fun hi => hi.snapshot hs
  | drop hup => exact hl.withSnapshots hup fun hi => hi.dropSnapshot _
  | stop hup ht =>
    obtain ⟨-, rfl⟩ := halt_eq_some ht
    obtain ⟨opts, H, n, hn, hi⟩ := hl.opened hup
    exact hl.halted (sound_of_inv hn hi) hu
  | stopCall hup hg ht =>
    subst hg
    obtain ⟨-, rfl⟩ := halt_eq_some ht
    obtain ⟨db, hd⟩ := hl.sound_stopped hup hn hfit
    exact hl.halted hd hu
  | stopStart hup hg ht =>
    obtain ⟨-, rfl⟩ := halt_eq_some ht
    obtain ⟨db, hd⟩ := hl.sound_stopStart hup hg hfit
    exact hl.halted hd (hg ▸ hu)

theorem intact_of_runs (hr : Runs (Host.exec C) (fun s a => s.Numberable a ∧ s.KeepsFlushed C a) (new dir) s)
    (hfit : s.engine.fits = true) : s.Intact C dir :=
  hr.invariant (P := fun s => s.engine.fits = true → s.Intact C dir) (fun _ => intact_new C dir)
    (fun hl hok he => Intact.exec hl hok.1 hok.2 he) hfit

end Host

/-! ## The level invariant -/

/-- The memtable and the levels, from shallow to deep. -/
def Engine.layers (C : Coding) (g : Engine) : Nat → Set Entry :=
  Storage.layers C g.disk { e | e ∈ g.db.mem.iter } g.db.levels

structure WellFormed (C : Coding) (g : Engine) : Prop where
  /-- A table is sorted, and its key range is exact. -/
  tables : ∀ i, ∀ t ∈ levelAt g.db.levels i, ∃ es, g.disk.iterTable C t = .ok es ∧ Sorted es ∧
    es.head?.map (·.1) = some t.minKey ∧ es.getLast?.map (·.1) = some t.maxKey
  /-- Below level 0, the tables of a level are sorted and do not overlap. -/
  apart : ∀ i, 1 ≤ i → (levelAt g.db.levels i).Pairwise fun a b => a.minKey < b.minKey ∧ a.maxKey < b.minKey
  /-- All versions of a key in such a level are in one table. -/
  together : ∀ i, 1 ≤ i → ∀ t ∈ levelAt g.db.levels i, ∀ u ∈ levelAt g.db.levels i, ∀ e ∈ g.disk.entries C t,
    ∀ e' ∈ g.disk.entries C u, e.1 = e'.1 → t = u
  listed : ∀ i, (levelAt g.db.manifest.levels i).map TableMeta.tag = (levelAt g.db.levels i).map SsTable.tag
  fresh : ∀ i, ∀ t ∈ levelAt g.db.levels i, t.id < g.db.manifest.nextTableId
  numbers : ∀ i, ∀ e ∈ g.layers C i, e.2.1 ≤ g.db.seq
  /-- The first layer with a version of `k` up to `s` has the greatest one of all. -/
  first_hit : ∀ k s i, (∃ t ≤ s, ∃ v, (k, t, v) ∈ g.layers C i) → (∀ j < i, ∀ t v, (k, t, v) ∈ g.layers C j → s < t) →
    ∀ j t v, (k, t, v) ∈ g.layers C j → t ≤ s → (∀ j' t' v', (k, t', v') ∈ g.layers C j' → t' ≤ s → t' ≤ t) →
      (k, t, v) ∈ g.layers C i

/-- Two versions in one place are one version. -/
theorem Inv.wellFormed (hi : Inv C dir W opts snaps H n g) : WellFormed C g := by
  have hcat := hi.catalog
  have htab : ∀ i, ∀ t ∈ levelAt g.db.levels i, t.minKey ≤ t.maxKey := fun i t ht => (hcat.stored i t ht).min_le_max
  refine
    { tables := fun i t ht => ?_
      apart := fun i hi' => ?_
      together := fun i hi' t ht u hu e he e' he' heq => ?_
      listed := hcat.listed
      fresh := hcat.fresh
      numbers := fun i e he => hi.seq_eq ▸ hi.bound e (hi.shows.mem_of_layer he)
      first_hit := fun k s i hhit hmiss j t v he hts hmax => ?_ }
  · obtain ⟨_, file, _, hr⟩ := hcat.stored i t ht
    exact ⟨_, (hcat.stored i t ht).iterTable_eq, hr.sorted, hr.min_eq, hr.max_eq⟩
  · obtain ⟨i, rfl⟩ := Nat.exists_eq_succ_of_ne_zero (by omega : i ≠ 0)
    refine (hcat.sorted i).imp_of_mem fun {a b} ha hb hlt => ⟨?_, hlt⟩
    exact lt_of_le_of_lt (htab _ a ha) hlt
  · obtain ⟨i, rfl⟩ := Nat.exists_eq_succ_of_ne_zero (by omega : i ≠ 0)
    have hsymm : Std.Symm fun a b : SsTable => ∀ e ∈ g.disk.entries C a, ∀ e' ∈ g.disk.entries C b, e.1 = e'.1 →
      a = b :=
      ⟨fun a b hab e he e' he' heq => (hab e' he' e he heq.symm).symm⟩
    have hpair : (levelAt g.db.levels (i + 1)).Pairwise fun a b =>
        ∀ e ∈ g.disk.entries C a, ∀ e' ∈ g.disk.entries C b, e.1 = e'.1 → a = b := by
      refine (hcat.sorted i).imp_of_mem ?_
      intro a b ha hb hlt e he e' he' heq
      have hba := (hcat.stored _ a ha).key_bounds e he
      have hbb := (hcat.stored _ b hb).key_bounds e' he'
      rw [heq] at hba
      exact absurd (lt_of_le_of_lt hba.2 (lt_of_lt_of_le hlt hbb.1)) (lt_irrefl _)
    exact hpair.forall_of_forall (fun a _ e _ e' _ _ => rfl) ht hu e he e' he' heq
  · obtain ⟨t₀, ht₀, v₀, he₀⟩ := hhit
    rcases Nat.lt_trichotomy j i with hji | rfl | hij
    · exact absurd hts (not_le.2 (hmiss j hji t v he))
    · exact he
    · rcases Nat.lt_or_eq_of_le (hmax i t₀ v₀ he₀ ht₀) with hlt | rfl
      · exact hi.shows.stacked hij he₀ he hlt
      · rw [← hi.single (hi.shows.mem_of_layer he₀) (hi.shows.mem_of_layer he)]
        exact he₀

/-- In every run of which no crash cuts the log within what was flushed, the levels of an open database are well
formed. -/
theorem wellFormed_of_run (C : Coding) (dir : String) {s : Host}
    (hr : Runs (Host.exec C) (fun s a => s.Numberable a ∧ s.KeepsFlushed C a) (Host.new dir) s)
    (hfit : s.engine.fits = true) (hup : s.up = true) : WellFormed C s.engine := by
  obtain ⟨opts, H, n, -, hi⟩ := (Host.intact_of_runs hr hfit).opened hup
  exact hi.wellFormed

/-- A crash between a flush's manifest save and its truncation of the log, of which the unsynced end is lost where
it was not flushed. -/
theorem wellFormed_of_run_crashed :
    ∃ s, Runs (Host.exec Coding.plain) (fun s a => s.Numberable a ∧ s.KeepsFlushed Coding.plain a) (Host.new "db") s ∧
      s.up = true ∧ s.engine.db.mem.iter = [([1], 2, some [11]), ([1], 1, some [10])] ∧
      (levelAt s.engine.db.levels 0).length = 1 ∧ WellFormed Coding.plain s.engine := by
  obtain ⟨s, hr, hfit, hup, hmem, hlen⟩ := Runs.reached (Host.exec Coding.plain)
    (fun s a => s.Numberable a ∧ s.KeepsFlushed Coding.plain a) (Host.new "db")
    [.start { sync := .never } 9, .call (.writeBatch [([1], some [10])] 9), .call (.writeBatch [([1], some [11])] 9),
      .stopCall .flush { step := 3, keep := 1000 }, .start { sync := .never } 9, .call (.writeBatch [([1], none)] 9),
      .stop 39, .start { sync := .never } 9]
    (P := fun s => s.engine.fits = true ∧ s.up = true ∧
      s.engine.db.mem.iter = [([1], 2, some [11]), ([1], 1, some [10])] ∧ (levelAt s.engine.db.levels 0).length = 1)
    (by decide +kernel)
  exact ⟨s, hr, hup, hmem, hlen, wellFormed_of_run Coding.plain "db" hr hfit hup⟩

/-- The same crash, and the second of the two frames that were flushed is lost: the memtable has the first version
of the key, and the table under it the second. -/
theorem not_wellFormed :
    ∃ s, Runs (Host.exec Coding.plain) Host.Numberable (Host.new "db") s ∧ s.engine.fits = true ∧ s.up = true ∧
      ¬ WellFormed Coding.plain s.engine := by
  obtain ⟨s, hr, hfit, hup, hseq, hmem, t, ht, he⟩ :=
    Runs.reached (Host.exec Coding.plain) Host.Numberable (Host.new "db")
    [.start { sync := .never } 9, .call (.writeBatch [([1], some [10])] 9), .call (.writeBatch [([1], some [11])] 9),
      .stopCall .flush { step := 3, keep := 19 }, .start { sync := .never } 9]
    (P := fun s => s.engine.fits = true ∧ s.up = true ∧ s.engine.db.seq = 2 ∧
      s.engine.db.mem.iter = [([1], 1, some [10])] ∧
      ∃ t ∈ levelAt s.engine.db.levels 0, ([1], 2, some [11]) ∈ s.engine.disk.entries Coding.plain t)
    (by decide +kernel)
  refine ⟨s, hr, hfit, hup, fun hwf => ?_⟩
  have hmem' : ∀ e, e ∈ s.engine.layers Coding.plain 0 ↔ e = ([1], 1, some [10]) := by
    intro e
    show e ∈ s.engine.db.mem.iter ↔ _
    rw [hmem, List.mem_singleton]
  have hbad := hwf.first_hit [1] 2 0 ⟨1, by decide, some [10], (hmem' _).2 rfl⟩
    (fun j hj => absurd hj (Nat.not_lt_zero j)) 1 2
    (some [11]) ⟨t, ht, he⟩ le_rfl fun j t' v' he' _ => hseq ▸ hwf.numbers j _ he'
  exact absurd ((hmem' _).1 hbad) (by decide)

end RaftKv.Storage

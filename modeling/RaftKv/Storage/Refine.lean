import RaftKv.Storage.Recovery

/-!
# The engine as a versioned map

A `Session` is one directory that is opened, used, closed and opened again, with the snapshots
that are alive and all operations written so far. Whatever was flushed and compacted in between, a
read at the current number, or at that of a snapshot of the open database, returns the last
operation up to there (`getAt_refines`).

A `Snapshot` has a number and the registry of the database it was taken from, and may live longer
than that database. `Db::open` begins with an empty registry (`db.rs:131`). After a reopening a
snapshot that is still alive holds nothing back: the next compaction drops the versions it could
see (`getAt_stale`).

| here | there |
| --- | --- |
| `Call.run` | `write_batch`, `flush`, `maybe_compact` |
| `.snapshot`, `.drop` | `Db::snapshot`, `impl Drop for Snapshot` |
| `.reopen` | the `Db` is dropped, which does nothing to the files, and `Db::open` |

A call that fails for one of the limits of `Error.IsLimit` ends the session. What is said about a
session is said as long as no length was cut off.
-/

namespace RaftKv.Storage

open Versions Db

/-! ## Calls -/

/-- The calls on an open database that work on its files. -/
inductive Call where
  | writeBatch (ops : List (Bytes × Option Bytes)) (fuel : Nat)
  | flush
  | maybeCompact (fuel : Nat)
deriving DecidableEq, Repr

namespace Call

def run (C : Coding) : Call → EngineM Unit
  | .writeBatch ops fuel => discard (Db.writeBatch C fuel ops)
  | .flush => Db.flush C
  | .maybeCompact fuel => Db.maybeCompact C fuel

/-- The versions that the call adds. -/
def entries (seq : Nat) : Call → List Entry
  | .writeBatch ops _ => numberFrom (seq + 1) ops
  | .flush | .maybeCompact _ => []

end Call

/-- The engine after a program that returns; its steps are those of the program. -/
def EngineM.finish {α : Type} (x : EngineM α) (g : Engine) : Option Engine :=
  match x { g with steps := [] } with
  | .ok _ g => some g
  | .error _ _ => none

/-- The database is dropped; its files are there to be opened again. -/
def Engine.close (g : Engine) (dir : String) (opts : Options) : Engine :=
  { disk := g.disk, db := { dir, opts }, fits := g.fits }

variable {C : Coding} {dir : String} {W : LogRel} {D Z : Prop} {opts : Options} {snaps : OrdMap Nat Nat}
  {H : Set Entry} {n : Nat}
  {g g' : Engine} {I : Disk → Db → Prop} {α : Type} {x : EngineM α}

theorem finish_eq_some (hg : x.finish g = some g') : ∃ a, x { g with steps := [] } = .ok a g' := by
  unfold EngineM.finish at hg
  split at hg
  · rename_i a g₁ hr
    cases hg
    exact ⟨a, hr⟩
  · cases hg

theorem finish_spec {Q : α → Engine → Prop} {E : Error → Engine → Prop} (hx : Meets x { g with steps := [] } Q E)
    (hg : x.finish g = some g') (hfit : g'.fits = true) : ∃ a, Q a g' := by
  obtain ⟨a, hr⟩ := finish_eq_some hg
  exact ⟨a, hx.of_ok hr hfit⟩

/-- A program that cannot fail returns. -/
theorem finish_of_ensures {Q : α → Engine → Prop} (hx : Ensures x { g with steps := [] } Q fun _ _ => False) :
    ∃ g', x.finish g = some g' ∧ ∃ a, Q a g' := by
  unfold Ensures at hx
  unfold EngineM.finish
  split at hx
  · rename_i a g' hr
    exact ⟨g', by rw [hr], a, hx⟩
  · exact hx.elim

theorem FitsBack.finish (hx : FitsBack x) (hg : x.finish g = some g') (hfit : g'.fits = true) : g.fits = true := by
  obtain ⟨a, hr⟩ := finish_eq_some hg
  have hback := (hx { g with steps := [] }).of_ok hr
  exact hback hfit

theorem fitsBack_run (C : Coding) (c : Call) : FitsBack (c.run C) := by
  cases c with
  | writeBatch ops fuel => exact (fitsBack_writeBatch C fuel ops).bind fun _ => FitsBack.pure _
  | flush => exact fitsBack_flush C
  | maybeCompact fuel => exact fitsBack_maybeCompact C fuel

theorem nil_union (H : Set Entry) : { e | e ∈ ([] : List Entry) } ∪ H = H := by
  ext e
  simp

/-- A call adds its versions, and keeps the log as it is required to be. -/
theorem Call.run_spec (hi : Inv C dir W opts snaps H n g) (hs : g.Safe I) (hW : ∀ last, W {} last (some []) 0)
    (c : Call) (hlog : ∀ ops fuel synced, c = .writeBatch ops fuel → Frameable C { firstSeq := n + 1, ops } →
      (opts.sync = .always → synced = (g.disk.log ++ frame C { firstSeq := n + 1, ops }).length) →
      W (g.db.mem.insertAll (numberFrom (n + 1) ops)) g.db.manifest.lastSeq
        (some (g.disk.log ++ frame C { firstSeq := n + 1, ops })) synced)
    (happ : ∀ ops fuel, c = .writeBatch ops fuel → ops ≠ [] → Frameable C { firstSeq := n + 1, ops } →
      Appends C I g.disk { firstSeq := n + 1, ops })
    (hI : ∀ g', Inv C dir W.any opts snaps ({ e | e ∈ c.entries n } ∪ H) (n + (c.entries n).length) g' →
      I g'.disk g'.db) :
    Meets (c.run C) g
      (fun _ g' => Inv C dir W opts snaps ({ e | e ∈ c.entries n } ∪ H) (n + (c.entries n).length) g' ∧ g'.Safe I)
        (Stops I) := by
  cases c with
  | writeBatch ops fuel =>
    have hlen : (Call.entries n (.writeBatch ops fuel)).length = ops.length := length_numberFrom (n + 1) ops
    rw [hlen] at hI ⊢
    have hwrite := writeBatch_spec hi hs hW ops (fun _ => hi) (fun synced _ _ => hlog ops fuel synced rfl)
      (happ ops fuel rfl) hI fuel
    refine hwrite.stops.bind (fun _ => FitsBack.pure _) fun _ g' hg' => ?_
    exact Ensures.pure fun _ => ⟨hg'.1, hg'.2.1⟩
  | flush =>
    simp only [Call.entries, nil_union] at hI ⊢
    exact (flush_spec (Inv.stable hW hI) hi hs).mono (fun _ _ h hfit => ⟨(h hfit).1, (h hfit).2.1⟩) fun _ _ h hfit =>
      (h hfit).stops
  | maybeCompact fuel =>
    simp only [Call.entries, nil_union] at hI ⊢
    exact (maybeCompact_spec (Inv.stable hW hI) fuel hi hs).stops.mono (fun _ _ h hfit => ⟨(h hfit).1, (h hfit).2.1⟩)
      fun _ _ h => h

/-- The same for a clean log. -/
theorem Call.run_clean (hi : Inv C dir (LogRel.clean C D Z) opts snaps H n g) (hs : g.Safe I)
    (hD : D → opts.sync = .always) (c : Call)
    (happ : ∀ ops fuel, c = .writeBatch ops fuel → ops ≠ [] → Frameable C { firstSeq := n + 1, ops } →
      Appends C I g.disk { firstSeq := n + 1, ops })
    (hI : ∀ g', Inv C dir (LogRel.clean C D Z) opts snaps ({ e | e ∈ c.entries n } ∪ H) (n + (c.entries n).length) g' →
      I g'.disk g'.db) :
    Meets (c.run C) g
      (fun _ g' => Inv C dir (LogRel.clean C D Z) opts snaps ({ e | e ∈ c.entries n } ∪ H)
        (n + (c.entries n).length) g' ∧
        g'.Safe I) (Stops I) := by
  refine Call.run_spec hi hs LogRel.clean_nil c (fun ops fuel synced _ hb hsync => ?_) happ fun g' hi' =>
    hI g' (hi'.mono LogRel.clean_of_any)
  refine LogRel.clean_append (b := { firstSeq := n + 1, ops }) hi.log hb (fun e he => ?_) fun hd => hsync (hD hd)
  exact Nat.lt_succ_of_le (hi.bound e (hi.mem_subset he))

/-- With no condition, any point is safe. -/
theorem safe_true (g : Engine) : Engine.Safe (fun _ _ => True) { g with steps := [] } :=
  ⟨⟨g.db, trivial⟩, fun p hp => (by cases hp)⟩

theorem entries_union (c : Call) (h : List Entry) (seq : Nat) :
    { e | e ∈ c.entries seq } ∪ { e | e ∈ h } = { e | e ∈ h ++ c.entries seq } := by
  ext e
  exact or_comm.trans List.mem_append.symm

variable {h : List Entry} {fuel s : Nat}

theorem Numbered.call (hh : Numbered h) (c : Call) : Numbered (h ++ c.entries h.length) := by
  cases c with
  | writeBatch ops fuel => exact hh.append ops
  | flush => rw [Call.entries, List.append_nil]; exact hh
  | maybeCompact fuel => rw [Call.entries, List.append_nil]; exact hh

/-- A call that returns has added its operations. -/
theorem Inv.called (hi : Inv C dir (LogRel.clean C D Z) opts snaps { e | e ∈ h } h.length g)
    (hD : D → opts.sync = .always) {c : Call} (hg : (c.run C).finish g = some g') (hfit : g'.fits = true) :
    Inv C dir (LogRel.clean C D Z) opts snaps { e | e ∈ h ++ c.entries h.length }
      (h ++ c.entries h.length).length g' := by
  obtain ⟨-, hi', -⟩ := finish_spec
    (Call.run_clean (g := { g with steps := [] }) (I := fun _ _ => True) (hi.same rfl rfl) (safe_true _) hD c
      (fun _ _ _ _ _ => ⟨⟨g.db, trivial⟩, g.db, trivial⟩) fun _ _ => trivial) hg hfit
  rw [entries_union, ← List.length_append] at hi'
  exact hi'

/-- A directory that was opened has its versions. -/
theorem Recoverable.opened (hr : Recoverable C dir H n g.disk) (hok : LogOk C D Z g.disk.log g.disk.synced)
    (hg : (openDir C dir opts fuel).finish (g.close dir opts) = some g') (hfit : g'.fits = true) :
    Inv C dir (LogRel.clean C D Z) opts ∅ H n g' := by
  obtain ⟨-, hi, -⟩ := finish_spec
    (openDir_spec (g := { g.close dir opts with steps := [] }) (I := fun _ _ => True) opts hr hok (safe_true _)
      (fun _ _ _ => ⟨g.db, trivial⟩) (fun _ _ => trivial) fuel) hg hfit
  exact hi

/-! ## Reads and snapshots -/

/-- A read at the current number or at that of a registered snapshot. -/
theorem Inv.getAt_eq (hi : Inv C dir W opts snaps { e | e ∈ h } n g) (hh : Numbered h) (key : Bytes)
    (hs : s = g.db.seq ∨ s ∈ snaps.keys) : Db.getAt C g key s = .ok (lastWrite h key s) := by
  have hlo : floor snaps n ≤ s := by
    rcases hs with rfl | hs
    · rw [hi.seq_eq]
      exact hi.floor_le
    · exact floor_le_of_mem hs
  rw [lastWrite_eq]
  exact hi.catalog.getAt_eq hi.shows hlo (hh.newest key s)

/-- Snapshots may be dropped, and new ones taken at the current number. -/
theorem Inv.resnap (hi : Inv C dir W opts snaps H n g) {snaps' : OrdMap Nat Nat}
    (hsub : ∀ s ∈ snaps'.keys, s ∈ snaps.keys ∨ s = n) :
    Inv C dir W opts snaps' H n { g with db := { g.db with snapshots := snaps' } } := by
  refine { hi with snaps_eq := rfl, snaps_le := ?_, shows := hi.shows.mono (floor_mono hi.snaps_le le_rfl hsub) }
  intro s hs
  rcases hsub s hs with hs | rfl
  · exact hi.snaps_le s hs
  · exact le_rfl

theorem snapshot_eq_ok {db db' : Db} (hs : db.snapshot = .ok (s, db')) :
    s = db.seq ∧
      db' = { db with snapshots := db.snapshots.insert db.seq ((db.snapshots.find? db.seq).getD 0 + 1) } := by
  unfold Db.snapshot at hs
  dsimp only at hs
  split at hs
  · cases hs
  · cases hs
    exact ⟨rfl, rfl⟩

theorem Inv.snapshot (hi : Inv C dir W opts snaps H n g) {db' : Db} (hs : g.db.snapshot = .ok (s, db')) :
    Inv C dir W opts db'.snapshots H n { g with db := db' } := by
  obtain ⟨-, rfl⟩ := snapshot_eq_ok hs
  refine hi.resnap fun s hs => ?_
  rcases OrdMap.mem_keys_insert.1 hs with rfl | hs
  · exact Or.inr hi.seq_eq
  · exact Or.inl (hi.snaps_eq ▸ hs)

/-- How many snapshots there are at a number after one was dropped. -/
theorem find?_dropSnapshot (db : Db) (seq n : Nat) :
    ((db.dropSnapshot seq).snapshots.find? n).getD 0 =
      if n = seq then (db.snapshots.find? n).getD 0 - 1 else (db.snapshots.find? n).getD 0 := by
  unfold Db.dropSnapshot
  cases hf : db.snapshots.find? seq with
  | none =>
    by_cases hn : n = seq
    · subst hn
      simp [hf]
    · simp [hn]
  | some count =>
    by_cases hn : n = seq
    · subst hn
      by_cases hc : count - 1 = 0
      · simp [hc, hf, OrdMap.erase]
      · simp [hc, hf]
    · by_cases hc : count - 1 = 0
      · simp only [hc, if_true, OrdMap.erase, OrdMap.find?_filter]
        cases db.snapshots.find? n <;> simp [Option.filter, hn]
      · simp [hc, hn]

theorem dropSnapshot_eq (db : Db) (seq : Nat) :
    db.dropSnapshot seq = { db with snapshots := (db.dropSnapshot seq).snapshots } := by
  unfold Db.dropSnapshot
  split
  · rfl
  · split <;> rfl

theorem Inv.dropSnapshot (hi : Inv C dir W opts snaps H n g) (seq : Nat) :
    Inv C dir W opts (g.db.dropSnapshot seq).snapshots H n { g with db := g.db.dropSnapshot seq } := by
  have hdb := dropSnapshot_eq g.db seq
  have hsub : ∀ s ∈ (g.db.dropSnapshot seq).snapshots.keys, s ∈ snaps.keys ∨ s = n := by
    intro s hs
    left
    rw [← hi.snaps_eq]
    unfold Db.dropSnapshot at hs
    split at hs
    · exact hs
    · rename_i count hc
      split at hs
      · obtain ⟨v, hv⟩ := OrdMap.mem_keys.1 hs
        rw [OrdMap.erase, OrdMap.find?_filter, Option.filter_eq_some_iff] at hv
        exact OrdMap.mem_keys.2 ⟨v, hv.1⟩
      · rcases OrdMap.mem_keys_insert.1 hs with rfl | hs
        · exact OrdMap.mem_keys.2 ⟨count, hc⟩
        · exact hs
  have hi' := hi.resnap hsub
  rw [← hdb] at hi'
  exact hi'

/-! ## An empty directory -/

theorem recoverable_empty : Recoverable C dir ∅ 0 {} := by
  have hnil : ∀ i, levelAt ([] : List (List SsTable)) i = [] := fun i => levelAt_eq_nil (Nat.zero_le i)
  have hempty : ⋃ j, layers C {} (logged []) [] j = (∅ : Set Entry) := by
    refine Set.iUnion_eq_empty.2 fun j => ?_
    cases j with
    | zero => exact Set.eq_empty_of_forall_notMem fun e he => (by cases he)
    | succ j =>
      refine Set.eq_empty_of_forall_notMem fun e he => ?_
      obtain ⟨t, ht, -⟩ := mem_layers_succ.1 he
      cases ht
  refine ⟨{}, [], [], [], ?_⟩
  refine
    { single := fun k t v v' hv => (by cases hv)
      bound := fun e he => (by cases he)
      short := by decide
      load_eq := rfl
      catalog := ⟨fun _ => rfl, fun i t ht => ?_, fun i => ?_, fun i j t u ht => ?_, fun i t ht => ?_, fun i t ht => ?_⟩
      log_eq := rfl
      torn := rfl
      frameable := fun b hb => (by cases hb)
      last := ⟨le_rfl, Or.inl rfl⟩
      shows := ⟨fun i j _ k t v t' v' he => ?_, ?_, ?_⟩ }
  · rw [hnil] at ht; cases ht
  · rw [hnil]; exact List.Pairwise.nil
  · rw [hnil] at ht; cases ht
  · rw [hnil] at ht; cases ht
  · rw [hnil] at ht; cases ht
  · have hmem := Set.mem_iUnion.2 ⟨i, he⟩
    rw [hempty] at hmem
    cases hmem
  · rw [hempty]
  · rw [hempty]
    exact Agree.refl fun k t v v' hv => (by cases hv)

theorem logOk_empty : LogOk C D Z ({} : Disk).log 0 := by
  refine ⟨fun _ => rfl, fun _ k t v v' hv => ?_⟩
  rw [show ({} : Disk).log = frames C [] from rfl, replay_whole fun b hb => (by cases hb)] at hv
  cases hv

/-! ## Sessions -/

/-- A `Snapshot`: which opening of the directory it belongs to, and its number. -/
structure Snap where
  opening : Nat
  seq : Nat
deriving DecidableEq, Repr

/-- One directory over time. -/
structure Session where
  engine : Engine
  /-- How often the directory was opened again. -/
  opening : Nat := 0
  /-- The snapshots that are not dropped yet. -/
  live : List Snap := []
  /-- All operations written, with their numbers. -/
  written : List Entry := []

inductive SessionAction where
  | call (c : Call)
  | snapshot
  | drop (snap : Snap)
  | reopen (opts : Options) (fuel : Nat)
deriving DecidableEq, Repr

namespace Session

variable {s t : Session} {a : SessionAction}

/-- A new directory. -/
def create (C : Coding) (dir : String) (opts : Options) (fuel : Nat) : Option Session :=
  ((openDir C dir opts fuel).finish { disk := {}, db := { dir, opts } }).map fun engine => { engine }

def exec (C : Coding) (s : Session) : SessionAction → Option Session
  | .call c =>
    ((c.run C).finish s.engine).map fun engine => { s with engine, written := s.written ++ c.entries s.engine.db.seq }
  | .snapshot =>
    match s.engine.db.snapshot with
    | .ok (seq, db) => some { s with engine := { s.engine with db }, live := s.live ++ [{ opening := s.opening, seq }] }
    | .error _ => none
  | .drop snap =>
    if snap ∈ s.live then
      -- the registry of an earlier opening is not that of the open database
      if snap.opening = s.opening then
        some { s with engine := { s.engine with db := s.engine.db.dropSnapshot snap.seq }, live := s.live.erase snap }
      else some { s with live := s.live.erase snap }
    else none
  | .reopen opts fuel =>
    ((openDir C s.engine.db.dir opts fuel).finish (s.engine.close s.engine.db.dir opts)).map fun engine =>
      { s with engine, opening := s.opening + 1 }

/-- The current number, and the numbers of the snapshots that were taken since the directory was last opened. -/
def Readable (s : Session) (n : Nat) : Prop :=
  n = s.engine.db.seq ∨ ∃ snap ∈ s.live, snap.opening = s.opening ∧ snap.seq = n

/-- The open database has the written operations as its history, and its registry counts the snapshots of this
opening. -/
structure Tracks (C : Coding) (dir : String) (s : Session) : Prop where
  numbered : Numbered s.written
  inv : ∃ opts, Inv C dir (LogRel.clean C False False) opts s.engine.db.snapshots
    { e | e ∈ s.written } s.written.length s.engine
  past : ∀ snap ∈ s.live, snap.opening ≤ s.opening
  counted : ∀ n, (s.engine.db.snapshots.find? n).getD 0 = s.live.count { opening := s.opening, seq := n }

theorem logOk_false (log : Bytes) (synced : Nat) : LogOk C False False log synced := ⟨False.elim, False.elim⟩

theorem tracks_create (hc : create C dir opts fuel = some s) (hfit : s.engine.fits = true) : s.Tracks C dir := by
  obtain ⟨g, hg, rfl⟩ := Option.map_eq_some_iff.1 hc
  have hr : Recoverable C dir ∅ 0 ({ disk := {}, db := { dir, opts } } : Engine).disk := recoverable_empty
  have hi := hr.opened (logOk_false _ _) hg hfit
  have hnone : { e | e ∈ ([] : List Entry) } = (∅ : Set Entry) := Set.eq_empty_of_forall_notMem fun e he =>
    (by cases he)
  refine ⟨rfl, ⟨opts, ?_⟩, fun snap hsnap => (by cases hsnap), fun n => ?_⟩
  · rw [hi.snaps_eq, hnone]
    exact hi
  · rw [hi.snaps_eq]
    rfl

theorem Tracks.call (ht : s.Tracks C dir) {c : Call} {g : Engine} (hg : (c.run C).finish s.engine = some g)
    (hfit : g.fits = true) :
    Tracks C dir { s with engine := g, written := s.written ++ c.entries s.engine.db.seq } := by
  obtain ⟨opts, hi⟩ := ht.inv
  have hi' := hi.called False.elim hg hfit
  have hsnaps : g.db.snapshots = s.engine.db.snapshots := hi'.snaps_eq
  rw [hi.seq_eq]
  refine ⟨ht.numbered.call c, ⟨opts, ?_⟩, ht.past, fun n => ?_⟩
  · rw [hsnaps]
    exact hi'
  · rw [hsnaps]
    exact ht.counted n

theorem Tracks.snapshot (ht : s.Tracks C dir) {db : Db} {seq : Nat} (hs : s.engine.db.snapshot = .ok (seq, db)) :
    Tracks C dir
      { s with engine := { s.engine with db }, live := s.live ++ [{ opening := s.opening, seq }] } := by
  obtain ⟨opts, hi⟩ := ht.inv
  refine ⟨ht.numbered, ⟨opts, hi.snapshot hs⟩, fun snap hsnap => ?_, fun n => ?_⟩
  · rcases List.mem_append.1 hsnap with hsnap | hsnap
    · exact ht.past snap hsnap
    · rw [List.mem_singleton.1 hsnap]
  · obtain ⟨rfl, rfl⟩ := snapshot_eq_ok hs
    rw [List.count_append, ← ht.counted n]
    by_cases hn : n = s.engine.db.seq
    · subst hn
      simp
    · simp [hn, Ne.symm hn]

theorem Tracks.dropCurrent (ht : s.Tracks C dir) {snap : Snap} (hcur : snap.opening = s.opening) :
    Tracks C dir
      { s with engine := { s.engine with db := s.engine.db.dropSnapshot snap.seq }, live := s.live.erase snap } := by
  obtain ⟨opts, hi⟩ := ht.inv
  refine ⟨ht.numbered, ⟨opts, hi.dropSnapshot snap.seq⟩, fun x hx => ht.past x (List.mem_of_mem_erase hx), fun n => ?_⟩
  rw [find?_dropSnapshot, ht.counted]
  obtain ⟨opening, seq⟩ := snap
  obtain rfl : opening = s.opening := hcur
  by_cases hn : n = seq
  · simp [hn]
  · simp [hn]

theorem Tracks.dropEarlier (ht : s.Tracks C dir) {snap : Snap} (hold : snap.opening ≠ s.opening) :
    Tracks C dir { s with live := s.live.erase snap } := by
  refine ⟨ht.numbered, ht.inv, fun x hx => ht.past x (List.mem_of_mem_erase hx), fun n => ?_⟩
  rw [ht.counted, List.count_erase_of_ne]
  intro heq
  exact hold (congrArg Snap.opening heq).symm

theorem Tracks.reopen (ht : s.Tracks C dir) {g : Engine}
    (hg : (openDir C s.engine.db.dir opts fuel).finish (s.engine.close s.engine.db.dir opts) = some g)
    (hfit : g.fits = true) : Tracks C dir { s with engine := g, opening := s.opening + 1 } := by
  obtain ⟨_, hi⟩ := ht.inv
  rw [hi.dir_eq] at hg
  have hi' := hi.recoverable.opened (logOk_false _ _) hg hfit
  refine ⟨ht.numbered, ⟨opts, ?_⟩, fun snap hsnap => (ht.past snap hsnap).trans (Nat.le_succ _), fun n => ?_⟩
  · rw [hi'.snaps_eq]
    exact hi'
  · rw [hi'.snaps_eq, List.count_eq_zero.2]
    · rfl
    · intro hmem
      have hle := ht.past _ hmem
      exact absurd hle (Nat.not_succ_le_self _)

/-- As long as no length is cut off. -/
theorem Tracks.exec (ht : s.engine.fits = true → s.Tracks C dir) (he : s.exec C a = some t)
    (hfit : t.engine.fits = true) : t.Tracks C dir := by
  cases a with
  | call c =>
    obtain ⟨g, hg, rfl⟩ := Option.map_eq_some_iff.1 he
    exact (ht ((fitsBack_run C c).finish hg hfit)).call hg hfit
  | snapshot =>
    simp only [Session.exec] at he
    split at he
    · rename_i seq db hs
      cases he
      exact (ht hfit).snapshot hs
    · cases he
  | drop snap =>
    simp only [Session.exec] at he
    split at he
    · split at he
      · rename_i hcur
        cases he
        exact (ht hfit).dropCurrent hcur
      · rename_i hold
        cases he
        exact (ht hfit).dropEarlier hold
    · cases he
  | reopen opts fuel =>
    obtain ⟨g, hg, rfl⟩ := Option.map_eq_some_iff.1 he
    have hback : (s.engine.close s.engine.db.dir opts).fits = true := (fitsBack_openDir C _ _ _).finish hg hfit
    exact (ht hback).reopen hg hfit

instance (s : Session) (n : Nat) : Decidable (s.Readable n) :=
  inferInstanceAs (Decidable (n = s.engine.db.seq ∨ ∃ snap ∈ s.live, snap.opening = s.opening ∧ snap.seq = n))

/-- A new directory, and the listed actions on it. -/
theorem reached_of_create (dir : String) (opts : Options) (fuel : Nat) (as : List SessionAction) {Q : Session → Prop}
    [DecidablePred Q] (hr : ((create C dir opts fuel).any fun s₀ =>
      (Runs.replay (exec C) (fun _ _ => True) s₀ as).any fun s => decide (Q s)) = true) :
    ∃ s₀ s, create C dir opts fuel = some s₀ ∧ Runs (exec C) (fun _ _ => True) s₀ s ∧ Q s := by
  obtain ⟨s₀, h₀, hrun⟩ := (Option.any_eq_true _ _).1 hr
  obtain ⟨s, hs, hQ⟩ := Runs.reached (exec C) (fun _ _ => True) s₀ as hrun
  exact ⟨s₀, s, h₀, hs, hQ⟩

end Session

/-- In every session, a read at the current number or at that of a snapshot of the open database returns the last
operation on the key up to there. -/
theorem getAt_refines (C : Coding) (dir : String) (opts : Options) (fuel : Nat) {s₀ s : Session}
    (h₀ : Session.create C dir opts fuel = some s₀) (hr : Runs (Session.exec C) (fun _ _ => True) s₀ s)
    (hfit : s.engine.fits = true) (key : Bytes) {n : Nat} (hn : s.Readable n) :
    Db.getAt C s.engine key n = .ok (lastWrite s.written key n) := by
  have ht : s.engine.fits = true → s.Tracks C dir :=
    hr.invariant (P := fun s => s.engine.fits = true → s.Tracks C dir) (Session.tracks_create h₀)
      fun ht _ he => Session.Tracks.exec ht he
  have ht := ht hfit
  obtain ⟨opts', hi⟩ := ht.inv
  refine hi.getAt_eq ht.numbered key (hn.imp_right ?_)
  rintro ⟨snap, hsnap, hcur, rfl⟩
  have hpos : 0 < s.live.count { opening := s.opening, seq := snap.seq } := by
    rw [List.count_pos_iff, ← hcur]
    exact hsnap
  rw [← ht.counted] at hpos
  cases hf : s.engine.db.snapshots.find? snap.seq with
  | none =>
    rw [hf] at hpos
    cases hpos
  | some count => exact OrdMap.mem_keys.2 ⟨count, hf⟩

/-- A key is overwritten and deleted under a snapshot, with a flush and a compaction after each step; then the directory
is opened again and compacted without the snapshot. -/
theorem getAt_refines_compacted : ∃ s₀ s, Session.create Coding.plain "db" { l0Trigger := 1 } 9 = some s₀ ∧
      Runs (Session.exec Coding.plain) (fun _ _ => True) s₀ s ∧ s.engine.fits = true ∧ s.Readable 2 ∧
      Db.getAt Coding.plain s.engine [1] 2 = .ok (some [11]) ∧ Db.getAt Coding.plain s.engine [1] 3 = .ok none := by
  obtain ⟨s₀, s, h₀, hr, hfit, h2, h3, hw2, hw3⟩ :=
    Session.reached_of_create (C := Coding.plain) "db" { l0Trigger := 1 } 9
    [.call (.writeBatch [([1], some [10])] 9), .call .flush, .snapshot, .reopen { l0Trigger := 1 } 9,
      .drop { opening := 0, seq := 1 }, .call (.writeBatch [([1], some [11])] 9), .snapshot, .call .flush,
      .call (.maybeCompact 9), .call (.writeBatch [([1], none)] 9), .call .flush, .call (.maybeCompact 9)]
    (Q := fun s => s.engine.fits = true ∧ s.Readable 2 ∧ s.Readable 3 ∧ lastWrite s.written [1] 2 = some [11] ∧
      lastWrite s.written [1] 3 = none) (by decide +kernel)
  refine ⟨s₀, s, h₀, hr, hfit, h2, ?_, ?_⟩
  · rw [getAt_refines Coding.plain "db" { l0Trigger := 1 } 9 h₀ hr hfit [1] h2, hw2]
  · rw [getAt_refines Coding.plain "db" { l0Trigger := 1 } 9 h₀ hr hfit [1] h3, hw3]

/-- A snapshot that is alive over a reopening: the compaction after it drops the version that the snapshot sees. -/
theorem getAt_stale : ∃ s₀ s, Session.create Coding.plain "db" { l0Trigger := 1 } 9 = some s₀ ∧
      Runs (Session.exec Coding.plain) (fun _ _ => True) s₀ s ∧ s.engine.fits = true ∧
        { opening := 0, seq := 1 } ∈ s.live ∧
      lastWrite s.written [1] 1 = some [10] ∧ Db.getAt Coding.plain s.engine [1] 1 = .ok none :=
  Session.reached_of_create "db" { l0Trigger := 1 } 9
    [.call (.writeBatch [([1], some [10])] 9), .snapshot, .reopen { l0Trigger := 1 } 9,
      .call (.writeBatch [([1], some [11])] 9), .call .flush, .call (.maybeCompact 9)]
    (Q := fun s => s.engine.fits = true ∧ { opening := 0, seq := 1 } ∈ s.live ∧ lastWrite s.written [1] 1 = some [10] ∧
      Db.getAt Coding.plain s.engine [1] 1 = .ok none)
    (by decide +kernel)

end RaftKv.Storage

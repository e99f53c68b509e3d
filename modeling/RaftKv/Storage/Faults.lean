import RaftKv.Storage.Levels

/-!
# Errors of the files

A step on the files can fail and leave a part of its effect; the call then returns the error, with
the database as it was before the step (`EngineM.failAt`). `flush` and `compact_level` change the
manifest in memory first, then save it, and only then change the tables in memory. So an error on a
new table does no harm: nothing in memory has changed. But if the manifest cannot be saved, or if an
output of a compaction cannot be opened, the manifest in memory has other tables than the levels,
and nothing repairs that (`catalog_after_error`). A later compaction can then move new versions
below a table that only the manifest has, and a read after the next opening finds the old version
first (`catalog_broken`).

| here | there |
| --- | --- |
| `Fault`, `EngineM.failAt` | a `?` on a file operation |
| `SaveFault.left` | the steps of `Manifest::save` (`manifest.rs:66-84`) |
| `Db.Listed` | the catalog and the tables agree |
-/

namespace RaftKv.Storage

open Versions Db

/-! ## Steps that fail -/

/-- How far a save of the manifest came. -/
inductive SaveFault where
  | create
  /-- So many bytes were written; if it is all of them, the sync has failed. -/
  | write (n : Nat)
  | remove
  | rename
deriving DecidableEq, Repr

def SaveFault.left (C : Coding) (m : Manifest) (d : ManifestDir) : SaveFault → ManifestDir
  | .create => d
  | .write n => { d with tmp := some ((m.file C).take n) }
  | .remove => { d with tmp := some (m.file C) }
  | .rename => { main := none, tmp := some (m.file C) }

/-- The step that fails, and what it leaves: a part of the bytes for the log, a file of a table, a part of a save. -/
structure Fault where
  step : Nat
  written : Nat := 0
  file : Option Bytes := none
  save : SaveFault := .create
deriving DecidableEq, Repr

/-- Errors of `remove_file` at the end of a compaction are ignored. -/
def Disk.failed (C : Coding) (d : Disk) (f : Fault) : Effect → Option Disk
  | .walWrite bytes => some { d with wal := some (d.log ++ bytes.take f.written) }
  | .writeTable id _ => some (d.setTable id f.file)
  | .saveManifest m => some { d with manifest := f.save.left C m d.manifest }
  | .walCreate | .walSync | .walSetLen _ | .openTable _ => some d
  | .removeTable _ => none

/-- The program returns the error of a step. -/
def EngineM.failAt {α : Type} (C : Coding) (x : EngineM α) (g : Engine) (f : Fault) : Option Engine :=
  let g' := x.final g
  g'.steps[f.step]?.bind fun p =>
    (p.disk.failed C f p.effect).map fun disk => { disk, db := p.db, fits := g'.fits }

instance : (e : Effect) → Decidable e.OnTables
  | .writeTable _ _ | .openTable _ | .saveManifest _ => isTrue trivial
  | .walCreate | .walWrite _ | .walSync | .walSetLen _ | .removeTable _ => isFalse fun h => h

instance : (p : Step) → Decidable p.Unlisted
  | ⟨_, db, .writeTable id _⟩ | ⟨_, db, .openTable id⟩ => inferInstanceAs (Decidable (db.manifest.nextTableId ≤ id))
  | ⟨_, _, .saveManifest _⟩ | ⟨_, _, .walCreate⟩ | ⟨_, _, .walWrite _⟩ | ⟨_, _, .walSync⟩ | ⟨_, _, .walSetLen _⟩
  | ⟨_, _, .removeTable _⟩ => isFalse fun h => h

variable {C : Coding} {dir : String} {opts : Options} {snaps : OrdMap Nat Nat} {H : Set Entry} {n : Nat}
  {g g' : Engine} {d : Disk} {I : Disk → Db → Prop} {α : Type} {x : EngineM α} {f : Fault} {p : Step}

theorem failAt_eq_some (h : x.failAt C g f = some g') :
    ∃ p disk, (x.final g).steps[f.step]? = some p ∧ p.disk.failed C f p.effect = some disk ∧
      g' = { disk, db := p.db, fits := (x.final g).fits } := by
  obtain ⟨p, hp, h⟩ := Option.bind_eq_some_iff.1 h
  obtain ⟨disk, hd, rfl⟩ := Option.map_eq_some_iff.1 h
  exact ⟨p, disk, hp, hd, rfl⟩

/-- After an error on a table that is not listed, the files and the database are as good as before. -/
theorem Step.Safe.failed (hs : p.Safe I) (hu : p.Unlisted) (hd : p.disk.failed C f p.effect = some d) : I d p.db := by
  obtain ⟨⟨db, hdb, hsame, hjunk⟩, -⟩ := hs
  obtain rfl := hsame hu
  unfold Step.Unlisted at hu
  cases he : p.effect with
  | writeTable id file =>
    rw [he] at hd
    cases hd
    exact hjunk id file he f.file
  | openTable id =>
    rw [he] at hd
    cases hd
    exact hdb
  | _ => rw [he] at hu; cases hu

/-! ## Hosts with errors -/

inductive IoAction where
  | host (a : HostAction)
  /-- A step on a table or on the manifest fails. -/
  | fail (c : Call) (f : Fault)
deriving DecidableEq, Repr

namespace Host

variable {s t : Host} {a : IoAction} {c : Call}

def ioExec (C : Coding) (s : Host) : IoAction → Option Host
  | .host a => s.exec C a
  | .fail c f =>
    if s.up ∧ ((c.run C).final s.engine).steps[f.step]?.any (fun p => p.effect.OnTables) then
      ((c.run C).failAt C s.engine f).map fun engine => { s with engine }
    else none

/-- The crashes keep what was flushed, and the errors are on tables that are not listed. -/
def Harmless (C : Coding) (s : Host) : IoAction → Prop
  | .host a => s.Numberable a ∧ s.KeepsFlushed C a
  | .fail c f => s.Numberable (.call c) ∧ ((c.run C).final s.engine).steps[f.step]?.any (fun p => p.Unlisted)

instance (C : Coding) (s : Host) : (a : IoAction) → Decidable (s.Harmless C a)
  | .host a => inferInstanceAs (Decidable (s.Numberable a ∧ s.KeepsFlushed C a))
  | .fail c f => inferInstanceAs (Decidable (s.Numberable (.call c) ∧
      ((c.run C).final s.engine).steps[f.step]?.any (fun p => p.Unlisted) = true))

/-- Every step of a call on an open database. -/
theorem Intact.safe_final (hl : s.Intact C dir) (hup : s.up = true) (hnum : s.Numberable (.call c))
    (hfit : ((c.run C).final s.engine).fits = true) : ((c.run C).final s.engine).Safe (Opened C dir) := by
  obtain ⟨opts, H, n, hn, hi⟩ := hl.opened hup
  have hi₀ : Inv C dir (LogRel.clean C False True) opts s.engine.db.snapshots H n { s.engine with steps := [] } :=
    hi.same rfl rfl
  have hspec := Call.run_clean (I := Opened C dir) hi₀ ⟨⟨s.engine.db, Inv.opened hn hi₀⟩, fun p hp => (by cases hp)⟩
    False.elim c (fun ops fuel hc hne hb => ?_) fun g' hi' => Inv.opened (hn.call hi.bound c) hi'
  · exact final_safe hspec hfit
  · subst hc
    have hlt : n + 1 + ops.length < 2 ^ 64 := hi.seq_eq ▸ hnum
    exact Inv.opened_appends hn hi₀ hne hb hlt

theorem Intact.failed (hl : s.Intact C dir) (hup : s.up = true) (hnum : s.Numberable (.call c))
    (hp : ((c.run C).final s.engine).steps[f.step]? = some p) (hu : p.Unlisted)
    (hg : (c.run C).failAt C s.engine f = some g) (hfit : g.fits = true) : Opened C dir g.disk g.db := by
  obtain ⟨p', disk, hp', hd, rfl⟩ := failAt_eq_some hg
  obtain rfl : p = p' := Option.some.inj (hp.symm.trans hp')
  exact ((hl.safe_final hup hnum hfit).2 p (List.mem_of_getElem? hp)).failed hu hd

theorem Intact.ioExec (hl : s.engine.fits = true → s.Intact C dir) (hok : s.Harmless C a) (he : s.ioExec C a = some t)
    (hfit : t.engine.fits = true) : t.Intact C dir := by
  cases a with
  | host a => exact Intact.exec hl hok.1 hok.2 he hfit
  | fail c f =>
    simp only [Host.ioExec] at he
    split at he
    · rename_i hup
      obtain ⟨g, hg, rfl⟩ := Option.map_eq_some_iff.1 he
      have hback : s.engine.fits = true := by
        obtain ⟨p, disk, -, -, rfl⟩ := failAt_eq_some hg
        exact (fitsBack_run C c).final hfit
      obtain ⟨p, hp, hu⟩ := (Option.any_eq_true _ _).1 hok.2
      obtain ⟨opts, snaps, H, n, hn, hi⟩ := (hl hback).failed hup.1 hok.1 hp (of_decide_eq_true hu) hg hfit
      refine ⟨hi.dir_eq, fun _ => ⟨opts, H, n, hn, ?_⟩, fun hdown => absurd hup.1 (by rw [hdown]; decide)⟩
      have hsnaps : g.db.snapshots = snaps := hi.snaps_eq
      rw [hsnaps]
      exact hi.same rfl rfl
    · cases he

theorem intact_of_ioRuns (hr : Runs (Host.ioExec C) (Harmless C) (new dir) s) (hfit : s.engine.fits = true) :
    s.Intact C dir :=
  hr.invariant (P := fun s => s.engine.fits = true → s.Intact C dir) (fun _ => intact_new C dir)
    (fun hl hok he => Intact.ioExec hl hok he) hfit

end Host

/-! ## The catalog after an error -/

/-- The calls one after the other, if all of them succeed. -/
def Engine.runCalls (C : Coding) : Engine → List Call → Option Engine
  | g, [] => some g
  | g, c :: cs => ((c.run C).finish g).bind fun g => runCalls C g cs

/-- Every read is the same after the directory was opened again; the opening can only fail for a number that does
not fit. -/
def ReopensAlike (C : Coding) (g : Engine) : Prop :=
  ∀ opts fuel, Meets (openDir C g.db.dir opts fuel) (g.close g.db.dir opts)
    (fun _ g' => ∀ key, Db.getAt C g' key g'.db.seq = Db.getAt C g key g.db.seq)
    fun e _ => opts.Tame → openTurns C g.db.dir g.disk ≤ fuel → e = .overflow

theorem fits_of_runCalls {cs : List Call} (hg : g.runCalls C cs = some g') (hfit : g'.fits = true) : g.fits = true := by
  induction cs generalizing g with
  | nil => cases hg; exact hfit
  | cons c cs ih =>
    obtain ⟨g₁, hg₁, hg⟩ := Option.bind_eq_some_iff.1 hg
    exact (fitsBack_run C c).finish hg₁ (ih hg)

theorem Opened.call {c : Call} (ho : Opened C dir g.disk g.db) (hg : (c.run C).finish g = some g')
    (hfit : g'.fits = true) : Opened C dir g'.disk g'.db := by
  obtain ⟨opts, snaps, H, n, hn, hi⟩ := ho
  obtain ⟨-, hi', -⟩ := finish_spec
    (Call.run_clean (g := { g with steps := [] }) (I := fun _ _ => True) (hi.same rfl rfl) (safe_true _) False.elim c
      (fun _ _ _ _ _ => ⟨⟨g.db, trivial⟩, g.db, trivial⟩) fun _ _ => trivial) hg hfit
  exact Inv.opened (hn.call hi.bound c) hi'

theorem Opened.runCalls {cs : List Call} (ho : Opened C dir g.disk g.db) (hg : g.runCalls C cs = some g')
    (hfit : g'.fits = true) : Opened C dir g'.disk g'.db := by
  induction cs generalizing g with
  | nil => cases hg; exact ho
  | cons c cs ih =>
    obtain ⟨g₁, hg₁, hg⟩ := Option.bind_eq_some_iff.1 hg
    exact ih (ho.call hg₁ (fits_of_runCalls hg hfit)) hg

theorem Opened.listed {db : Db} (ho : Opened C dir d db) : db.Listed := by
  obtain ⟨_, _, _, _, _, hi⟩ := ho
  exact fun i => hi.catalog.map_id i

/-- The directory has what the database has. -/
theorem Opened.reopens (ho : Opened C dir g.disk g.db) : ReopensAlike C g := by
  obtain ⟨opts, snaps, H, n, hn, hi⟩ := ho
  intro opts' fuel
  have hdir : g.db.dir = dir := hi.dir_eq
  rw [hdir]
  have hspec := openDir_spec (g := g.close dir opts') (I := fun _ _ => True) opts' hi.recoverable hi.log.2
    (safe_true (g.close dir opts')) (fun _ _ _ => ⟨g.db, trivial⟩) (fun _ _ => trivial) fuel
  refine hspec.mono (fun _ g' h hfit key => ?_) fun _ _ h hfit => (h hfit).2
  obtain ⟨hi', -⟩ := h hfit
  obtain ⟨r, hr⟩ := exists_newest H key n
  have hnow : Db.getAt C g' key g'.db.seq = .ok (valueOf r) := by
    rw [hi'.seq_eq]
    exact hi'.catalog.getAt_eq hi'.shows hi'.floor_le hr
  have hseq : g.db.seq = n := hi.seq_eq
  rw [hnow, hseq]
  exact (hi.catalog.getAt_eq (g := g) hi.shows hi.floor_le hr).symm

/-- After an error in a call, the manifest in memory has the tables in memory, and the database goes on to be what
its files say, exactly if the step that failed is about a table that the manifest does not have yet. -/
theorem catalog_after_error (C : Coding) (dir : String) {s : Host}
    (hr : Runs (Host.ioExec C) (Host.Harmless C) (Host.new dir) s) (hup : s.up = true) {c : Call}
    (hnum : s.Numberable (.call c)) {f : Fault} {p : Step} (hp : ((c.run C).final s.engine).steps[f.step]? = some p)
    (ht : p.effect.OnTables) (hg : (c.run C).failAt C s.engine f = some g) (hfit : g.fits = true) :
    (g.db.Listed ∧ ∀ cs g', g.runCalls C cs = some g' → g'.fits = true → ReopensAlike C g') ↔ p.Unlisted := by
  have hback : ((c.run C).final s.engine).fits = true := by
    obtain ⟨_, _, -, -, rfl⟩ := failAt_eq_some hg
    exact hfit
  have hl := Host.intact_of_ioRuns hr ((fitsBack_run C c).final hback)
  constructor
  · intro h
    by_contra hu
    have hne := ((hl.safe_final hup hnum hback).2 p (List.mem_of_getElem? hp)).unlike ht hu
    obtain ⟨p', disk, hp', -, rfl⟩ := failAt_eq_some hg
    obtain rfl : p = p' := Option.some.inj (hp.symm.trans hp')
    exact hne h.1
  · intro hu
    have ho := hl.failed hup hnum hp hu hg hfit
    exact ⟨ho.listed, fun cs g' hg' hfit' => (ho.runCalls hg' hfit').reopens⟩

/-- The table of a flush is cut off while it is written. -/
theorem catalog_after_error_flush :
    ∃ s g, Runs (Host.ioExec Coding.plain) (Host.Harmless Coding.plain) (Host.new "db") s ∧
      (Call.flush.run Coding.plain).failAt Coding.plain s.engine { step := 0, file := some [1, 2, 3] } = some g ∧
      g.db.Listed ∧ ∀ cs g', g.runCalls Coding.plain cs = some g' → g'.fits = true → ReopensAlike Coding.plain g' := by
  obtain ⟨s, hr, hup, hstep, hfail⟩ := Runs.reached (Host.ioExec Coding.plain) (Host.Harmless Coding.plain)
    (Host.new "db")
    [.host (.start {} 9), .host (.call (.writeBatch [([1], some [10])] 9))]
    (P := fun s => s.up = true ∧
      ((Call.flush.run Coding.plain).final s.engine).steps[0]?.any (fun p => p.effect.OnTables ∧ p.Unlisted) = true ∧
      ((Call.flush.run Coding.plain).failAt Coding.plain s.engine { step := 0, file := some [1, 2, 3] }).any
        (fun g => g.fits) = true) (by decide +kernel)
  obtain ⟨p, hp, hpu⟩ := (Option.any_eq_true _ _).1 hstep
  obtain ⟨ht, hu⟩ := of_decide_eq_true hpu
  obtain ⟨g, hg, hfit⟩ := (Option.any_eq_true _ _).1 hfail
  have hcat := (catalog_after_error Coding.plain "db" hr hup (c := .flush) trivial hp ht hg hfit).2 hu
  exact ⟨s, g, hr, hg, hcat.1, hcat.2⟩

/-- The manifest of a flush is not saved. The table stays in the manifest in memory, and with the next flush it is
in the one on disk. After a compaction the newer version is in level 1, and the table in level 0 is found first. -/
theorem catalog_broken :
    ∃ s g g' g'', Runs (Host.ioExec Coding.plain) (Host.Harmless Coding.plain) (Host.new "db") s ∧ s.up = true ∧
      (Call.flush.run Coding.plain).failAt Coding.plain s.engine { step := 2, save := .create } = some g ∧
        ¬ g.db.Listed ∧
      g.runCalls Coding.plain [.writeBatch [([1], some [11])] 9, .flush, .maybeCompact 9] = some g' ∧
      (openDir Coding.plain "db" {} 9).finish (g'.close "db" {}) = some g'' ∧ g''.fits = true ∧
      Db.getAt Coding.plain g' [1] g'.db.seq = .ok (some [11]) ∧
        Db.getAt Coding.plain g'' [1] g''.db.seq = .ok (some [10]) := by
  obtain ⟨s, hr, hup, hall⟩ := Runs.reached (Host.ioExec Coding.plain) (Host.Harmless Coding.plain) (Host.new "db")
    [.host (.start { l0Trigger := 1 } 9), .host (.call (.writeBatch [([1], some [10])] 9))]
    (P := fun s => s.up = true ∧
      ((Call.flush.run Coding.plain).failAt Coding.plain s.engine { step := 2, save := .create }).any (fun g =>
        ((levelAt g.db.manifest.levels 0).length ≠ (levelAt g.db.levels 0).length) ∧
        (g.runCalls Coding.plain [.writeBatch [([1], some [11])] 9, .flush, .maybeCompact 9]).any (fun g' =>
          Db.getAt Coding.plain g' [1] g'.db.seq = .ok (some [11]) ∧
          ((openDir Coding.plain "db" {} 9).finish (g'.close "db" {})).any (fun g'' => g''.fits = true ∧
            Db.getAt Coding.plain g'' [1] g''.db.seq = .ok (some [10])) = true) = true) = true) (by decide +kernel)
  obtain ⟨g, hg, hall⟩ := (Option.any_eq_true _ _).1 hall
  obtain ⟨hlen, hall⟩ := of_decide_eq_true hall
  obtain ⟨g', hg', hall⟩ := (Option.any_eq_true _ _).1 hall
  obtain ⟨hget, hall⟩ := of_decide_eq_true hall
  obtain ⟨g'', hg'', hall⟩ := (Option.any_eq_true _ _).1 hall
  obtain ⟨hfit, hget'⟩ := of_decide_eq_true hall
  exact ⟨s, g, g', g'', hr, hup, hg, Db.not_listed_of_length hlen, hg', hg'', hfit, hget, hget'⟩

end RaftKv.Storage

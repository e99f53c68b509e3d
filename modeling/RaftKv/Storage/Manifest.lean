import RaftKv.Lib.Runs
import RaftKv.Storage.Coding

/-!
# The manifest

`Manifest::save` writes `MANIFEST.tmp`, removes `MANIFEST` and renames the one to the other;
`Manifest::load` takes `MANIFEST` or, failing that, `MANIFEST.tmp`. Between the removal and the
renaming the only copy is `MANIFEST.tmp`. A crash there is survived by the next `load`, but not by
the next `save`: it begins by truncating `MANIFEST.tmp`, and a second crash then leaves no manifest
at all (`manifest_lost`). `Db::open` takes that for a new, empty database (`db.rs:95`).

| here | there |
| --- | --- |
| `Manifest.load`, `Manifest.parse` | `Manifest::load` (`manifest.rs:45`) |
| `Manifest.file`, `SaveAction` | `Manifest::save` (`manifest.rs:66`), one action for each file step |
| `Saver.exec`, `.crash`  | the calls on one directory, with a crash between any two file steps |
-/

namespace RaftKv.Storage

variable (C : Coding)

/-- The two files of the catalog, as far as they exist. -/
structure ManifestDir where
  main : Option Bytes := none
  tmp : Option Bytes := none
deriving DecidableEq, Repr

namespace Manifest

/-- The contents of a complete file. -/
def file (m : Manifest) : Bytes := C.manifest.ser m ++ leBytes 4 (C.crc (C.manifest.ser m))

/-- One turn of the loop: `none` goes on to the next file. -/
def parse (data : Bytes) : Option (Except Error Manifest) :=
  if data.length < 4 then none
  else
    let payload := data.take (data.length - 4)
    let crc := leNat (data.drop (data.length - 4))
    -- a torn write: try the other file
    if C.crc payload ≠ crc then none
    else some ((C.manifest.de payload).mapError .corruption)

def loadFrom : List (Option Bytes) → Except Error (Option Manifest)
  | [] => .ok none
  | none :: paths => loadFrom paths
  | some data :: paths =>
    match parse C data with
    | some (.ok m) => .ok (some m)
    | some (.error e) => .error e
    | none => loadFrom paths

def load (dir : ManifestDir) : Except Error (Option Manifest) := loadFrom C [dir.main, dir.tmp]

theorem parse_file (m : Manifest) : parse C (m.file C) = some (.ok m) := by
  have hlen : (m.file C).length - 4 = (C.manifest.ser m).length := by
    rw [file, List.length_append, length_leBytes, Nat.add_sub_cancel]
  have h4 : ¬ (m.file C).length < 4 := by
    rw [file, List.length_append, length_leBytes]
    omega
  unfold parse
  rw [if_neg h4]
  simp only [hlen]
  rw [file, List.take_left, List.drop_left, C.leNat_crc, if_neg (by simp), C.manifest.de_ser]
  rfl

theorem load_main {dir : ManifestDir} {m : Manifest} (h : dir.main = some (m.file C)) : load C dir = .ok (some m) := by
  rw [load, h, loadFrom, parse_file]

theorem load_tmp {dir : ManifestDir} {m : Manifest} (h : dir.main = none) (h' : dir.tmp = some (m.file C)) :
    load C dir = .ok (some m) := by
  rw [load, h, h', loadFrom, loadFrom, parse_file]

end Manifest

/-! ## Saves and crashes -/

/-- How far a save has come. -/
inductive SavePhase where
  /-- `MANIFEST.tmp` is created, and written in part or as a whole. -/
  | created
  /-- `sync_all` has returned. -/
  | synced
  /-- `MANIFEST` is gone. -/
  | removed
deriving DecidableEq, Repr

/-- The calls on one directory, and what has become of them. -/
structure Saver where
  dir : ManifestDir := {}
  saving : Option (Manifest × SavePhase) := none
  /-- The manifest of the last save that has returned. -/
  completed : Option Manifest := none
  /-- Those of the saves since then that a crash has cut off. -/
  interrupted : List Manifest := []
deriving DecidableEq, Repr

inductive SaveAction where
  /-- `save` is called: `File::create(MANIFEST.tmp)`. -/
  | create (m : Manifest)
  /-- The first `n` bytes are written. -/
  | write (n : Nat)
  | sync
  | remove
  | rename
  /-- The process stops, and starts again. -/
  | crash
deriving DecidableEq, Repr

namespace Saver

def exec (s : Saver) : SaveAction → Option Saver
  | .create m =>
    if s.saving.isNone then some { s with dir := { s.dir with tmp := some [] }, saving := some (m, .created) } else none
  | .write n =>
    match s.saving, s.dir.tmp with
    | some (m, .created), some data =>
      if data.length ≤ n then some { s with dir := { s.dir with tmp := some ((m.file C).take n) } } else none
    | _, _ => none
  | .sync =>
    match s.saving with
    | some (m, .created) =>
      if s.dir.tmp = some (m.file C) then some { s with saving := some (m, .synced) } else none
    | _ => none
  | .remove =>
    match s.saving with
    | some (m, .synced) => some { s with dir := { s.dir with main := none }, saving := some (m, .removed) }
    | _ => none
  | .rename =>
    match s.saving with
    | some (m, .removed) =>
      some { dir := { main := s.dir.tmp, tmp := none }, saving := none, completed := some m, interrupted := [] }
    | _ => none
  | .crash =>
    some { s with saving := none, interrupted := s.interrupted ++ (s.saving.map Prod.fst).toList }

/-- What `load` gives after a restart is the manifest of the last completed save or of an interrupted one after it. -/
def Loads (s : Saver) : Prop :=
  ∀ m, s.completed = some m → ∃ m', Manifest.load C s.dir = .ok (some m') ∧ (m' = m ∨ m' ∈ s.interrupted)

/-- A save is called only while `MANIFEST` exists, once a save has completed. -/
def CreatesBeside (s : Saver) : SaveAction → Prop
  | .create _ => s.completed.isSome → s.dir.main.isSome
  | _ => True

instance (s : Saver) : (a : SaveAction) → Decidable (s.CreatesBeside a)
  | .create _ => inferInstanceAs (Decidable (s.completed.isSome → s.dir.main.isSome))
  | .write _ | .sync | .remove | .rename | .crash => isTrue trivial

/-- `MANIFEST` is the last completed manifest, or it is missing and `MANIFEST.tmp` is that of a later save, which is
beyond its writes. -/
structure Safe (s : Saver) : Prop where
  written : ∀ {m p}, s.saving = some (m, p) → p ≠ .created → s.dir.tmp = some (m.file C)
  main : ∀ {m}, s.completed = some m → (∀ m', s.saving ≠ some (m', .removed)) →
    s.dir.main = some (m.file C) ∨
      (s.saving = none ∧ s.dir.main = none ∧ ∃ m' ∈ s.interrupted, s.dir.tmp = some (m'.file C))
  removed : ∀ {m}, s.saving = some (m, .removed) → s.dir.main = none

variable {C}

theorem Safe.exec {s t : Saver} {a : SaveAction} (h : s.Safe C) (hok : s.CreatesBeside a) (he : s.exec C a = some t) :
    t.Safe C := by
  cases a with
  | create m =>
    simp only [Saver.exec] at he
    split at he
    · rename_i hidle
      cases he
      refine ⟨fun hs hp => ?_, fun hc _ => ?_, fun hs => (by cases hs)⟩
      · cases hs; exact absurd rfl hp
      · -- the truncated file is not the only copy
        have hidle' : s.saving = none := by simpa using hidle
        have hmain : s.dir.main.isSome := hok (by rw [hc]; rfl)
        rcases h.main hc (by rw [hidle']; simp) with hm | ⟨_, hnone, _⟩
        · exact .inl hm
        · rw [hnone] at hmain; cases hmain
    · cases he
  | write n =>
    simp only [Saver.exec] at he
    split at he
    · rename_i m data hs ht
      split at he
      · cases he
        refine ⟨fun hs' hp => ?_, fun hc hr => ?_, fun hs' => ?_⟩
        · have hs'' := hs.symm.trans hs'
          cases hs''
          exact absurd rfl hp
        · rcases h.main hc hr with hm | ⟨hnone, _⟩
          · exact .inl hm
          · rw [hs] at hnone; cases hnone
        · have hs'' := hs.symm.trans hs'
          cases hs''
      · cases he
    · cases he
  | sync =>
    simp only [Saver.exec] at he
    split at he
    · rename_i m hs
      split at he
      · rename_i ht
        cases he
        refine ⟨fun hs' _ => ?_, fun hc _ => ?_, fun hs' => (by cases hs')⟩
        · cases hs'; exact ht
        · rcases h.main hc (by rw [hs]; simp) with hm | ⟨hnone, _⟩
          · exact .inl hm
          · rw [hs] at hnone; cases hnone
      · cases he
    · cases he
  | remove =>
    simp only [Saver.exec] at he
    split at he
    · rename_i m hs
      cases he
      refine ⟨fun hs' _ => ?_, fun hc hr => absurd rfl (hr m), fun _ => rfl⟩
      cases hs'
      exact h.written hs (by simp)
    · cases he
  | rename =>
    simp only [Saver.exec] at he
    split at he
    · rename_i m hs
      cases he
      refine ⟨fun hs' => (by cases hs'), fun hc _ => ?_, fun hs' => (by cases hs')⟩
      cases hc
      exact .inl (h.written hs (by simp))
    · cases he
  | crash =>
    cases he
    refine ⟨fun hs' => (by cases hs'), fun hc _ => ?_, fun hs' => (by cases hs')⟩
    by_cases hr : ∀ m', s.saving ≠ some (m', .removed)
    · rcases h.main hc hr with hm | ⟨hidle, hnone, m', hm', ht⟩
      · exact .inl hm
      · exact .inr ⟨rfl, hnone, m', List.mem_append_left _ hm', ht⟩
    · -- `MANIFEST` is gone: what is left is the manifest of the interrupted save
      obtain ⟨m', hs⟩ := not_forall_not.1 hr
      exact .inr ⟨rfl, h.removed hs, m', List.mem_append_right _ (by simp [hs]), h.written hs (by simp)⟩

theorem Safe.loads {s : Saver} (h : s.Safe C) (hidle : s.saving = none) : s.Loads C := by
  intro m hc
  rcases h.main hc (by rw [hidle]; simp) with hm | ⟨_, hnone, m', hm', ht⟩
  · exact ⟨m, Manifest.load_main C hm, .inl rfl⟩
  · exact ⟨m', Manifest.load_tmp C hnone ht, .inr hm'⟩

end Saver

/-- If no save is called while `MANIFEST` is missing, every `load` gives the last completed manifest or one of a save
interrupted after it. -/
theorem manifest_survives (C : Coding) {s : Saver}
    (hr : Runs (Saver.exec C) Saver.CreatesBeside {} s) (hidle : s.saving = none) : s.Loads C := by
  have hsafe : s.Safe C := hr.invariant (P := fun s => s.Safe C)
    ⟨fun hs => (by cases hs), fun hc => (by cases hc), fun hs => (by cases hs)⟩ fun h hok he => h.exec hok he
  exact hsafe.loads hidle

namespace SaveAction

/-- A whole save. -/
def whole (C : Coding) (m : Manifest) : List SaveAction :=
  [.create m, .write (m.file C).length, .sync, .remove, .rename]

/-- A save that is interrupted before it renames the file. -/
def interrupted (C : Coding) (m : Manifest) : List SaveAction :=
  [.create m, .write (m.file C).length, .sync, .remove, .crash]

end SaveAction

/-- A save, and a second one that is cut off between removing and renaming. -/
theorem manifest_survives_interrupted :
    ∃ s, Runs (Saver.exec Coding.plain) Saver.CreatesBeside {} s ∧ s.completed = some { nextTableId := 1 } ∧
      s.interrupted = [{ nextTableId := 2 }] ∧ s.Loads Coding.plain := by
  obtain ⟨s, hr, hc, hi, hidle⟩ := Runs.reached (Saver.exec Coding.plain) Saver.CreatesBeside {}
    (SaveAction.whole Coding.plain { nextTableId := 1 } ++ SaveAction.interrupted Coding.plain { nextTableId := 2 })
    (P := fun s => s.completed = some { nextTableId := 1 } ∧ s.interrupted = [{ nextTableId := 2 }] ∧ s.saving = none)
    (by decide +kernel)
  exact ⟨s, hr, hc, hi, manifest_survives Coding.plain hr hidle⟩

/-- A third save truncates the only copy; the process stops there, and no manifest is left. -/
theorem manifest_lost :
    ∃ s, Runs (Saver.exec Coding.plain) (fun _ _ => True) {} s ∧ s.saving = none ∧
      s.completed = some { nextTableId := 1 } ∧ Manifest.load Coding.plain s.dir = .ok none :=
  Runs.reached (Saver.exec Coding.plain) (fun _ _ => True) {}
    (SaveAction.whole Coding.plain { nextTableId := 1 } ++ SaveAction.interrupted Coding.plain { nextTableId := 2 } ++
      [.create { nextTableId := 3 }, .crash])
    (P := fun s => s.saving = none ∧ s.completed = some { nextTableId := 1 } ∧
      Manifest.load Coding.plain s.dir = .ok none) (by decide +kernel)

end RaftKv.Storage

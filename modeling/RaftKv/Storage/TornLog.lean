import RaftKv.Storage.Db

/-!
# Torn logs

A crash can leave any part of what was appended to the log. Replay keeps the frames that are whole
and cuts the file behind them, so the next appends follow a clean end, however often this happens
(`Logged.data_eq`): a log that is cut anywhere gives back exactly the batches whose frames lie
before the cut (`torn_log_keeps_whole`).

| here | there |
| --- | --- |
| `Wal.openFile` | `Wal::open`, which seeks to the end (`wal.rs:42-55`) |
| `Wal.append` | `Wal::append` (`wal.rs:57-71`); the file is written where the handle is |
| `Wal.replay` | `Wal::replay` with its truncation (`wal.rs:88-124`) |
-/

namespace RaftKv.Storage

/-- A write at `pos`: it replaces what is there, and a gap behind the end is filled with zeros. -/
def writeAt (file : Bytes) (pos : Nat) (data : Bytes) : Bytes :=
  file.take pos ++ List.replicate (pos - file.length) 0 ++ data ++ file.drop (pos + data.length)

theorem writeAt_end (file data : Bytes) : writeAt file file.length data = file ++ data := by
  have hdrop : file.drop (file.length + data.length) = [] := List.drop_eq_nil_of_le (Nat.le_add_right _ _)
  simp [writeAt, hdrop]

/-- The handle of a log: its file, and where it is written next. -/
structure Wal where
  file : Bytes
  cursor : Nat

variable (C : Coding)

namespace Wal

/-- The file is created if there is none; writes go to its end. -/
def openFile (file : Option Bytes) : Wal := { file := file.getD [], cursor := (file.getD []).length }

def append (w : Wal) (b : WalBatch) : Wal :=
  { file := writeAt w.file w.cursor (frame C b), cursor := w.cursor + (frame C b).length }

def appendAll (w : Wal) (bs : List WalBatch) : Wal := bs.foldl (append C) w

/-- The batches of the whole frames, and the file without what follows them. A file that does not exist is not
created. -/
def replay : Option Bytes → List WalBatch × Option Bytes
  | none => ([], none)
  | some data =>
    let r := Storage.replay C data
    (r.1, some (if r.2 < data.length then data.take r.2 else data))

end Wal

variable {C} {bs more : List WalBatch} {file : Option Bytes} {data : Bytes}

/-! ## The handle stays at the end -/

theorem Wal.appendAll_end {w : Wal} (h : w.cursor = w.file.length) (bs : List WalBatch) :
    (w.appendAll C bs).file = w.file ++ frames C bs ∧ (w.appendAll C bs).cursor = (w.appendAll C bs).file.length := by
  induction bs generalizing w with
  | nil => exact ⟨(List.append_nil _).symm, h⟩
  | cons b bs ih =>
    have hfile : (w.append C b).file = w.file ++ frame C b := by
      rw [Wal.append, h, writeAt_end]
    have hend : (w.append C b).cursor = (w.append C b).file.length := by
      rw [hfile, List.length_append, ← h]; rfl
    obtain ⟨hf, hc⟩ := ih hend
    refine ⟨?_, hc⟩
    rw [Wal.appendAll, List.foldl_cons, ← Wal.appendAll, hf, hfile, List.append_assoc]
    rfl

/-- What is appended after the log is opened follows what is there. -/
theorem Wal.file_appendAll (file : Option Bytes) (bs : List WalBatch) :
    ((Wal.openFile file).appendAll C bs).file = file.getD [] ++ frames C bs :=
  (Wal.appendAll_end rfl bs).1

/-- The engine appends to its log as the handle does. -/
theorem Disk.apply_walWrite (d : Disk) (b : WalBatch) :
    (d.apply C (.walWrite (frame C b))).wal = some ((Wal.openFile d.wal).append C b).file := by
  have h := Wal.file_appendAll (C := C) d.wal [b]
  rw [frames_singleton] at h
  exact congrArg some h.symm

/-- The replay without its first read of the state. -/
theorem replayLog_run (g : Engine) : Db.replayLog C g =
    (do
      let r := Storage.replay C g.disk.log
      let _ ← if r.2 < g.disk.log.length then emit C (.walSetLen r.2) else pure ()
      return r.1 : EngineM (List WalBatch)) g := rfl

/-- The engine replays its log as the handle's file is replayed. -/
theorem replayLog_eq (g : Engine) : ∃ g', Db.replayLog C g = .ok (Wal.replay C g.disk.wal).1 g' ∧
    g'.disk.wal = (Wal.replay C g.disk.wal).2 := by
  rw [replayLog_run]
  cases hw : g.disk.wal with
  | none =>
    have hlog : g.disk.log = [] := by rw [Disk.log, hw]; rfl
    have hempty : Storage.replay C (frames C []) = ([], 0) := replay_whole (by simp)
    have hnil : frames C [] = [] := rfl
    rw [hnil] at hempty
    refine ⟨g, ?_, hw⟩
    simp only [hlog, hempty]
    rfl
  | some data =>
    have hlog : g.disk.log = data := by rw [Disk.log, hw]; rfl
    simp only [hlog, Wal.replay]
    by_cases hlt : (Storage.replay C data).2 < data.length
    · simp only [if_pos hlt]
      exact ⟨_, rfl, congrArg some (congrArg (fun l => l.take (Storage.replay C data).2) hlog)⟩
    · simp only [if_neg hlt]
      exact ⟨g, rfl, hw⟩

/-! ## Whole frames -/

/-- Behind whole frames that are followed by none, replay cuts the file. -/
theorem Wal.replay_frames (hbs : ∀ b ∈ bs, Frameable C b) {tail : Bytes} (htail : readFrame C tail = none) :
    Wal.replay C (some (frames C bs ++ tail)) = (bs, some (frames C bs)) := by
  rw [Wal.replay, Storage.replay_frames hbs htail]
  split
  · rw [List.take_left]
  · rename_i hlt
    have hnil : tail = [] := by
      rw [List.length_append] at hlt
      exact List.length_eq_zero_iff.1 (by omega)
    rw [hnil, List.append_nil]

theorem Wal.replay_whole (hbs : ∀ b ∈ bs, Frameable C b) :
    Wal.replay C (some (frames C bs)) = (bs, some (frames C bs)) := by
  have h : Wal.replay C (some (frames C bs ++ [])) = (bs, some (frames C bs)) := Wal.replay_frames hbs rfl
  rwa [List.append_nil] at h

/-- The frame of batch `j` ends before `cut`. -/
def EndsBefore (C : Coding) (bs : List WalBatch) (cut j : Nat) : Prop := (frames C (bs.take (j + 1))).length ≤ cut

theorem length_frames_take_mono {j k : Nat} (h : j ≤ k) :
    (frames C (bs.take j)).length ≤ (frames C (bs.take k)).length := by
  obtain ⟨x, hx⟩ := List.take_prefix_take_left h (l := bs)
  rw [← hx, frames_append, List.length_append]
  exact Nat.le_add_right _ _

/-- Replay of a log that is cut. -/
theorem replay_cut (hbs : ∀ b ∈ bs, Frameable C b) (cut : Nat) :
    ∃ k, (∀ j < bs.length, j < k ↔ EndsBefore C bs cut j) ∧
      Wal.replay C (some ((frames C bs).take cut)) = (bs.take k, some (frames C (bs.take k))) := by
  obtain ⟨k, tail, htake, htail, hnext⟩ := frames_take hbs [] rfl cut
  rw [List.append_nil] at htake
  refine ⟨k, fun j hj => ⟨fun hlt => ?_, fun hends => ?_⟩, ?_⟩
  · have hlen : (frames C (bs.take k)).length ≤ cut := by
      have hl := congrArg List.length htake
      rw [List.length_take, List.length_append] at hl
      omega
    exact Nat.le_trans (length_frames_take_mono hlt) hlen
  · by_contra hge
    have hmono : (frames C (bs.take (k + 1))).length ≤ (frames C (bs.take (j + 1))).length :=
      length_frames_take_mono (by omega)
    unfold EndsBefore at hends
    omega
  · rw [htake]
    exact Wal.replay_frames (fun b hb => hbs b (List.mem_of_mem_take hb)) htail

/-! ## Logs through appends and crashes -/

/-- A log that has been written and recovered any number of times, and the batches that are in it. -/
inductive Logged (C : Coding) : List WalBatch → Option Bytes → Prop
  | missing : Logged C [] none
  /-- The log is opened, and batches are appended. -/
  | appended {bs more : List WalBatch} {file : Option Bytes} : Logged C bs file → (∀ b ∈ more, Frameable C b) →
      Logged C (bs ++ more) (some ((Wal.openFile file).appendAll C more).file)
  /-- The log is cut and replayed. -/
  | recovered {bs : List WalBatch} {data : Bytes} (cut : Nat) : Logged C bs (some data) →
      Logged C (Wal.replay C (some (data.take cut))).1 (Wal.replay C (some (data.take cut))).2

theorem Logged.data_eq (h : Logged C bs file) : file.getD [] = frames C bs ∧ ∀ b ∈ bs, Frameable C b := by
  induction h with
  | missing => exact ⟨rfl, by simp⟩
  | @appended bs file more _ hmore ih =>
    refine ⟨?_, fun b hb => (List.mem_append.1 hb).elim (ih.2 b) (hmore b)⟩
    rw [Option.getD_some, Wal.file_appendAll, ih.1, frames_append]
  | @recovered bs data cut _ ih =>
    obtain ⟨hdata, hbs⟩ := ih
    obtain ⟨k, -, hreplay⟩ := replay_cut hbs cut
    rw [Option.getD_some] at hdata
    rw [hdata, hreplay]
    exact ⟨rfl, fun b hb => hbs b (List.mem_of_mem_take hb)⟩

/-- **A torn log keeps exactly its whole frames.** Whatever was appended to a log, in any number of sessions: if it
is cut anywhere, replay returns the batches whose frames end before the cut, and leaves the file ending with the last
of them. What is appended then is replayed after them, and replaying again changes nothing. -/
theorem torn_log_keeps_whole (C : Coding) (h : Logged C bs (some data)) (cut : Nat) :
    ∃ k, (∀ j < bs.length, j < k ↔ EndsBefore C bs cut j) ∧
      Wal.replay C (some (data.take cut)) = (bs.take k, some (frames C (bs.take k))) ∧
      (∀ more, (∀ b ∈ more, Frameable C b) →
        (Wal.replay C (some ((Wal.openFile (Wal.replay C (some (data.take cut))).2).appendAll C more).file)).1 =
          bs.take k ++ more) ∧
      Wal.replay C (Wal.replay C (some (data.take cut))).2 = Wal.replay C (some (data.take cut)) := by
  obtain ⟨hdata, hbs⟩ := h.data_eq
  rw [Option.getD_some] at hdata
  obtain ⟨k, hk, hreplay⟩ := replay_cut hbs cut
  have hkept : ∀ b ∈ bs.take k, Frameable C b := fun b hb => hbs b (List.mem_of_mem_take hb)
  rw [hdata, hreplay]
  refine ⟨k, hk, rfl, fun more hmore => ?_, Wal.replay_whole hkept⟩
  rw [Wal.file_appendAll, Option.getD_some, ← frames_append, Wal.replay_whole]
  exact fun b hb => (List.mem_append.1 hb).elim (hkept b) (hmore b)

/-- Two batches, and a cut in the frame of the second. -/
theorem torn_log_keeps_whole_plain :
    ∃ data, Logged Coding.plain [⟨1, [([1], some [2])]⟩, ⟨2, [([1], none)]⟩] (some data) ∧
      Wal.replay Coding.plain (some (data.take 25)) =
        ([⟨1, [([1], some [2])]⟩], some (frame Coding.plain ⟨1, [([1], some [2])]⟩)) := by
  have hfit : ∀ b ∈ [WalBatch.mk 1 [([1], some [2])], ⟨2, [([1], none)]⟩], Frameable Coding.plain b := by decide
  have hlog := Logged.missing.appended hfit
  obtain ⟨k, hk, hreplay, -, -⟩ := torn_log_keeps_whole Coding.plain hlog 25
  obtain rfl : k = 1 := by
    have h₀ : 0 < k := (hk 0 (by decide)).2 (by unfold EndsBefore; decide)
    have h₁ : ¬ 1 < k := fun h => absurd ((hk 1 (by decide)).1 h) (by unfold EndsBefore; decide)
    omega
  exact ⟨_, hlog, hreplay⟩

end RaftKv.Storage

import RaftKv.Storage.Coding

/-!
# The write-ahead log

Each batch is one frame `[len u32][crc u32][payload]`. Replay reads frames until one is cut short
or fails its checksum, and drops everything from there on. A frame of which only a part was written
is recognised by its length alone (`readFrame_torn`).

| here | there |
| --- | --- |
| `frame` | `Wal::append` (`wal.rs:57`) |
| `readFrame`, `replay` | the loop of `Wal::replay` (`wal.rs:97-115`); `replay` also returns the offset where it ends |
-/

namespace RaftKv.Storage

open List

/-- The operations as versions, numbered from `n`. -/
def numberFrom : Nat → List (Bytes × Option Bytes) → List Entry
  | _, [] => []
  | n, (k, v) :: ops => (k, n, v) :: numberFrom (n + 1) ops

def WalBatch.entries (b : WalBatch) : List Entry := numberFrom b.firstSeq b.ops

variable (C : Coding)

/-- What `append` writes. A payload that is too long for the length field has its length cut off. -/
def frame (b : WalBatch) : Bytes :=
  leBytes 4 (C.batch.ser b).length ++ leBytes 4 (C.crc (C.batch.ser b)) ++ C.batch.ser b

/-- The first frame of `data`, and what follows. -/
def readFrame (data : Bytes) : Option (WalBatch × Bytes) :=
  if data.length < 8 then none
  else
    let len := leNat (data.take 4)
    let crc := leNat ((data.drop 4).take 4)
    let data := data.drop 8
    -- torn: the frame promises more bytes than there are
    if data.length < len then none
    else
      let payload := data.take len
      if C.crc payload ≠ crc then none
      else
        match C.batch.de payload with
        | .ok b => some (b, data.drop len)
        | .error _ => none

variable {C}

variable {data : Bytes}

theorem readFrame_lt {rest : Bytes} {b : WalBatch} (h : readFrame C data = some (b, rest)) :
    rest.length < data.length := by
  unfold readFrame at h
  split at h
  · cases h
  · dsimp only at h
    split at h
    · cases h
    · split at h
      · cases h
      · split at h
        · cases h
          simp only [length_drop]
          omega
        · cases h

variable (C) in
/-- The batches of the whole frames at the front, and how many bytes they take. -/
def replay (data : Bytes) : List WalBatch × Nat :=
  match h : readFrame C data with
  | none => ([], 0)
  | some (b, rest) =>
    have : rest.length < data.length := readFrame_lt h
    let r := replay rest
    (b :: r.1, data.length - rest.length + r.2)
termination_by data.length

/-! ## Whole and torn frames -/

variable {b : WalBatch} {bs : List WalBatch} {rest : Bytes}

variable (C) in
/-- The payload of the batch fits its length field. -/
def Frameable (b : WalBatch) : Prop := (C.batch.ser b).length < 2 ^ 32

instance (b : WalBatch) : Decidable (Frameable C b) := inferInstanceAs (Decidable ((C.batch.ser b).length < 2 ^ 32))

variable (C) in
def frames (bs : List WalBatch) : Bytes := bs.flatMap (frame C)

theorem frames_append (bs bs' : List WalBatch) : frames C (bs ++ bs') = frames C bs ++ frames C bs' := flatMap_append

theorem frames_singleton (b : WalBatch) : frames C [b] = frame C b := by
  simp [frames]

theorem length_frame (b : WalBatch) : (frame C b).length = 8 + (C.batch.ser b).length := by
  simp only [frame, length_append, length_leBytes]

theorem readFrame_frame (hb : Frameable C b) (rest : Bytes) : readFrame C (frame C b ++ rest) = some (b, rest) := by
  have hlen : leNat (leBytes 4 (C.batch.ser b).length) = (C.batch.ser b).length :=
    leNat_leBytes_of_lt (Nat.lt_of_lt_of_le hb (by decide))
  have h4 : (frame C b ++ rest).take 4 = leBytes 4 (C.batch.ser b).length := by
    rw [frame, append_assoc, append_assoc]
    exact take_left' (length_leBytes ..)
  have h4' : ((frame C b ++ rest).drop 4).take 4 = leBytes 4 (C.crc (C.batch.ser b)) := by
    rw [frame, append_assoc]
    exact take_left' (length_leBytes ..)
  have h8 : (frame C b ++ rest).drop 8 = C.batch.ser b ++ rest := by
    rw [frame, append_assoc]
    exact drop_left' (by simp)
  unfold readFrame
  rw [if_neg (by rw [length_append, length_frame]; omega)]
  simp only [h4, h4', h8, hlen, take_left, drop_left, C.leNat_crc, ne_eq, not_true_eq_false, if_false,
    C.batch.de_ser]
  rw [if_neg (by rw [length_append]; omega)]

/-- A frame that is cut off is not taken for a frame. -/
theorem readFrame_torn (hb : Frameable C b) {n : Nat} (hn : n < (frame C b).length) :
    readFrame C ((frame C b).take n) = none := by
  unfold readFrame
  split
  · rfl
  · have hlen : ((frame C b).take n).length = n := length_take_of_le hn.le
    have htake : ((frame C b).take n).take 4 = leBytes 4 (C.batch.ser b).length := by
      rw [take_take, Nat.min_eq_left (by omega)]
      exact take_left' (length_leBytes ..)
    rw [htake, leNat_leBytes_of_lt (Nat.lt_of_lt_of_le hb (by decide)), if_pos]
    rw [length_drop]
    rw [length_frame] at hn
    omega

theorem replay_of_none (h : readFrame C data = none) : replay C data = ([], 0) := by
  rw [replay]
  split
  · rfl
  · rename_i hsome
    rw [h] at hsome
    cases hsome

theorem replay_of_some (h : readFrame C data = some (b, rest)) :
    replay C data = (b :: (replay C rest).1, data.length - rest.length + (replay C rest).2) := by
  rw [replay]
  split
  · rename_i hnone
    rw [h] at hnone
    cases hnone
  · rename_i hsome
    rw [h] at hsome
    cases hsome
    rfl

/-- What follows the frames is replayed after them. -/
theorem replay_append (hbs : ∀ b ∈ bs, Frameable C b) (rest : Bytes) :
    replay C (frames C bs ++ rest) = (bs ++ (replay C rest).1, (frames C bs).length + (replay C rest).2) := by
  induction bs with
  | nil => simp [frames]
  | cons b bs ih =>
    have hone : readFrame C (frames C (b :: bs) ++ rest) = some (b, frames C bs ++ rest) := by
      rw [frames, flatMap_cons, append_assoc]
      exact readFrame_frame (hbs b (by simp)) _
    have hlen : (frames C (b :: bs) ++ rest).length - (frames C bs ++ rest).length + (frames C bs).length =
        (frames C (b :: bs)).length := by
      rw [frames, flatMap_cons]
      simp only [length_append, frames]
      omega
    rw [replay_of_some hone, ih fun b' hb' => hbs b' (mem_cons_of_mem _ hb')]
    simp only [cons_append]
    rw [← Nat.add_assoc, hlen]

/-- Replay returns the whole frames, if what follows is none. -/
theorem replay_frames (hbs : ∀ b ∈ bs, Frameable C b) (hrest : readFrame C rest = none) :
    replay C (frames C bs ++ rest) = (bs, (frames C bs).length) := by
  rw [replay_append hbs, replay_of_none hrest]
  simp

theorem replay_whole (hbs : ∀ b ∈ bs, Frameable C b) : replay C (frames C bs) = (bs, (frames C bs).length) := by
  have h : replay C (frames C bs ++ []) = (bs, (frames C bs).length) := replay_frames hbs rfl
  rwa [append_nil] at h

/-! ## Cutting a log -/

theorem readFrame_append (h : readFrame C data = some (b, rest)) (more : Bytes) :
    readFrame C (data ++ more) = some (b, rest ++ more) := by
  unfold readFrame at h
  split at h
  · cases h
  · dsimp only at h
    split at h
    · cases h
    · rename_i hlen
      rw [length_drop] at hlen
      have h4 : (data ++ more).take 4 = data.take 4 := take_append_of_le_length (by omega)
      have h4' : ((data ++ more).drop 4).take 4 = (data.drop 4).take 4 := by
        rw [drop_append_of_le_length (by omega), take_append_of_le_length (by simp; omega)]
      have hdrop : (data ++ more).drop 8 = data.drop 8 ++ more := drop_append_of_le_length (by omega)
      have hpay : (data.drop 8 ++ more).take (leNat (data.take 4)) = (data.drop 8).take (leNat (data.take 4)) :=
        take_append_of_le_length (by simp; omega)
      split at h
      · cases h
      · rename_i hcrc
        split at h
        · rename_i b' hde
          cases h
          unfold readFrame
          rw [if_neg (by simp; omega)]
          simp only [h4, h4', hdrop, hpay]
          rw [if_neg (by simp; omega), if_neg hcrc, hde]
          rw [drop_append_of_le_length (by simp; omega)]
        · cases h

/-- What is no frame is none when it is cut, either. -/
theorem readFrame_take (h : readFrame C rest = none) (n : Nat) : readFrame C (rest.take n) = none := by
  cases hr : readFrame C (rest.take n) with
  | none => rfl
  | some p =>
    have happ := readFrame_append hr (rest.drop n)
    rw [take_append_drop, h] at happ
    cases happ

/-- A log that is cut has the first of its batches, and perhaps a torn frame. -/
theorem frames_take (hbs : ∀ b ∈ bs, Frameable C b) (rest : Bytes) (hrest : readFrame C rest = none) (n : Nat) :
    ∃ j tail, (frames C bs ++ rest).take n = frames C (bs.take j) ++ tail ∧ readFrame C tail = none ∧
      (j < bs.length → n < (frames C (bs.take (j + 1))).length) := by
  induction bs generalizing n with
  | nil => exact ⟨0, rest.take n, rfl, readFrame_take hrest n, fun h => (by cases h)⟩
  | cons b bs ih =>
    have hsplit : frames C (b :: bs) ++ rest = frame C b ++ (frames C bs ++ rest) := by simp [frames]
    by_cases hn : n < (frame C b).length
    · refine ⟨0, (frame C b).take n, ?_, readFrame_torn (hbs b (by simp)) hn, fun _ => ?_⟩
      · rw [hsplit, take_append_of_le_length hn.le]
        rfl
      · simpa [frames] using hn
    · obtain ⟨j, tail, htake, htail, hj⟩ := ih (fun b' hb' => hbs b' (mem_cons_of_mem _ hb')) (n - (frame C b).length)
      refine ⟨j + 1, tail, ?_, htail, fun hlt => ?_⟩
      · rw [hsplit, take_append, take_of_length_le (Nat.not_lt.1 hn), htake]
        simp [frames]
      · have hlt' := hj (by simpa using hlt)
        rw [take_succ_cons, frames, flatMap_cons, length_append]
        simp only [frames] at hlt'
        omega

end RaftKv.Storage

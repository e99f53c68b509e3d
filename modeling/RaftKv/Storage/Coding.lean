import RaftKv.Lib.Bytes
import RaftKv.Lib.Format
import RaftKv.Raft.Types

/-!
# Data and encodings of the storage engine

The records that the engine writes to its files, and what it relies on from `bincode` and
`crc32fast`: decoding returns what was encoded, and a checksum is a number of 32 bits.

| here | there |
| --- | --- |
| `Entry`     | `memtable::Entry` (`storage/src/memtable.rs:15`) |
| `Manifest`, `TableMeta` | `manifest.rs:19-35` |
| `TableIndex`, `BlockMeta` | `sstable.rs:26-42` |
| `WalBatch`  | `wal.rs:28-34` |
| `Error`     | `error.rs:8`, and the ways in which a call does not return |
-/

namespace RaftKv.Storage

/-- `(user_key, seq, value)`; the value `none` is a tombstone. -/
abbrev Entry := Bytes × Nat × Option Bytes

inductive Error where
  | io
  | corruption (msg : String)
  /-- An index out of range, or an `expect` that fails. -/
  | panic
  /-- A sum or product that does not fit its type. -/
  | overflow
  /-- The loop of `maybe_compact` has not ended within the given number of turns. -/
  | outOfFuel
deriving DecidableEq, Repr

/-- The call ran into the limits of a type or of its fuel; nothing is wrong with the files. -/
def Error.IsLimit : Error → Prop
  | .overflow | .outOfFuel => True
  | .io | .corruption _ | .panic => False

section
variable {α β : Type} {x : Except Error α} {b : β}

theorem bind_eq_ok {f : α → Except Error β} (h : x >>= f = .ok b) : ∃ a, x = .ok a ∧ f a = .ok b := by
  cases x with
  | error e => cases h
  | ok a => exact ⟨a, rfl, h⟩

theorem ok_bind (a : α) (f : α → Except Error β) : (Except.ok a >>= f) = f a := rfl

/-- If it fails, it is because something does not fit its type. -/
def Limited (x : Except Error α) : Prop := ∀ e, x = .error e → e = .overflow

theorem Limited.ok (a : α) : Limited (.ok a) := fun _ h => (by cases h)

theorem Limited.overflow : Limited (.error .overflow : Except Error α) := fun _ h => (by cases h; rfl)

theorem Limited.bind {f : α → Except Error β} (hx : Limited x) (hf : ∀ a, x = .ok a → Limited (f a)) :
    Limited (x >>= f) := by
  intro e h
  cases x with
  | error e' => exact hx e (by cases h; rfl)
  | ok a => exact hf a rfl e h

theorem map_eq_ok {f : α → β} (h : x.map f = .ok b) : ∃ a, x = .ok a ∧ f a = b := by
  cases x with
  | error e => cases h
  | ok a => exact ⟨a, rfl, Except.ok.inj h⟩

end

/-- A sum or product of `u64` or `usize`. -/
def u64 (n : Nat) : Except Error Nat := if n < 2 ^ 64 then .ok n else .error .overflow

theorem u64_of_lt {n : Nat} (h : n < 2 ^ 64) : u64 n = .ok n := if_pos h

theorem u64_eq_ok {n m : Nat} (h : u64 n = .ok m) : n < 2 ^ 64 ∧ m = n := by
  unfold u64 at h
  split at h
  · rename_i hlt
    cases h
    exact ⟨hlt, rfl⟩
  · cases h

theorem limited_u64 (n : Nat) : Limited (u64 n) := by
  unfold u64
  split
  · exact Limited.ok n
  · exact Limited.overflow

structure TableMeta where
  id : Nat
  minKey : Bytes
  maxKey : Bytes
  entries : Nat
  bytes : Nat
deriving DecidableEq, Repr

structure Manifest where
  levels : List (List TableMeta) := []
  nextTableId : Nat := 0
  lastSeq : Nat := 0
deriving DecidableEq, Repr

structure BlockMeta where
  firstKey : Bytes
  offset : Nat
  len : Nat
  crc : Nat
deriving DecidableEq, Repr

structure TableIndex where
  blocks : List BlockMeta
  bloom : Bytes
  entryCount : Nat
  minKey : Bytes
  maxKey : Bytes
  maxSeq : Nat
deriving DecidableEq, Repr

/-- `ops[i]` has the sequence number `first_seq + i`. -/
structure WalBatch where
  firstSeq : Nat
  ops : List (Bytes × Option Bytes)
deriving DecidableEq, Repr

/-- `bincode` for the three stored records, and `crc32fast::hash`. -/
structure Coding where
  manifest : Serde Bytes Manifest
  index : Serde Bytes TableIndex
  batch : Serde Bytes WalBatch
  crc : Bytes → Nat
  crc_lt : ∀ data, crc data < 2 ^ 32

theorem Coding.leNat_crc (C : Coding) (data : Bytes) : leNat (leBytes 4 (C.crc data)) = C.crc data :=
  leNat_leBytes_of_lt (Nat.lt_of_lt_of_le (C.crc_lt data) (by decide))

/-! ## Encodings for evaluation -/

def TableMeta.format : Format TableMeta :=
  (Format.nat.pair (Format.bytes.pair (Format.bytes.pair (Format.nat.pair Format.nat)))).via
    (fun t => (t.id, t.minKey, t.maxKey, t.entries, t.bytes)) (fun p => ⟨p.1, p.2.1, p.2.2.1, p.2.2.2.1, p.2.2.2.2⟩)
    (fun _ => rfl)

def Manifest.format : Format Manifest :=
  (TableMeta.format.list.list.pair (Format.nat.pair Format.nat)).via
    (fun m => (m.levels, m.nextTableId, m.lastSeq)) (fun p => ⟨p.1, p.2.1, p.2.2⟩) (fun _ => rfl)

def BlockMeta.format : Format BlockMeta :=
  (Format.bytes.pair (Format.nat.pair (Format.nat.pair Format.nat))).via
    (fun b => (b.firstKey, b.offset, b.len, b.crc)) (fun p => ⟨p.1, p.2.1, p.2.2.1, p.2.2.2⟩) (fun _ => rfl)

def TableIndex.format : Format TableIndex :=
  (BlockMeta.format.list.pair
    (Format.bytes.pair (Format.nat.pair (Format.bytes.pair (Format.bytes.pair Format.nat))))).via
    (fun t => (t.blocks, t.bloom, t.entryCount, t.minKey, t.maxKey, t.maxSeq))
    (fun p => ⟨p.1, p.2.1, p.2.2.1, p.2.2.2.1, p.2.2.2.2.1, p.2.2.2.2.2⟩) (fun _ => rfl)

def WalBatch.format : Format WalBatch :=
  (Format.nat.pair (Format.bytes.pair Format.bytes.option).list).via
    (fun b => (b.firstSeq, b.ops)) (fun p => ⟨p.1, p.2⟩) (fun _ => rfl)

/-- An encoding to compute with; its checksum is the last byte of a sum. -/
def Coding.plain : Coding where
  manifest := Manifest.format.serde
  index := TableIndex.format.serde
  batch := WalBatch.format.serde
  crc data := (data.foldl (fun s b => s + b.toNat) 7) % 256
  crc_lt _ := Nat.lt_of_lt_of_le (Nat.mod_lt _ (by decide)) (by decide)

end RaftKv.Storage

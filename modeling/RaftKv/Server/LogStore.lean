import RaftKv.Lib.Bytes
import RaftKv.Lib.Format
import RaftKv.Lib.KvStore
import RaftKv.Raft.Types

/-!
# The log store

`LogStore` keeps a node's hard state, snapshot and log in an ordered key-value store: one key each
for the first two, one key per log entry, named by the big-endian index so that a scan returns the
log in order. It caches the lowest and the highest index stored.

| here | there |
| --- | --- |
| `LogStore.openStore` | `LogStore::open` (`server/src/logstore.rs:48`) |
| `LogStore.persist`   | `LogStore::persist` (`logstore.rs:96`) |
| `LogStore.compactTo` | `LogStore::compact_to` (`logstore.rs:141`) |
| `Serde`, `Codec`     | `bincode` for the three stored types |
| `OrdMap Bytes V`     | `storage::Db`: an ordered map with atomic batches |
-/

namespace RaftKv

structure Codec (V : Type) where
  hardState : Serde V HardState
  snapshot : Serde V Snapshot
  entry : Serde V Entry

/-- `b"m/hs"` -/
def keyHs : Bytes := [109, 47, 104, 115]

/-- `b"m/snap"` -/
def keySnap : Bytes := [109, 47, 115, 110, 97, 112]

/-- `b"e/"` -/
def entryPrefix : Bytes := [101, 47]

/-- `b"e0"`: '0' is the byte after '/'. -/
def entryEnd : Bytes := [101, 48]

/-- `entry_key` (`logstore.rs:27`) -/
def entryKey (index : Nat) : Bytes := entryPrefix ++ beBytes 8 index

structure LogStore (V : Type) where
  db : OrdMap Bytes V
  firstIndex : Nat
  lastIndex : Nat

namespace LogStore

variable {V : Type} (C : Codec V)

/-- An error is `storage::Error::Corruption` with the given text. -/
def readHardState (db : OrdMap Bytes V) : Except String HardState :=
  match db.find? keyHs with
  | some b => (C.hardState.de b).mapError ("hard state: " ++ ·)
  | none => .ok {}

def readSnapshot (db : OrdMap Bytes V) : Except String (Option Snapshot) :=
  match db.find? keySnap with
  | some b => ((C.snapshot.de b).mapError ("snapshot: " ++ ·)).map some
  | none => .ok none

/-- The scan has no limit (`usize::MAX`). -/
def readEntries (db : OrdMap Bytes V) : Except String (List Entry) :=
  (db.range entryPrefix entryEnd).mapM fun p => (C.entry.de p.2).mapError ("log entry: " ++ ·)

def openStore (db : OrdMap Bytes V) : Except String (LogStore V × Persisted) := do
  let hardState ← readHardState C db
  let snapshot ← readSnapshot C db
  let entries ← readEntries C db
  pure ({ db, firstIndex := (entries.head?.map Entry.index).getD 0
          lastIndex := (entries.getLast?.map Entry.index).getD 0 },
        { hardState, entries, snapshot })

/-- `for i in first..=last { ops.push((entry_key(i), None)) }` -/
def deletes (first last : Nat) : List (Bytes × Option V) :=
  (List.range' first (last + 1 - first)).map fun i => (entryKey i, none)

def hardStateOps : Option HardState → List (Bytes × Option V)
  | some hs => [(keyHs, some (C.hardState.ser hs))]
  | none => []

/-- The operations for a leader-installed snapshot, which replaces the entire log. -/
def snapshotOps (ls : LogStore V) : Option Snapshot → List (Bytes × Option V)
  | some snap => (keySnap, some (C.snapshot.ser snap)) ::
      if ls.lastIndex ≠ 0 then deletes ls.firstIndex ls.lastIndex else []
  | none => []

/-- The cached bounds after a leader-installed snapshot. -/
def cleared (ls : LogStore V) : Option Snapshot → LogStore V
  | some _ => { ls with firstIndex := 0, lastIndex := 0 }
  | none => ls

/-- The operations for appended entries that start with `firstNew`. -/
def appendOps (ls : LogStore V) (firstNew : Nat) (append : List Entry) : List (Bytes × Option V) :=
  (if ls.lastIndex ≠ 0 ∧ firstNew ≤ ls.lastIndex then deletes firstNew ls.lastIndex else []) ++
    append.map fun e => (entryKey e.index, some (C.entry.ser e))

def persist (ls : LogStore V) (hs : Option HardState) (append : List Entry) (snapshot : Option Snapshot) :
    LogStore V :=
  let ops := hardStateOps C hs ++ ls.snapshotOps C snapshot
  let ls := ls.cleared snapshot
  let (ls, ops) := match append with
    | [] => (ls, ops)
    | e :: es =>
      let firstNew := e.index
      ({ ls with
          firstIndex := if ls.firstIndex = 0 ∨ firstNew < ls.firstIndex then firstNew else ls.firstIndex
          lastIndex := ((e :: es).getLast (by simp)).index },
       ops ++ ls.appendOps C firstNew (e :: es))
  if ops.isEmpty then ls else { ls with db := ls.db.writeBatch ops }

def compactTo (ls : LogStore V) (snap : Snapshot) : LogStore V :=
  let ops := [(keySnap, some (C.snapshot.ser snap))]
  let (ls, ops) :=
    if ls.lastIndex ≠ 0 ∧ ls.firstIndex ≤ snap.lastIndex then
      let ops := ops ++ deletes ls.firstIndex (min snap.lastIndex ls.lastIndex)
      if snap.lastIndex ≥ ls.lastIndex then ({ ls with firstIndex := 0, lastIndex := 0 }, ops)
      else ({ ls with firstIndex := snap.lastIndex + 1 }, ops)
    else (ls, ops)
  { ls with db := ls.db.writeBatch ops }

end LogStore

end RaftKv

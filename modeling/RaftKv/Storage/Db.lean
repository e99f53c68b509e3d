import RaftKv.Lib.Ensures
import RaftKv.Storage.Compactor
import RaftKv.Storage.Iter
import RaftKv.Storage.Manifest
import RaftKv.Storage.MemTable
import RaftKv.Storage.Wal

/-!
# The engine

The write path appends to the log and to the memtable; a memtable over its budget becomes a table
of level 0, and levels over theirs are merged into the next one. A read goes through the memtable
and the levels in order and stops at the first hit.

| here | there |
| --- | --- |
| `Db.openDir` | `Db::open` (`db.rs:93`) |
| `Db.writeBatch`, `Db.getAt`, `Db.scanAt` | `db.rs:149`, `db.rs:181`, `db.rs:229` |
| `Db.snapshot`, `Db.dropSnapshot` | `db.rs:210`, `impl Drop for Snapshot` (`db.rs:66`) |
| `Db.flush`, `Db.maybeFlush` | `db.rs:278`, `db.rs:266` |
| `Db.maybeCompact`, `Db.compactLevel` | `db.rs:323`, `db.rs:349` |

The files are a `Disk`, and a call is a program over it that records each of its steps, with the
files and the database before the step: there, or in the midst of the step, the process can be
stopped or the call can fail. The manifest is saved in one step; `Manifest` has its parts. A sum of
`u64` that does not fit is `Error.overflow`, as in a checked build. A length that does not fit its
`u32` field is cut off, and the engine's `fits` is then false. The loop of `maybe_compact` has a
bound on its turns.
-/

namespace RaftKv.Storage

inductive SyncPolicy where
  | always
  | never
deriving DecidableEq, Repr

structure Options where
  memtableBytes : Nat := 4 * 2 ^ 20
  sync : SyncPolicy := .always
  l0Trigger : Nat := 4
  levelBaseBytes : Nat := 32 * 2 ^ 20
  levelMultiplier : Nat := 10
  targetTableBytes : Nat := 4 * 2 ^ 20
  blockBytes : Nat := 4096
  bitsPerKey : Nat := 10
deriving DecidableEq, Repr

/-! ## Files -/

structure Disk where
  manifest : ManifestDir := {}
  wal : Option Bytes := none
  /-- How much of the log is on stable storage. -/
  synced : Nat := 0
  table : Nat → Option Bytes := fun _ => none

/-- A step on the files. -/
inductive Effect where
  | walCreate
  | walWrite (bytes : Bytes)
  | walSync
  /-- `set_len` and the sync that follows it. -/
  | walSetLen (n : Nat)
  | writeTable (id : Nat) (file : Bytes)
  /-- `SsTable::open`, which only reads. -/
  | openTable (id : Nat)
  | saveManifest (m : Manifest)
  | removeTable (id : Nat)

namespace Disk

variable (C : Coding)

def log (d : Disk) : Bytes := d.wal.getD []

def setTable (d : Disk) (id : Nat) (file : Option Bytes) : Disk := { d with table := Function.update d.table id file }

@[simp] theorem setTable_self (d : Disk) (id : Nat) (file : Option Bytes) : (d.setTable id file).table id = file :=
  Function.update_self ..

theorem setTable_ne (d : Disk) {id id' : Nat} (h : id' ≠ id) (file : Option Bytes) :
    (d.setTable id file).table id' = d.table id' :=
  Function.update_of_ne h ..

def apply (d : Disk) : Effect → Disk
  | .walCreate => { d with wal := some d.log }
  | .walWrite bytes => { d with wal := some (d.log ++ bytes) }
  | .walSync => { d with synced := d.log.length }
  | .walSetLen n => { d with wal := some (d.log.take n), synced := n }
  | .writeTable id file => d.setTable id (some file)
  | .openTable _ => d
  | .saveManifest m => { d with manifest := { main := some (m.file C) } }
  | .removeTable id => d.setTable id none

/-- `table_path`; the id is padded to eight digits. -/
def tablePath (dir : String) (id : Nat) : String :=
  dir ++ "/" ++ "".pushn '0' (8 - (toString id).length) ++ toString id ++ ".sst"

def openTable (d : Disk) (dir : String) (id : Nat) : Except Error SsTable :=
  match d.table id with
  | none => .error .io
  | some file => SsTable.openFile C file (tablePath dir id) id

def getTable (d : Disk) (t : SsTable) (key : Bytes) (snapshot : Nat) : Except Error (Option (Nat × Option Bytes)) :=
  match d.table t.id with
  | none => .error .io
  | some file => t.get C file key snapshot

def iterTable (d : Disk) (t : SsTable) : Except Error (List Entry) :=
  match d.table t.id with
  | none => .error .panic
  | some file => t.iter C file

end Disk

/-! ## State -/

structure Db where
  dir : String
  opts : Options
  mem : MemTable := {}
  levels : List (List SsTable) := []
  manifest : Manifest := {}
  seq : Nat := 0
  /-- How many snapshots there are at each number. -/
  snapshots : OrdMap Nat Nat := ∅

/-- A step of a call, with what was there before it. -/
structure Step where
  disk : Disk
  db : Db
  effect : Effect

/-- An open database, its files and what has been done to them. -/
structure Engine where
  disk : Disk
  db : Db
  steps : List Step := []
  /-- No length was cut off to its `u32` field. -/
  fits : Bool := true

abbrev EngineM := EStateM Error Engine

/-- Level `i`; one that does not exist is empty. -/
def levelAt {α : Type} (levels : List (List α)) (i : Nat) : List α := levels.getD i []

def liftExcept {α : Type} : Except Error α → EngineM α
  | .ok a => pure a
  | .error e => throw e

def emit (C : Coding) (e : Effect) : EngineM Unit :=
  modify fun g => { g with disk := g.disk.apply C e, steps := g.steps ++ [{ disk := g.disk, db := g.db, effect := e }] }

/-- Whether the lengths in what is about to be written fit. -/
def noteFits (fits : Bool) : EngineM Unit := modify fun g => { g with fits := g.fits && fits }

def setDb (f : Db → Db) : EngineM Unit := modify fun g => { g with db := f g.db }

def MemTable.insertAll (m : MemTable) (es : List Entry) : MemTable := es.foldl (fun m e => m.insert e.1 e.2.1 e.2.2) m

namespace Db

variable (C : Coding)

/-! ## Reads -/

/-- Level 0 overlaps: all tables are read, and the greatest number wins. -/
def bestOf (d : Disk) (key : Bytes) (snapshot : Nat) : Option (Nat × Option Bytes) → List SsTable →
    Except Error (Option (Nat × Option Bytes))
  | best, [] => .ok best
  | best, t :: ts => do
    match ← d.getTable C t key snapshot with
    | some (s, v) => bestOf d key snapshot (if best.all fun b => s > b.1 then some (s, v) else best) ts
    | none => bestOf d key snapshot best ts

def getLevel (d : Disk) (key : Bytes) (snapshot : Nat) (li : Nat) (level : List SsTable) :
    Except Error (Option (Nat × Option Bytes)) :=
  if li = 0 then bestOf C d key snapshot none level
  else
    match level[partitionPoint (fun t => t.maxKey < key) level]? with
    | some t => if t.minKey ≤ key then d.getTable C t key snapshot else .ok none
    | none => .ok none

/-- The levels from `li` on; the first one with a hit ends the search. -/
def getLevels (d : Disk) (key : Bytes) (snapshot : Nat) : Nat → List (List SsTable) → Except Error (Option Bytes)
  | _, [] => .ok none
  | li, level :: levels => do
    match ← getLevel C d key snapshot li level with
    | some (_, v) => .ok v
    | none => getLevels d key snapshot (li + 1) levels

def getAt (g : Engine) (key : Bytes) (snapshot : Nat) : Except Error (Option Bytes) :=
  match g.db.mem.get key snapshot with
  | some v => .ok v
  | none => getLevels C g.disk key snapshot 0 g.db.levels

/-- The loop over the visible versions. The limit is looked at after each push. -/
def scanLoop (start : Bytes) (stop : Option Bytes) (limit : Nat) : List (Bytes × Bytes) → List (Bytes × Option Bytes) →
    List (Bytes × Bytes)
  | out, [] => out
  | out, (k, v) :: rest =>
    if k < start then scanLoop start stop limit out rest
    else if stop.any fun e => e ≤ k then out
    else
      match v with
      | none => scanLoop start stop limit out rest
      | some v =>
        if limit ≤ (out ++ [(k, v)]).length then out ++ [(k, v)] else scanLoop start stop limit (out ++ [(k, v)]) rest

/-- All tables are merged with the memtable, which goes first. -/
def scanAt (g : Engine) (start : Bytes) (stop : Option Bytes) (limit snapshot : Nat) :
    Except Error (List (Bytes × Bytes)) := do
  let tables ← g.db.levels.flatten.mapM (g.disk.iterTable C)
  return scanLoop start stop limit [] (visible snapshot none (MergeIter.mergeAll (g.db.mem.iter :: tables)))

/-! ## Snapshots -/

def snapshot (db : Db) : Except Error (Nat × Db) :=
  let count := (db.snapshots.find? db.seq).getD 0 + 1
  if 2 ^ 32 ≤ count then .error .overflow
  else .ok (db.seq, { db with snapshots := db.snapshots.insert db.seq count })

def dropSnapshot (db : Db) (seq : Nat) : Db :=
  match db.snapshots.find? seq with
  | none => db
  | some count =>
    if count - 1 = 0 then { db with snapshots := db.snapshots.erase seq }
    else { db with snapshots := db.snapshots.insert seq (count - 1) }

/-- The oldest snapshot, or the current number. -/
def minSnap (db : Db) : Nat := db.snapshots.keys.head?.getD db.seq

/-! ## Flush -/

/-- The catalog with a new table in level 0. -/
def flushedManifest (db : Db) (t : BuiltTable) : Manifest :=
  let m := db.manifest
  let entry : TableMeta :=
    { id := m.nextTableId, minKey := t.minKey, maxKey := t.maxKey, entries := t.entries, bytes := t.bytes }
  { levels := (if m.levels.isEmpty then [[]] else m.levels).modify 0 (· ++ [entry])
    nextTableId := m.nextTableId + 1
    lastSeq := db.seq }

def flush : EngineM Unit := do
  let db := (← get).db
  if db.mem.isEmpty then return
  let id := db.manifest.nextTableId
  let t ← liftExcept (TableBuilder.build C db.opts.blockBytes db.opts.bitsPerKey db.mem.iter)
  noteFits t.fits
  emit C (.writeTable id t.file)
  emit C (.openTable id)
  let table ← liftExcept ((← get).disk.openTable C db.dir id)
  setDb fun db => { db with manifest := db.flushedManifest t }
  emit C (.saveManifest (db.flushedManifest t))
  setDb fun db => { db with levels := db.levels.modify 0 (· ++ [table]), mem := {} }
  emit C (.walSetLen 0)

/-! ## Compaction -/

def levelBytes (db : Db) (i : Nat) : Nat := ((levelAt db.manifest.levels i).map TableMeta.bytes).sum

def levelLimit (db : Db) (i : Nat) : Except Error Nat :=
  let factor := db.opts.levelMultiplier ^ (i - 1)
  if 2 ^ 64 ≤ factor ∨ 2 ^ 64 ≤ db.opts.levelBaseBytes * factor then .error .overflow
  else .ok (db.opts.levelBaseBytes * factor)

/-- The first of the levels `is` that is over its limit. -/
def overfull (db : Db) : List Nat → Except Error (Option Nat)
  | [] => .ok none
  | i :: is => do
    let limit ← db.levelLimit i
    if db.levelBytes i > limit then .ok (some i) else overfull db is

/-- `while levels.len() <= level + 1 { levels.push(Vec::new()) }` -/
def padLevels {α : Type} (n : Nat) (levels : List (List α)) : List (List α) :=
  levels ++ List.replicate (n - levels.length) []

/-- Level 0 is compacted as a whole, a deeper one by its oldest table. -/
def sourceIds (level : Nat) (tables : List SsTable) : List Nat :=
  if level = 0 then tables.map SsTable.id
  else (tables.map SsTable.id).min?.toList

def minKeyOf (tables : List SsTable) : Option Bytes :=
  tables.foldl (fun m t => if m.all fun k => t.minKey < k then some t.minKey else m) none

def maxKeyOf (tables : List SsTable) : Option Bytes :=
  tables.foldl (fun m t => if m.all fun k => t.maxKey > k then some t.maxKey else m) none

def overlaps (minK maxK : Bytes) (t : SsTable) : Bool := !(t.maxKey < minK || t.minKey > maxK)

/-- What a compaction reads, decided before it starts. -/
structure Inputs where
  srcIds : List Nat
  dstIds : List Nat

def unwrap {α : Type} : Option α → Except Error α
  | some a => .ok a
  | none => .error .panic

/-- The tables of `level` and those of the next level that overlap them; none if there is nothing to compact. -/
def inputs (db : Db) (level : Nat) : Except Error (Option Inputs) := do
  let srcIds := sourceIds level (levelAt db.levels level)
  if srcIds = [] then return none
  let src := (levelAt db.levels level).filter fun t => t.id ∈ srcIds
  let minK ← unwrap (minKeyOf src)
  let maxK ← unwrap (maxKeyOf src)
  let dstIds := ((levelAt db.levels (level + 1)).filter (overlaps minK maxK)).map SsTable.id
  return some { srcIds, dstIds }

def compactionSpec (db : Db) (level : Nat) : CompactionSpec :=
  { blockBytes := db.opts.blockBytes
    bitsPerKey := db.opts.bitsPerKey
    targetTableBytes := db.opts.targetTableBytes
    minSnap := db.minSnap
    bottom := (db.levels.drop (level + 2)).all List.isEmpty }

/-- The tables with these ids, then those with the others, are read. -/
def sources (db : Db) (level : Nat) (inp : Inputs) : List SsTable :=
  (levelAt db.levels level).filter (fun t => t.id ∈ inp.srcIds) ++
    (levelAt db.levels (level + 1)).filter fun t => t.id ∈ inp.dstIds

/-- The inputs are taken out of the two levels. -/
def takeInputs {α : Type} (id : α → Nat) (level : Nat) (inp : Inputs) (levels : List (List α)) : List (List α) :=
  (levels.modify level (·.filter fun t => id t ∉ inp.srcIds)).modify (level + 1) (·.filter fun t => id t ∉ inp.dstIds)

/-- A level is sorted by its first keys. -/
def sortLevel {α : Type} (minKey : α → Bytes) (level : Nat) (levels : List (List α)) : List (List α) :=
  levels.modify level (·.insertionSort fun a b => minKey a ≤ minKey b)

/-- The inputs are taken out of the two levels, the outputs are put into the second, which is sorted. -/
def swapLevels {α : Type} (id : α → Nat) (minKey : α → Bytes) (level : Nat) (inp : Inputs) (outputs : List α)
    (levels : List (List α)) : List (List α) :=
  (levels.modify level (·.filter fun t => id t ∉ inp.srcIds)).modify (level + 1) fun l =>
    (l.filter (fun t => id t ∉ inp.dstIds) ++ outputs).insertionSort fun a b => minKey a ≤ minKey b

/-- The catalog after the swap. -/
def swappedManifest (db : Db) (level : Nat) (inp : Inputs) (nextId : Nat) (outputs : List TableMeta) : Manifest :=
  { db.manifest with
    nextTableId := nextId
    levels := swapLevels TableMeta.id TableMeta.minKey level inp outputs db.manifest.levels }

/-- An output is opened and put into the next level. -/
def openOutput (dir : String) (level : Nat) (o : TableMeta × Bytes) : EngineM Unit := do
  emit C (.openTable o.1.id)
  let t ← liftExcept ((← get).disk.openTable C dir o.1.id)
  setDb fun db => { db with levels := db.levels.modify (level + 1) (· ++ [t]) }

def compactLevel (level : Nat) : EngineM Unit := do
  setDb fun db =>
    { db with
      levels := padLevels (level + 2) db.levels
      manifest := { db.manifest with levels := padLevels (level + 2) db.manifest.levels } }
  let g ← get
  match ← liftExcept (g.db.inputs level) with
  | none => return
  | some inp =>
    let srcs ← liftExcept ((g.db.sources level inp).mapM (g.disk.iterTable C))
    let c ← liftExcept (Compactor.run C (g.db.compactionSpec level) g.db.manifest.nextTableId (MergeIter.mergeAll srcs))
    noteFits c.fits
    c.outputs.forM fun o => emit C (.writeTable o.1.id o.2)
    -- the manifest is swapped first, then the state, and the dead files go last
    let manifest := g.db.swappedManifest level inp c.nextId (c.outputs.map Prod.fst)
    setDb fun db => { db with manifest }
    emit C (.saveManifest manifest)
    setDb fun db => { db with levels := takeInputs SsTable.id level inp db.levels }
    c.outputs.forM (openOutput C g.db.dir level)
    setDb fun db => { db with levels := sortLevel SsTable.minKey (level + 1) db.levels }
    (inp.srcIds ++ inp.dstIds).forM fun id => emit C (.removeTable id)

def maybeCompact : Nat → EngineM Unit
  | 0 => throw .outOfFuel
  | fuel + 1 => do
    let db := (← get).db
    if db.opts.l0Trigger ≤ (levelAt db.levels 0).length then do
      compactLevel C 0
      maybeCompact fuel
    else
      match ← liftExcept (db.overfull (List.range' 1 (db.levels.length - 1))) with
      | none => return
      | some i => do
        compactLevel C i
        maybeCompact fuel

/-! ## Writes -/

def maybeFlush (fuel : Nat) : EngineM Unit := do
  let db := (← get).db
  if db.opts.memtableBytes ≤ db.mem.bytes then do
    flush C
    maybeCompact C fuel

/-- `Wal::append` -/
def append (b : WalBatch) : EngineM Unit := do
  noteFits (Frameable C b)
  emit C (.walWrite (frame C b))
  if (← get).db.opts.sync = .always then emit C .walSync

def writeBatch (fuel : Nat) (ops : List (Bytes × Option Bytes)) : EngineM Nat := do
  let db := (← get).db
  if ops = [] then return db.seq
  let firstSeq ← liftExcept (u64 (db.seq + 1))
  let b : WalBatch := { firstSeq, ops }
  append C b
  let next ← liftExcept (u64 (firstSeq + ops.length))
  setDb fun db => { db with mem := db.mem.insertAll b.entries, seq := next - 1 }
  maybeFlush C fuel
  return (← get).db.seq

/-! ## Opening a directory -/

/-- `Wal::replay`: the batches of the log; a torn tail is cut off. -/
def replayLog : EngineM (List WalBatch) := do
  let data := (← get).disk.log
  let r := replay C data
  let _ ← if r.2 < data.length then emit C (.walSetLen r.2) else pure ()
  return r.1

/-- The memtable of the replayed entries. -/
def replayMem (es : List Entry) : Except Error MemTable :=
  if ∀ e ∈ es, e.2.1 < 2 ^ 64 then .ok (MemTable.insertAll {} es) else .error .overflow

def openDir (dir : String) (opts : Options) (fuel : Nat) : EngineM Unit := do
  let d := (← get).disk
  let manifest := (← liftExcept (Manifest.load C d.manifest)).getD {}
  let levels ← liftExcept (manifest.levels.mapM fun level => level.mapM fun t => d.openTable C dir t.id)
  let entries := (← replayLog C).flatMap WalBatch.entries
  let mem ← liftExcept (replayMem entries)
  emit C .walCreate
  setDb fun _ =>
    { dir, opts, mem, manifest
      levels := if levels.isEmpty then [[]] else levels
      seq := entries.foldl (fun s e => max s e.2.1) manifest.lastSeq }
  maybeFlush C fuel

end Db

end RaftKv.Storage

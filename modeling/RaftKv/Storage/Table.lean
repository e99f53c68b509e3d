import RaftKv.Lib.VersionList
import RaftKv.Storage.Block
import RaftKv.Storage.Bloom

/-!
# Sorted tables

A table file is a sequence of data blocks, an index and a footer. The builder takes entries in
order, closes a block when it is large enough, and remembers the first key, place and checksum of
each block; the index and a filter over the keys follow at the end. The reader looks the key up in
the filter and in the index, and scans the blocks that may hold it.

| here | there |
| --- | --- |
| `TableBuilder.create`, `add`, `flushBlock`, `finish` | `sstable.rs:64`, `sstable.rs:84`, `sstable.rs:123`, `sstable.rs:141` |
| `SsTable.openFile` | `SsTable::open` (`sstable.rs:189`) |
| `SsTable.readBlock`, `SsTable.get` | `sstable.rs:229`, `sstable.rs:250` |
| `SsTable.iter` | `TableIter`, run to its end (`sstable.rs:342`) |

A file is the list of its bytes; the reader is given the file under the table's path. A file of
`2 ^ 64` bytes cannot be written.
-/

namespace RaftKv.Storage

variable (C : Coding)

/-- `partition_point` of a list that `p` partitions. -/
def partitionPoint {α : Type} (p : α → Bool) (l : List α) : Nat := (l.takeWhile p).length

/-- `MAGIC`: "rftKVSST". -/
def magic : Nat := 0x7266744b56535354

structure TableBuilder where
  blockBytes : Nat
  bitsPerKey : Nat
  /-- What is written to the file so far. -/
  file : Bytes := []
  block : Bytes := []
  blockFirstKey : Option Bytes := none
  blocks : List BlockMeta := []
  offset : Nat := 0
  keyHashes : List UInt64 := []
  lastUserKey : Option Bytes := none
  entryCount : Nat := 0
  minKey : Option Bytes := none
  maxKey : Option Bytes := none
  maxSeq : Nat := 0
  /-- No length was cut off to its `u32` field. The code does not keep track of this. -/
  fits : Bool := true

/-- What `finish` returns, and the file it leaves. -/
structure BuiltTable where
  entries : Nat
  bytes : Nat
  minKey : Bytes
  maxKey : Bytes
  file : Bytes
  fits : Bool

namespace TableBuilder

/-- `Vec::with_capacity(block_bytes + 512)` panics above `isize::MAX` (`sstable.rs:69`). -/
@[irreducible]
def create (blockBytes bitsPerKey : Nat) : Except Error TableBuilder :=
  if 2 ^ 63 ≤ blockBytes + 512 then .error .overflow else .ok { blockBytes, bitsPerKey }

def flushBlock (b : TableBuilder) : Except Error TableBuilder :=
  if b.block = [] then .ok b
  else
    match b.blockFirstKey with
    | none => .error .panic
    | some firstKey =>
      .ok { b with
        file := b.file ++ b.block
        blocks := b.blocks ++ [{ firstKey, offset := b.offset, len := b.block.length % 2 ^ 32, crc := C.crc b.block }]
        blockFirstKey := none
        offset := b.offset + b.block.length
        block := []
        fits := b.fits && b.block.length < 2 ^ 32 }

/-- What `add` notes about an entry before it encodes it. -/
def note (b : TableBuilder) (e : Entry) : TableBuilder :=
  { b with
    blockFirstKey := b.blockFirstKey.or (some e.1)
    -- one hash for each distinct key
    keyHashes := if b.lastUserKey = some e.1 then b.keyHashes else b.keyHashes ++ [fnv1a e.1]
    lastUserKey := some e.1
    minKey := b.minKey.or (some e.1)
    maxKey := some e.1
    maxSeq := max b.maxSeq e.2.1
    entryCount := b.entryCount + 1 }

def add (b : TableBuilder) (e : Entry) : Except Error TableBuilder :=
  let b := { b.note e with block := b.block ++ record e, fits := b.fits && FitsU32 e }
  if b.block.length ≥ b.blockBytes then b.flushBlock C else .ok b

def index (b : TableBuilder) : TableIndex :=
  { blocks := b.blocks
    bloom := (BloomFilter.fromHashes b.keyHashes b.bitsPerKey).encode
    entryCount := b.entryCount
    minKey := b.minKey.getD []
    maxKey := b.maxKey.getD []
    maxSeq := b.maxSeq }

def finish (b : TableBuilder) : Except Error BuiltTable := do
  let b ← b.flushBlock C
  let payload := C.index.ser b.index
  let footer := leBytes 8 b.offset ++ leBytes 4 payload.length ++ leBytes 4 (C.crc payload) ++ leBytes 8 magic
  if 2 ^ 64 ≤ b.offset then .error .overflow
  else .ok { entries := b.entryCount, bytes := b.offset + payload.length + 24, minKey := b.index.minKey,
             maxKey := b.index.maxKey, file := b.file ++ payload ++ footer, fits := b.fits && payload.length < 2 ^ 32 }

/-- A builder to which these entries were added. -/
def filled (blockBytes bitsPerKey : Nat) (es : List Entry) : Except Error TableBuilder := do
  es.foldlM (add C) (← create blockBytes bitsPerKey)

/-- A table of these entries. -/
def build (blockBytes bitsPerKey : Nat) (es : List Entry) : Except Error BuiltTable :=
  filled C blockBytes bitsPerKey es >>= finish C

end TableBuilder

/-! ## Reading -/

/-- `seek` and `read_exact`. -/
def readExact (file : Bytes) (offset len : Nat) : Except Error Bytes :=
  if offset + len ≤ file.length then .ok ((file.drop offset).take len) else .error .io

structure SsTable where
  id : Nat
  path : String
  index : TableIndex
  bloom : BloomFilter
deriving DecidableEq

namespace SsTable

def openFile (file : Bytes) (path : String) (id : Nat) : Except Error SsTable :=
  if file.length < 24 then .error (.corruption ("sstable " ++ path.quote ++ " too short"))
  else
    let footer := file.drop (file.length - 24)
    if leNat (footer.drop 16) ≠ magic then .error (.corruption ("bad magic in " ++ path.quote))
    else do
      let indexOff := leNat (footer.take 8)
      let indexLen := leNat ((footer.drop 8).take 4)
      let indexCrc := leNat ((footer.drop 12).take 4)
      let payload ← readExact file indexOff indexLen
      if C.crc payload ≠ indexCrc then .error (.corruption ("index crc mismatch in " ++ path.quote))
      else
        let index ← (C.index.de payload).mapError .corruption
        let bloom ← BloomFilter.decode index.bloom
        .ok { id, path, index, bloom }

def minKey (t : SsTable) : Bytes := t.index.minKey

def maxKey (t : SsTable) : Bytes := t.index.maxKey

/-- The entries of block `i`, described by `b`. -/
def readBlock (t : SsTable) (file : Bytes) (i : Nat) (b : BlockMeta) : Except Error (List Entry) := do
  let buf ← readExact file b.offset b.len
  if C.crc buf ≠ b.crc then
    .error (.corruption ("block " ++ toString i ++ " crc mismatch in " ++ t.path.quote))
  else decodeBlock buf

/-- The scan of a block: an answer, or none if the next block has to be read. -/
def scanBlock (key : Bytes) (snapshot : Nat) : List Entry → Option (Option (Nat × Option Bytes))
  | [] => none
  | (k, seq, v) :: es =>
    if k < key then scanBlock key snapshot es
    else if k = key then if seq ≤ snapshot then some (some (seq, v)) else scanBlock key snapshot es
    else some none

/-- The loop of `get`, from block `i` on. -/
def getFrom (t : SsTable) (file : Bytes) (key : Bytes) (snapshot : Nat) : Nat → List BlockMeta →
    Except Error (Option (Nat × Option Bytes))
  | _, [] => .error .panic
  | i, b :: bs => do
    let es ← t.readBlock C file i b
    match scanBlock key snapshot es, bs with
    | some r, _ => .ok r
    | none, [] => .ok none
    -- versions of one key can straddle a block boundary
    | none, b' :: _ => if key < b'.firstKey then .ok none else t.getFrom file key snapshot (i + 1) bs

/-- The newest version of `key` up to `snapshot` in this table. -/
def get (t : SsTable) (file : Bytes) (key : Bytes) (snapshot : Nat) : Except Error (Option (Nat × Option Bytes)) :=
  if key < t.minKey ∨ t.maxKey < key then .ok none
  else if !t.bloom.mayContain key then .ok none
  else
    -- the last block that starts below the key: its newest versions may be at the end of that block
    let idx := partitionPoint (fun b => b.firstKey < key) t.index.blocks - 1
    t.getFrom C file key snapshot idx (t.index.blocks.drop idx)

/-- The blocks from `i` on, one after the other; a block that cannot be read is a panic. -/
def iterFrom (t : SsTable) (file : Bytes) : Nat → List BlockMeta → Except Error (List Entry)
  | _, [] => .ok []
  | i, b :: bs =>
    match t.readBlock C file i b with
    | .ok es => (t.iterFrom file (i + 1) bs).map (es ++ ·)
    | .error _ => .error .panic

def iter (t : SsTable) (file : Bytes) : Except Error (List Entry) := t.iterFrom C file 0 t.index.blocks

end SsTable

end RaftKv.Storage

import RaftKv.Lib.Bytes
import RaftKv.Lib.Format
import RaftKv.Lib.KvStore
import RaftKv.Raft.Types

/-!
# The replicated state machine

`kvsm/src/lib.rs`: a key-value store with a session table that answers repeated commands from the
cached result. The backend is a trait there and a class here; both implementations, the in-memory
map of the simulator and the database of the server, are ordered maps that can be dumped and loaded
(`LawfulBackend`).

| here | there |
| --- | --- |
| `Op`, `Command`, `OpResult`   | the types of the same names (`kvsm/src/lib.rs:24-60`) |
| `Backend`, `MemBackend`       | the trait and the simulator's backend (`lib.rs:72-115`) |
| `DbBackend`                   | the server's backend (`server/src/backend.rs`), with the contents of its database |
| `StateMachine.apply`          | `StateMachine::apply` (`lib.rs:146`) |
| `StateMachine.snapshot`, `.restore` | `lib.rs:217-239`; `restore` panics on undecodable data |

`bincode` enters as a `Serde` for commands and for snapshot payloads.
-/

namespace RaftKv

inductive Op where
  | put (key value : Bytes)
  | delete (key : Bytes)
  | cas (key : Bytes) (expect new : Option Bytes)
  | get (key : Bytes)
deriving DecidableEq, Repr

/-- Session 0 is no session: no dedup. -/
structure Command where
  sessionId : Nat
  seq : Nat
  op : Op
deriving DecidableEq, Repr

inductive OpResult where
  | ok
  | value (v : Option Bytes)
  | cas (success : Bool) (actual : Option Bytes)
  | stale
deriving DecidableEq, Repr

class Backend (B : Type) where
  get : B → Bytes → Option Bytes
  /-- No value is a delete. -/
  set : B → Bytes → Option Bytes → B
  scan : B → Bytes → Option Bytes → Nat → List (Bytes × Bytes)
  dump : B → List (Bytes × Bytes)
  clearAndLoad : B → List (Bytes × Bytes) → B

/-- Loading a dump gives the dumped contents, whatever was there before. -/
class LawfulBackend (B : Type) [Backend B] : Prop where
  load_dump : ∀ b b' : B, Backend.clearAndLoad b (Backend.dump b') = b'

/-- `range(start..)`, cut at `end` and at `limit`. -/
def scanMap (m : OrdMap Bytes Bytes) (start : Bytes) (stop : Option Bytes) (limit : Nat) : List (Bytes × Bytes) :=
  ((m.toList.filter fun p => start ≤ p.1 ∧ ∀ e ∈ stop, p.1 < e)).take limit

structure MemBackend where
  map : OrdMap Bytes Bytes
deriving DecidableEq

instance : Backend MemBackend where
  get b key := b.map.find? key
  set b key value := ⟨match value with
    | some v => b.map.insert key v
    | none => b.map.erase key⟩
  scan b := scanMap b.map
  dump b := b.map.toList
  clearAndLoad _ kvs := ⟨OrdMap.ofList kvs⟩

instance : LawfulBackend MemBackend where
  load_dump _ b' := congrArg MemBackend.mk (OrdMap.ofList_toList b'.map)

structure DbBackend where
  db : OrdMap Bytes Bytes
deriving DecidableEq

instance : Backend DbBackend where
  get b key := b.db.find? key
  set b key value := ⟨b.db.writeBatch [(key, value)]⟩
  -- the limit is looked at after the first pair
  scan b start stop limit := scanMap b.db start stop (max limit 1)
  dump b := b.db.toList
  clearAndLoad b kvs :=
    ⟨b.db.writeBatch (b.db.toList.map (fun p => (p.1, none)) ++ kvs.map fun p => (p.1, some p.2))⟩

instance : LawfulBackend DbBackend where
  load_dump b b' := by
    refine congrArg DbBackend.mk ?_
    rw [OrdMap.writeBatch_append, OrdMap.writeBatch_deletes, OrdMap.writeBatch, List.foldl_map]
    exact OrdMap.ofList_toList b'.db

structure SessionState where
  lastSeq : Nat
  lastResult : OpResult
deriving DecidableEq, Repr

structure SnapshotPayload where
  kvs : List (Bytes × Bytes)
  /-- Sorted by session. -/
  sessions : List (Nat × SessionState)
deriving DecidableEq, Repr

@[ext] structure StateMachine (B : Type) where
  backend : B
  sessions : OrdMap Nat SessionState

instance {B : Type} [DecidableEq B] : DecidableEq (StateMachine B) := fun a b =>
  decidable_of_iff (a.backend = b.backend ∧ a.sessions = b.sessions) StateMachine.ext_iff.symm

namespace StateMachine

variable {B : Type} [Backend B]

def new (backend : B) : StateMachine B := { backend, sessions := ∅ }

def execute (sm : StateMachine B) : Op → OpResult × StateMachine B
  | .put key value => (.ok, { sm with backend := Backend.set sm.backend key (some value) })
  | .delete key => (.ok, { sm with backend := Backend.set sm.backend key none })
  | .cas key expect new =>
    let actual := Backend.get sm.backend key
    if actual = expect then (.cas true actual, { sm with backend := Backend.set sm.backend key new })
    else (.cas false actual, sm)
  | .get key => (.value (Backend.get sm.backend key), sm)

/-- The answer from the session table: the cached one for a repeated command. -/
def cached (sm : StateMachine B) (cmd : Command) : Option OpResult :=
  if cmd.sessionId ≠ 0 then
    match sm.sessions.find? cmd.sessionId with
    | some s => if cmd.seq = s.lastSeq then some s.lastResult
        else if cmd.seq < s.lastSeq then some .stale else none
    | none => none
  else none

def apply (sm : StateMachine B) (cmd : Command) : OpResult × StateMachine B :=
  match sm.cached cmd with
  | some result => (result, sm)
  | none =>
    let (result, sm) := sm.execute cmd.op
    let sm := if cmd.sessionId ≠ 0 then
        { sm with sessions := sm.sessions.insert cmd.sessionId { lastSeq := cmd.seq, lastResult := result } }
      else sm
    (result, sm)

def read (sm : StateMachine B) (key : Bytes) : Option Bytes := Backend.get sm.backend key

def readRange (sm : StateMachine B) (start : Bytes) (stop : Option Bytes) (limit : Nat) : List (Bytes × Bytes) :=
  Backend.scan sm.backend start stop limit

def snapshot (P : Serde Bytes SnapshotPayload) (sm : StateMachine B) : Bytes :=
  P.ser { kvs := Backend.dump sm.backend, sessions := sm.sessions.toList }

def restore (P : Serde Bytes SnapshotPayload) (sm : StateMachine B) (data : Bytes) : Option (StateMachine B) :=
  match P.de data with
  | .ok payload => some { backend := Backend.clearAndLoad sm.backend payload.kvs
                          sessions := OrdMap.ofList payload.sessions }
  | .error _ => none

/-- A snapshot restores the state it was taken of. -/
theorem restore_snapshot [LawfulBackend B] (P : Serde Bytes SnapshotPayload) (sm sm' : StateMachine B) :
    sm.restore P (sm'.snapshot P) = some sm' := by
  unfold restore snapshot
  rw [P.de_ser]
  dsimp only
  rw [LawfulBackend.load_dump, OrdMap.ofList_toList]

end StateMachine

/-- `bincode` for the data inside log entries and snapshots. -/
structure Wire where
  command : Serde Bytes Command
  payload : Serde Bytes SnapshotPayload

/-! ## Encodings for evaluation -/

def Op.format : Format Op :=
  ((Format.bytes.pair Format.bytes).sum (Format.bytes.sum
    ((Format.bytes.pair (Format.bytes.option.pair Format.bytes.option)).sum Format.bytes))).via
    (fun
      | .put k v => .inl (k, v)
      | .delete k => .inr (.inl k)
      | .cas k e n => .inr (.inr (.inl (k, e, n)))
      | .get k => .inr (.inr (.inr k)))
    (fun
      | .inl (k, v) => .put k v
      | .inr (.inl k) => .delete k
      | .inr (.inr (.inl (k, e, n))) => .cas k e n
      | .inr (.inr (.inr k)) => .get k)
    (fun op => by cases op <;> rfl)

def Command.format : Format Command :=
  (Format.nat.pair (Format.nat.pair Op.format)).via (fun c => (c.sessionId, c.seq, c.op))
    (fun p => ⟨p.1, p.2.1, p.2.2⟩) (fun _ => rfl)

def OpResult.format : Format OpResult :=
  (Format.unit.sum (Format.bytes.option.sum ((Format.bool.pair Format.bytes.option).sum Format.unit))).via
    (fun
      | .ok => .inl ()
      | .value v => .inr (.inl v)
      | .cas s a => .inr (.inr (.inl (s, a)))
      | .stale => .inr (.inr (.inr ())))
    (fun
      | .inl _ => .ok
      | .inr (.inl v) => .value v
      | .inr (.inr (.inl (s, a))) => .cas s a
      | .inr (.inr (.inr _)) => .stale)
    (fun r => by cases r <;> rfl)

def SnapshotPayload.format : Format SnapshotPayload :=
  let session : Format SessionState :=
    (Format.nat.pair OpResult.format).via (fun s => (s.lastSeq, s.lastResult)) (fun p => ⟨p.1, p.2⟩) (fun _ => rfl)
  ((Format.bytes.pair Format.bytes).list.pair (Format.nat.pair session).list).via
    (fun p => (p.kvs, p.sessions)) (fun p => ⟨p.1, p.2⟩) (fun _ => rfl)

/-- An encoding to compute with. -/
def Wire.plain : Wire := ⟨Command.format.serde, SnapshotPayload.format.serde⟩

end RaftKv

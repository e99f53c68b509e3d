import RaftKv.Lib.Bytes
import RaftKv.Lib.Format
import RaftKv.Raft.Types

/-!
# Frames on a connection

A message goes over a connection as the length of its body in four bytes, and the body. Both ends
refuse a length over `MAX_FRAME`; but the writer looks at the length after it has been cut to 32
bits. Frames whose bodies are shorter than `2 ^ 32` bytes are read back as they were written. A
longer one that is accepted announces fewer bytes than it has, and the reader fails on it and
everything behind it is lost (`frames_read_back`); the snapshot of a large state is enough
(`longSnapshot_lost`).

A connection may break at any byte. The reader fails on a frame of which the body is cut, but a frame of which one to
three bytes came looks to it like no frame at all: it reports the end that a peer makes between frames
(`cut_told_apart`).

| here | there |
| --- | --- |
| `writeFrame`, `readFrame` | `proto/src/lib.rs:29`, `proto/src/lib.rs:50` |
| `PeerFrame`               | `proto/src/lib.rs:83` |
| `Yields`, `Ends`          | a reader that calls `read_frame` until it returns `Ok(None)` or an error |

A stream is the list of the bytes that were written to it and not read yet.
-/

namespace RaftKv.Proto

open List

inductive ErrorKind where
  | invalidData
  | unexpectedEof
deriving DecidableEq, Repr

structure IoError where
  kind : ErrorKind
  text : String
deriving DecidableEq, Repr

/-- `MAX_FRAME`: `64 << 20`. -/
def maxFrame : Nat := 64 * 2 ^ 20

variable {α : Type} (S : Serde Bytes α)

/-- The length field holds what the body's length leaves in 32 bits. -/
def frame (msg : α) : Bytes := leBytes 4 ((S.ser msg).length % 2 ^ 32) ++ S.ser msg

def writeFrame (stream : Bytes) (msg : α) : Except IoError Bytes :=
  let len := (S.ser msg).length % 2 ^ 32
  if len > maxFrame then .error ⟨.invalidData, "frame exceeds MAX_FRAME"⟩ else .ok (stream ++ frame S msg)

/-- The next message, if there is one, and what is left of the stream. -/
def readFrame (stream : Bytes) : Except IoError (Option α × Bytes) :=
  -- also if the stream ends within the length field
  if stream.length < 4 then .ok (none, [])
  else
    let len := leNat (stream.take 4)
    if len > maxFrame then .error ⟨.invalidData, "incoming frame exceeds MAX_FRAME"⟩
    else
      let stream := stream.drop 4
      if stream.length < len then .error ⟨.unexpectedEof, "early eof"⟩
      else
        match S.de (stream.take len) with
        | .ok msg => .ok (some msg, stream.drop len)
        | .error e => .error ⟨.invalidData, e⟩

def writeFrames (stream : Bytes) (msgs : List α) : Except IoError Bytes := msgs.foldlM (writeFrame S) stream

/-- Reading the stream yields these messages, and then its end. -/
def Yields : Bytes → List α → Prop
  | stream, [] => ∃ rest, readFrame S stream = .ok (none, rest)
  | stream, msg :: msgs => ∃ rest, readFrame S stream = .ok (some msg, rest) ∧ Yields rest msgs

/-- Reading the stream yields these messages, and then its end if it is `closed`, an error if it is not. -/
def Ends (closed : Prop) : Bytes → List α → Prop
  | stream, [] =>
    (closed → ∃ rest, readFrame S stream = .ok (none, rest)) ∧ (¬ closed → ∃ e, readFrame S stream = .error e)
  | stream, msg :: msgs => ∃ rest, readFrame S stream = .ok (some msg, rest) ∧ Ends closed rest msgs

/-- The messages whose frames are complete in the first `n` bytes, and how many of the bytes follow the last of them. -/
def complete : List α → Nat → List α × Nat
  | [], n => ([], n)
  | msg :: msgs, n =>
    if (frame S msg).length ≤ n then
      let (done, left) := complete msgs (n - (frame S msg).length)
      (msg :: done, left)
    else ([], n)

variable {S} {stream rest out : Bytes} {msg : α} {msgs : List α}

/-! ## Writing -/

/-- The writer accepts the message. -/
def Accepted (S : Serde Bytes α) (msg : α) : Prop := (S.ser msg).length % 2 ^ 32 ≤ maxFrame

theorem writeFrame_ok : writeFrame S stream msg = .ok out ↔ Accepted S msg ∧ out = stream ++ frame S msg := by
  unfold writeFrame Accepted
  dsimp only
  split
  · rename_i h
    exact iff_of_false (by simp) fun hacc => absurd hacc.1 (not_le.2 h)
  · rename_i h
    constructor
    · intro heq
      cases heq
      exact ⟨not_lt.1 h, rfl⟩
    · rintro ⟨-, rfl⟩
      rfl

theorem writeFrames_ok : writeFrames S stream msgs = .ok out ↔
    (∀ m ∈ msgs, Accepted S m) ∧ out = stream ++ msgs.flatMap (frame S) := by
  induction msgs generalizing stream with
  | nil => simp [writeFrames, pure, Except.pure, eq_comm]
  | cons m msgs ih =>
    have hbind : writeFrames S stream (m :: msgs) = writeFrame S stream m >>= fun s => writeFrames S s msgs :=
      foldlM_cons
    rw [hbind]
    cases hw : writeFrame S stream m with
    | error e =>
      have hno : ¬ Accepted S m := fun h => by
        rw [writeFrame_ok.2 ⟨h, rfl⟩] at hw
        cases hw
      simp [bind, Except.bind, hno]
    | ok s =>
      obtain ⟨hm, rfl⟩ := writeFrame_ok.1 hw
      simp [bind, Except.bind, ih, hm]

/-! ## Reading -/

theorem readFrame_nil : readFrame S [] = .ok (none, []) := rfl

/-- What the reader makes of a frame: it takes as many bytes as the length field tells. -/
theorem readFrame_frame (h : Accepted S msg) (rest : Bytes) : readFrame S (frame S msg ++ rest) =
    match S.de ((S.ser msg).take ((S.ser msg).length % 2 ^ 32)) with
    | .ok m => .ok (some m, (S.ser msg).drop ((S.ser msg).length % 2 ^ 32) ++ rest)
    | .error e => .error ⟨.invalidData, e⟩ := by
  have hle : (S.ser msg).length % 2 ^ 32 ≤ (S.ser msg).length := Nat.mod_le _ _
  have htake : (frame S msg ++ rest).take 4 = leBytes 4 ((S.ser msg).length % 2 ^ 32) := by
    exact take_left' (length_leBytes ..)
  have hdrop : (frame S msg ++ rest).drop 4 = S.ser msg ++ rest := by
    exact drop_left' (length_leBytes ..)
  have hlen : leNat (leBytes 4 ((S.ser msg).length % 2 ^ 32)) = (S.ser msg).length % 2 ^ 32 :=
    leNat_leBytes_of_lt (Nat.mod_lt _ (by decide))
  unfold readFrame
  rw [if_neg (by simp [frame])]
  simp only [htake, hdrop, hlen]
  rw [if_neg (not_lt.2 h), if_neg (by rw [length_append]; omega), take_append_of_le_length hle,
    drop_append_of_le_length hle]

theorem readFrame_short (h : Accepted S msg) (hlt : (S.ser msg).length < 2 ^ 32) (rest : Bytes) :
    readFrame S (frame S msg ++ rest) = .ok (some msg, rest) := by
  rw [readFrame_frame h, Nat.mod_eq_of_lt hlt, take_length, drop_length, S.de_ser]
  rfl

theorem readFrame_long (hw : S.Whole) (h : Accepted S msg) (hge : 2 ^ 32 ≤ (S.ser msg).length) (rest : Bytes) :
    ∃ e, readFrame S (frame S msg ++ rest) = .error e := by
  have hcut : (S.ser msg).length % 2 ^ 32 < (S.ser msg).length :=
    lt_of_lt_of_le (Nat.mod_lt _ (by decide)) hge
  rw [readFrame_frame h]
  cases hd : S.de ((S.ser msg).take ((S.ser msg).length % 2 ^ 32)) with
  | ok m => exact absurd hd (hw msg _ hcut m)
  | error e => exact ⟨_, rfl⟩

theorem yields_of_short (hacc : ∀ m ∈ msgs, Accepted S m) (hlt : ∀ m ∈ msgs, (S.ser m).length < 2 ^ 32) :
    Yields S (msgs.flatMap (frame S)) msgs := by
  induction msgs with
  | nil => exact ⟨[], readFrame_nil⟩
  | cons m msgs ih =>
    rw [forall_mem_cons] at hacc hlt
    refine ⟨msgs.flatMap (frame S), ?_, ih hacc.2 hlt.2⟩
    exact readFrame_short hacc.1 hlt.1 _

/-- The reader comes to the first frame that is too long, and fails. -/
theorem short_of_yields (hw : S.Whole) (hacc : ∀ m ∈ msgs, Accepted S m) (hy : Yields S (msgs.flatMap (frame S)) msgs) :
    ∀ m ∈ msgs, (S.ser m).length < 2 ^ 32 := by
  induction msgs with
  | nil => simp
  | cons m msgs ih =>
    rw [forall_mem_cons] at hacc ⊢
    obtain ⟨rest, hread, hy⟩ := hy
    rw [flatMap_cons] at hread
    rcases lt_or_ge (S.ser m).length (2 ^ 32) with hlt | hge
    · rw [readFrame_short hacc.1 hlt] at hread
      cases hread
      exact ⟨hlt, ih hacc.2 hy⟩
    · obtain ⟨e, he⟩ := readFrame_long hw hacc.1 hge (msgs.flatMap (frame S))
      rw [he] at hread
      cases hread

/-- **Frames that are accepted are read back** if all bodies are shorter than `2 ^ 32` bytes, and only then, if the
encoding is one of which no part can be decoded. -/
theorem frames_read_back (S : Serde Bytes α) (h : writeFrames S [] msgs = .ok stream) :
    ((∀ m ∈ msgs, (S.ser m).length < 2 ^ 32) → Yields S stream msgs) ∧
      (S.Whole → Yields S stream msgs → ∀ m ∈ msgs, (S.ser m).length < 2 ^ 32) := by
  obtain ⟨hacc, rfl⟩ := writeFrames_ok.1 h
  exact ⟨yields_of_short hacc, fun hw => short_of_yields hw hacc⟩

/-! ## Streams that end early -/

/-- Of a frame that is cut, the reader notices it once the length field is there. -/
theorem readFrame_cut (hmax : (S.ser msg).length ≤ maxFrame) {n : Nat} (hn : n < (frame S msg).length) :
    readFrame S ((frame S msg).take n) =
      if n < 4 then .ok (none, []) else .error ⟨.unexpectedEof, "early eof"⟩ := by
  have hmod : (S.ser msg).length % 2 ^ 32 = (S.ser msg).length :=
    Nat.mod_eq_of_lt (lt_of_le_of_lt hmax (by decide))
  have hlen : ((frame S msg).take n).length = n := length_take_of_le hn.le
  unfold readFrame
  rw [hlen]
  by_cases h4 : n < 4
  · rw [if_pos h4, if_pos h4]
  · have hfour : 4 ≤ n := not_lt.1 h4
    have htake : ((frame S msg).take n).take 4 = leBytes 4 (S.ser msg).length := by
      rw [take_take, Nat.min_eq_left hfour, frame, hmod]
      exact take_left' (length_leBytes ..)
    have hnat : leNat (leBytes 4 (S.ser msg).length) = (S.ser msg).length :=
      leNat_leBytes_of_lt (lt_of_le_of_lt hmax (by decide))
    have hshort : (((frame S msg).take n).drop 4).length < (S.ser msg).length := by
      rw [length_drop]
      simp only [frame, length_append, length_leBytes] at hn
      omega
    simp only [htake, hnat]
    rw [if_neg (not_lt.2 hmax), if_pos hshort]

theorem ends_frame (hacc : Accepted S msg) (hmax : (S.ser msg).length ≤ maxFrame) (closed : Prop) (rest : Bytes) :
    Ends S closed (frame S msg ++ rest) (msg :: msgs) ↔ Ends S closed rest msgs := by
  have hread := readFrame_short hacc (lt_of_le_of_lt hmax (by decide)) rest
  simp [Ends, hread]

theorem ends_cut (hmax : (S.ser msg).length ≤ maxFrame) {n : Nat} (hn : n < (frame S msg).length) :
    Ends S (n = 0) ((frame S msg).take n) [] ↔ n = 0 ∨ 4 ≤ n := by
  simp only [Ends, readFrame_cut hmax hn]
  split
  · simp; omega
  · simp; omega

/-- **A cut stream is told apart from a closed one** if it does not end within the length field of a frame, and only
then. -/
theorem cut_told_apart (S : Serde Bytes α) (h : writeFrames S [] msgs = .ok stream)
    (hmax : ∀ m ∈ msgs, (S.ser m).length ≤ maxFrame) {n left : Nat} (hn : n ≤ stream.length) {done : List α}
    (hc : complete S msgs n = (done, left)) : Ends S (left = 0) (stream.take n) done ↔ left = 0 ∨ 4 ≤ left := by
  obtain ⟨hacc, rfl⟩ := writeFrames_ok.1 h
  clear h
  rw [nil_append] at hn ⊢
  induction msgs generalizing n done with
  | nil =>
    obtain rfl : n = 0 := by simpa using hn
    cases hc
    simp [Ends, readFrame_nil]
  | cons m msgs ih =>
    rw [forall_mem_cons] at hacc hmax
    rw [flatMap_cons] at hn ⊢
    by_cases hfit : (frame S m).length ≤ n
    · have hn' : n - (frame S m).length ≤ (msgs.flatMap (frame S)).length := by
        rw [length_append] at hn
        omega
      rw [complete, if_pos hfit] at hc
      cases hc
      rw [take_append, take_of_length_le hfit, ends_frame hacc.1 hmax.1]
      exact ih hmax.2 rfl hacc.2 hn'
    · have hcut : n < (frame S m).length := not_le.1 hfit
      rw [complete, if_neg hfit] at hc
      cases hc
      rw [take_append_of_le_length hcut.le]
      exact ends_cut hmax.1 hcut

/-! ## Frames between servers -/

/-- A connection opens with `hello`; then it carries the messages of the core. -/
inductive PeerFrame where
  | hello (id : NodeId)
  | msg (m : Message)
deriving DecidableEq, Repr

def EntryPayload.format : Format EntryPayload :=
  (Format.unit.sum (Format.bytes.sum (Format.nat.sum Format.nat))).via
    (fun
      | .noop => .inl ()
      | .normal data => .inr (.inl data)
      | .confChange (.addNode id) => .inr (.inr (.inl id))
      | .confChange (.removeNode id) => .inr (.inr (.inr id)))
    (fun
      | .inl _ => .noop
      | .inr (.inl data) => .normal data
      | .inr (.inr (.inl id)) => .confChange (.addNode id)
      | .inr (.inr (.inr id)) => .confChange (.removeNode id))
    (fun p => by rcases p with _ | _ | ⟨_ | _⟩ <;> rfl)

def Entry.format : Format Entry :=
  (Format.nat.pair (Format.nat.pair EntryPayload.format)).via (fun e => (e.term, e.index, e.payload))
    (fun p => ⟨p.1, p.2.1, p.2.2⟩) (fun _ => rfl)

def Snapshot.format : Format Snapshot :=
  (Format.nat.pair (Format.nat.pair (Format.nat.list.pair Format.bytes))).via
    (fun s => (s.lastIndex, s.lastTerm, s.voters, s.data)) (fun p => ⟨p.1, p.2.1, p.2.2.1, p.2.2.2⟩) (fun _ => rfl)

def MessageBody.format : Format MessageBody :=
  let two := Format.nat.pair Format.nat
  (two.sum (Format.bool.sum (two.sum (Format.bool.sum ((two.pair (Entry.format.list.pair two)).sum
    ((Format.bool.pair (Format.nat.pair two)).sum (Snapshot.format.sum Format.nat))))))).via
    (fun
      | .preVote i t => .inl (i, t)
      | .preVoteResp g => .inr (.inl g)
      | .requestVote i t => .inr (.inr (.inl (i, t)))
      | .requestVoteResp g => .inr (.inr (.inr (.inl g)))
      | .appendEntries i t es c ctx => .inr (.inr (.inr (.inr (.inl ((i, t), es, c, ctx)))))
      | .appendEntriesResp s i c ctx => .inr (.inr (.inr (.inr (.inr (.inl (s, i, c, ctx))))))
      | .installSnapshot s => .inr (.inr (.inr (.inr (.inr (.inr (.inl s))))))
      | .installSnapshotResp i => .inr (.inr (.inr (.inr (.inr (.inr (.inr i)))))))
    (fun
      | .inl (i, t) => .preVote i t
      | .inr (.inl g) => .preVoteResp g
      | .inr (.inr (.inl (i, t))) => .requestVote i t
      | .inr (.inr (.inr (.inl g))) => .requestVoteResp g
      | .inr (.inr (.inr (.inr (.inl ((i, t), es, c, ctx))))) => .appendEntries i t es c ctx
      | .inr (.inr (.inr (.inr (.inr (.inl (s, i, c, ctx)))))) => .appendEntriesResp s i c ctx
      | .inr (.inr (.inr (.inr (.inr (.inr (.inl s)))))) => .installSnapshot s
      | .inr (.inr (.inr (.inr (.inr (.inr (.inr i)))))) => .installSnapshotResp i)
    (fun b => by cases b <;> rfl)

def Message.format : Format Message :=
  (Format.nat.pair (Format.nat.pair (Format.nat.pair MessageBody.format))).via (fun m => (m.src, m.dst, m.term, m.body))
    (fun p => ⟨p.1, p.2.1, p.2.2.1, p.2.2.2⟩) (fun _ => rfl)

/-- An encoding to compute with. -/
def PeerFrame.format : Format PeerFrame :=
  (Format.nat.sum Message.format).via (fun | .hello id => .inl id | .msg m => .inr m)
    (fun | .inl id => .hello id | .inr m => .msg m) (fun f => by cases f <;> rfl)

/-- A connection with one vote on it. -/
theorem frames_read_back_vote :
    ∃ stream, writeFrames PeerFrame.format.serde [] [.hello 1, .msg ⟨1, 2, 1, .requestVote 0 0⟩] = .ok stream ∧
      Yields PeerFrame.format.serde stream [.hello 1, .msg ⟨1, 2, 1, .requestVote 0 0⟩] := by
  have h : writeFrames PeerFrame.format.serde [] [.hello 1, .msg ⟨1, 2, 1, .requestVote 0 0⟩] = .ok _ := rfl
  exact ⟨_, h, (frames_read_back PeerFrame.format.serde h).1 (by decide)⟩

/-- A connection that breaks within the body of its second frame. -/
theorem cut_told_apart_vote :
    ∃ stream, writeFrames PeerFrame.format.serde [] [.hello 1, .msg ⟨1, 2, 1, .requestVote 0 0⟩] = .ok stream ∧
      Ends PeerFrame.format.serde (6 = 0) (stream.take 13) [.hello 1] := by
  have h : writeFrames PeerFrame.format.serde [] [.hello 1, .msg ⟨1, 2, 1, .requestVote 0 0⟩] = .ok _ := rfl
  exact ⟨_, h, (cut_told_apart PeerFrame.format.serde h (by decide) (by decide) (by decide)).2 (by decide)⟩

/-- A connection that breaks after two bytes of its first frame ends for the reader as if it had been closed. -/
theorem cutHello_closed : ∃ stream, writeFrames PeerFrame.format.serde [] [.hello 1] = .ok stream ∧
    (∀ m ∈ [PeerFrame.hello 1], (PeerFrame.format.serde.ser m).length ≤ maxFrame) ∧ 2 ≤ stream.length ∧
    complete PeerFrame.format.serde [.hello 1] 2 = ([], 2) ∧
    readFrame PeerFrame.format.serde (stream.take 2) = .ok (none, []) ∧
    ¬ Ends PeerFrame.format.serde (2 = 0) (stream.take 2) [] := by
  refine ⟨_, rfl, by decide, by decide, by decide, by decide, fun hends => ?_⟩
  obtain ⟨e, he⟩ := hends.2 (by decide)
  cases he

/-- A snapshot on its way. -/
def snapshotFrame (data : Bytes) : PeerFrame := .msg ⟨1, 2, 1, .installSnapshot ⟨1, 1, [1, 2], data⟩⟩

theorem length_snapshotFrame (data : Bytes) :
    (PeerFrame.format.serde.ser (snapshotFrame data)).length = 2 * data.length + 28 := by
  show (PeerFrame.format.write (snapshotFrame data)).length = _
  simp only [snapshotFrame, PeerFrame.format, Message.format, MessageBody.format, Snapshot.format, Format.via,
    Format.sum, Format.pair, length_append, length_cons, Format.length_bytes]
  simp [Format.nat, Format.list]
  omega

/-- A snapshot of `2 ^ 31` bytes, which takes twice as many in this encoding, is accepted, and neither it nor what
follows it is ever read. -/
theorem longSnapshot_lost : ∃ data stream,
    writeFrames PeerFrame.format.serde [] [snapshotFrame data, .hello 1] = .ok stream ∧
      ¬ Yields PeerFrame.format.serde stream [snapshotFrame data, .hello 1] := by
  obtain ⟨data, hdata⟩ : ∃ data : Bytes, data.length = 2 ^ 31 := ⟨List.replicate (2 ^ 31) 0, length_replicate ..⟩
  have hlen := length_snapshotFrame data
  rw [hdata] at hlen
  have hacc : ∀ m ∈ [snapshotFrame data, .hello 1], Accepted PeerFrame.format.serde m := by
    rw [forall_mem_cons]
    unfold Accepted
    rw [hlen]
    decide
  refine ⟨data, _, writeFrames_ok.2 ⟨hacc, rfl⟩, fun hy => ?_⟩
  have hshort := short_of_yields PeerFrame.format.serde_whole hacc hy (snapshotFrame data) (by simp)
  omega

end RaftKv.Proto

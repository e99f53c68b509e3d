import RaftKv.Storage.Coding

/-!
# Data blocks

A block is a sequence of records `[klen u32][key][seq u64][kind u8][vlen u32][value]`, with kind 1
for a value and 0 for a tombstone. `decode_block` walks over it and checks before every read that
the bytes are there; it inverts the encoding (`decodeBlock_records`). It takes any other kind for a
tombstone, too, and then passes over the length of the value: what it accepts are the sequences of
such records, no others (`decodeBlock_iff`).

| here | there |
| --- | --- |
| `record` | the bytes that `TableBuilder::add` appends (`sstable.rs:103-117`) |
| `decodeEntry` | one turn of the loop in `decode_block` (`sstable.rs:302-332`) |
| `decodeBlock` | `decode_block` (`sstable.rs:299`) |
| `RawRecord` | a record as the format has it, with its kind and the length field of its value |
-/

namespace RaftKv.Storage

open List

/-- The bytes of an entry. A length that is too long for its field is cut off. -/
def record (e : Entry) : Bytes :=
  leBytes 4 e.1.length ++ e.1 ++ leBytes 8 e.2.1 ++
    match e.2.2 with
    | some v => 1 :: (leBytes 4 v.length ++ v)
    | none => 0 :: leBytes 4 0

def records (es : List Entry) : Bytes := es.flatMap record

/-- The lengths of key and value fit their fields. -/
def FitsU32 (e : Entry) : Prop := e.1.length < 2 ^ 32 ∧ ∀ v ∈ e.2.2, v.length < 2 ^ 32

instance : DecidablePred FitsU32 := fun e =>
  inferInstanceAs (Decidable (e.1.length < 2 ^ 32 ∧ ∀ v ∈ e.2.2, v.length < 2 ^ 32))

def truncated : Error := .corruption "truncated block entry"

/-- The first record of `buf`, and what follows. -/
def decodeEntry (buf : Bytes) : Except Error (Entry × Bytes) :=
  if buf.length < 4 then .error truncated
  else
    let klen := leNat (buf.take 4)
    let buf := buf.drop 4
    if buf.length < klen + 9 then .error truncated
    else
      let key := buf.take klen
      let buf := buf.drop klen
      let seq := leNat (buf.take 8)
      let buf := buf.drop 8
      let kind := buf.headD 0
      let buf := buf.drop 1
      if buf.length < 4 then .error truncated
      else
        let vlen := leNat (buf.take 4)
        let buf := buf.drop 4
        if kind = 1 then
          if buf.length < vlen then .error truncated else .ok ((key, seq, some (buf.take vlen)), buf.drop vlen)
        else .ok ((key, seq, none), buf)

variable {buf rest : Bytes} {e : Entry}

theorem decodeEntry_lt (h : decodeEntry buf = .ok (e, rest)) : rest.length < buf.length := by
  unfold decodeEntry at h
  split at h
  · cases h
  · dsimp only at h
    split at h
    · cases h
    · split at h
      · cases h
      · split at h
        · split at h
          · cases h
          · cases h
            simp only [length_drop]
            omega
        · cases h
          simp only [length_drop]
          omega

def decodeBlock (buf : Bytes) : Except Error (List Entry) :=
  if buf = [] then .ok []
  else
    match h : decodeEntry buf with
    | .ok (e, rest) =>
      have : rest.length < buf.length := decodeEntry_lt h
      (decodeBlock rest).map (e :: ·)
    | .error err => .error err
termination_by buf.length

variable {e : Entry} {es es' : List Entry}

theorem decodeBlock_ok (h : decodeEntry buf = .ok (e, rest)) : decodeBlock buf = (decodeBlock rest).map (e :: ·) := by
  have hne : buf ≠ [] := by
    rintro rfl
    exact absurd (decodeEntry_lt h) (Nat.not_lt_zero _)
  rw [decodeBlock, if_neg hne]
  split
  · rename_i e' rest' he
    rw [h] at he
    cases he
    rfl
  · rename_i err he
    rw [h] at he
    cases he

theorem decodeBlock_error (hne : buf ≠ []) {err : Error} (h : decodeEntry buf = .error err) :
    decodeBlock buf = .error err := by
  rw [decodeBlock, if_neg hne]
  split
  · rename_i e' rest' he
    rw [h] at he
    cases he
  · rename_i err' he
    rw [h] at he
    cases he
    rfl

/-! ## Decoding what was encoded -/

theorem records_append (es es' : List Entry) : records (es ++ es') = records es ++ records es' := flatMap_append

theorem length_records_flatten (groups : List (List Entry)) :
    (records groups.flatten).length = (groups.map fun es => (records es).length).sum := by
  induction groups with
  | nil => rfl
  | cons es groups ih =>
    rw [flatten_cons, records_append, length_append, ih]
    rfl

theorem records_cons (e : Entry) (es : List Entry) : records (e :: es) = record e ++ records es := rfl

theorem record_ne_nil (e : Entry) : record e ≠ [] := by
  rw [← length_pos_iff, record]
  simp only [length_append, length_leBytes]
  omega

theorem records_eq_nil : records es = [] ↔ es = [] := by
  cases es with
  | nil => simp [records]
  | cons e es => simp [records_cons, record_ne_nil]

/-- A record as it may stand in a block. -/
structure RawRecord where
  key : Bytes
  seq : Nat
  kind : UInt8
  vlen : Nat
  value : Bytes
  key_lt : key.length < 2 ^ 32
  seq_lt : seq < 2 ^ 64
  vlen_lt : vlen < 2 ^ 32
  length_value : value.length = if kind = 1 then vlen else 0

namespace RawRecord

def bytes (r : RawRecord) : Bytes :=
  leBytes 4 r.key.length ++ r.key ++ leBytes 8 r.seq ++ r.kind :: (leBytes 4 r.vlen ++ r.value)

def entry (r : RawRecord) : Entry := (r.key, r.seq, if r.kind = 1 then some r.value else none)

theorem length_bytes (r : RawRecord) : r.bytes.length = r.key.length + r.value.length + 17 := by
  simp [bytes]
  omega

end RawRecord

theorem decodeEntry_bytes (r : RawRecord) (rest : Bytes) : decodeEntry (r.bytes ++ rest) = .ok (r.entry, rest) := by
  obtain ⟨key, seq, kind, vlen, value, hkey, hseq, hvlen, hvalue⟩ := r
  have hk : leNat (leBytes 4 key.length) = key.length := leNat_leBytes_of_lt (lt_of_lt_of_le hkey (by decide))
  have hq : leNat (leBytes 8 seq) = seq := leNat_leBytes_of_lt (lt_of_lt_of_le hseq (by decide))
  have hv : leNat (leBytes 4 vlen) = vlen := leNat_leBytes_of_lt (lt_of_lt_of_le hvlen (by decide))
  have h4 : ∀ (n : Nat) (l : Bytes), (leBytes 4 n ++ l).take 4 = leBytes 4 n ∧ (leBytes 4 n ++ l).drop 4 = l :=
    fun n l => ⟨take_left' (length_leBytes ..), drop_left' (length_leBytes ..)⟩
  have h8 : ∀ (n : Nat) (l : Bytes), (leBytes 8 n ++ l).take 8 = leBytes 8 n ∧ (leBytes 8 n ++ l).drop 8 = l :=
    fun n l => ⟨take_left' (length_leBytes ..), drop_left' (length_leBytes ..)⟩
  unfold decodeEntry RawRecord.bytes RawRecord.entry
  simp only [append_assoc]
  rw [if_neg (by simp only [length_append, length_leBytes]; omega)]
  simp only [h4, h8, hk, hq, take_left, drop_left]
  rw [if_neg (by simp only [length_append, length_cons, length_leBytes]; omega)]
  simp only [cons_append, append_assoc, headD_cons, drop_one, tail_cons, h4, hv]
  rw [if_neg (by simp only [length_append, length_leBytes]; omega)]
  by_cases hkind : kind = 1
  · rw [if_pos hkind] at hvalue
    subst hvalue
    simp only [if_pos hkind]
    rw [if_neg (by simp), take_left, drop_left]
  · rw [if_neg hkind] at hvalue
    rw [if_neg hkind, if_neg hkind, length_eq_zero_iff.1 hvalue, nil_append]

/-- The record that is written for an entry. -/
theorem exists_raw (hf : FitsU32 e) (hs : e.2.1 < 2 ^ 64) : ∃ r : RawRecord, r.bytes = record e ∧ r.entry = e := by
  obtain ⟨key, seq, value⟩ := e
  cases value with
  | some v =>
    refine ⟨⟨key, seq, 1, v.length, v, hf.1, hs, hf.2 v rfl, rfl⟩, ?_, rfl⟩
    simp [RawRecord.bytes, record]
  | none =>
    refine ⟨⟨key, seq, 0, 0, [], hf.1, hs, by decide, rfl⟩, ?_, rfl⟩
    simp [RawRecord.bytes, record]

theorem decodeBlock_bytes : ∀ rs : List RawRecord,
    decodeBlock (rs.flatMap RawRecord.bytes) = .ok (rs.map RawRecord.entry)
  | [] => by rw [decodeBlock]; rfl
  | r :: rs => by
    rw [flatMap_cons, decodeBlock_ok (decodeEntry_bytes r _), decodeBlock_bytes rs]
    rfl

theorem exists_raws (h : ∀ e ∈ es, FitsU32 e ∧ e.2.1 < 2 ^ 64) :
    ∃ rs : List RawRecord, rs.flatMap RawRecord.bytes = records es ∧ rs.map RawRecord.entry = es := by
  induction es with
  | nil => exact ⟨[], rfl, rfl⟩
  | cons e es ih =>
    rw [forall_mem_cons] at h
    obtain ⟨r, hbytes, hentry⟩ := exists_raw h.1.1 h.1.2
    obtain ⟨rs, hrecords, hentries⟩ := ih h.2
    refine ⟨r :: rs, ?_, ?_⟩
    · rw [flatMap_cons, hbytes, hrecords, records_cons]
    · rw [map_cons, hentry, hentries]

/-- A block decodes to the entries that were put into it. -/
theorem decodeBlock_records (h : ∀ e ∈ es, FitsU32 e ∧ e.2.1 < 2 ^ 64) : decodeBlock (records es) = .ok es := by
  obtain ⟨rs, hrecords, hentries⟩ := exists_raws h
  rw [← hrecords, decodeBlock_bytes, hentries]

/-! ## What is decoded -/

theorem length_record (e : Entry) : (record e).length = e.1.length + (e.2.2.map List.length).getD 0 + 17 := by
  obtain ⟨k, s, v⟩ := e
  cases v with
  | none => simp [record]; omega
  | some v => simp [record]; omega

/-- A number of at most `n` bytes. -/
theorem leNat_take_lt (n : Nat) (buf : Bytes) : leNat (buf.take n) < 256 ^ n :=
  lt_of_lt_of_le (leNat_lt _) (Nat.pow_le_pow_right (by decide) (length_take_le n buf))

/-- A field of four or eight bytes at the front. -/
theorem leBytes_take {n : Nat} (h : n ≤ buf.length) : leBytes n (leNat (buf.take n)) = buf.take n := by
  have hlen : (buf.take n).length = n := length_take_of_le h
  have hback := leBytes_leNat (buf.take n)
  rwa [hlen] at hback

/-- What is decoded is a record, in all its bytes. -/
theorem eq_bytes_of_decodeEntry (h : decodeEntry buf = .ok (e, rest)) :
    ∃ r : RawRecord, buf = r.bytes ++ rest ∧ e = r.entry := by
  have h32 : ∀ b : Bytes, leNat (b.take 4) < 2 ^ 32 := fun b => leNat_take_lt 4 b
  have h64 : ∀ b : Bytes, leNat (b.take 8) < 2 ^ 64 := fun b => leNat_take_lt 8 b
  unfold decodeEntry at h
  split at h
  · cases h
  · rename_i hlen
    dsimp only at h
    split at h
    · cases h
    · rename_i hkey
      -- the fields, one behind the other
      generalize hb₁ : buf.drop 4 = b₁ at h hkey
      generalize hklen : leNat (buf.take 4) = klen at h hkey
      generalize hb₂ : b₁.drop klen = b₂ at h
      generalize hb₃ : b₂.drop 8 = b₃ at h
      have hlen₂ : 9 ≤ b₂.length := by
        rw [← hb₂, length_drop]
        omega
      obtain ⟨kind, b₄, rfl⟩ : ∃ kind b₄, b₃ = kind :: b₄ := by
        rw [← length_pos_iff_exists_cons, ← hb₃, length_drop]
        omega
      simp only [headD_cons, drop_one, tail_cons] at h
      split at h
      · cases h
      · rename_i hvlen
        have hfields : buf = leBytes 4 klen ++ b₁.take klen ++ leBytes 8 (leNat (b₂.take 8)) ++
            kind :: (leBytes 4 (leNat (b₄.take 4)) ++ b₄.drop 4) := by
          rw [leBytes_take (not_lt.1 hvlen), take_append_drop, leBytes_take (by omega), append_assoc, ← hb₃,
            take_append_drop, ← hb₂, append_assoc, take_append_drop, ← hb₁, ← hklen,
            leBytes_take (not_lt.1 hlen), take_append_drop]
        have hlk : (b₁.take klen).length = klen := length_take_of_le (by omega)
        have hklt : (b₁.take klen).length < 2 ^ 32 := by
          rw [hlk, ← hklen]
          exact h32 buf
        split at h
        · rename_i hkind
          split at h
          · cases h
          · rename_i hv
            cases h
            refine ⟨⟨b₁.take klen, leNat (b₂.take 8), kind, leNat (b₄.take 4), (b₄.drop 4).take (leNat (b₄.take 4)),
              hklt, h64 _, h32 _, ?_⟩, ?_, ?_⟩
            · rw [if_pos hkind]
              exact length_take_of_le (not_lt.1 hv)
            · simp only [RawRecord.bytes, hlk, append_assoc, cons_append, take_append_drop]
              simpa using hfields
            · simp [RawRecord.entry, hkind]
        · rename_i hkind
          cases h
          refine ⟨⟨b₁.take klen, leNat (b₂.take 8), kind, leNat (b₄.take 4), [], hklt, h64 _, h32 _, ?_⟩, ?_, ?_⟩
          · rw [if_neg hkind]
            rfl
          · simp only [RawRecord.bytes, hlk]
            simpa using hfields
          · simp [RawRecord.entry, hkind]

/-- What is decoded takes as many bytes as it did, and its lengths fit. -/
theorem decodeEntry_spec (h : decodeEntry buf = .ok (e, rest)) :
    (record e).length + rest.length = buf.length ∧ FitsU32 e ∧ e.2.1 < 2 ^ 64 := by
  obtain ⟨r, rfl, rfl⟩ := eq_bytes_of_decodeEntry h
  rw [length_record, length_append, r.length_bytes]
  unfold RawRecord.entry FitsU32
  have hvalue := r.length_value
  by_cases hkind : r.kind = 1
  · rw [if_pos hkind] at hvalue ⊢
    have hv : r.value.length < 2 ^ 32 := hvalue ▸ r.vlen_lt
    refine ⟨rfl, ⟨r.key_lt, ?_⟩, r.seq_lt⟩
    rintro v ⟨rfl⟩
    exact hv
  · rw [if_neg hkind] at hvalue ⊢
    refine ⟨?_, ⟨r.key_lt, by simp⟩, r.seq_lt⟩
    simp [hvalue]

theorem decodeBlock_spec (buf : Bytes) : ∀ {es : List Entry}, decodeBlock buf = .ok es →
    (records es).length = buf.length ∧ ∀ e ∈ es, FitsU32 e ∧ e.2.1 < 2 ^ 64 := by
  fun_induction decodeBlock buf with
  | case1 =>
    intro es h
    cases h
    exact ⟨rfl, fun e he => (by cases he)⟩
  | case2 buf hne e rest h _ ih =>
    intro es hes
    obtain ⟨hlen, hfits⟩ := decodeEntry_spec h
    cases hd : decodeBlock rest with
    | error err => rw [hd] at hes; cases hes
    | ok es' =>
      rw [hd] at hes
      cases hes
      obtain ⟨hlen', hfits'⟩ := ih hd
      refine ⟨?_, fun x hx => ?_⟩
      · rw [records_cons, length_append, hlen', hlen]
      · rcases mem_cons.1 hx with rfl | hx
        · exact hfits
        · exact hfits' x hx
  | case3 buf hne err h =>
    intro es hes
    cases hes

/-- **What is accepted**: the sequences of records, and they are what is returned. -/
theorem decodeBlock_iff : decodeBlock buf = .ok es ↔
    ∃ rs : List RawRecord, buf = rs.flatMap RawRecord.bytes ∧ es = rs.map RawRecord.entry := by
  constructor
  · intro h
    fun_induction decodeBlock buf generalizing es with
    | case1 =>
      cases h
      exact ⟨[], rfl, rfl⟩
    | case2 buf hne e rest he _ ih =>
      obtain ⟨es', hes', rfl⟩ := map_eq_ok h
      obtain ⟨r, rfl, rfl⟩ := eq_bytes_of_decodeEntry he
      obtain ⟨rs, rfl, rfl⟩ := ih hes'
      exact ⟨r :: rs, rfl, rfl⟩
    | case3 buf hne err he => cases h
  · rintro ⟨rs, rfl, rfl⟩
    exact decodeBlock_bytes rs

end RaftKv.Storage

import RaftKv.Lib.Checked
import RaftKv.Storage.Block
import RaftKv.Storage.Bloom

/-!
# Reads in range and sums that fit

The filters and the block parser again, now with the indexes and the `usize` arithmetic of the
source: an index out of range and a remainder by zero are panics, and a sum or product over 64 bits
is an overflow. Memory is there when it is asked for.

A filter never looks outside its bits, and so has no false negatives, whatever its number of probes
(`no_false_negatives`); but the number of bits that is asked for has to fit, rounded up to bytes
(`hugeFilter_overflows`). The parser never reads outside the block (`parser_exact`).

| here | there |
| --- | --- |
| `fromHashes?`, `addHash?` | `BloomFilter::from_hashes` (`bloom.rs:36`) with any number of probes, `bloom.rs:53` |
| `mayContain?` | `bloom.rs:64` |
| `need`, `decodeEntry?` | the closure and one turn of the loop in `decode_block` (`sstable.rs:303-332`) |
| `decodeBlock?` | `decode_block` (`sstable.rs:299`) |
-/

namespace RaftKv.Storage

open List

/-! ## Filters -/

namespace BloomFilter

/-- `pos % nbits`, and `bits` is indexed with its byte. -/
def probe? (bits : Bytes) (nbits : Nat) (pos : UInt64) : Except Error Nat :=
  if nbits = 0 then .error .panic
  else if pos.toNat % nbits / 8 < bits.length then .ok (pos.toNat % nbits)
  else .error .panic

def setProbes? (nbits : Nat) (h2 : UInt64) : Nat → UInt64 → Bytes → Except Error Bytes
  | 0, _, bits => .ok bits
  | n + 1, pos, bits => do
    let bit ← probe? bits nbits pos
    setProbes? nbits h2 n (pos + h2) (setBit bits bit)

def addHash? (f : BloomFilter) (h1 : UInt64) : Except Error BloomFilter := do
  let nbits ← u64 (f.bits.length * 8)
  let bits ← setProbes? nbits (stride h1) f.k h1 f.bits
  pure { f with bits := bits }

/-- The filter with `k` probes for each key; `from_hashes` takes `probeCount bitsPerKey` of them. -/
def fromHashes? (k : Nat) (hashes : List UInt64) (bitsPerKey : Nat) : Except Error BloomFilter := do
  let nbits ← u64 (hashes.length * bitsPerKey)
  let nbits ← u64 (max nbits 64 + 7)
  let nbits := nbits / 8 * 8
  hashes.foldlM addHash? { k := k, bits := List.replicate (nbits / 8) 0 }

def allProbes? (bits : Bytes) (nbits : Nat) (h2 : UInt64) : Nat → UInt64 → Except Error Bool
  | 0, _ => .ok true
  | n + 1, pos => do
    let bit ← probe? bits nbits pos
    if getBit bits bit then allProbes? bits nbits h2 n (pos + h2) else .ok false

def mayContain? (f : BloomFilter) (key : Bytes) : Except Error Bool := do
  let nbits ← u64 (f.bits.length * 8)
  allProbes? f.bits nbits (stride (fnv1a key)) f.k (fnv1a key)

variable {bits : Bytes} {f : BloomFilter} {k bitsPerKey : Nat} {hashes : List UInt64}

theorem probe?_eq (hne : bits ≠ []) (pos : UInt64) : probe? bits (bits.length * 8) pos = .ok (slot bits pos) := by
  have hpos : 0 < bits.length := length_pos_iff.2 hne
  unfold probe?
  rw [if_neg (by omega)]
  exact if_pos (slot_lt hne pos)

theorem setProbes?_eq (h2 : UInt64) : ∀ (n : Nat) (pos : UInt64) {bits : Bytes}, bits ≠ [] →
    setProbes? (bits.length * 8) h2 n pos bits = .ok (setProbes h2 n pos bits)
  | 0, _, _, _ => rfl
  | n + 1, pos, bits, hne => by
    have hlen : (setBit bits (slot bits pos)).length = bits.length := length_setBit
    have hne' : setBit bits (slot bits pos) ≠ [] := by
      rw [← length_pos_iff, hlen, length_pos_iff]
      exact hne
    have hrest := setProbes?_eq h2 n (pos + h2) hne'
    rw [hlen] at hrest
    rw [setProbes?, probe?_eq hne]
    exact hrest

theorem allProbes?_eq (h2 : UInt64) (hne : bits ≠ []) : ∀ (n : Nat) (pos : UInt64),
    allProbes? bits (bits.length * 8) h2 n pos = .ok (allProbes bits h2 n pos)
  | 0, _ => rfl
  | n + 1, pos => by
    rw [allProbes?, probe?_eq hne, allProbes]
    show (if getBit bits (slot bits pos) then _ else _) = _
    rw [allProbes?_eq h2 hne n]
    cases getBit bits (slot bits pos) <;> rfl

theorem addHash?_eq (hne : f.bits ≠ []) (hfit : f.bits.length * 8 < 2 ^ 64) (h1 : UInt64) :
    f.addHash? h1 = .ok (f.addHash h1) := by
  unfold addHash?
  rw [u64_of_lt hfit]
  show (setProbes? (f.bits.length * 8) (stride h1) f.k h1 f.bits >>= fun bits => pure { f with bits := bits }) = _
  rw [setProbes?_eq _ _ _ hne]
  rfl

theorem mayContain?_eq (hne : f.bits ≠ []) (hfit : f.bits.length * 8 < 2 ^ 64) (key : Bytes) :
    f.mayContain? key = .ok (f.mayContain key) := by
  unfold mayContain?
  rw [u64_of_lt hfit]
  exact allProbes?_eq _ hne _ _

theorem foldlM_addHash? (hashes : List UInt64) (hne : f.bits ≠ []) (hfit : f.bits.length * 8 < 2 ^ 64) :
    hashes.foldlM addHash? f = .ok (hashes.foldl addHash f) := by
  induction hashes generalizing f with
  | nil => rfl
  | cons h hs ih =>
    have hlen : (f.addHash h).bits.length = f.bits.length := length_setProbes ..
    rw [foldlM_cons, addHash?_eq hne hfit]
    refine ih ?_ (hlen ▸ hfit)
    rw [← length_pos_iff, hlen, length_pos_iff]
    exact hne

/-- If the number of bits fits, nothing else can go wrong. -/
theorem fromHashes?_eq (k : Nat) (hfit : hashes.length * bitsPerKey + 7 < 2 ^ 64) :
    fromHashes? k hashes bitsPerKey = .ok (hashes.foldl addHash
      { k := k, bits := List.replicate ((max (hashes.length * bitsPerKey) 64 + 7) / 8 * 8 / 8) 0 }) := by
  unfold fromHashes?
  rw [u64_of_lt (by omega)]
  show (u64 (max (hashes.length * bitsPerKey) 64 + 7) >>= _) = _
  rw [u64_of_lt (by omega)]
  refine foldlM_addHash? hashes (fresh_ne_nil _) ?_
  rw [length_replicate]
  omega

theorem fits_of_fromHashes? (h : fromHashes? k hashes bitsPerKey = .ok f) :
    hashes.length * bitsPerKey + 7 < 2 ^ 64 := by
  unfold fromHashes? at h
  obtain ⟨n, hn, h⟩ := bind_eq_ok h
  obtain ⟨_, rfl⟩ := u64_eq_ok hn
  obtain ⟨m, hm, -⟩ := bind_eq_ok h
  obtain ⟨hlt, -⟩ := u64_eq_ok hm
  omega

/-- The filter over these keys is built, comes back from its encoding, and says "maybe" to each of them. -/
def Holds (k : Nat) (keys : List Bytes) (bitsPerKey : Nat) : Prop :=
  ∃ f, fromHashes? k (keys.map fnv1a) bitsPerKey = .ok f ∧
    ∃ f', decode f.encode = .ok f' ∧ ∀ key ∈ keys, f'.mayContain? key = .ok true

/-- **No false negatives**, if the number of bits fits, and only then. -/
theorem no_false_negatives (keys : List Bytes) (bitsPerKey : Nat) (hk : 1 ≤ k ∧ k ≤ 30) :
    Holds k keys bitsPerKey ↔ keys.length * bitsPerKey + 7 < 2 ^ 64 := by
  constructor
  · rintro ⟨f, hf, -⟩
    have hfit := fits_of_fromHashes? hf
    rwa [length_map] at hfit
  · intro hfit
    rw [← length_map fnv1a] at hfit
    have hne := fresh_ne_nil ((keys.map fnv1a).length * bitsPerKey)
    obtain ⟨hprobes, hlen, -, hall⟩ := foldl_addHash (f := { k := k, bits := _ }) (keys.map fnv1a) hne
    refine ⟨_, fromHashes?_eq k hfit, _, decode_encode ?_ ?_, fun key hkey => ?_⟩
    · rw [hprobes]
      exact Nat.lt_of_le_of_lt hk.2 (by decide)
    · rw [← length_pos_iff, hlen, length_pos_iff]
      exact hne
    · rw [mayContain?_eq, mayContain, hprobes, hall _ (mem_map_of_mem hkey)]
      · rw [← length_pos_iff, hlen, length_pos_iff]
        exact hne
      · rw [hlen, length_replicate]
        omega

/-- Two keys with ten bits for each. -/
theorem no_false_negatives_two : Holds 6 [[1], [2]] 10 := (no_false_negatives [[1], [2]] 10 (by decide)).2 (by decide)

/-- One key with as many bits as `usize` has numbers. -/
theorem hugeFilter_overflows : fromHashes? (probeCount (2 ^ 64 - 1)) ([[1]].map fnv1a) (2 ^ 64 - 1) = .error .overflow ∧
    ¬ Holds (probeCount (2 ^ 64 - 1)) [[1]] (2 ^ 64 - 1) := by
  have hover : fromHashes? (probeCount (2 ^ 64 - 1)) ([[1]].map fnv1a) (2 ^ 64 - 1) = .error .overflow := by rfl
  refine ⟨hover, ?_⟩
  rintro ⟨f, hf, -⟩
  cases hf

end BloomFilter

/-! ## The block parser -/

/-- The closure `need`. -/
def need (buf : Bytes) (n off : Nat) : Except Error Unit := do
  let stop ← u64 (off + n)
  if stop > buf.length then .error truncated else .ok ()

/-- `buf[off..off + n]` -/
def slice? (buf : Bytes) (off n : Nat) : Except Error Bytes := do
  let stop ← u64 (off + n)
  match checkedSlice buf off stop with
  | some bytes => .ok bytes
  | none => .error .panic

/-- `buf[off]` -/
def index? (buf : Bytes) (off : Nat) : Except Error UInt8 :=
  match buf[off]? with
  | some b => .ok b
  | none => .error .panic

/-- The record at `off`, and where the next one begins. -/
def decodeEntry? (buf : Bytes) (off : Nat) : Except Error (Entry × Nat) := do
  need buf 4 off
  let klen := leNat (← slice? buf off 4)
  let off ← u64 (off + 4)
  need buf (← u64 (klen + 9)) off
  let key ← slice? buf off klen
  let off ← u64 (off + klen)
  let seq := leNat (← slice? buf off 8)
  let off ← u64 (off + 8)
  let kind ← index? buf off
  let off ← u64 (off + 1)
  need buf 4 off
  let vlen := leNat (← slice? buf off 4)
  let off ← u64 (off + 4)
  if kind = 1 then
    need buf vlen off
    let value ← slice? buf off vlen
    let off ← u64 (off + vlen)
    pure ((key, seq, some value), off)
  else pure ((key, seq, none), off)

variable {buf : Bytes} {off off' n : Nat} {e : Entry} {es : List Entry}

theorem decodeEntry?_lt (h : decodeEntry? buf off = .ok (e, off')) : off < off' := by
  unfold decodeEntry? at h
  obtain ⟨-, -, h⟩ := bind_eq_ok h
  obtain ⟨field, -, h⟩ := bind_eq_ok h
  obtain ⟨off₁, h₁, h⟩ := bind_eq_ok h
  obtain ⟨m, -, h⟩ := bind_eq_ok h
  obtain ⟨-, -, h⟩ := bind_eq_ok h
  obtain ⟨key, -, h⟩ := bind_eq_ok h
  obtain ⟨off₂, h₂, h⟩ := bind_eq_ok h
  obtain ⟨seq, -, h⟩ := bind_eq_ok h
  obtain ⟨off₃, h₃, h⟩ := bind_eq_ok h
  obtain ⟨kind, -, h⟩ := bind_eq_ok h
  obtain ⟨off₄, h₄, h⟩ := bind_eq_ok h
  obtain ⟨-, -, h⟩ := bind_eq_ok h
  obtain ⟨vlen, -, h⟩ := bind_eq_ok h
  obtain ⟨off₅, h₅, h⟩ := bind_eq_ok h
  have e₁ := (u64_eq_ok h₁).2
  have e₂ := (u64_eq_ok h₂).2
  have e₃ := (u64_eq_ok h₃).2
  have e₄ := (u64_eq_ok h₄).2
  have e₅ := (u64_eq_ok h₅).2
  split at h
  · obtain ⟨-, -, h⟩ := bind_eq_ok h
    obtain ⟨value, -, h⟩ := bind_eq_ok h
    obtain ⟨off₆, h₆, h⟩ := bind_eq_ok h
    have e₆ := (u64_eq_ok h₆).2
    cases h
    omega
  · cases h
    omega

/-- The loop, from `off` on. -/
def decodeFrom? (buf : Bytes) (off : Nat) : Except Error (List Entry) :=
  if off < buf.length then
    match h : decodeEntry? buf off with
    | .ok (e, off') =>
      have : off < off' := decodeEntry?_lt h
      (decodeFrom? buf off').map (e :: ·)
    | .error err => .error err
  else .ok []
termination_by buf.length - off

def decodeBlock? (buf : Bytes) : Except Error (List Entry) := decodeFrom? buf 0

theorem need_eq (hn : off + n < 2 ^ 64) (hoff : off ≤ buf.length) :
    need buf n off = if (buf.drop off).length < n then .error truncated else .ok () := by
  unfold need
  rw [u64_of_lt hn, length_drop]
  show (if off + n > buf.length then _ else _) = _
  by_cases h : off + n > buf.length
  · rw [if_pos h, if_pos (by omega)]
  · rw [if_neg h, if_neg (by omega)]

theorem slice?_eq (hbuf : buf.length < 2 ^ 32) (hoff : off ≤ buf.length) (hn : ¬ (buf.drop off).length < n) :
    slice? buf off n = .ok ((buf.drop off).take n) := by
  rw [length_drop] at hn
  unfold slice?
  rw [u64_of_lt (by omega)]
  show (match checkedSlice buf off (off + n) with | some bytes => _ | none => _) = _
  rw [checkedSlice_of_le (by omega) (by omega), drop_take, Nat.add_sub_cancel_left]

theorem index?_eq (h : off < buf.length) : index? buf off = .ok ((buf.drop off).headD 0) := by
  unfold index?
  rw [getElem?_eq_getElem h, drop_eq_getElem_cons h]
  rfl

/-- Each read is behind the check that covers it. -/
theorem decodeEntry?_eq (hbuf : buf.length < 2 ^ 32) (hoff : off ≤ buf.length) :
    decodeEntry? buf off = (decodeEntry (buf.drop off)).map fun p => (p.1, buf.length - p.2.length) := by
  have h32 : ∀ b : Bytes, leNat (b.take 4) < 2 ^ 32 := fun b => leNat_take_lt 4 b
  unfold decodeEntry? decodeEntry
  simp only [drop_drop]
  rw [need_eq (by omega) hoff]
  by_cases h4 : (buf.drop off).length < 4
  · rw [if_pos h4, if_pos h4]
    rfl
  rw [if_neg h4, if_neg h4, ok_bind, slice?_eq hbuf hoff h4, ok_bind]
  have hklen := h32 (buf.drop off)
  generalize leNat ((buf.drop off).take 4) = klen at hklen ⊢
  rw [length_drop] at h4
  rw [u64_of_lt (by omega), ok_bind, u64_of_lt (by omega), ok_bind, need_eq (by omega) (by omega)]
  by_cases hkey : (buf.drop (off + 4)).length < klen + 9
  · rw [if_pos hkey, if_pos hkey]
    rfl
  rw [if_neg hkey, if_neg hkey, ok_bind]
  rw [length_drop] at hkey
  -- one check for the key, the seq and the kind
  rw [slice?_eq hbuf (by omega) (by rw [length_drop]; omega), ok_bind, u64_of_lt (by omega), ok_bind,
    slice?_eq hbuf (by omega) (by rw [length_drop]; omega), ok_bind, u64_of_lt (by omega), ok_bind,
    index?_eq (by omega), ok_bind, u64_of_lt (by omega), ok_bind, need_eq (by omega) (by omega)]
  by_cases hvlen : (buf.drop (off + 4 + klen + 8 + 1)).length < 4
  · rw [if_pos hvlen, if_pos hvlen]
    rfl
  rw [if_neg hvlen, if_neg hvlen, ok_bind, slice?_eq hbuf (by omega) hvlen, ok_bind]
  have hv := h32 (buf.drop (off + 4 + klen + 8 + 1))
  generalize leNat ((buf.drop (off + 4 + klen + 8 + 1)).take 4) = vlen at hv ⊢
  rw [length_drop] at hvlen
  rw [u64_of_lt (by omega), ok_bind]
  by_cases hkind : (buf.drop (off + 4 + klen + 8)).headD 0 = 1
  · rw [if_pos hkind, if_pos hkind, need_eq (by omega) (by omega)]
    by_cases hvalue : (buf.drop (off + 4 + klen + 8 + 1 + 4)).length < vlen
    · rw [if_pos hvalue, if_pos hvalue]
      rfl
    rw [if_neg hvalue, if_neg hvalue, ok_bind, slice?_eq hbuf (by omega) hvalue, ok_bind]
    rw [length_drop] at hvalue
    rw [u64_of_lt (by omega), ok_bind]
    simp only [pure, Except.pure, Except.map, length_drop, Except.ok.injEq, Prod.mk.injEq, true_and]
    omega
  · rw [if_neg hkind, if_neg hkind]
    simp only [pure, Except.pure, Except.map, length_drop, Except.ok.injEq, Prod.mk.injEq, true_and]
    omega

/-- The next record begins where the rest does. -/
theorem decodeEntry_rest {rest : Bytes} (h : decodeEntry (buf.drop off) = .ok (e, rest)) :
    buf.length - rest.length ≤ buf.length ∧ rest = buf.drop (buf.length - rest.length) := by
  obtain ⟨r, hr, -⟩ := eq_bytes_of_decodeEntry h
  have hrest : rest = buf.drop (off + r.bytes.length) := by
    rw [← drop_drop, hr, drop_left]
  have hlen := congrArg List.length hr
  rw [length_drop, length_append, r.length_bytes] at hlen
  have hoff : buf.length - rest.length = off + r.bytes.length := by
    rw [r.length_bytes]
    omega
  exact ⟨Nat.sub_le .., hoff ▸ hrest⟩

theorem decodeFrom?_eq (hbuf : buf.length < 2 ^ 32) (off : Nat) (hoff : off ≤ buf.length) :
    decodeFrom? buf off = decodeBlock (buf.drop off) := by
  fun_induction decodeFrom? buf off with
  | case1 off hlt e off' h _ ih =>
    rw [decodeEntry?_eq hbuf hoff] at h
    obtain ⟨⟨e', rest⟩, hd, heq⟩ := map_eq_ok h
    cases heq
    obtain ⟨hle, hrest⟩ := decodeEntry_rest hd
    rw [ih hle, decodeBlock_ok hd, ← hrest]
  | case2 off hlt err h =>
    rw [decodeEntry?_eq hbuf hoff] at h
    cases hd : decodeEntry (buf.drop off) with
    | ok p => rw [hd] at h; cases h
    | error err' =>
      rw [hd] at h
      cases h
      refine (decodeBlock_error ?_ hd).symm
      rw [← length_pos_iff, length_drop]
      omega
  | case3 off hlt =>
    rw [drop_of_length_le (Nat.not_lt.1 hlt), decodeBlock]
    rfl

/-- The only error is that of a truncated entry. -/
theorem decodeEntry_error {err : Error} (h : decodeEntry buf = .error err) : err = truncated := by
  unfold decodeEntry at h
  dsimp only at h
  repeat' split at h
  all_goals cases h
  all_goals rfl

theorem decodeBlock_error_truncated {err : Error} (h : decodeBlock buf = .error err) : err = truncated := by
  fun_induction decodeBlock buf with
  | case1 => cases h
  | case2 buf hne e rest he _ ih =>
    cases hd : decodeBlock rest with
    | ok es => rw [hd] at h; cases h
    | error err' =>
      rw [hd] at h
      cases h
      exact ih hd
  | case3 buf hne err' he =>
    cases h
    exact decodeEntry_error he

/-- Records that make up less than `2 ^ 32` bytes have lengths that fit. -/
theorem fits_of_length_records (h : (records es).length < 2 ^ 32) : ∀ e ∈ es, FitsU32 e := by
  intro e he
  obtain ⟨pre, post, rfl⟩ := append_of_mem he
  rw [records_append, records_cons, length_append, length_append, length_record] at h
  refine ⟨by omega, fun v hv => ?_⟩
  rw [Option.mem_def.1 hv, Option.map_some, Option.getD_some] at h
  omega

/-- **The parser accepts exactly its grammar.** On a block of less than `2 ^ 32` bytes it never reads out of range; it
returns the records that the block consists of, and the error of a truncated entry if it does not consist of records. It
returns every list of entries from what `TableBuilder::add` makes of it. -/
theorem parser_exact (hbuf : buf.length < 2 ^ 32) :
    (∀ err, decodeBlock? buf = .error err → err = truncated) ∧
      (∀ es, decodeBlock? buf = .ok es ↔
        ∃ rs : List RawRecord, buf = rs.flatMap RawRecord.bytes ∧ es = rs.map RawRecord.entry) ∧
      ∀ es : List Entry, (∀ e ∈ es, e.2.1 < 2 ^ 64) → buf = records es → decodeBlock? buf = .ok es := by
  have heq : decodeBlock? buf = decodeBlock buf := decodeFrom?_eq hbuf 0 (Nat.zero_le _)
  rw [heq]
  refine ⟨fun err => decodeBlock_error_truncated, fun es => decodeBlock_iff, ?_⟩
  rintro es hseq rfl
  exact decodeBlock_records fun e he => ⟨fits_of_length_records hbuf e he, hseq e he⟩

/-- A value and a deletion. -/
theorem parser_exact_two : decodeBlock? (records [([1], 2, some [7]), ([1], 1, none)]) =
    .ok [([1], 2, some [7]), ([1], 1, none)] :=
  (parser_exact (by decide)).2.2 _ (by decide) rfl

end RaftKv.Storage

import RaftKv.Storage.Coding

/-!
# Bloom filters

A table carries a filter over its keys, so that most reads of absent keys need no block. A filter
may answer "maybe" for a key that was not added, never "no" for one that was
(`mayContain_fromHashes`): both sides walk the same probe positions, and bits are only ever set.

| here | there |
| --- | --- |
| `fnv1a`, `mix`   | `bloom.rs:10`, `bloom.rs:19` |
| `BloomFilter.fromHashes`, `addHash` | `bloom.rs:36`, `bloom.rs:53` |
| `BloomFilter.mayContain` | `bloom.rs:64` |
| `BloomFilter.encode`, `decode` | `bloom.rs:79`, `bloom.rs:86` |
-/

namespace RaftKv.Storage

def fnv1a (data : Bytes) : UInt64 :=
  data.foldl (fun h b => (h ^^^ b.toUInt64) * 0x100000001b3) 0xcbf29ce484222325

def mix (x : UInt64) : UInt64 :=
  let x := (x ^^^ (x >>> 30)) * 0xbf58476d1ce4e5b9
  let x := (x ^^^ (x >>> 27)) * 0x94d049bb133111eb
  x ^^^ (x >>> 31)

/-- The second hash, by which the probe position advances. -/
def stride (h1 : UInt64) : UInt64 := mix h1 ||| 1

structure BloomFilter where
  k : Nat
  bits : Bytes
deriving DecidableEq, Repr

namespace BloomFilter

/-- `bits[bit / 8] |= 1 << (bit % 8)` -/
def setBit (bits : Bytes) (bit : Nat) : Bytes := bits.modify (bit / 8) (· ||| 1 <<< UInt8.ofNat (bit % 8))

/-- `bits[bit / 8] & (1 << (bit % 8)) != 0` -/
def getBit (bits : Bytes) (bit : Nat) : Bool := (bits.getD (bit / 8) 0 &&& 1 <<< UInt8.ofNat (bit % 8)) ≠ 0

/-- `pos % nbits` -/
def slot (bits : Bytes) (pos : UInt64) : Nat := pos.toNat % (bits.length * 8)

/-- `n` turns of the loop in `add_hash`. -/
def setProbes (h2 : UInt64) : Nat → UInt64 → Bytes → Bytes
  | 0, _, bits => bits
  | n + 1, pos, bits => setProbes h2 n (pos + h2) (setBit bits (slot bits pos))

def addHash (f : BloomFilter) (h1 : UInt64) : BloomFilter := { f with bits := setProbes (stride h1) f.k h1 f.bits }

/-- `((bits_per_key as f64 * 0.69) as u32).clamp(1, 30)`. The clamp is reached from 44 on; below, no product lies
within 0.01 of a whole number other than 0, so that the rounding of `f64` does not show. -/
def probeCount (bitsPerKey : Nat) : Nat := max 1 (min 30 (bitsPerKey * 69 / 100))

def fromHashes (hashes : List UInt64) (bitsPerKey : Nat) : BloomFilter :=
  let nbits := max (hashes.length * bitsPerKey) 64
  let nbits := (nbits + 7) / 8 * 8
  hashes.foldl addHash { k := probeCount bitsPerKey, bits := List.replicate (nbits / 8) 0 }

/-- `n` turns of the loop in `may_contain`. -/
def allProbes (bits : Bytes) (h2 : UInt64) : Nat → UInt64 → Bool
  | 0, _ => true
  | n + 1, pos => getBit bits (slot bits pos) && allProbes bits h2 n (pos + h2)

def mayContain (f : BloomFilter) (key : Bytes) : Bool := allProbes f.bits (stride (fnv1a key)) f.k (fnv1a key)

def encode (f : BloomFilter) : Bytes := leBytes 4 f.k ++ f.bits

def decode (data : Bytes) : Except Error BloomFilter :=
  if data.length < 5 then .error (.corruption "bloom filter too short")
  else .ok { k := leNat (data.take 4), bits := data.drop 4 }

/-! ## Bits -/

variable {bits : Bytes} {b c : Nat} {h2 pos : UInt64} {f : BloomFilter} {hashes : List UInt64} {bitsPerKey : Nat}

@[simp] theorem length_setBit : (setBit bits b).length = bits.length := List.length_modify ..

theorem slot_lt (h : bits ≠ []) (pos : UInt64) : slot bits pos / 8 < bits.length := by
  have hlen : 0 < bits.length := List.length_pos_iff.2 h
  have hlt : slot bits pos < bits.length * 8 := Nat.mod_lt _ (by omega)
  omega

theorem mask_ne_zero : ∀ i < 8, (1 <<< UInt8.ofNat i : UInt8) ≠ 0 := by decide

theorem or_and_distrib (x y m : UInt8) : (x ||| y) &&& m = x &&& m ||| y &&& m := by
  apply UInt8.toBitVec_inj.1
  simp only [UInt8.toBitVec_and, UInt8.toBitVec_or]
  ext i hi
  simp only [BitVec.getElem_and, BitVec.getElem_or, Bool.and_or_distrib_right]

theorem or_and_ne_zero {x y m : UInt8} (h : x &&& m ≠ 0) : (x ||| y) &&& m ≠ 0 := by
  intro h0
  rw [or_and_distrib] at h0
  exact h (UInt8.or_eq_zero_iff.1 h0).1

theorem or_self_and_ne_zero {m : UInt8} (x : UInt8) (h : m ≠ 0) : (x ||| m) &&& m ≠ 0 := by
  intro h0
  rw [or_and_distrib, UInt8.and_self] at h0
  exact h (UInt8.or_eq_zero_iff.1 h0).2

theorem getD_setBit (h : b / 8 < bits.length) (j : Nat) : (setBit bits b).getD j 0 =
    if b / 8 = j then bits.getD j 0 ||| 1 <<< UInt8.ofNat (b % 8) else bits.getD j 0 := by
  rw [setBit, List.getD_eq_getElem?_getD, List.getElem?_modify, List.getD_eq_getElem?_getD]
  by_cases hj : b / 8 = j
  · subst hj
    simp [List.getElem?_eq_getElem h]
  · cases bits[j]? <;> simp [hj]

theorem getBit_setBit_self (h : b / 8 < bits.length) : getBit (setBit bits b) b = true := by
  rw [getBit, getD_setBit h, if_pos rfl, decide_eq_true_eq]
  exact or_self_and_ne_zero _ (mask_ne_zero _ (Nat.mod_lt _ (by decide)))

/-- Bits are only set. -/
theorem getBit_setBit (h : b / 8 < bits.length) (hc : getBit bits c = true) : getBit (setBit bits b) c = true := by
  rw [getBit, decide_eq_true_eq] at hc ⊢
  rw [getD_setBit h]
  split
  · exact or_and_ne_zero hc
  · exact hc

/-! ## Probes -/

theorem length_setProbes : ∀ (n : Nat) (pos : UInt64) (bits : Bytes), (setProbes h2 n pos bits).length = bits.length
  | 0, _, _ => rfl
  | n + 1, pos, bits => by rw [setProbes, length_setProbes n, length_setBit]

theorem getBit_setProbes : ∀ (n : Nat) (pos : UInt64) {bits : Bytes}, bits ≠ [] → getBit bits c = true →
    getBit (setProbes h2 n pos bits) c = true
  | 0, _, _, _, h => h
  | n + 1, pos, bits, hne, h => by
    have hne' : setBit bits (slot bits pos) ≠ [] := by
      rw [← List.length_pos_iff, length_setBit, List.length_pos_iff]
      exact hne
    exact getBit_setProbes n _ hne' (getBit_setBit (slot_lt hne pos) h)

/-- All positions that `add_hash` walks are set afterwards. -/
theorem allProbes_setProbes : ∀ (n : Nat) (pos : UInt64) {bits : Bytes}, bits ≠ [] →
    allProbes (setProbes h2 n pos bits) h2 n pos = true
  | 0, _, _, _ => rfl
  | n + 1, pos, bits, hne => by
    have hne' : setBit bits (slot bits pos) ≠ [] := by
      rw [← List.length_pos_iff, length_setBit, List.length_pos_iff]
      exact hne
    have hslot : slot (setProbes h2 (n + 1) pos bits) pos = slot bits pos := by
      rw [slot, slot, length_setProbes]
    rw [allProbes, Bool.and_eq_true, hslot]
    exact ⟨getBit_setProbes n _ hne' (getBit_setBit_self (slot_lt hne pos)), allProbes_setProbes n _ hne'⟩

/-- A filter that only gained bits still answers "maybe". -/
theorem allProbes_mono {bits' : Bytes} (hlen : bits'.length = bits.length)
    (h : ∀ c, getBit bits c = true → getBit bits' c = true) : ∀ (n : Nat) (pos : UInt64),
    allProbes bits h2 n pos = true → allProbes bits' h2 n pos = true
  | 0, _, _ => rfl
  | n + 1, pos, hp => by
    rw [allProbes, Bool.and_eq_true] at hp ⊢
    have hslot : slot bits' pos = slot bits pos := by rw [slot, slot, hlen]
    rw [hslot]
    exact ⟨h _ hp.1, allProbes_mono hlen h n _ hp.2⟩

theorem foldl_addHash (hashes : List UInt64) (hne : f.bits ≠ []) :
    (hashes.foldl addHash f).k = f.k ∧ (hashes.foldl addHash f).bits.length = f.bits.length ∧
      (∀ c, getBit f.bits c = true → getBit (hashes.foldl addHash f).bits c = true) ∧
      ∀ h ∈ hashes, allProbes (hashes.foldl addHash f).bits (stride h) f.k h = true := by
  induction hashes generalizing f with
  | nil => exact ⟨rfl, rfl, fun _ h => h, by simp⟩
  | cons h hs ih =>
    have hlen : (f.addHash h).bits.length = f.bits.length := length_setProbes ..
    have hne' : (f.addHash h).bits ≠ [] := by
      rw [← List.length_pos_iff, hlen, List.length_pos_iff]
      exact hne
    obtain ⟨hk, hl, hset, hall⟩ := ih hne'
    refine ⟨hk, hl.trans hlen, fun c hc => hset c (getBit_setProbes _ _ hne hc), fun h' hh => ?_⟩
    rcases List.mem_cons.1 hh with rfl | hh
    · exact allProbes_mono hl hset _ _ (allProbes_setProbes _ _ hne)
    · exact hall h' hh

theorem fresh_ne_nil (n : Nat) : List.replicate ((max n 64 + 7) / 8 * 8 / 8) (0 : UInt8) ≠ [] := by
  rw [← List.length_pos_iff, List.length_replicate]
  omega

/-- The filter has at least the bits that were asked for. -/
theorem length_fromHashes (hashes : List UInt64) (bitsPerKey : Nat) :
    hashes.length * bitsPerKey ≤ 8 * (fromHashes hashes bitsPerKey).bits.length := by
  have hlen := (foldl_addHash (f := { k := probeCount bitsPerKey, bits := _ }) hashes
    (fresh_ne_nil (hashes.length * bitsPerKey))).2.1
  rw [fromHashes, hlen, List.length_replicate]
  omega

/-- No false negatives. -/
theorem mayContain_fromHashes {key : Bytes} (h : fnv1a key ∈ hashes) :
    (fromHashes hashes bitsPerKey).mayContain key = true := by
  obtain ⟨hk, _, _, hall⟩ := foldl_addHash (f := { k := probeCount bitsPerKey, bits := _ }) hashes
    (fresh_ne_nil (hashes.length * bitsPerKey))
  rw [mayContain, fromHashes, hk]
  exact hall _ h

theorem decode_encode (hk : f.k < 2 ^ 32) (hne : f.bits ≠ []) : decode f.encode = .ok f := by
  have hlen : ¬ f.encode.length < 5 := by
    have := List.length_pos_iff.2 hne
    rw [encode, List.length_append, length_leBytes]
    omega
  have htake : f.encode.take 4 = leBytes 4 f.k := List.take_left' (length_leBytes ..)
  have hdrop : f.encode.drop 4 = f.bits := List.drop_left' (length_leBytes ..)
  rw [decode, if_neg hlen, htake, hdrop, leNat_leBytes_of_lt (Nat.lt_of_lt_of_le hk (by decide))]

theorem decode_encode_fromHashes (hashes : List UInt64) (bitsPerKey : Nat) :
    decode (fromHashes hashes bitsPerKey).encode = .ok (fromHashes hashes bitsPerKey) := by
  obtain ⟨hk, hlen, _⟩ := foldl_addHash (f := { k := probeCount bitsPerKey, bits := _ }) hashes
    (fresh_ne_nil (hashes.length * bitsPerKey))
  refine decode_encode ?_ ?_
  · rw [fromHashes, hk]
    show probeCount bitsPerKey < 2 ^ 32
    unfold probeCount
    omega
  · rw [fromHashes, ← List.length_pos_iff, hlen, List.length_pos_iff]
    exact fresh_ne_nil _

end BloomFilter

end RaftKv.Storage

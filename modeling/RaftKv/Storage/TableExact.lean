import RaftKv.Storage.Table

/-!
# A table gives back what was built into it

The builder cuts its entries into blocks; `Grouped` says how its state describes the cut so far.
The reader then finds each block where the index says (`readBlock_records`), and its search of the
sparse index skips only blocks whose keys are all below the one it looks for (`getFrom_skip`).

`Reads` is what the rest of the engine needs to know about a table: it has the contents of a
strictly sorted list, whose first and last keys it knows.
-/

namespace RaftKv.Storage

open Versions TableBuilder

variable {C : Coding}

/-! ## Blocks -/

def firstKeyOf (es : List Entry) : Bytes := (es.head?.map Prod.fst).getD []

/-- The blocks of the entries that follow those of the open block `cur`. -/
def cutBlocks (blockBytes : Nat) : List Entry → List Entry → List (List Entry)
  | cur, [] => if cur = [] then [] else [cur]
  | cur, e :: es =>
    if blockBytes ≤ (records (cur ++ [e])).length then (cur ++ [e]) :: cutBlocks blockBytes [] es
    else cutBlocks blockBytes (cur ++ [e]) es

theorem flatten_cutBlocks (blockBytes : Nat) :
    ∀ (es cur : List Entry), (cutBlocks blockBytes cur es).flatten = cur ++ es
  | [], cur => by
    unfold cutBlocks
    split
    · rename_i h
      rw [h]
      rfl
    · simp
  | e :: es, cur => by
    unfold cutBlocks
    split
    · rw [List.flatten_cons, flatten_cutBlocks blockBytes es, List.append_assoc]
      rfl
    · rw [flatten_cutBlocks blockBytes es, List.append_assoc]
      rfl

variable (C) in
/-- How the index describes a block at `offset`. -/
def blockMeta (offset : Nat) (c : List Entry) : BlockMeta :=
  { firstKey := firstKeyOf c, offset, len := (records c).length % 2 ^ 32, crc := C.crc (records c) }

variable (C) in
/-- The index of blocks that follow each other from `offset` on. -/
def blockMetas : Nat → List (List Entry) → List BlockMeta
  | _, [] => []
  | offset, c :: cs => blockMeta C offset c :: blockMetas (offset + (records c).length) cs

theorem blockMetas_concat (c : List Entry) : ∀ (offset : Nat) (cs : List (List Entry)),
    blockMetas C offset (cs ++ [c]) = blockMetas C offset cs ++ [blockMeta C (offset + (records cs.flatten).length) c]
  | _, [] => rfl
  | offset, d :: cs => by
    rw [List.cons_append, blockMetas, blockMetas_concat, List.flatten_cons, records_append,
      List.length_append, Nat.add_assoc]
    rfl

theorem map_len_blockMetas : ∀ (offset : Nat) (cs : List (List Entry)),
    (blockMetas C offset cs).map BlockMeta.len = cs.map fun c => (records c).length % 2 ^ 32
  | _, [] => rfl
  | offset, c :: cs => by
    rw [blockMetas, List.map_cons, map_len_blockMetas]
    rfl

/-- The keys for the filter: one for each run of entries with the same key, if `last` is the key before them. -/
def userKeys : Option Bytes → List Entry → List Bytes
  | _, [] => []
  | last, e :: es => if last = some e.1 then userKeys last es else e.1 :: userKeys (some e.1) es

theorem userKeys_concat (e : Entry) : ∀ (es : List Entry) (last : Option Bytes),
    userKeys last (es ++ [e]) =
      if (es.getLast?.map Prod.fst).or last = some e.1 then userKeys last es else userKeys last es ++ [e.1]
  | [], last => rfl
  | x :: es, last => by
    have hlast : ((x :: es).getLast?.map Prod.fst).or last = (es.getLast?.map Prod.fst).or (some x.1) := by
      rw [List.getLast?_cons]
      cases es.getLast? <;> rfl
    rw [List.cons_append, userKeys, userKeys, hlast, userKeys_concat e es last, userKeys_concat e es (some x.1)]
    split
    · rename_i hx
      rw [hx]
    · split <;> rfl

theorem mem_userKeys {e : Entry} : ∀ {es : List Entry} (last : Option Bytes), e ∈ es →
    last = some e.1 ∨ e.1 ∈ userKeys last es
  | x :: es, last, h => by
    unfold userKeys
    split
    · rename_i hx
      rcases List.mem_cons.1 h with rfl | h
      · exact .inl hx
      · exact mem_userKeys last h
    · right
      rcases List.mem_cons.1 h with rfl | h
      · exact List.mem_cons_self
      · rcases mem_userKeys (some x.1) h with hx | hx
        · exact Option.some.inj hx ▸ List.mem_cons_self
        · exact List.mem_cons_of_mem _ hx

/-! ## What is built -/

variable (C : Coding) (blockBytes bitsPerKey : Nat) (es : List Entry) in
/-- The index of a table with these entries. -/
def tableIndex : TableIndex :=
  { blocks := blockMetas C 0 (cutBlocks blockBytes [] es)
    bloom := (BloomFilter.fromHashes ((userKeys none es).map fnv1a) bitsPerKey).encode
    entryCount := es.length
    minKey := firstKeyOf es
    maxKey := (es.getLast?.map Prod.fst).getD []
    maxSeq := (es.map fun e => e.2.1).foldl max 0 }

variable (C : Coding) (blockBytes bitsPerKey : Nat) (es : List Entry) in
/-- The table with these entries, if it can be built. -/
def builtTable : BuiltTable :=
  let payload := C.index.ser (tableIndex C blockBytes bitsPerKey es)
  { entries := es.length
    bytes := (records es).length + payload.length + 24
    minKey := firstKeyOf es
    maxKey := (es.getLast?.map Prod.fst).getD []
    file := records es ++ payload ++
      (leBytes 8 (records es).length ++ leBytes 4 payload.length ++ leBytes 4 (C.crc payload) ++ leBytes 8 magic)
    fits := (∀ e ∈ es, FitsU32 e) ∧ (∀ c ∈ cutBlocks blockBytes [] es, (records c).length < 2 ^ 32) ∧
      payload.length < 2 ^ 32 }

/-! ## The builder -/

variable {b b' : TableBuilder} {es cur : List Entry} {chunks : List (List Entry)} {e : Entry}
  {blockBytes bitsPerKey : Nat}

/-- The builder has seen `es`: the blocks `chunks` are written, `cur` is in the open block. -/
structure Grouped (C : Coding) (blockBytes bitsPerKey : Nat) (b : TableBuilder) (es : List Entry)
    (chunks : List (List Entry)) (cur : List Entry) : Prop where
  entries_eq : es = chunks.flatten ++ cur
  blockBytes_eq : b.blockBytes = blockBytes
  bits_eq : b.bitsPerKey = bitsPerKey
  fits_iff : b.fits = true ↔ (∀ e ∈ es, FitsU32 e) ∧ ∀ c ∈ chunks, (records c).length < 2 ^ 32
  blocks_eq : b.blocks = blockMetas C 0 chunks
  file_eq : b.file = records chunks.flatten
  offset_eq : b.offset = (records chunks.flatten).length
  block_eq : b.block = records cur
  first_eq : b.blockFirstKey = cur.head?.map Prod.fst
  hashes_eq : b.keyHashes = (userKeys none es).map fnv1a
  last_eq : b.lastUserKey = es.getLast?.map Prod.fst
  count_eq : b.entryCount = es.length
  min_eq : b.minKey = es.head?.map Prod.fst
  max_eq : b.maxKey = es.getLast?.map Prod.fst
  seq_eq : b.maxSeq = (es.map fun e => e.2.1).foldl max 0

theorem Grouped.create (C : Coding) (blockBytes bitsPerKey : Nat) :
    Grouped C blockBytes bitsPerKey { blockBytes, bitsPerKey } [] [] [] := by
  constructor
  case fits_iff => simp
  all_goals rfl

theorem Grouped.flushBlock (h : Grouped C blockBytes bitsPerKey b es chunks cur) (hf : b.flushBlock C = .ok b') :
    Grouped C blockBytes bitsPerKey b' es (chunks ++ cutBlocks blockBytes cur []) [] := by
  unfold TableBuilder.flushBlock at hf
  rw [cutBlocks]
  split at hf
  · rename_i hnil
    cases hf
    have hcur : cur = [] := records_eq_nil.1 (h.block_eq ▸ hnil)
    subst hcur
    rw [if_pos rfl, List.append_nil]
    exact h
  · rename_i hne
    rw [h.block_eq, records_eq_nil] at hne
    rw [if_neg hne]
    split at hf
    · cases hf
    · rename_i firstKey hfirst
      cases hf
      have hkey : firstKeyOf cur = firstKey := by
        rw [firstKeyOf, ← h.first_eq, hfirst]; rfl
      exact { h with
        entries_eq := by rw [h.entries_eq]; simp
        fits_iff := by
          rw [Bool.and_eq_true_iff, h.fits_iff, decide_eq_true_eq, h.block_eq, and_assoc, List.forall_mem_append,
            List.forall_mem_singleton]
        blocks_eq := by
          rw [h.blocks_eq, blockMetas_concat, Nat.zero_add, blockMeta, h.offset_eq, h.block_eq, hkey]
        file_eq := by rw [h.file_eq, h.block_eq, List.flatten_append, records_append]; simp
        offset_eq := by rw [h.offset_eq, h.block_eq, List.flatten_append, records_append]; simp
        block_eq := rfl
        first_eq := rfl }

theorem Grouped.add (h : Grouped C blockBytes bitsPerKey b es chunks cur) (ha : b.add C e = .ok b') :
    ∃ chunks' cur', Grouped C blockBytes bitsPerKey b' (es ++ [e]) chunks' cur' ∧
      ∀ rest, chunks' ++ cutBlocks blockBytes cur' rest = chunks ++ cutBlocks blockBytes cur (e :: rest) := by
  unfold TableBuilder.add at ha
  have hblock : b.block ++ record e = records (cur ++ [e]) := by
    rw [h.block_eq]
    simp [records]
  -- the entry is in the open block
  have hnoted : Grouped C blockBytes bitsPerKey
      { b.note e with block := b.block ++ record e, fits := b.fits && FitsU32 e } (es ++ [e]) chunks (cur ++ [e]) := by
    exact { h with
      entries_eq := by rw [h.entries_eq, List.append_assoc]
      fits_iff := by
        rw [Bool.and_eq_true_iff, h.fits_iff, decide_eq_true_eq, List.forall_mem_append, List.forall_mem_singleton,
          and_right_comm]
      block_eq := hblock
      first_eq := by
        simp only [note, h.first_eq]
        cases cur <;> rfl
      hashes_eq := by
        simp only [note, h.last_eq, userKeys_concat, Option.or_none]
        split
        · exact h.hashes_eq
        · rw [h.hashes_eq, List.map_append]
          rfl
      last_eq := by simp [note]
      count_eq := by simp [note, h.count_eq]
      min_eq := by
        simp only [note, h.min_eq]
        cases es <;> rfl
      max_eq := by simp [note]
      seq_eq := by simp [note, h.seq_eq] }
  dsimp only at ha
  rw [hblock] at ha hnoted
  split at ha
  · rename_i hfull
    have hfull : blockBytes ≤ (records (cur ++ [e])).length := h.blockBytes_eq ▸ hfull
    refine ⟨_, [], hnoted.flushBlock ha, fun rest => ?_⟩
    simp [cutBlocks, hfull]
  · rename_i hfull
    have hfull : ¬ blockBytes ≤ (records (cur ++ [e])).length := h.blockBytes_eq ▸ hfull
    cases ha
    exact ⟨chunks, _, hnoted, fun rest => by rw [cutBlocks, if_neg hfull]⟩

theorem Grouped.foldlM {xs : List Entry} (h : Grouped C blockBytes bitsPerKey b es chunks cur)
    (hf : xs.foldlM (TableBuilder.add C) b = .ok b') :
    ∃ chunks' cur', Grouped C blockBytes bitsPerKey b' (es ++ xs) chunks' cur' ∧
      chunks' ++ cutBlocks blockBytes cur' [] = chunks ++ cutBlocks blockBytes cur xs := by
  induction xs generalizing b es chunks cur with
  | nil =>
    cases hf
    exact ⟨chunks, cur, by rw [List.append_nil]; exact h, rfl⟩
  | cons x xs ih =>
    obtain ⟨b₁, hb₁, hf⟩ := bind_eq_ok hf
    obtain ⟨chunks₁, cur₁, h₁, hcut⟩ := h.add hb₁
    obtain ⟨chunks', cur', h', hcut'⟩ := ih h₁ hf
    exact ⟨chunks', cur', by rw [List.append_assoc] at h'; exact h', hcut'.trans (hcut xs)⟩

namespace TableBuilder

/-- An open block has a first key. -/
def Ready (b : TableBuilder) : Prop := b.block = [] ∨ b.blockFirstKey ≠ none

theorem flushBlock_ok (h : b.Ready) : ∃ b', b.flushBlock C = .ok b' ∧ b'.Ready := by
  unfold flushBlock
  by_cases hb : b.block = []
  · exact ⟨b, if_pos hb, h⟩
  · rw [if_neg hb]
    split
    · rename_i hnone
      exact absurd hnone (h.resolve_left hb)
    · exact ⟨_, rfl, .inl rfl⟩

/-- An entry that is added opens the block. -/
theorem ready_note (b : TableBuilder) (e : Entry) (block : Bytes) (fits : Bool) :
    Ready { b.note e with block, fits } := by
  refine .inr ?_
  show b.blockFirstKey.or (some e.1) ≠ none
  cases b.blockFirstKey <;> simp

theorem add_ok (b : TableBuilder) (e : Entry) : ∃ b', b.add C e = .ok b' ∧ b'.Ready := by
  unfold add
  dsimp only
  split
  · exact flushBlock_ok (ready_note b e _ _)
  · exact ⟨_, rfl, ready_note b e _ _⟩

theorem foldlM_add_ok (es : List Entry) :
    ∀ {b : TableBuilder}, b.Ready → ∃ b', es.foldlM (add C) b = .ok b' ∧ b'.Ready := by
  induction es with
  | nil => exact fun {b} h => ⟨b, rfl, h⟩
  | cons e es ih =>
    intro b _
    obtain ⟨b₁, h₁, hr₁⟩ := add_ok (C := C) b e
    obtain ⟨b', h', hr'⟩ := ih hr₁
    refine ⟨b', ?_, hr'⟩
    rw [List.foldlM_cons, h₁]
    exact h'

variable (C) in
theorem filled_concat (blockBytes bitsPerKey : Nat) (es : List Entry) (e : Entry) :
    filled C blockBytes bitsPerKey (es ++ [e]) = filled C blockBytes bitsPerKey es >>= fun b => b.add C e := by
  simp only [filled, List.foldlM_append, List.foldlM_cons, List.foldlM_nil, bind_pure, bind_assoc]

/-- Only the buffer for a block can be missing before the table is finished. -/
theorem build_of_filled_error {err : Error} (h : filled C blockBytes bitsPerKey cur = .error err) (es : List Entry) :
    build C blockBytes bitsPerKey es = .error err := by
  unfold build
  unfold filled create at h ⊢
  split at h
  · rename_i hbuf
    rw [if_pos hbuf]
    cases h
    rfl
  · obtain ⟨b₁, h₁, -⟩ := foldlM_add_ok (C := C) cur (b := { blockBytes, bitsPerKey }) (.inl rfl)
    cases h₁.symm.trans h

variable (C) in
/-- **What is built**: only the buffer for a block and the file can be too long. -/
theorem build_eq (blockBytes bitsPerKey : Nat) (es : List Entry) :
    build C blockBytes bitsPerKey es =
      if 2 ^ 63 ≤ blockBytes + 512 ∨ 2 ^ 64 ≤ (records es).length then .error .overflow
      else .ok (builtTable C blockBytes bitsPerKey es) := by
  unfold build filled create
  by_cases hbuf : 2 ^ 63 ≤ blockBytes + 512
  · rw [if_pos hbuf, if_pos (.inl hbuf)]
    rfl
  · obtain ⟨b₁, h₁, hr⟩ := foldlM_add_ok (C := C) es (b := { blockBytes, bitsPerKey }) (.inl rfl)
    obtain ⟨b, hb, -⟩ := flushBlock_ok (C := C) hr
    obtain ⟨chunks, cur, hg₁, hcut⟩ := (Grouped.create C blockBytes bitsPerKey).foldlM h₁
    have hg := hg₁.flushBlock hb
    rw [hcut, List.nil_append, List.nil_append] at hg
    have hoff : b.offset = (records es).length := by rw [hg.offset_eq, flatten_cutBlocks, List.nil_append]
    have hfile : b.file = records es := by rw [hg.file_eq, flatten_cutBlocks, List.nil_append]
    have hindex : b.index = tableIndex C blockBytes bitsPerKey es := by
      rw [index, tableIndex, hg.blocks_eq, hg.hashes_eq, hg.bits_eq, hg.count_eq, hg.min_eq, hg.max_eq, hg.seq_eq]
      rfl
    have hfits : b.fits = decide ((∀ e ∈ es, FitsU32 e) ∧
        ∀ c ∈ cutBlocks blockBytes [] es, (records c).length < 2 ^ 32) := by
      rw [Bool.eq_iff_iff, hg.fits_iff, decide_eq_true_eq]
    rw [if_neg hbuf]
    show (es.foldlM (add C) { blockBytes, bitsPerKey } >>= finish C) = _
    rw [h₁]
    show b₁.finish C = _
    rw [finish, hb]
    simp only [bind, Except.bind, hoff, hindex, hfile, hfits, hg.count_eq, hbuf, false_or, builtTable,
      ← Bool.decide_and, and_assoc]
    rfl

theorem build_limited (blockBytes bitsPerKey : Nat) (es : List Entry) : Limited (build C blockBytes bitsPerKey es) := by
  rw [build_eq]
  split
  · exact Limited.overflow
  · exact Limited.ok _

theorem build_eq_ok {built : BuiltTable} : build C blockBytes bitsPerKey es = .ok built ↔
    (blockBytes + 512 < 2 ^ 63 ∧ (records es).length < 2 ^ 64) ∧ built = builtTable C blockBytes bitsPerKey es := by
  rw [build_eq]
  split
  · exact iff_of_false (fun h => nomatch h) fun hb => absurd hb.1 (by omega)
  · rw [Except.ok.injEq, eq_comm, and_iff_right (by omega)]

end TableBuilder

/-! ## Opening -/

theorem readExact_take (pre mid post : Bytes) {n : Nat} (h : n ≤ mid.length) :
    readExact (pre ++ mid ++ post) pre.length n = .ok (mid.take n) := by
  unfold readExact
  rw [if_pos (by simp only [List.length_append]; omega), List.append_assoc, List.drop_left,
    List.take_append_of_le_length h]

theorem readExact_mid (pre mid post : Bytes) : readExact (pre ++ mid ++ post) pre.length mid.length = .ok mid := by
  rw [readExact_take pre mid post (Nat.le_refl _), List.take_length]

/-- The footer leads to the index, or to as much of it as its length field tells. -/
theorem openFile_footer {body payload : Bytes} (hoff : body.length < 2 ^ 64) (path : String) (id : Nat) :
    SsTable.openFile C (body ++ payload ++
      (leBytes 8 body.length ++ leBytes 4 payload.length ++ leBytes 4 (C.crc payload) ++ leBytes 8 magic)) path id =
      if C.crc (payload.take (payload.length % 2 ^ 32)) ≠ C.crc payload then
        .error (.corruption ("index crc mismatch in " ++ path.quote))
      else (do
        let index ← (C.index.de (payload.take (payload.length % 2 ^ 32))).mapError .corruption
        let bloom ← BloomFilter.decode index.bloom
        .ok { id, path, index, bloom }) := by
  set footer := leBytes 8 body.length ++ leBytes 4 payload.length ++ leBytes 4 (C.crc payload) ++ leBytes 8 magic
    with hfooter
  have hfl : footer.length = 24 := by simp [hfooter]
  have hdrop : (body ++ payload ++ footer).drop ((body ++ payload ++ footer).length - 24) = footer := by
    have : (body ++ payload ++ footer).length - 24 = (body ++ payload).length := by
      rw [List.length_append, hfl]; omega
    rw [this, List.drop_left]
  have hmagic : leNat (footer.drop 16) = magic := by
    rw [List.drop_left' (by simp)]
    exact leNat_leBytes_of_lt (by decide)
  have h0 : leNat (footer.take 8) = body.length := by
    rw [hfooter, List.append_assoc, List.append_assoc, List.take_left' (length_leBytes ..)]
    exact leNat_leBytes_of_lt (Nat.lt_of_lt_of_le hoff (by decide))
  have h8 : leNat ((footer.drop 8).take 4) = payload.length % 2 ^ 32 := by
    rw [hfooter, List.append_assoc, List.append_assoc, List.drop_left' (length_leBytes ..)]
    exact leNat_leBytes 4 payload.length
  have h12 : leNat ((footer.drop 12).take 4) = C.crc payload := by
    exact C.leNat_crc payload
  unfold SsTable.openFile
  rw [if_neg (by rw [List.length_append, hfl]; omega)]
  simp only [hdrop, hmagic, h0, h8, h12, readExact_take _ _ _ (Nat.mod_le _ _)]
  rfl

/-- An index whose length fits its field is found. -/
theorem openFile_index {body : Bytes} (index : TableIndex) {bloom : BloomFilter} (hoff : body.length < 2 ^ 64)
    (hlen : (C.index.ser index).length < 2 ^ 32) (hbloom : BloomFilter.decode index.bloom = .ok bloom) (path : String)
    (id : Nat) :
    SsTable.openFile C (body ++ C.index.ser index ++ (leBytes 8 body.length ++ leBytes 4 (C.index.ser index).length ++
      leBytes 4 (C.crc (C.index.ser index)) ++ leBytes 8 magic)) path id = .ok { id, path, index, bloom } := by
  rw [openFile_footer hoff, Nat.mod_eq_of_lt hlen, List.take_length, if_neg (by simp), C.index.de_ser]
  simp only [bind, Except.bind, Except.mapError, hbloom]

/-- Of an index whose length is cut off nothing can be decoded. -/
theorem openFile_cut (hw : C.index.Whole) {body : Bytes} {index : TableIndex} (hoff : body.length < 2 ^ 64)
    (hlen : 2 ^ 32 ≤ (C.index.ser index).length) (path : String) (id : Nat) (t : SsTable) :
    SsTable.openFile C (body ++ C.index.ser index ++ (leBytes 8 body.length ++ leBytes 4 (C.index.ser index).length ++
      leBytes 4 (C.crc (C.index.ser index)) ++ leBytes 8 magic)) path id ≠ .ok t := by
  rw [openFile_footer hoff]
  split
  · intro h; cases h
  · intro h
    obtain ⟨index', hde, -⟩ := bind_eq_ok h
    have hcut : (C.index.ser index).length % 2 ^ 32 < (C.index.ser index).length :=
      Nat.lt_of_lt_of_le (Nat.mod_lt _ (by decide)) hlen
    cases hd : C.index.de ((C.index.ser index).take ((C.index.ser index).length % 2 ^ 32)) with
    | error e => rw [hd] at hde; cases hde
    | ok x => exact hw index _ hcut x hd

/-! ## Reading -/

section reading
variable {t : SsTable} {pre post : Bytes} {c : List Entry} {key : Bytes} {s i : Nat}

/-- No length in the block was cut off. -/
def Readable (c : List Entry) : Prop := (records c).length < 2 ^ 32 ∧ ∀ e ∈ c, FitsU32 e ∧ e.2.1 < 2 ^ 64

theorem readBlock_records (pre post : Bytes) (i : Nat) (hc : Readable c) :
    t.readBlock C (pre ++ records c ++ post) i (blockMeta C pre.length c) = .ok c := by
  unfold SsTable.readBlock blockMeta
  rw [Nat.mod_eq_of_lt hc.1, readExact_mid]
  simp only [bind, Except.bind, ne_eq]
  exact decodeBlock_records hc.2

theorem records_flatten_cons (pre post : Bytes) (c : List Entry) (cs : List (List Entry)) :
    pre ++ records (c :: cs).flatten ++ post = pre ++ records c ++ records cs.flatten ++ post := by
  rw [List.flatten_cons, records_append, ← List.append_assoc]

/-- The first block of those that follow `pre`. -/
theorem readBlock_head {cs : List (List Entry)} (hc : Readable c) :
    t.readBlock C (pre ++ records c ++ records cs.flatten ++ post) i (blockMeta C pre.length c) = .ok c := by
  rw [List.append_assoc (pre ++ records c)]
  exact readBlock_records pre _ i hc

theorem iterFrom_blocks (pre : Bytes) (i : Nat) (hc : ∀ c ∈ chunks, Readable c) :
    t.iterFrom C (pre ++ records chunks.flatten ++ post) i (blockMetas C pre.length chunks) = .ok chunks.flatten := by
  induction chunks generalizing pre i with
  | nil => rfl
  | cons c cs ih =>
    have hrest := ih (pre ++ records c) (i + 1) fun d hd => hc d (List.mem_cons_of_mem _ hd)
    rw [blockMetas, SsTable.iterFrom, records_flatten_cons, readBlock_head (hc c (by simp)), ← List.length_append, hrest]
    rfl

/-- Whatever the blocks are, as many bytes are read as the index says. -/
theorem iterFrom_spec {file : Bytes} : ∀ {bs : List BlockMeta} {i : Nat} {es : List Entry},
    t.iterFrom C file i bs = .ok es →
    (records es).length = (bs.map BlockMeta.len).sum ∧ ∀ e ∈ es, FitsU32 e ∧ e.2.1 < 2 ^ 64
  | [], i, es, h => by
    cases h
    exact ⟨rfl, fun e he => (by cases he)⟩
  | b :: bs, i, es, h => by
    unfold SsTable.iterFrom at h
    split at h
    · rename_i c hc
      cases hrest : t.iterFrom C file (i + 1) bs with
      | error err => rw [hrest] at h; cases h
      | ok es' =>
        rw [hrest] at h
        cases h
        obtain ⟨buf, hbuf, hc⟩ := bind_eq_ok hc
        have hlen : buf.length = b.len := by
          unfold readExact at hbuf
          split at hbuf
          · cases hbuf
            rw [List.length_take, List.length_drop]
            omega
          · cases hbuf
        split at hc
        · cases hc
        · obtain ⟨hsize, hfits⟩ := decodeBlock_spec buf hc
          obtain ⟨hsize', hfits'⟩ := iterFrom_spec hrest
          refine ⟨?_, fun e he => ?_⟩
          · rw [records_append, List.length_append, hsize, hsize', hlen]
            rfl
          · rcases List.mem_append.1 he with he | he
            · exact hfits e he
            · exact hfits' e he
    · cases h

/-- The scan of a block answers as the lookup does, and otherwise there is nothing in it. -/
theorem scanBlock_cases (hs : Sorted c) (key : Bytes) (s : Nat) :
    (∃ r, SsTable.scanBlock key s c = some (some r) ∧ lookup c key s = some r) ∨
    (SsTable.scanBlock key s c = some none ∧ lookup c key s = none ∧ ∃ e ∈ c, key < e.1) ∨
    (SsTable.scanBlock key s c = none ∧ lookup c key s = none) := by
  induction c with
  | nil => exact .inr (.inr ⟨rfl, rfl⟩)
  | cons e c ih =>
    obtain ⟨hfirst, hs'⟩ := List.pairwise_cons.1 hs
    obtain ⟨k, seq, v⟩ := e
    have hskip : ¬ (k = key ∧ seq ≤ s) → lookup ((k, seq, v) :: c) key s = lookup c key s := by
      intro hno
      unfold lookup
      rw [List.find?_cons_of_neg (by simpa using hno)]
    have hnext : ¬ (k = key ∧ seq ≤ s) → SsTable.scanBlock key s ((k, seq, v) :: c) = SsTable.scanBlock key s c →
        (∃ r, SsTable.scanBlock key s ((k, seq, v) :: c) = some (some r) ∧ lookup ((k, seq, v) :: c) key s = some r) ∨
        (SsTable.scanBlock key s ((k, seq, v) :: c) = some none ∧ lookup ((k, seq, v) :: c) key s = none ∧
          ∃ e ∈ (k, seq, v) :: c, key < e.1) ∨
        (SsTable.scanBlock key s ((k, seq, v) :: c) = none ∧ lookup ((k, seq, v) :: c) key s = none) := by
      intro hno hscan
      rw [hskip hno, hscan]
      rcases ih hs' with h | ⟨h1, h2, e', he', hlt⟩ | h
      · exact .inl h
      · exact .inr (.inl ⟨h1, h2, e', List.mem_cons_of_mem _ he', hlt⟩)
      · exact .inr (.inr h)
    by_cases hlt : k < key
    · exact hnext (fun h => absurd h.1 (ne_of_lt hlt)) (by rw [SsTable.scanBlock, if_pos hlt])
    · by_cases heq : k = key
      · by_cases hle : seq ≤ s
        · left
          refine ⟨(seq, v), by rw [SsTable.scanBlock, if_neg hlt, if_pos heq, if_pos hle], ?_⟩
          unfold lookup
          rw [List.find?_cons_of_pos (by simpa using ⟨heq, hle⟩)]
          rfl
        · exact hnext (fun h => hle h.2) (by rw [SsTable.scanBlock, if_neg hlt, if_pos heq, if_neg hle])
      · -- all keys from here on are above
        have hgt : key < k := lt_of_le_of_ne (not_lt.1 hlt) (Ne.symm heq)
        right; left
        refine ⟨by rw [SsTable.scanBlock, if_neg hlt, if_neg heq], ?_, (k, seq, v), by simp, hgt⟩
        rw [lookup_eq_none]
        intro e he hk
        exfalso
        rcases List.mem_cons.1 he with rfl | he
        · exact heq hk
        · exact absurd (hfirst e he).key_le (not_le.2 (hk ▸ hgt))

variable {es : List Entry}

theorem lookup_none_of_gt (h : ∀ e ∈ es, key < e.1) : lookup es key s = none :=
  lookup_eq_none.2 fun e he hk => absurd (h e he) (hk ▸ lt_irrefl _)

theorem lookup_none_of_lt (h : ∀ e ∈ es, e.1 < key) : lookup es key s = none :=
  lookup_eq_none.2 fun e he hk => absurd (h e he) (hk ▸ lt_irrefl _)

/-- Nothing that follows starts below the first key of a block. -/
theorem firstKeyOf_le (hs : Sorted es) : ∀ e ∈ es, firstKeyOf es ≤ e.1 := by
  cases es with
  | nil => simp
  | cons x xs =>
    intro e he
    rcases List.mem_cons.1 he with rfl | he
    · exact le_rfl
    · exact ((List.pairwise_cons.1 hs).1 e he).key_le

theorem firstKeyOf_append (hne : c ≠ []) : firstKeyOf (c ++ es) = firstKeyOf c := by
  cases c with
  | nil => exact absurd rfl hne
  | cons x xs => rfl

/-- The loop over the blocks looks the key up in all of them. -/
theorem getFrom_blocks (pre : Bytes) (i : Nat) (hs : Sorted chunks.flatten) (hne : ∀ c ∈ chunks, c ≠ [])
    (hcs : chunks ≠ []) (hc : ∀ c ∈ chunks, Readable c) :
    t.getFrom C (pre ++ records chunks.flatten ++ post) key s i (blockMetas C pre.length chunks) =
      .ok (lookup chunks.flatten key s) := by
  induction chunks generalizing pre i with
  | nil => exact absurd rfl hcs
  | cons c cs ih =>
    obtain ⟨hsc, hscs, hmid⟩ := hs.of_append
    rw [blockMetas, SsTable.getFrom, records_flatten_cons, readBlock_head (hc c (by simp))]
    simp only [bind, Except.bind]
    rw [List.flatten_cons, lookup_append]
    rcases scanBlock_cases hsc key s with ⟨r, hscan, hl⟩ | ⟨hscan, hl, e, he, hlt⟩ | ⟨hscan, hl⟩
    · rw [hscan, hl]; rfl
    · rw [hscan, hl, lookup_none_of_gt fun x hx => lt_of_lt_of_le hlt (hmid e he x hx).key_le]
      rfl
    · rw [hscan, hl, Option.none_or]
      cases cs with
      | nil => rfl
      | cons c' cs =>
        have hne' : c' ≠ [] := hne c' (by simp)
        simp only [blockMetas]
        by_cases hkey : key < (blockMeta C (pre.length + (records c).length) c').firstKey
        · rw [if_pos hkey]
          have hfirst : key < firstKeyOf (c' :: cs).flatten := by
            rw [List.flatten_cons, firstKeyOf_append hne']; exact hkey
          rw [lookup_none_of_gt fun x hx => lt_of_lt_of_le hfirst (firstKeyOf_le hscs x hx)]
        · rw [if_neg hkey]
          have hrest := ih (pre ++ records c) (i + 1) hscs (fun x hx => hne x (List.mem_cons_of_mem _ hx))
            (by simp) fun d hd => hc d (List.mem_cons_of_mem _ hd)
          rw [List.length_append] at hrest
          exact hrest

end reading

/-! ## The sparse index -/

section index
variable {t : SsTable} {pre post : Bytes} {key : Bytes} {s i : Nat}

theorem partitionPoint_blockMetas (key : Bytes) : ∀ (offset : Nat) (chunks : List (List Entry)),
    partitionPoint (fun b => b.firstKey < key) (blockMetas C offset chunks) =
      partitionPoint (fun c => firstKeyOf c < key) chunks
  | _, [] => rfl
  | offset, c :: cs => by
    have ih := partitionPoint_blockMetas key (offset + (records c).length) cs
    unfold partitionPoint at ih ⊢
    have hfirst : (blockMeta C offset c).firstKey = firstKeyOf c := rfl
    rw [blockMetas, List.takeWhile_cons, List.takeWhile_cons, hfirst]
    split
    · rw [List.length_cons, List.length_cons, ih]
    · rfl

theorem drop_blockMetas : ∀ (n offset : Nat) (chunks : List (List Entry)),
    (blockMetas C offset chunks).drop n =
      blockMetas C (offset + (records (chunks.take n).flatten).length) (chunks.drop n)
  | 0, _, _ => rfl
  | _ + 1, _, [] => rfl
  | n + 1, offset, c :: cs => by
    rw [blockMetas, List.drop_succ_cons, drop_blockMetas, List.take_succ_cons, List.flatten_cons, records_append,
      List.length_append, Nat.add_assoc, List.drop_succ_cons]

/-- Before the block where the search starts, all keys are below the one that is sought. -/
theorem lookup_skip (hs : Sorted chunks.flatten) (hne : ∀ c ∈ chunks, c ≠ []) :
    lookup chunks.flatten key s =
      lookup (chunks.drop (partitionPoint (fun c => firstKeyOf c < key) chunks - 1)).flatten key s := by
  set n := partitionPoint (fun c => firstKeyOf c < key) chunks - 1 with hn
  conv_lhs => rw [← List.take_append_drop n chunks, List.flatten_append, lookup_append]
  rw [lookup_none_of_lt, Option.none_or]
  intro e he
  -- block `n` starts below the key
  have hlt : n < (chunks.takeWhile fun c => firstKeyOf c < key).length := by
    by_contra hle
    have h0 : n = 0 := by unfold partitionPoint at hn; omega
    rw [h0] at he
    simp at he
  have hpre : chunks.takeWhile (fun c => firstKeyOf c < key) <+: chunks := List.takeWhile_prefix _
  have hlen : n < chunks.length := hlt.trans_le hpre.length_le
  have hget : (chunks.takeWhile fun c => firstKeyOf c < key)[n] = chunks[n] := hpre.getElem hlt
  have hbelow : firstKeyOf chunks[n] < key := by
    have := List.all_takeWhile (p := fun c => decide (firstKeyOf c < key)) (l := chunks)
    rw [List.all_eq_true] at this
    have hp := this _ (List.getElem_mem hlt)
    rw [hget] at hp
    exact of_decide_eq_true hp
  obtain ⟨x, xs, hx⟩ := List.exists_cons_of_ne_nil (hne chunks[n] (List.getElem_mem hlen))
  have hsplit : chunks.flatten = (chunks.take n).flatten ++ (chunks[n] ++ (chunks.drop (n + 1)).flatten) := by
    conv_lhs => rw [← List.take_append_drop n chunks, List.flatten_append, List.drop_eq_getElem_cons hlen,
      List.flatten_cons]
  rw [hsplit] at hs
  have hbefore := hs.of_append.2.2 e he x (by rw [hx]; simp)
  have hxkey : x.1 < key := by rw [hx] at hbelow; exact hbelow
  exact lt_of_le_of_lt hbefore.key_le hxkey

theorem skip_lt (hne : chunks ≠ []) (key : Bytes) :
    partitionPoint (fun c => firstKeyOf c < key) chunks - 1 < chunks.length := by
  have hle : partitionPoint (fun c => decide (firstKeyOf c < key)) chunks ≤ chunks.length :=
    (List.takeWhile_prefix _).length_le
  have hpos := List.length_pos_iff.2 hne
  omega

/-- The search through the index looks the key up in all blocks. -/
theorem getFrom_index (hs : Sorted chunks.flatten) (hne : ∀ c ∈ chunks, c ≠ []) (hcs : chunks ≠ [])
    (hc : ∀ c ∈ chunks, Readable c) (hblocks : t.index.blocks = blockMetas C 0 chunks) :
    t.getFrom C (records chunks.flatten ++ post) key s
      (partitionPoint (fun b => b.firstKey < key) t.index.blocks - 1)
      (t.index.blocks.drop (partitionPoint (fun b => b.firstKey < key) t.index.blocks - 1)) =
      .ok (lookup chunks.flatten key s) := by
  rw [hblocks, partitionPoint_blockMetas, drop_blockMetas, Nat.zero_add, lookup_skip hs hne]
  have hlt := skip_lt hcs key
  set n := partitionPoint (fun c => firstKeyOf c < key) chunks - 1
  have hfile : records chunks.flatten ++ post =
      records (chunks.take n).flatten ++ records (chunks.drop n).flatten ++ post := by
    rw [← records_append, ← List.flatten_append, List.take_append_drop]
  have hsplit : chunks.flatten = (chunks.take n).flatten ++ (chunks.drop n).flatten := by
    rw [← List.flatten_append, List.take_append_drop]
  rw [hfile]
  refine getFrom_blocks _ _ ?_ (fun c hmem => hne c (List.mem_of_mem_drop hmem)) ?_
    fun c hmem => hc c (List.mem_of_mem_drop hmem)
  · rw [hsplit] at hs
    exact hs.of_append.2.1
  · rw [← List.length_pos_iff, List.length_drop]
    omega

end index

/-! ## Tables as sorted lists -/

variable (C) in
/-- The table `t` over `file` has exactly the entries `es`. -/
structure Reads (file : Bytes) (t : SsTable) (es : List Entry) : Prop where
  sorted : Sorted es
  min_eq : es.head?.map Prod.fst = some t.minKey
  max_eq : es.getLast?.map Prod.fst = some t.maxKey
  openFile_eq : SsTable.openFile C file t.path t.id = .ok t
  iter_eq : t.iter C file = .ok es
  get_eq : ∀ key s, t.get C file key s = .ok (lookup es key s)

/-- The first and the last key bound all of them. -/
theorem key_bounds {lo hi : Bytes} (hs : Sorted es) (hmin : es.head?.map Prod.fst = some lo)
    (hmax : es.getLast?.map Prod.fst = some hi) : ∀ e ∈ es, lo ≤ e.1 ∧ e.1 ≤ hi := by
  intro e he
  constructor
  · obtain ⟨x, hx, rfl⟩ := Option.map_eq_some_iff.1 hmin
    obtain ⟨xs, rfl⟩ := List.head?_eq_some_iff.1 hx
    exact firstKeyOf_le hs e he
  · obtain ⟨x, hx, rfl⟩ := Option.map_eq_some_iff.1 hmax
    obtain ⟨xs, rfl⟩ := List.getLast?_eq_some_iff.1 hx
    rcases List.mem_append.1 he with he | he
    · exact (hs.of_append.2.2 e he x (by simp)).key_le
    · rw [List.mem_singleton.1 he]

theorem nonempty_cutBlocks {c : List Entry} : ∀ {es cur : List Entry}, c ∈ cutBlocks blockBytes cur es → c ≠ []
  | [], cur, h => by
    unfold cutBlocks at h
    split at h
    · cases h
    · rename_i hne
      exact List.mem_singleton.1 h ▸ hne
  | e :: es, cur, h => by
    unfold cutBlocks at h
    split at h
    · rcases List.mem_cons.1 h with rfl | h
      · simp
      · exact nonempty_cutBlocks h
    · exact nonempty_cutBlocks h

/-- A table that was built opens, and reads as the list of its entries. -/
theorem build_reads {built : BuiltTable} (hs : Sorted es) (hne : es ≠ [])
    (hseq : ∀ e ∈ es, e.2.1 < 2 ^ 64) (hb : build C blockBytes bitsPerKey es = .ok built)
    (hfit : built.fits = true) (path : String) (id : Nat) :
    ∃ t, SsTable.openFile C built.file path id = .ok t ∧ t.id = id ∧ t.path = path ∧ t.minKey = built.minKey ∧
      t.maxKey = built.maxKey ∧ Reads C built.file t es := by
  obtain ⟨⟨-, hoff⟩, rfl⟩ := TableBuilder.build_eq_ok.1 hb
  obtain ⟨hu32, hlens, hlen⟩ := of_decide_eq_true hfit
  have hopen := openFile_index (C := C) (tableIndex C blockBytes bitsPerKey es) hoff hlen
    (BloomFilter.decode_encode_fromHashes ..) path id
  set chunks := cutBlocks blockBytes [] es
  have hes : es = chunks.flatten := by rw [flatten_cutBlocks, List.nil_append]
  have hcs : ∀ c ∈ chunks, Readable c := fun c hc => ⟨hlens c hc, fun e he =>
    have hmem : e ∈ es := hes ▸ List.mem_flatten_of_mem hc he
    ⟨hu32 e hmem, hseq e hmem⟩⟩
  set t : SsTable :=
    ⟨id, path, tableIndex C blockBytes bitsPerKey es,
      BloomFilter.fromHashes ((userKeys none es).map fnv1a) bitsPerKey⟩
  obtain ⟨x, xs, hx⟩ := List.exists_cons_of_ne_nil hne
  have hmin : es.head?.map Prod.fst = some t.minKey := by
    show _ = some (firstKeyOf es)
    rw [hx]; rfl
  have hmax : es.getLast?.map Prod.fst = some t.maxKey := by
    show _ = some ((es.getLast?.map Prod.fst).getD [])
    rw [List.getLast?_eq_getLast_of_ne_nil hne]; rfl
  obtain ⟨post, hfile⟩ : ∃ post, (builtTable C blockBytes bitsPerKey es).file = records chunks.flatten ++ post := by
    rw [← hes]
    exact ⟨_, List.append_assoc ..⟩
  have hiter : t.iter C (builtTable C blockBytes bitsPerKey es).file = .ok es := by
    rw [hfile]
    exact (iterFrom_blocks [] 0 hcs).trans (by rw [← hes])
  refine ⟨t, hopen, rfl, rfl, rfl, rfl, hs, hmin, hmax, hopen, hiter, fun key s => ?_⟩
  unfold SsTable.get
  by_cases hrange : key < t.minKey ∨ t.maxKey < key
  · rw [if_pos hrange, lookup_eq_none.2]
    rintro e he rfl
    obtain ⟨hlo, hhi⟩ := key_bounds hs hmin hmax e he
    rcases hrange with hlt | hlt
    · exact absurd hlo (not_le.2 hlt)
    · exact absurd hhi (not_le.2 hlt)
  · rw [if_neg hrange]
    by_cases hmay : t.bloom.mayContain key = true
    · rw [hmay, hfile]
      have hne' : chunks ≠ [] := by
        intro h
        rw [h] at hes
        exact hne hes
      have hget : lookup es key s = lookup chunks.flatten key s := by rw [← hes]
      rw [hget]
      exact getFrom_index (hes ▸ hs) (fun c hc => nonempty_cutBlocks hc) hne' hcs rfl
    · -- the filter knows all keys of the table
      rw [if_pos (by simpa using hmay), lookup_eq_none.2]
      rintro e he rfl
      have hkey := (mem_userKeys none he).resolve_left (fun h => nomatch h)
      exact absurd (BloomFilter.mayContain_fromHashes (List.mem_map_of_mem hkey)) hmay

end RaftKv.Storage

import RaftKv.Storage.TableExact

/-!
# Which tables can be read back

A table keeps the lengths of its keys, values and blocks in fields of 32 bits, and so it does with
the length of its index. Nobody checks them. If the first three fit, a table can be read back
exactly if the index fits, too, and a block can be allocated (`table_gives_back`); one key and a
generous filter are enough to make the index too long (`filter_hides_table`).

| here | there |
| --- | --- |
| `cutBlocks`  | where `TableBuilder::add` flushes a block (`sstable.rs:117-119`) |
| `tableIndex` | the index that `finish` encodes (`sstable.rs:142-153`), whose length is cut to `u32` (`sstable.rs:158`) |
-/

namespace RaftKv.Storage

open Versions

variable {C : Coding} {es : List Entry} {blockBytes bitsPerKey : Nat}

/-- The buffer for a block can be allocated; the index is shorter than its length field allows, and the data than its
offset. -/
structure IndexFits (C : Coding) (blockBytes bitsPerKey : Nat) (es : List Entry) : Prop where
  buffer : blockBytes + 512 < 2 ^ 63
  index : (C.index.ser (tableIndex C blockBytes bitsPerKey es)).length < 2 ^ 32
  data : (records es).length < 2 ^ 64

/-- The table can be built, and whoever opens it reads these entries. -/
def GivesBack (C : Coding) (blockBytes bitsPerKey : Nat) (es : List Entry) : Prop :=
  ∃ built, TableBuilder.build C blockBytes bitsPerKey es = .ok built ∧
    ∀ path id, ∃ t, SsTable.openFile C built.file path id = .ok t ∧ Reads C built.file t es

theorem build_of_fits (hkv : ∀ e ∈ es, FitsU32 e)
    (hblocks : ∀ c ∈ cutBlocks blockBytes [] es, (records c).length < 2 ^ 32)
    (h : IndexFits C blockBytes bitsPerKey es) :
    ∃ built, TableBuilder.build C blockBytes bitsPerKey es = .ok built ∧ built.fits = true :=
  ⟨_, TableBuilder.build_eq_ok.2 ⟨⟨h.buffer, h.data⟩, rfl⟩, decide_eq_true ⟨hkv, hblocks, h.index⟩⟩

theorem givesBack_of_fits (hne : es ≠ []) (hs : Sorted es) (hseq : ∀ e ∈ es, e.2.1 < 2 ^ 64)
    (hkv : ∀ e ∈ es, FitsU32 e) (hblocks : ∀ c ∈ cutBlocks blockBytes [] es, (records c).length < 2 ^ 32)
    (h : IndexFits C blockBytes bitsPerKey es) : GivesBack C blockBytes bitsPerKey es := by
  obtain ⟨built, hbuild, hfit⟩ := build_of_fits hkv hblocks h
  refine ⟨built, hbuild, fun path id => ?_⟩
  obtain ⟨t, hopen, -, -, -, -, hreads⟩ := build_reads hs hne hseq hbuild hfit path id
  exact ⟨t, hopen, hreads⟩

/-- A table whose index is too long cannot be opened; of the others as much is read as the lengths of the blocks
tell. -/
theorem open_of_built (hw : C.index.Whole) {built : BuiltTable} {path : String} {id : Nat} {t : SsTable}
    (hbuilt : TableBuilder.build C blockBytes bitsPerKey es = .ok built)
    (ht : SsTable.openFile C built.file path id = .ok t) :
    t.id = id ∧ IndexFits C blockBytes bitsPerKey es ∧ ∀ {file : Bytes} {es' : List Entry}, t.iter C file = .ok es' →
      (records es').length = ((cutBlocks blockBytes [] es).map fun c => (records c).length % 2 ^ 32).sum := by
  obtain ⟨⟨hbuffer, hdata⟩, rfl⟩ := TableBuilder.build_eq_ok.1 hbuilt
  have hlen : (C.index.ser (tableIndex C blockBytes bitsPerKey es)).length < 2 ^ 32 := by
    by_contra hlen
    exact openFile_cut hw hdata (Nat.not_lt.1 hlen) path id t ht
  cases (openFile_index _ hdata hlen (BloomFilter.decode_encode_fromHashes ..) path id).symm.trans ht
  refine ⟨rfl, ⟨hbuffer, hlen, hdata⟩, fun {file es'} hiter => ?_⟩
  rw [← map_len_blockMetas (C := C) 0]
  exact (iterFrom_spec hiter).1

theorem fits_of_givesBack (hw : C.index.Whole) (h : GivesBack C blockBytes bitsPerKey es) :
    IndexFits C blockBytes bitsPerKey es := by
  obtain ⟨built, hbuilt, hopens⟩ := h
  obtain ⟨t, ht, -⟩ := hopens "" 0
  exact (open_of_built hw hbuilt ht).2.1

/-- **A table gives back what was built into it** if the buffer for a block can be allocated and the encoded index is
short enough for its length field (and the data blocks for a file), and only then, if the encoding of the index is
one of which no part can be decoded. -/
theorem table_gives_back (C : Coding) (blockBytes bitsPerKey : Nat) (hne : es ≠ []) (hs : Sorted es)
    (hseq : ∀ e ∈ es, e.2.1 < 2 ^ 64) (hkv : ∀ e ∈ es, FitsU32 e)
    (hblocks : ∀ c ∈ cutBlocks blockBytes [] es, (records c).length < 2 ^ 32) :
    (IndexFits C blockBytes bitsPerKey es → GivesBack C blockBytes bitsPerKey es) ∧
      (C.index.Whole → GivesBack C blockBytes bitsPerKey es → IndexFits C blockBytes bitsPerKey es) :=
  ⟨givesBack_of_fits hne hs hseq hkv hblocks, fits_of_givesBack⟩

/-- Two versions of a key in two blocks. -/
theorem table_gives_back_blocks : GivesBack Coding.plain 1 10 [([1], 2, some [5]), ([1], 1, none)] := by
  exact (table_gives_back Coding.plain 1 10 (by decide) (by unfold Sorted; decide) (by decide) (by decide)
    (by decide)).1
    ⟨by decide, by decide +kernel, by decide⟩

theorem length_bloom_le (index : TableIndex) : index.bloom.length ≤ (Coding.plain.index.ser index).length := by
  show _ ≤ (TableIndex.format.write index).length
  have hbytes := Format.length_bytes index.bloom
  simp only [TableIndex.format, Format.via, Format.pair, List.length_append]
  omega

/-- The filter of one key, of `2 ^ 35` bits, does not fit an index. -/
theorem not_indexFits_filter : ¬ IndexFits Coding.plain 4096 (2 ^ 35) [([1], 1, some [5])] := by
  intro h
  have hindex := length_bloom_le (tableIndex Coding.plain 4096 (2 ^ 35) [([1], 1, some [5])])
  have hfilter := BloomFilter.length_fromHashes [fnv1a [1]] (2 ^ 35)
  have hbloom : (tableIndex Coding.plain 4096 (2 ^ 35) [([1], 1, some [5])]).bloom.length =
      4 + (BloomFilter.fromHashes [fnv1a [1]] (2 ^ 35)).bits.length := by
    show (BloomFilter.encode (.fromHashes [fnv1a [1]] (2 ^ 35))).length = _
    simp [BloomFilter.encode]
  have hfits := h.index
  rw [List.length_singleton] at hfilter
  omega

/-- One key and a filter of `2 ^ 35` bits: every length but that of the index fits, and the table cannot be read. -/
theorem filter_hides_table : ∃ es : List Entry, es ≠ [] ∧ Sorted es ∧ (∀ e ∈ es, e.2.1 < 2 ^ 64 ∧ FitsU32 e) ∧
    (∀ c ∈ cutBlocks 4096 [] es, (records c).length < 2 ^ 32) ∧ ¬ GivesBack Coding.plain 4096 (2 ^ 35) es := by
  refine ⟨[([1], 1, some [5])], by decide, by unfold Sorted; decide, by decide, by decide, fun h => ?_⟩
  exact not_indexFits_filter (fits_of_givesBack TableIndex.format.serde_whole h)

end RaftKv.Storage

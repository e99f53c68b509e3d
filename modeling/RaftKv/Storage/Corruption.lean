import RaftKv.Lib.Lockstep
import RaftKv.Storage.Shelves

/-!
# Damaged files

Every byte of a table is covered by a check: the footer by its magic number and by what it says
about the index, the index and the blocks by their checksums. A directory whose tables are damaged
so that these checks fail gives an error, or the value it gave before (`damage_reported`): opening
it and reading from it does the same, step by step, as for the directory before the damage, up to
the first check that fails.

It is not so with the manifest. `Manifest::load` takes a damaged `MANIFEST` for a torn write and
goes on to `MANIFEST.tmp`; if there is none, it reports that there is no manifest, and `Db::open`
starts an empty database over the log (`manifest_damage_served`).

| here | there |
| --- | --- |
| `indexBytes` | the checks of `SsTable::open` before it decodes the index (`sstable.rs:189-211`) |
| `blockData` | the checks of `read_block` (`sstable.rs:229-245`) |
| `Altered.manifest` | the two `continue` of `Manifest::load` (`manifest.rs:51`, `manifest.rs:56`) |
| `openGet` | `Db::open` and `get` (`db.rs:93`, `db.rs:177`) |
-/

namespace RaftKv.Storage

open Db List

variable {C : Coding} {d d' : Disk} {file file' payload : Bytes} {t : SsTable} {key : Bytes} {s : Nat} {g g' : Engine}
  {opts : Options}

/-! ## What the checks cover -/

/-- The encoded index, if the footer is one and the index matches its checksum. -/
def indexBytes (C : Coding) (file : Bytes) : Option Bytes :=
  let footer := file.drop (file.length - 24)
  if file.length < 24 ∨ leNat (footer.drop 16) ≠ magic then none
  else
    match readExact file (leNat (footer.take 8)) (leNat ((footer.drop 8).take 4)) with
    | .error _ => none
    | .ok payload => if C.crc payload ≠ leNat ((footer.drop 12).take 4) then none else some payload

/-- The bytes of a block, if they are there and match their checksum. -/
def blockData (C : Coding) (file : Bytes) (b : BlockMeta) : Option Bytes :=
  match readExact file b.offset b.len with
  | .error _ => none
  | .ok buf => if C.crc buf ≠ b.crc then none else some buf

/-- Where the file was altered, the check fails: a check that succeeds finds the bytes that were there before. -/
structure Caught (C : Coding) (file file' : Bytes) : Prop where
  index : ∀ payload, indexBytes C file' = some payload → indexBytes C file = some payload
  blocks : ∀ payload index, indexBytes C file = some payload → C.index.de payload = .ok index → ∀ b ∈ index.blocks,
    ∀ buf, blockData C file' b = some buf → blockData C file b = some buf

/-- The same, check by check. -/
def caught (C : Coding) (file file' : Bytes) : Bool :=
  let same (x x' : Option Bytes) : Bool := x' = none ∨ x' = x
  same (indexBytes C file) (indexBytes C file') &&
    match (indexBytes C file).map C.index.de with
    | some (.ok index) => index.blocks.all fun b => same (blockData C file b) (blockData C file' b)
    | _ => true

theorem caught_of_checks (h : caught C file file' = true) : Caught C file file' := by
  unfold caught at h
  simp only [Bool.and_eq_true, decide_eq_true_eq] at h
  refine ⟨fun payload hp => ?_, fun payload index hp hde b hb buf hbuf => ?_⟩
  · rcases h.1 with hnone | heq
    · rw [hp] at hnone
      cases hnone
    · rw [← heq, hp]
  · have hall := h.2
    rw [hp, Option.map_some, hde] at hall
    have hone := all_eq_true.1 hall b hb
    simp only [decide_eq_true_eq] at hone
    rcases hone with hnone | heq
    · rw [hbuf] at hnone
      cases hnone
    · rw [← heq, hbuf]

/-- `d'` is the directory `d` with a damaged manifest or with damaged tables. There is no `MANIFEST.tmp`. -/
structure Altered (C : Coding) (d d' : Disk) : Prop where
  tmp : d.manifest.tmp = none
  tmp' : d'.manifest.tmp = none
  wal : d'.wal = d.wal
  synced : d'.synced = d.synced
  manifest : d'.manifest = d.manifest ∨ ∃ data, d'.manifest.main = some data ∧ Manifest.parse C data = none
  tables : ∀ id, d'.table id = d.table id ∨
    ∃ file file', d.table id = some file ∧ d'.table id = some file' ∧ Caught C file file'

/-- What a reader gets who opens the directory. -/
def openGet (C : Coding) (dir : String) (opts : Options) (fuel : Nat) (d : Disk) (key : Bytes) :
    Except Error (Option Bytes) :=
  match openDir C dir opts fuel { disk := d, db := { dir, opts } } with
  | .ok _ g => getAt C g key g.db.seq
  | .error e _ => .error e

/-- Each key gives an error in `d'`, or what it gives in `d`. -/
def Reported (C : Coding) (dir : String) (opts : Options) (fuel : Nat) (d d' : Disk) : Prop :=
  ∀ key, (∃ e, openGet C dir opts fuel d' key = .error e) ∨
    openGet C dir opts fuel d' key = openGet C dir opts fuel d key

/-! ## Reading damaged tables -/

theorem openFile_eq_ok {path : String} {id : Nat} (h : SsTable.openFile C file path id = .ok t) :
    t.id = id ∧ ∃ payload, indexBytes C file = some payload ∧ C.index.de payload = .ok t.index ∧
      ∀ file', indexBytes C file' = some payload → SsTable.openFile C file' path id = .ok t := by
  have hopen : ∀ file payload, indexBytes C file = some payload → SsTable.openFile C file path id = (do
      let index ← (C.index.de payload).mapError .corruption
      let bloom ← BloomFilter.decode index.bloom
      .ok { id, path, index, bloom }) := by
    intro file payload hp
    unfold indexBytes at hp
    dsimp only at hp
    split at hp
    · cases hp
    · rename_i hfoot
      rw [not_or, not_ne_iff] at hfoot
      split at hp
      · cases hp
      · rename_i data hdata
        split at hp
        · cases hp
        · rename_i hcrc
          cases hp
          unfold SsTable.openFile
          rw [if_neg hfoot.1]
          dsimp only
          rw [if_neg (not_ne_iff.2 hfoot.2), hdata]
          exact if_neg hcrc
  have hsome : ∃ payload, indexBytes C file = some payload := by
    unfold SsTable.openFile at h
    split at h
    · cases h
    · rename_i hlen
      dsimp only at h
      split at h
      · cases h
      · rename_i hmagic
        obtain ⟨payload, hdata, h⟩ := bind_eq_ok h
        split at h
        · cases h
        · rename_i hcrc
          refine ⟨payload, ?_⟩
          unfold indexBytes
          rw [if_neg (not_or.2 ⟨hlen, hmagic⟩), hdata]
          exact if_neg hcrc
  obtain ⟨payload, hp⟩ := hsome
  rw [hopen file payload hp] at h
  have hall : ∀ file', indexBytes C file' = some payload → SsTable.openFile C file' path id = .ok t :=
    fun file' hp' => (hopen file' payload hp').trans h
  obtain ⟨index, hindex, h⟩ := bind_eq_ok h
  obtain ⟨bloom, hbloom, h⟩ := bind_eq_ok h
  cases h
  refine ⟨rfl, payload, hp, ?_, hall⟩
  cases hde : C.index.de payload with
  | error e => rw [hde] at hindex; cases hindex
  | ok index' =>
    rw [hde] at hindex
    exact congrArg Except.ok (Except.ok.inj hindex)

theorem readBlock_eq (t : SsTable) (file : Bytes) (i : Nat) (b : BlockMeta) {es : List Entry}
    (h : t.readBlock C file i b = .ok es) :
    ∃ buf, blockData C file b = some buf ∧ ∀ file', blockData C file' b = some buf →
      t.readBlock C file' i b = .ok es := by
  have hread : ∀ file buf, blockData C file b = some buf → t.readBlock C file i b = decodeBlock buf := by
    intro file buf hb
    unfold blockData at hb
    split at hb
    · cases hb
    · rename_i data hdata
      split at hb
      · cases hb
      · rename_i hcrc
        cases hb
        unfold SsTable.readBlock
        rw [hdata]
        exact if_neg hcrc
  obtain ⟨buf, hdata, h'⟩ := bind_eq_ok h
  split at h'
  · cases h'
  · rename_i hcrc
    have hb : blockData C file b = some buf := by
      unfold blockData
      rw [hdata]
      exact if_neg hcrc
    exact ⟨buf, hb, fun file' hb' => (hread file' buf hb').trans h'⟩

/-- Block by block, the table reads in `d'` as it does in `d`, or not at all. -/
def Trusts (C : Coding) (d d' : Disk) (t : SsTable) : Prop :=
  ∀ file', d'.table t.id = some file' → ∃ file, d.table t.id = some file ∧
    ∀ i, ∀ b ∈ t.index.blocks, Backs (t.readBlock C file i b) (t.readBlock C file' i b)

theorem Trusts.of_eq (h : d'.table t.id = d.table t.id) : Trusts C d d' t :=
  fun file' hf => ⟨file', h ▸ hf, fun _ _ _ => Backs.refl _⟩

theorem Trusts.congr {e e' : Disk} (h : Trusts C d d' t) (he : e.table t.id = d.table t.id)
    (he' : e'.table t.id = d'.table t.id) : Trusts C e e' t := by
  intro file' hf
  obtain ⟨file, hfile, hblocks⟩ := h file' (he' ▸ hf)
  exact ⟨file, he.trans hfile, hblocks⟩

/-- A table that can still be opened is the one it was. -/
theorem Altered.opens (h : Altered C d d') (dir : String) (id : Nat) (ht : d'.openTable C dir id = .ok t) :
    d.openTable C dir id = .ok t ∧ Trusts C d d' t := by
  unfold Disk.openTable at ht ⊢
  rcases h.tables id with heq | ⟨file, file', hf, hf', hc⟩
  · rw [heq] at ht
    refine ⟨ht, ?_⟩
    cases hf : d.table id with
    | none => rw [hf] at ht; cases ht
    | some file =>
      rw [hf] at ht
      exact Trusts.of_eq ((openFile_eq_ok ht).1 ▸ heq)
  · rw [hf'] at ht
    rw [hf]
    obtain ⟨hid, payload, hp, hde, hall⟩ := openFile_eq_ok ht
    have hp₀ := hc.index payload hp
    refine ⟨hall file hp₀, fun file₁ hf₁ => ⟨file, hid ▸ hf, fun i b hb es hes => ?_⟩⟩
    rw [hid, hf'] at hf₁
    cases hf₁
    obtain ⟨buf, hbuf, hread⟩ := readBlock_eq t file' i b hes
    exact hread file (hc.blocks payload t.index hp₀ hde b hb buf hbuf)

theorem getFrom_backs (t : SsTable) (key : Bytes) (s : Nat) : ∀ (bs : List BlockMeta) (i : Nat),
    (∀ i, ∀ b ∈ bs, Backs (t.readBlock C file i b) (t.readBlock C file' i b)) →
    Backs (t.getFrom C file key s i bs) (t.getFrom C file' key s i bs) := by
  intro bs
  induction bs with
  | nil => exact fun i _ => Backs.refl _
  | cons b bs ih =>
    intro i h
    have hrest := ih (i + 1) fun i b' hb' => h i b' (mem_cons_of_mem _ hb')
    unfold SsTable.getFrom
    refine (h i b (by simp)).bind fun es _ => ?_
    cases SsTable.scanBlock key s es with
    | some r => exact Backs.refl _
    | none =>
      cases bs with
      | nil => exact Backs.refl _
      | cons b' bs =>
        dsimp only
        split
        · exact Backs.refl _
        · exact hrest

theorem iterFrom_backs (t : SsTable) : ∀ (bs : List BlockMeta) (i : Nat),
    (∀ i, ∀ b ∈ bs, Backs (t.readBlock C file i b) (t.readBlock C file' i b)) →
    Backs (t.iterFrom C file i bs) (t.iterFrom C file' i bs) := by
  intro bs
  induction bs with
  | nil => exact fun i _ => Backs.refl _
  | cons b bs ih =>
    intro i h
    unfold SsTable.iterFrom
    cases hr : t.readBlock C file' i b with
    | error e => exact Backs.error _
    | ok es =>
      rw [h i b (by simp) es hr]
      exact (ih (i + 1) fun i b' hb' => h i b' (mem_cons_of_mem _ hb')).map _

theorem Trusts.getTable (h : Trusts C d d' t) (key : Bytes) (s : Nat) :
    Backs (d.getTable C t key s) (d'.getTable C t key s) := by
  unfold Disk.getTable
  cases hf : d'.table t.id with
  | none => exact Backs.error _
  | some file' =>
    obtain ⟨file, hfile, hblocks⟩ := h file' hf
    rw [hfile]
    dsimp only
    unfold SsTable.get
    split
    · exact Backs.refl _
    · split
      · exact Backs.refl _
      · exact getFrom_backs t key s _ _ fun i b hb => hblocks i b (mem_of_mem_drop hb)

theorem Trusts.iterTable (h : Trusts C d d' t) : Backs (d.iterTable C t) (d'.iterTable C t) := by
  unfold Disk.iterTable
  cases hf : d'.table t.id with
  | none => exact Backs.error _
  | some file' =>
    obtain ⟨file, hfile, hblocks⟩ := h file' hf
    rw [hfile]
    exact iterFrom_backs t _ _ hblocks

/-! ## The engine over damaged tables -/

theorem bestOf_backs (ts : List SsTable) (hts : ∀ t ∈ ts, Trusts C d d' t) : ∀ best,
    Backs (bestOf C d key s best ts) (bestOf C d' key s best ts) := by
  induction ts with
  | nil => exact fun best => Backs.refl _
  | cons t ts ih =>
    intro best
    unfold bestOf
    refine ((hts t (by simp)).getTable key s).bind fun r _ => ?_
    cases r with
    | none => exact ih (fun u hu => hts u (mem_cons_of_mem _ hu)) best
    | some p => exact ih (fun u hu => hts u (mem_cons_of_mem _ hu)) _

theorem getLevel_backs {level : List SsTable} (hts : ∀ t ∈ level, Trusts C d d' t) (i : Nat) :
    Backs (getLevel C d key s i level) (getLevel C d' key s i level) := by
  unfold getLevel
  split
  · exact bestOf_backs level hts none
  · cases ht : level[partitionPoint (fun t => decide (t.maxKey < key)) level]? with
    | none => exact Backs.refl _
    | some t =>
      dsimp only
      split
      · exact (hts t (mem_of_getElem? ht)).getTable key s
      · exact Backs.refl _

theorem getLevels_backs (levels : List (List SsTable)) (hts : ∀ t ∈ levels.flatten, Trusts C d d' t) : ∀ i,
    Backs (getLevels C d key s i levels) (getLevels C d' key s i levels) := by
  induction levels with
  | nil => exact fun i => Backs.refl _
  | cons level levels ih =>
    intro i
    refine (getLevel_backs (fun t ht => hts t (mem_append_left _ ht)) i).bind fun r _ => ?_
    cases r with
    | none => exact ih (fun t ht => hts t (mem_append_right _ ht)) (i + 1)
    | some p => exact Backs.refl _

/-- The engines differ in the files of tables only, and what can be read of these is the same. -/
structure Shadows (C : Coding) (g g' : Engine) : Prop where
  db_eq : g'.db = g.db
  manifest_eq : g'.disk.manifest = g.disk.manifest
  wal_eq : g'.disk.wal = g.disk.wal
  opens : ∀ dir id t, g'.disk.openTable C dir id = .ok t → g.disk.openTable C dir id = .ok t ∧ Trusts C g.disk g'.disk t
  trusts : ∀ t ∈ g.db.levels.flatten, Trusts C g.disk g'.disk t

theorem Shadows.getAt (h : Shadows C g g') (key : Bytes) (s : Nat) : Backs (getAt C g key s) (getAt C g' key s) := by
  unfold Db.getAt
  rw [h.db_eq]
  cases g.db.mem.get key s with
  | some v => exact Backs.refl _
  | none => exact getLevels_backs _ h.trusts 0

namespace Shadows

/-- The database may change as long as its tables are among those that were there. -/
theorem withDb (h : Shadows C g g') {db : Db} (hlevels : ∀ t ∈ db.levels.flatten, t ∈ g.db.levels.flatten ∨
    Trusts C g.disk g'.disk t) {steps steps' : List Step} {fits fits' : Bool} :
    Shadows C { g with db, steps, fits } { g' with db, steps := steps', fits := fits' } :=
  ⟨rfl, h.manifest_eq, h.wal_eq, h.opens, fun t ht => (hlevels t ht).elim (h.trusts t) id⟩

/-- Both tables are written or removed. -/
theorem setTable (h : Shadows C g g') (id : Nat) (file : Option Bytes) {steps steps' : List Step} :
    Shadows C { g with disk := g.disk.setTable id file, steps }
      { g' with disk := g'.disk.setTable id file, steps := steps' } := by
  have htrust : ∀ {t}, Trusts C g.disk g'.disk t → Trusts C (g.disk.setTable id file) (g'.disk.setTable id file) t := by
    intro t ht
    by_cases heq : t.id = id
    · exact Trusts.of_eq (by rw [heq, Disk.setTable_self, Disk.setTable_self])
    · exact ht.congr (Disk.setTable_ne _ heq file) (Disk.setTable_ne _ heq file)
  refine ⟨h.db_eq, h.manifest_eq, h.wal_eq, fun dir i t ht => ?_, fun t ht => htrust (h.trusts t ht)⟩
  unfold Disk.openTable at ht ⊢
  by_cases heq : i = id
  · subst heq
    rw [Disk.setTable_self] at ht ⊢
    refine ⟨ht, Trusts.of_eq ?_⟩
    cases file with
    | none => cases ht
    | some file => rw [(openFile_eq_ok ht).1, Disk.setTable_self, Disk.setTable_self]
  · rw [Disk.setTable_ne _ heq] at ht ⊢
    obtain ⟨ht, htr⟩ := h.opens dir i t ht
    exact ⟨ht, htrust htr⟩

/-- A step on the files does the same to both. -/
theorem apply (h : Shadows C g g') (e : Effect) {steps steps' : List Step} :
    Shadows C { g with disk := g.disk.apply C e, steps } { g' with disk := g'.disk.apply C e, steps := steps' } := by
  have hlog : g'.disk.log = g.disk.log := by rw [Disk.log, Disk.log, h.wal_eq]
  cases e with
  | walCreate => exact ⟨h.db_eq, h.manifest_eq, congrArg some hlog, h.opens, h.trusts⟩
  | walWrite bytes => exact ⟨h.db_eq, h.manifest_eq, congrArg (fun l => some (l ++ bytes)) hlog, h.opens, h.trusts⟩
  | walSync => exact ⟨h.db_eq, h.manifest_eq, h.wal_eq, h.opens, h.trusts⟩
  | walSetLen n => exact ⟨h.db_eq, h.manifest_eq, congrArg (fun l : Bytes => some (l.take n)) hlog, h.opens, h.trusts⟩
  | writeTable id file => exact h.setTable id (some file)
  | openTable id => exact ⟨h.db_eq, h.manifest_eq, h.wal_eq, h.opens, h.trusts⟩
  | saveManifest m => exact ⟨h.db_eq, rfl, h.wal_eq, h.opens, h.trusts⟩
  | removeTable id => exact h.setTable id none

end Shadows

/-! ## Programs in step -/

variable {α β : Type} {x : α} {levels : List (List α)} {f f' : Unit → EngineM α} {Q : α → Engine → α → Engine → Prop}

theorem backs_get {f f' : Engine → EngineM α} (h : BacksFrom (f g) g (f' g') g' Q) :
    BacksFrom (get >>= f) g (get >>= f') g' Q := h

theorem backs_lift {x x' : Except Error β} {f f' : β → EngineM α} (hx : Backs x x')
    (h : ∀ b, x' = .ok b → BacksFrom (f b) g (f' b) g' Q) :
    BacksFrom (liftExcept x >>= f) g (liftExcept x' >>= f') g' Q := by
  cases hx' : x' with
  | error e => exact BacksFrom.throw _ _ e
  | ok b =>
    rw [hx b hx']
    exact h b hx'

theorem backs_note (h : Shadows C g g') {fits : Bool}
    (hf : ∀ g₁ g₁', Shadows C g₁ g₁' → BacksFrom (f ()) g₁ (f' ()) g₁' Q) :
    BacksFrom (noteFits fits >>= f) g (noteFits fits >>= f') g' Q :=
  hf _ _ ⟨h.db_eq, h.manifest_eq, h.wal_eq, h.opens, h.trusts⟩

theorem backs_emit (h : Shadows C g g') {e : Effect}
    (hf : Shadows C (g.after C e) (g'.after C e) → BacksFrom (f ()) (g.after C e) (f' ()) (g'.after C e) Q) :
    BacksFrom (emit C e >>= f) g (emit C e >>= f') g' Q := hf (h.apply e)

theorem backs_emit_last (h : Shadows C g g') (e : Effect) :
    BacksFrom (emit C e) g (emit C e) g' fun _ t _ t' => Shadows C t t' := by
  intro b t' ht
  cases ht
  exact ⟨_, _, rfl, h.apply e⟩

theorem backs_setDb_last (h : Shadows C g g') (u : Db → Db)
    (hlevels : ∀ t ∈ (u g.db).levels.flatten, t ∈ g.db.levels.flatten ∨ Trusts C g.disk g'.disk t) :
    BacksFrom (setDb u) g (setDb u) g' fun _ t _ t' => Shadows C t t' := by
  intro b t' ht
  cases ht
  refine ⟨_, _, rfl, ?_⟩
  dsimp only
  rw [h.db_eq]
  exact h.withDb hlevels

theorem backs_setDb (h : Shadows C g g') {u : Db → Db}
    (hlevels : ∀ t ∈ (u g.db).levels.flatten, t ∈ g.db.levels.flatten ∨ Trusts C g.disk g'.disk t)
    (hf : Shadows C { g with db := u g.db } { g' with db := u g.db } →
      BacksFrom (f ()) { g with db := u g.db } (f' ()) { g' with db := u g.db } Q) :
    BacksFrom (setDb u >>= f) g (setDb u >>= f') g' Q := by
  show BacksFrom (f ()) { g with db := u g.db } (f' ()) { g' with db := u g'.db } Q
  rw [h.db_eq]
  exact hf (h.withDb hlevels)

/-- A table of a level that was changed is in a level as it was, or in what became of one. -/
theorem mem_flatten_modify {f : List α → List α} : ∀ {levels : List (List α)} {i : Nat},
    x ∈ (levels.modify i f).flatten → x ∈ levels.flatten ∨ ∃ l ∈ levels, x ∈ f l := by
  intro levels
  induction levels with
  | nil => intro i h; simp at h
  | cons l levels ih =>
    intro i h
    cases i with
    | zero =>
      rw [modify_zero_cons, flatten_cons, mem_append] at h
      rcases h with h | h
      · exact .inr ⟨l, by simp, h⟩
      · exact .inl (mem_append_right l h)
    | succ i =>
      rw [modify_succ_cons, flatten_cons, mem_append] at h
      rcases h with h | h
      · exact .inl (mem_append_left _ h)
      · exact (ih h).imp (mem_append_right l) fun ⟨l', hl', hx⟩ => ⟨l', mem_cons_of_mem _ hl', hx⟩

/-- One table comes to a level. -/
theorem mem_flatten_add {a : α} {i : Nat} (h : x ∈ (levels.modify i (· ++ [a])).flatten) : x ∈ levels.flatten ∨ x = a := by
  rcases mem_flatten_modify h with h | ⟨l, hl, h⟩
  · exact .inl h
  · exact (mem_append.1 h).imp (fun h => mem_flatten.2 ⟨l, hl, h⟩) mem_singleton.1

/-- No tables come to a level. -/
theorem mem_flatten_of_modify {f : List α → List α} (hf : ∀ l, ∀ x ∈ f l, x ∈ l) {i : Nat}
    (h : x ∈ (levels.modify i f).flatten) : x ∈ levels.flatten := by
  rcases mem_flatten_modify h with h | ⟨l, hl, h⟩
  · exact h
  · exact mem_flatten.2 ⟨l, hl, hf l x h⟩

theorem flush_backs (h : Shadows C g g') : BacksFrom (flush C) g (flush C) g' fun _ t _ t' => Shadows C t t' := by
  unfold flush
  refine backs_get ?_
  dsimp only
  rw [h.db_eq]
  split
  · exact BacksFrom.pure h
  · refine backs_lift (Backs.refl _) fun bt _ => backs_note h fun g₁ g₁' h₁ => ?_
    refine backs_emit h₁ fun h₂ => backs_emit h₂ fun h₃ => backs_get ?_
    refine backs_lift (fun t ht => (h₃.opens _ _ t ht).1) fun table htable => ?_
    have htrust := (h₃.opens _ _ _ htable).2
    refine backs_setDb h₃ (fun t ht => .inl ht) fun h₄ => backs_emit h₄ fun h₅ => ?_
    refine backs_setDb h₅ (fun t ht => ?_) fun h₆ => backs_emit_last h₆ _
    refine (mem_flatten_add ht).imp_right fun heq => ?_
    rw [heq]
    exact htrust

theorem openOutput_backs (dir : String) (level : Nat) (o : TableMeta × Bytes) (h : Shadows C g g') :
    BacksFrom (openOutput C dir level o) g (openOutput C dir level o) g' fun _ t _ t' => Shadows C t t' := by
  unfold openOutput
  refine backs_emit h fun h₁ => backs_get ?_
  refine backs_lift (fun t ht => (h₁.opens _ _ t ht).1) fun table htable => ?_
  refine backs_setDb_last h₁ _ fun t ht => ?_
  refine (mem_flatten_add ht).imp_right fun heq => ?_
  rw [heq]
  exact (h₁.opens _ _ _ htable).2

theorem mem_flatten_padLevels {n : Nat} (h : x ∈ (padLevels n levels).flatten) : x ∈ levels.flatten := by
  unfold padLevels at h
  rw [flatten_append, mem_append] at h
  refine h.resolve_right fun hr => ?_
  obtain ⟨l, hl, hx⟩ := mem_flatten.1 hr
  rw [(mem_replicate.1 hl).2] at hx
  cases hx

theorem mem_flatten_of_levelAt {i : Nat} (h : x ∈ levelAt levels i) : x ∈ levels.flatten := by
  unfold levelAt at h
  rw [getD_eq_getElem?_getD] at h
  cases hl : levels[i]? with
  | none => rw [hl] at h; cases h
  | some l =>
    rw [hl] at h
    exact mem_flatten.2 ⟨l, mem_of_getElem? hl, h⟩

theorem compactLevel_backs (h : Shadows C g g') (level : Nat) :
    BacksFrom (compactLevel C level) g (compactLevel C level) g' fun _ t _ t' => Shadows C t t' := by
  unfold compactLevel
  refine backs_setDb h (fun t ht => .inl (mem_flatten_padLevels ht)) fun h₁ => backs_get ?_
  refine backs_lift (Backs.refl _) fun r _ => ?_
  cases r with
  | none => exact BacksFrom.pure h₁
  | some inp =>
    -- the inputs are read as a whole
    refine backs_lift (Backs.mapM fun t ht => (h₁.trusts t ?_).iterTable) fun srcs _ => ?_
    · rcases mem_append.1 ht with ht | ht
      · exact mem_flatten_of_levelAt (mem_filter.1 ht).1
      · exact mem_flatten_of_levelAt (mem_filter.1 ht).1
    refine backs_lift (Backs.refl _) fun c _ => backs_note h₁ fun g₂ g₂' h₂ => ?_
    refine (BacksFrom.forM h₂ fun o t t' ht => backs_emit_last ht _).bind fun _ g₃ _ g₃' h₃ => ?_
    refine backs_setDb h₃ (fun t ht => .inl ht) fun h₄ => backs_emit h₄ fun h₅ => ?_
    refine backs_setDb h₅ (fun t ht => .inl ?_) fun h₆ => ?_
    · exact mem_flatten_of_modify (fun l x hx => (mem_filter.1 hx).1)
        (mem_flatten_of_modify (fun l x hx => (mem_filter.1 hx).1) ht)
    refine (BacksFrom.forM h₆ fun o t t' ht => openOutput_backs _ level o ht).bind fun _ g₇ _ g₇' h₇ => ?_
    refine backs_setDb h₇ (fun t ht => .inl ?_) fun h₈ => BacksFrom.forM h₈ fun id t t' ht => backs_emit_last ht _
    exact mem_flatten_of_modify (fun l x hx => (perm_insertionSort _ l).mem_iff.1 hx) ht

theorem maybeCompact_backs (fuel : Nat) : ∀ {g g' : Engine}, Shadows C g g' →
    BacksFrom (maybeCompact C fuel) g (maybeCompact C fuel) g' fun _ t _ t' => Shadows C t t' := by
  induction fuel with
  | zero => exact fun _ => BacksFrom.throw _ _ _
  | succ fuel ih =>
    intro g g' h
    unfold maybeCompact
    refine backs_get ?_
    dsimp only
    rw [h.db_eq]
    split
    · exact (compactLevel_backs h 0).bind fun _ t _ t' ht => ih ht
    · refine backs_lift (Backs.refl _) fun r _ => ?_
      cases r with
      | none => exact BacksFrom.pure h
      | some i => exact (compactLevel_backs h i).bind fun _ t _ t' ht => ih ht

theorem maybeFlush_backs (fuel : Nat) (h : Shadows C g g') :
    BacksFrom (maybeFlush C fuel) g (maybeFlush C fuel) g' fun _ t _ t' => Shadows C t t' := by
  unfold maybeFlush
  refine backs_get ?_
  dsimp only
  rw [h.db_eq]
  split
  · exact (flush_backs h).bind fun _ t _ t' ht => maybeCompact_backs fuel ht
  · exact BacksFrom.pure h

theorem replayLog_backs (h : Shadows C g g') :
    BacksFrom (replayLog C) g (replayLog C) g' fun bs t bs' t' =>
      bs = bs' ∧ Shadows C t t' ∧ t.disk.table = g.disk.table ∧ t'.disk.table = g'.disk.table := by
  unfold replayLog
  refine backs_get ?_
  dsimp only
  rw [Disk.log, Disk.log, h.wal_eq]
  split
  · exact backs_emit h fun h₁ => BacksFrom.pure ⟨rfl, h₁, rfl, rfl⟩
  · exact BacksFrom.pure ⟨rfl, h, rfl, rfl⟩

theorem openDir_backs (dir : String) (opts : Options) (fuel : Nat) (h : Shadows C g g') :
    BacksFrom (openDir C dir opts fuel) g (openDir C dir opts fuel) g' fun _ t _ t' => Shadows C t t' := by
  unfold openDir
  refine backs_get ?_
  dsimp only
  rw [h.manifest_eq]
  refine backs_lift (Backs.refl _) fun m _ => ?_
  refine backs_lift (Backs.mapM fun level _ => Backs.mapM fun t _ u hu => (h.opens _ _ u hu).1) fun levels hopen => ?_
  -- each table was opened in the damaged directory
  have htrust : ∀ t ∈ levels.flatten, Trusts C g.disk g'.disk t := by
    intro t ht
    obtain ⟨level, hlevel, ht⟩ := mem_flatten.1 ht
    obtain ⟨ml, -, hml⟩ := forall₂_mem_right (forall₂_of_mapM hopen) hlevel
    obtain ⟨tm, -, htm⟩ := forall₂_mem_right (forall₂_of_mapM hml) ht
    exact (h.opens _ _ _ htm).2
  refine (replayLog_backs h).bind ?_
  rintro bs g₁ _ g₁' ⟨rfl, h₁, htab₁, htab₁'⟩
  refine backs_lift (Backs.refl _) fun mem _ => backs_emit h₁ fun h₂ => ?_
  refine backs_setDb h₂ (fun t ht => .inr ?_) fun h₃ => maybeFlush_backs fuel h₃
  have hmem : t ∈ levels.flatten := by
    split at ht
    · simp at ht
    · exact ht
  exact (htrust t hmem).congr (congrFun htab₁ _) (congrFun htab₁' _)

/-- Damaged tables are reported. -/
theorem Altered.reported (h : Altered C d d') (hm : d'.manifest = d.manifest) (dir : String) (opts : Options)
    (fuel : Nat) : Reported C dir opts fuel d d' := by
  intro key
  have hstart : Shadows C { disk := d, db := { dir, opts } } { disk := d', db := { dir, opts } } :=
    ⟨rfl, hm, h.wal, fun dir id t ht => h.opens dir id ht, fun t ht => (by cases ht)⟩
  cases hr : openGet C dir opts fuel d' key with
  | error e => exact .inl ⟨e, rfl⟩
  | ok v =>
    unfold openGet at hr
    split at hr
    · rename_i g' hg'
      obtain ⟨_, g, hg, hb⟩ := openDir_backs dir opts fuel hstart _ _ hg'
      right
      unfold openGet
      rw [hg]
      rw [hb.db_eq] at hr
      exact (hb.getAt key g.db.seq v hr).symm
    · cases hr

/-! ## A damaged manifest -/

/-- The entries of the log. -/
def logEntries (C : Coding) (d : Disk) : List Entry := (replay C d.log).1.flatMap WalBatch.entries

/-- The highest number in the log, or `last`. -/
def logSeq (C : Coding) (d : Disk) (last : Nat) : Nat := (logEntries C d).foldl (fun s e => max s e.2.1) last

/-- The memtable that is replayed from the log. -/
def logTable (C : Coding) (d : Disk) : MemTable := MemTable.insertAll {} (logEntries C d)

/-- The log can be replayed, and fits in the memtable. -/
def Replays (C : Coding) (opts : Options) (d : Disk) : Prop :=
  (∀ e ∈ logEntries C d, e.2.1 < 2 ^ 64) ∧ (logTable C d).bytes < opts.memtableBytes

/-- The directory can be opened, and its tables show no key that is not in the log. -/
def LogSuffices (C : Coding) (dir : String) (opts : Options) (fuel : Nat) (d : Disk) : Prop :=
  ∃ g, openDir C dir opts fuel { disk := d, db := { dir, opts } } = .ok () g ∧
    ∀ key, (∀ e ∈ logEntries C d, e.1 ≠ key) → getLevels C g.disk key g.db.seq 0 g.db.levels = .ok none

theorem le_logSeq (last : Nat) {e : Entry} (h : e ∈ (logTable C d).iter) : e.2.1 ≤ logSeq C d last :=
  (foldl_max_spec _ last).2.1 e ((MemTable.mem_of_mem_insertAll h).resolve_left not_mem_nil)

/-- The memtable is read as a whole. -/
theorem get_logTable (key : Bytes) (last : Nat) :
    (logTable C d).get key (logSeq C d last) = (logTable C d).get key (logSeq C d 0) := by
  rw [MemTable.get_eq, MemTable.get_eq, Versions.lookup_congr (fun e => le_logSeq last) fun e => le_logSeq 0]

theorem get_logTable_eq_none : (logTable C d).get key (logSeq C d 0) = none ↔ ∀ e ∈ logEntries C d, e.1 ≠ key := by
  rw [MemTable.get_eq, Option.map_eq_none_iff, Versions.lookup_eq_none]
  constructor
  · rintro h ⟨k, t, v⟩ he rfl
    obtain ⟨v', hv'⟩ := MemTable.exists_mem_iter_insertAll (m := {}) (.inr ⟨v, he⟩)
    exact absurd (h _ hv' rfl) (Nat.not_lt.2 (le_logSeq 0 hv'))
  · exact fun h e he heq => (h e ((MemTable.mem_of_mem_insertAll he).resolve_left not_mem_nil) heq).elim

/-- A key of the log is read from the memtable. -/
theorem getAt_logTable {last : Nat} (hmem : g.db.mem = logTable C d) (hseq : g.db.seq = logSeq C d last) (key : Bytes) :
    getAt C g key g.db.seq = ((logTable C d).get key (logSeq C d 0)).elim
      (getLevels C g.disk key g.db.seq 0 g.db.levels) .ok := by
  rw [getAt, hmem, hseq, get_logTable]
  cases (logTable C d).get key (logSeq C d 0) <;> rfl

/-- The log is replayed and not flushed; without a manifest that is all there is. -/
theorem openDir_replays (hr : Replays C opts d) (dir : String) (fuel : Nat) :
    Ensures (openDir C dir opts fuel) { disk := d, db := { dir, opts } }
      (fun _ g => g.db.mem = logTable C d ∧ (∃ last, g.db.seq = logSeq C d last) ∧
        (Manifest.load C d.manifest = .ok none → g.db.levels = [[]]))
      fun _ _ => Manifest.load C d.manifest ≠ .ok none := by
  have hreplay : Ensures (replayLog C) { disk := d, db := { dir, opts } } (fun bs _ => bs = (replay C d.log).1)
      fun _ _ => Manifest.load C d.manifest ≠ .ok none := by
    unfold replayLog
    refine ensures_get ?_
    dsimp only
    split
    · exact ensures_emit (Ensures.pure rfl)
    · exact Ensures.pure rfl
  unfold openDir
  refine ensures_get (ensures_lift (fun e he h => ?_) fun m hm => ensures_lift (fun e he h => ?_) fun levels hl =>
    hreplay.bind fun bs g₁ hbs => ?_)
  · cases he.symm.trans h
  · cases hm.symm.trans h
    cases he
  subst hbs
  refine ensures_lift_ok (if_pos hr.1) (ensures_emit (ensures_setDb ?_))
  unfold maybeFlush
  refine ensures_get ?_
  have hsmall : ¬ opts.memtableBytes ≤ (MemTable.insertAll {} ((replay C d.log).1.flatMap WalBatch.entries)).bytes :=
    Nat.not_le.2 hr.2
  rw [if_neg hsmall]
  refine Ensures.pure ⟨rfl, ⟨_, rfl⟩, fun h => ?_⟩
  cases hm.symm.trans h
  cases hl
  rfl

/-- The log alone is read behind a damaged manifest. -/
theorem Altered.openGet_eq (h : Altered C d d') (hm : d'.manifest ≠ d.manifest) (hr : Replays C opts d) (dir : String)
    (fuel : Nat) (key : Bytes) :
    openGet C dir opts fuel d' key = .ok ((logTable C d).get key (logSeq C d 0)).join := by
  obtain ⟨data, hdata, hparse⟩ := h.manifest.resolve_left hm
  have hload : Manifest.load C d'.manifest = .ok none := by
    rw [Manifest.load, hdata, h.tmp', Manifest.loadFrom, hparse]
    rfl
  have hlog : logEntries C d' = logEntries C d := by
    unfold logEntries Disk.log
    rw [h.wal]
  have htable : logTable C d' = logTable C d := congrArg (MemTable.insertAll {}) hlog
  have hopen := openDir_replays (d := d') (by rw [Replays, htable, hlog]; exact hr) dir fuel
  unfold openGet
  unfold Ensures at hopen
  split at hopen
  · rename_i g hg
    obtain ⟨hmem, ⟨last, hseq⟩, hlevels⟩ := hopen
    rw [hg]
    refine (getAt_logTable hmem hseq key).trans ?_
    rw [hlevels hload, htable, show logSeq C d' 0 = logSeq C d 0 by unfold logSeq; rw [hlog]]
    cases (logTable C d).get key (logSeq C d 0) <;> rfl
  · exact absurd hload hopen

/-- **Damage is reported** if the manifest is as it was. If it is damaged, the log is read alone: if the log fits in the
memtable, this is right exactly if the directory could be opened before and its tables show no key that is not in the
log. -/
theorem damage_reported (C : Coding) (dir : String) (opts : Options) (fuel : Nat) {d d' : Disk} (h : Altered C d d') :
    (d'.manifest = d.manifest → Reported C dir opts fuel d d') ∧
      (Replays C opts d → (Reported C dir opts fuel d d' ↔
        d'.manifest = d.manifest ∨ LogSuffices C dir opts fuel d)) := by
  refine ⟨fun hm => h.reported hm dir opts fuel, fun hr => ?_⟩
  by_cases hm : d'.manifest = d.manifest
  · exact iff_of_true (h.reported hm dir opts fuel) (.inl hm)
  have hvalue := h.openGet_eq hm hr dir fuel
  have hopen := openDir_replays hr dir fuel
  unfold Ensures at hopen
  split at hopen
  · rename_i g hg
    obtain ⟨hmem, ⟨last, hseq⟩, -⟩ := hopen
    have hget : ∀ key, openGet C dir opts fuel d key = ((logTable C d).get key (logSeq C d 0)).elim
        (getLevels C g.disk key g.db.seq 0 g.db.levels) .ok := by
      intro key
      rw [openGet, hg]
      exact getAt_logTable hmem hseq key
    constructor
    · intro hrep
      refine .inr ⟨g, hg, fun key hkey => ?_⟩
      rcases hrep key with ⟨e, he⟩ | heq
      · cases (hvalue key).symm.trans he
      · rw [hvalue, hget, get_logTable_eq_none.2 hkey] at heq
        exact heq.symm
    · rintro (heq | ⟨g', hg', hrest⟩) key
      · exact absurd heq hm
      · cases hg.symm.trans hg'
        rw [hvalue, hget]
        cases hl : (logTable C d).get key (logSeq C d 0) with
        | some v => exact .inr rfl
        | none => exact .inr (hrest key (get_logTable_eq_none.1 hl)).symm
  · rename_i e g hg
    refine iff_of_false (fun hrep => ?_) ?_
    · rcases hrep [] with ⟨e, he⟩ | heq
      · cases (hvalue []).symm.trans he
      · rw [hvalue, openGet, hg] at heq
        cases heq
    · rintro (heq | ⟨g', hg', -⟩)
      · exact hm heq
      · cases hg.symm.trans hg'

/-- One byte of the second of two blocks is changed: the key of the first one is read, that of the second one gives an
error. -/
theorem damage_reported_block : ∃ d d', Altered Coding.plain d d' ∧ Reported Coding.plain "db" {} 9 d d' ∧
    openGet Coding.plain "db" {} 9 d' [1] = .ok (some [10]) ∧ openGet Coding.plain "db" {} 9 d [2] = .ok (some [20]) ∧
      ∃ e, openGet Coding.plain "db" {} 9 d' [2] = .error e := by
  obtain ⟨s, -, htmp, hfile, hcaught, h₁, h₂, h₃⟩ :=
    Runs.reached (Host.exec Coding.plain) Host.Numberable (Host.new "db")
    [.start { blockBytes := 1 } 9, .call (.writeBatch [([1], some [10]), ([2], some [20])] 9), .call .flush, .stop 1000]
    (P := fun s => s.engine.disk.manifest.tmp = none ∧ (s.engine.disk.table 0).isSome ∧
      caught Coding.plain ((s.engine.disk.table 0).getD []) (((s.engine.disk.table 0).getD []).set 37 255) = true ∧
      openGet Coding.plain "db" {} 9 (s.engine.disk.setTable 0 ((s.engine.disk.table 0).map (·.set 37 255))) [1] =
        .ok (some [10]) ∧
      openGet Coding.plain "db" {} 9 s.engine.disk [2] = .ok (some [20]) ∧
      (openGet Coding.plain "db" {} 9 (s.engine.disk.setTable 0 ((s.engine.disk.table 0).map (·.set 37 255)))
        [2]).toOption =
        none)
    (by decide +kernel)
  obtain ⟨file, hf⟩ := Option.isSome_iff_exists.1 hfile
  rw [hf] at hcaught h₁ h₃
  have ha : Altered Coding.plain s.engine.disk (s.engine.disk.setTable 0 (some (file.set 37 255))) := by
    refine ⟨htmp, htmp, rfl, rfl, .inl rfl, fun id => ?_⟩
    by_cases hid : id = 0
    · subst hid
      exact .inr ⟨file, _, hf, Disk.setTable_self .., caught_of_checks hcaught⟩
    · exact .inl (Disk.setTable_ne _ hid _)
  refine ⟨_, _, ha, (damage_reported Coding.plain "db" {} 9 ha).1 rfl, h₁, h₂, ?_⟩
  rw [Option.map_some] at h₃
  cases hr : openGet Coding.plain "db" {} 9 (s.engine.disk.setTable 0 (some (file.set 37 255))) [2] with
  | error e => exact ⟨e, rfl⟩
  | ok v =>
    rw [hr] at h₃
    cases h₃

/-- A byte of the manifest is changed, and the key that was flushed is not there. -/
theorem manifest_damage_served :
    ∃ s, Runs (Host.exec Coding.plain) Host.Numberable (Host.new "db") s ∧ s.engine.fits = true ∧ s.up = false ∧
      ∃ d', Altered Coding.plain s.engine.disk d' ∧ ¬ Reported Coding.plain "db" {} 9 s.engine.disk d' := by
  obtain ⟨s, hr, hfit, hup, htmp, hparse, hget, hget'⟩ :=
    Runs.reached (Host.exec Coding.plain) Host.Numberable (Host.new "db")
    [.start {} 9, .call (.writeBatch [([1], some [10])] 9), .call .flush, .stop 1000]
    (P := fun s => s.engine.fits = true ∧ s.up = false ∧ s.engine.disk.manifest.tmp = none ∧
      Manifest.parse Coding.plain ((s.engine.disk.manifest.main.getD []).set 0 255) = none ∧
      openGet Coding.plain "db" {} 9 s.engine.disk [1] = .ok (some [10]) ∧
      openGet Coding.plain "db" {} 9 { s.engine.disk with
        manifest := { main := some ((s.engine.disk.manifest.main.getD []).set 0 255) } } [1] = .ok none)
    (by decide +kernel)
  refine ⟨s, hr, hfit, hup, { s.engine.disk with
    manifest := { main := some ((s.engine.disk.manifest.main.getD []).set 0 255) } }, ?_, fun hrep => ?_⟩
  · exact ⟨htmp, rfl, rfl, rfl, .inr ⟨_, rfl, hparse⟩, fun _ => .inl rfl⟩
  · rcases hrep [1] with ⟨e, he⟩ | heq
    · rw [hget'] at he
      cases he
    · rw [hget', hget] at heq
      cases heq

end RaftKv.Storage

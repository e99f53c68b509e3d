import RaftKv.Storage.Tree

/-!
# The engine's invariant

`Inv` relates an open database to the versions `H` that were written to it, up to the number `n`:
the layers show them to every reader that there can be. What the log must hold for the memtable is
a parameter; if it is `Clean`, the files are enough to get back to these versions (`Recoverable`).
-/

namespace RaftKv.Storage

open Versions
open List hiding lookup

/-! ## Histories -/

/-- The operations are numbered from 1 on. -/
def Numbered (h : List Entry) : Prop := h.map (fun e => e.2.1) = List.range' 1 h.length

/-- The value of the last operation on `key` up to number `s`; none if that is a deletion, or if there is none. -/
def lastWrite (h : List Entry) (key : Bytes) (s : Nat) : Option Bytes :=
  (h.reverse.find? fun e => e.1 = key ∧ e.2.1 ≤ s).bind fun e => e.2.2

section numbered
variable {h : List Entry} {e : Entry} {ops : List (Bytes × Option Bytes)}

theorem map_numberFrom (n : Nat) (ops : List (Bytes × Option Bytes)) :
    (numberFrom n ops).map (fun e => e.2.1) = List.range' n ops.length := by
  induction ops generalizing n with
  | nil => rfl
  | cons op ops ih =>
    rw [numberFrom, map_cons, ih, length_cons, range'_succ]

theorem length_numberFrom (n : Nat) (ops : List (Bytes × Option Bytes)) : (numberFrom n ops).length = ops.length := by
  have hlen := congrArg List.length (map_numberFrom n ops)
  rwa [length_map, length_range'] at hlen

theorem mem_numberFrom {n : Nat} (he : e ∈ numberFrom n ops) : n ≤ e.2.1 ∧ e.2.1 < n + ops.length := by
  have hm : e.2.1 ∈ (numberFrom n ops).map fun e => e.2.1 := mem_map.2 ⟨e, he, rfl⟩
  rwa [map_numberFrom, mem_range'_1] at hm

theorem Numbered.append (hn : Numbered h) (ops : List (Bytes × Option Bytes)) :
    Numbered (h ++ numberFrom (h.length + 1) ops) := by
  unfold Numbered at *
  rw [map_append, hn, map_numberFrom, length_append, length_numberFrom, Nat.add_comm h.length 1,
    range'_append_1]

theorem Numbered.newest (hn : Numbered h) (key : Bytes) (s : Nat) :
    Newest { e | e ∈ h } key s (lookup h.reverse key s) := by
  have hord : h.reverse.Pairwise fun a b => a.1 = b.1 → b.2.1 ≤ a.2.1 := by
    rw [pairwise_reverse]
    have hlt : (h.map fun e => e.2.1).Pairwise (· < ·) := by
      rw [show h.map (fun e => e.2.1) = List.range' 1 h.length from hn]
      exact pairwise_lt_range'
    refine (pairwise_map.1 hlt).imp ?_
    intro a b hab _
    exact hab.le
  have hnew := newest_lookup_of_newFirst hord key s
  simpa only [mem_reverse] using hnew

theorem lastWrite_eq (h : List Entry) (key : Bytes) (s : Nat) :
    lastWrite h key s = valueOf (lookup h.reverse key s) := by
  unfold lastWrite valueOf lookup
  rw [Option.bind_map]
  congr 2
  funext e
  exact decide_eq_decide.2 Iff.rfl

end numbered

variable {m : MemTable} {es : List Entry}

/-- A version that was inserted is there, perhaps with a later value. -/
theorem MemTable.exists_mem_iter_insertAll {k : Bytes} {t : Nat}
    (h : (∃ v, (k, t, v) ∈ m.iter) ∨ ∃ v, (k, t, v) ∈ es) : ∃ v, (k, t, v) ∈ (m.insertAll es).iter := by
  induction es generalizing m with
  | nil =>
    rcases h with h | ⟨v, hv⟩
    · exact h
    · cases hv
  | cons e es ih =>
    refine ih (m := m.insert e.1 e.2.1 e.2.2) ?_
    by_cases hsame : k = e.1 ∧ t = e.2.1
    · refine .inl ⟨e.2.2, MemTable.mem_iter_insert.2 (.inl ?_)⟩
      rw [hsame.1, hsame.2]
    · rcases h with ⟨v, hv⟩ | ⟨v, hv⟩
      · exact .inl ⟨v, MemTable.mem_iter_insert.2 (.inr ⟨hv, hsame⟩)⟩
      · rcases mem_cons.1 hv with rfl | hv
        · exact absurd ⟨rfl, rfl⟩ hsame
        · exact .inr ⟨v, hv⟩

/-- What is there was there before, or was inserted. -/
theorem MemTable.mem_of_mem_insertAll {e : Entry} (h : e ∈ (m.insertAll es).iter) : e ∈ m.iter ∨ e ∈ es := by
  induction es generalizing m with
  | nil => exact .inl h
  | cons x es ih =>
    rcases ih (m := m.insert x.1 x.2.1 x.2.2) h with h | h
    · rcases MemTable.mem_iter_insert.1 h with rfl | ⟨h, -⟩
      · exact .inr (mem_cons_self ..)
      · exact .inl h
    · exact .inr (mem_cons_of_mem _ h)

theorem MemTable.single_iter (m : MemTable) : Single { e | e ∈ m.iter } := by
  intro k t v v' hv hv'
  have hfind := MemTable.mem_iter.1 hv
  rw [MemTable.mem_iter.1 hv'] at hfind
  exact (Option.some.inj hfind).symm

/-- Inserting versions with the values they already have only adds the new ones. -/
theorem MemTable.mem_iter_insertAll (hsingle : Single { e | e ∈ m.iter ∨ e ∈ es })
    (x : Entry) : x ∈ (m.insertAll es).iter ↔ x ∈ m.iter ∨ x ∈ es := by
  induction es generalizing m with
  | nil => simp [MemTable.insertAll]
  | cons e es ih =>
    have hone : ∀ y, y ∈ (m.insert e.1 e.2.1 e.2.2).iter ↔ y ∈ m.iter ∨ y = e := by
      intro y
      rw [MemTable.mem_iter_insert]
      constructor
      · rintro (rfl | ⟨hy, -⟩)
        · exact .inr rfl
        · exact .inl hy
      · rintro (hy | rfl)
        · by_cases hsame : y.1 = e.1 ∧ y.2.1 = e.2.1
          · obtain ⟨k, t, v⟩ := y
            obtain ⟨rfl, rfl⟩ := hsame
            have hv := hsingle (.inl hy) (.inr (mem_cons_self ..) : e ∈ m.iter ∨ e ∈ e :: es)
            exact .inl (by rw [hv])
          · exact .inr ⟨hy, hsame⟩
        · exact .inl rfl
    show x ∈ ((m.insert e.1 e.2.1 e.2.2).insertAll es).iter ↔ _
    have hsub : Single { y | y ∈ (m.insert e.1 e.2.1 e.2.2).iter ∨ y ∈ es } := by
      refine hsingle.mono ?_
      rintro y (hy | hy)
      · rcases (hone y).1 hy with hy | rfl
        · exact .inl hy
        · exact .inr (mem_cons_self ..)
      · exact .inr (mem_cons_of_mem _ hy)
    rw [ih hsub, hone, mem_cons, or_assoc]

/-! ## What is on disk -/

/-- The oldest number that a reader can ask for. -/
def floor (snaps : OrdMap Nat Nat) (seq : Nat) : Nat := snaps.keys.head?.getD seq

variable (C : Coding) (dir : String)

/-- The last number is in the manifest or in the memtable. -/
def LastSeq (n lastSeq : Nat) (mem : Set Entry) : Prop := lastSeq ≤ n ∧ (lastSeq = n ∨ ∃ e ∈ mem, e.2.1 = n)

/-- The memtable after these batches were replayed. -/
def replayed (bs : List WalBatch) : MemTable := MemTable.insertAll {} (bs.flatMap WalBatch.entries)

def logged (bs : List WalBatch) : Set Entry := { e | e ∈ (replayed bs).iter }

/-- The directory has the versions `H` up to `n`: the manifest `m`, its tables and a log of the batches `bs`,
perhaps with a torn frame after them. -/
structure Image (H : Set Entry) (n : Nat) (d : Disk) (m : Manifest) (levels : List (List SsTable)) (bs : List WalBatch)
    (tail : Bytes) : Prop where
  single : Single H
  bound : ∀ e ∈ H, e.2.1 ≤ n
  short : n < 2 ^ 64
  load_eq : (Manifest.load C d.manifest).map (·.getD {}) = .ok m
  catalog : Catalog C dir d levels m
  log_eq : d.log = frames C bs ++ tail
  torn : readFrame C tail = none
  frameable : ∀ b ∈ bs, Frameable C b
  last : LastSeq n m.lastSeq (logged bs)
  shows : Presents n H (layers C d (logged bs) levels)

def Recoverable (H : Set Entry) (n : Nat) (d : Disk) : Prop := ∃ m levels bs tail, Image C dir H n d m levels bs tail

/-- A manifest may end with empty levels. -/
structure Manifest.Same (m m' : Manifest) : Prop where
  levels : ∀ i, levelAt m.levels i = levelAt m'.levels i
  nextTableId : m.nextTableId = m'.nextTableId
  lastSeq : m.lastSeq = m'.lastSeq

/-- The log may have to be on stable storage (`D`), and to have no number twice (`Z`). -/
structure LogOk (D Z : Prop) (log : Bytes) (synced : Nat) : Prop where
  settled : D → synced = log.length
  distinct : Z → Single { e | e ∈ (replay C log).1.flatMap WalBatch.entries }

/-- What the log may be, for a memtable and the last number that was flushed: its bytes, and how many of them are on
stable storage. -/
abbrev LogRel := MemTable → Nat → Option Bytes → Nat → Prop

namespace LogRel

/-- The log has exactly the batches of the memtable. -/
def clean (D Z : Prop) : LogRel := fun mem _ wal synced =>
  (∃ bs, wal = some (frames C bs) ∧ (∀ b ∈ bs, Frameable C b) ∧ mem = replayed bs) ∧ LogOk C D Z (wal.getD []) synced

/-- A log for some last number. -/
def any (W : LogRel) : LogRel := fun mem _ wal synced => ∃ last, W mem last wal synced

end LogRel

/-- An open database with the versions `H` up to `n`, and with the directory, options and snapshots that are given. -/
structure Inv (W : LogRel) (opts : Options) (snaps : OrdMap Nat Nat) (H : Set Entry) (n : Nat) (g : Engine) : Prop where
  single : Single H
  bound : ∀ e ∈ H, e.2.1 ≤ n
  short : n < 2 ^ 64
  seq_eq : g.db.seq = n
  dir_eq : g.db.dir = dir
  opts_eq : g.db.opts = opts
  snaps_eq : g.db.snapshots = snaps
  snaps_le : ∀ s ∈ snaps.keys, s ≤ n
  started : 0 < g.db.levels.length
  saved : ∃ m, (Manifest.load C g.disk.manifest).map (·.getD {}) = .ok m ∧ m.Same g.db.manifest
  catalog : Catalog C dir g.disk g.db.levels g.db.manifest
  log : W g.db.mem g.db.manifest.lastSeq g.disk.wal g.disk.synced
  last : LastSeq n g.db.manifest.lastSeq { e | e ∈ g.db.mem.iter }
  shows : Presents (floor snaps n) H (layers C g.disk { e | e ∈ g.db.mem.iter } g.db.levels)

section floor
variable {snaps snaps' : OrdMap Nat Nat} {n n' : Nat}

theorem floor_le_of_mem {s : Nat} (h : s ∈ snaps.keys) : floor snaps n ≤ s := by
  unfold floor
  have hsorted : snaps.keys.Pairwise (· < ·) := pairwise_map.2 snaps.sorted
  cases hk : snaps.keys with
  | nil =>
    rw [hk] at h
    cases h
  | cons a as =>
    rw [hk] at h hsorted
    rcases mem_cons.1 h with rfl | h
    · exact le_rfl
    · exact ((pairwise_cons.1 hsorted).1 s h).le

theorem floor_le (h : ∀ s ∈ snaps.keys, s ≤ n) : floor snaps n ≤ n := by
  unfold floor
  cases hk : snaps.keys with
  | nil => exact le_rfl
  | cons a as => exact h a (by rw [hk]; simp)

/-- The floor does not sink if there are no new snapshots but at the end. -/
theorem floor_mono (h : ∀ s ∈ snaps.keys, s ≤ n) (hn : n ≤ n') (hsub : ∀ s ∈ snaps'.keys, s ∈ snaps.keys ∨ s = n) :
    floor snaps n ≤ floor snaps' n' := by
  have hle := floor_le h
  conv_rhs => unfold floor
  cases hk : snaps'.keys with
  | nil => exact hle.trans hn
  | cons a as =>
    rcases hsub a (by rw [hk]; simp) with ha | rfl
    · exact floor_le_of_mem ha
    · exact hle

end floor

/-! ## Changes that do not matter -/

variable {C dir} {W W' : LogRel} {D Z : Prop} {opts : Options} {snaps : OrdMap Nat Nat} {H : Set Entry} {n : Nat}
  {g : Engine}
  {d d' : Disk} {m m' : Manifest} {levels levels' : List (List SsTable)} {mem : Set Entry}

/-- The catalog depends on the files of its tables, and on the levels one by one. -/
theorem Catalog.congr (hc : Catalog C dir d levels m) (hd : ∀ i, ∀ t ∈ levelAt levels i, d'.table t.id = d.table t.id)
    (hl : ∀ i, levelAt levels' i = levelAt levels i) (hm : ∀ i, levelAt m'.levels i = levelAt m.levels i)
    (hid : m.nextTableId ≤ m'.nextTableId) (hseq : m.lastSeq ≤ m'.lastSeq) : Catalog C dir d' levels' m' := by
  constructor
  · intro i
    rw [hm, hl]
    exact hc.listed i
  · intro i t ht
    rw [hl] at ht
    exact (hc.stored i t ht).congr (hd i t ht)
  · intro i
    rw [hl]
    exact hc.sorted i
  · intro i j t u ht hu
    rw [hl] at ht hu
    exact hc.apart ht hu
  · intro i t ht
    rw [hl] at ht
    exact Nat.lt_of_lt_of_le (hc.fresh i t ht) hid
  · intro i t ht e he
    rw [hl] at ht
    rw [Disk.entries_congr (hd i t ht)] at he
    exact (hc.bounded i t ht e he).trans hseq

theorem layer_congr (mem mem' : Set Entry) {i : Nat} (hd : ∀ t ∈ levelAt levels i, d'.table t.id = d.table t.id)
    (hl : levelAt levels' i = levelAt levels i) : layers C d' mem' levels' (i + 1) = layers C d mem levels (i + 1) := by
  ext e
  rw [mem_layers_succ, hl]
  constructor
  · rintro ⟨t, ht, he⟩
    exact ⟨t, ht, Disk.entries_congr (hd t ht) ▸ he⟩
  · rintro ⟨t, ht, he⟩
    exact ⟨t, ht, (Disk.entries_congr (hd t ht)).symm ▸ he⟩

theorem layers_congr (hd : ∀ i, ∀ t ∈ levelAt levels i, d'.table t.id = d.table t.id)
    (hl : ∀ i, levelAt levels' i = levelAt levels i) : layers C d' mem levels' = layers C d mem levels := by
  funext i
  cases i with
  | zero => rfl
  | succ i => exact layer_congr mem mem (hd i) (hl i)

theorem Inv.floor_le (hi : Inv C dir W opts snaps H n g) : floor snaps n ≤ n := Storage.floor_le hi.snaps_le

theorem Inv.mono (hi : Inv C dir W opts snaps H n g) (hW : W g.db.mem g.db.manifest.lastSeq g.disk.wal g.disk.synced →
      W' g.db.mem g.db.manifest.lastSeq g.disk.wal g.disk.synced) : Inv C dir W' opts snaps H n g :=
  { hi with log := hW hi.log }

theorem Inv.any (hi : Inv C dir W opts snaps H n g) : Inv C dir W.any opts snaps H n g := hi.mono fun h => ⟨_, h⟩

/-- Only the files and the database matter. -/
theorem Inv.same (hi : Inv C dir W opts snaps H n g) {g' : Engine} (hd : g'.disk = g.disk) (hdb : g'.db = g.db) :
    Inv C dir W opts snaps H n g' := by
  obtain ⟨d, db, steps, fits⟩ := g'
  obtain rfl : d = g.disk := hd
  obtain rfl : db = g.db := hdb
  exact { hi with }

/-- An open database is what its files say, if the log has the batches of the memtable. -/
theorem Inv.image (hi : Inv C dir W opts snaps H n g) (bs : List WalBatch) (hwal : g.disk.wal = some (frames C bs))
    (hbs : ∀ b ∈ bs, Frameable C b) (hmem : g.db.mem = replayed bs) :
    ∃ m, m.lastSeq = g.db.manifest.lastSeq ∧ Image C dir H n g.disk m g.db.levels bs [] := by
  obtain ⟨m, hm, hsame⟩ := hi.saved
  have hcat : Catalog C dir g.disk g.db.levels m :=
    hi.catalog.congr (fun _ _ _ => rfl) (fun _ => rfl) hsame.levels hsame.nextTableId.symm.le hsame.lastSeq.symm.le
  have hlast := hi.last
  have hshows := hi.shows
  rw [hmem] at hlast hshows
  refine ⟨m, hsame.lastSeq, hi.single, hi.bound, hi.short, hm, hcat, ?_, rfl, hbs, ?_, hshows.mono hi.floor_le⟩
  · rw [Disk.log, hwal, append_nil]
    rfl
  · rw [hsame.lastSeq]
    exact hlast

/-- An open database with a clean log leaves a directory from which it can be opened again. -/
theorem Inv.recoverable (hi : Inv C dir (LogRel.clean C D Z) opts snaps H n g) : Recoverable C dir H n g.disk := by
  obtain ⟨⟨bs, hwal, hbs, hmem⟩, -⟩ := hi.log
  obtain ⟨m, -, hd⟩ := hi.image bs hwal hbs hmem
  exact ⟨m, g.db.levels, bs, [], hd⟩

/-- Files that are not in the catalog may change. -/
theorem Inv.otherFiles (hi : Inv C dir W opts snaps H n g) (hm : d.manifest = g.disk.manifest) (hw : d.wal = g.disk.wal)
    (hs : d.synced = g.disk.synced) (ht : ∀ i, ∀ t ∈ levelAt g.db.levels i, d.table t.id = g.disk.table t.id) :
    Inv C dir W opts snaps H n { g with disk := d } := by
  refine { hi with saved := ?_, catalog := ?_, log := ?_, shows := ?_ }
  · rw [hm]; exact hi.saved
  · exact hi.catalog.congr ht (fun _ => rfl) (fun _ => rfl) le_rfl le_rfl
  · rw [hw, hs]; exact hi.log
  · rw [layers_congr ht fun _ => rfl]; exact hi.shows

/-- Empty levels at the end may be added. -/
theorem Inv.otherLevels (hi : Inv C dir W opts snaps H n g) (hl : ∀ i, levelAt levels' i = levelAt g.db.levels i)
    (hpos : 0 < levels'.length) (hm : m.Same g.db.manifest) :
    Inv C dir W opts snaps H n { g with db := { g.db with levels := levels', manifest := m } } := by
  refine { hi with started := hpos, saved := ?_, catalog := ?_, log := ?_, last := ?_, shows := ?_ }
  · obtain ⟨m', hload, hsame⟩ := hi.saved
    exact ⟨m', hload, fun i => (hsame.levels i).trans (hm.levels i).symm, hsame.nextTableId.trans hm.nextTableId.symm,
      hsame.lastSeq.trans hm.lastSeq.symm⟩
  · exact hi.catalog.congr (fun _ _ _ => rfl) hl hm.levels hm.nextTableId.symm.le hm.lastSeq.symm.le
  · rw [hm.lastSeq]
    exact hi.log
  · rw [hm.lastSeq]
    exact hi.last
  · rw [layers_congr (fun _ _ _ => rfl) hl]
    exact hi.shows

/-- A file with an id that is not taken yet may be anything. -/
theorem Inv.setTable (hi : Inv C dir W opts snaps H n g) {id : Nat} (hid : g.db.manifest.nextTableId ≤ id)
    (file : Option Bytes) : Inv C dir W opts snaps H n { g with disk := g.disk.setTable id file } := by
  refine hi.otherFiles (d := g.disk.setTable id file) rfl rfl rfl fun i t ht => ?_
  exact Disk.setTable_ne _ (Nat.ne_of_lt (Nat.lt_of_lt_of_le (hi.catalog.fresh i t ht) hid)) _

end RaftKv.Storage

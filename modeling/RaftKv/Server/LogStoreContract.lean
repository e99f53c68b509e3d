import RaftKv.Lib.Ascending
import RaftKv.Server.LogStore

/-!
# The log store and the contract of `Output`

What a call means for the durable copy is `StoreOp.meaning`, after the comments on `Output`
(`raft/src/types.rs:104-122`): it truncates at every appended entry. `persist` truncates once, from
the first entry of the batch, and takes the last entry's index for the highest: entries above it
that an earlier run of the same batch has put stay in the store (`shorterRun_keeps_tail`). It also
lowers the cached lowest index to the first entry of the batch only, although a later run may start
below it. Batches that end at their highest index, and that do not start a run below both, are
stored as the contract says (`logStore_realises_contract`).

`Stores C db p` relates the keys of the store to a durable copy, `Cached` the two cached indexes;
every operation of a batch keeps the first, every call keeps both.
-/

namespace RaftKv

open AscendingBy List

/-! ## The contract -/

inductive StoreOp where
  | persist (hs : Option HardState) (append : List Entry) (snapshot : Option Snapshot)
  | compactTo (snap : Snapshot)
  | reopen

/-- The entries below an append: an installed snapshot clears them. -/
def Persisted.keeps (p : Persisted) (snapshot : Option Snapshot) : List Entry :=
  if snapshot.isSome then [] else p.entries

/-- What the call means for the durable copy. -/
def StoreOp.meaning (p : Persisted) : StoreOp → Persisted
  | .persist hs append snapshot =>
    { hardState := hs.getD p.hardState
      entries := append.foldl (cutAppend Entry.index) (p.keeps snapshot)
      snapshot := snapshot.or p.snapshot }
  | .compactTo snap =>
    { p with snapshot := some snap, entries := p.entries.filter fun e => e.index > snap.lastIndex }
  | .reopen => p

def Persisted.lastIndex (p : Persisted) : Nat :=
  match p.entries.getLast? with
  | some e => e.index
  | none => (p.snapshot.map Snapshot.lastIndex).getD 0

/-- Consecutive runs of entries with `u64` indexes from 1 on, each of which starts at or below one
above the last index at that point. -/
def Chained (last : Nat) : List Entry → Prop
  | [] => True
  | e :: es => 1 ≤ e.index ∧ e.index < 2 ^ 64 ∧ e.index ≤ last + 1 ∧ Chained e.index es

/-- The calls the contract speaks about. -/
def StoreOp.Fed (p : Persisted) : StoreOp → Prop
  | .persist _ append snapshot =>
    Chained { p with snapshot := snapshot.or p.snapshot, entries := p.keeps snapshot }.lastIndex append
  | _ => True

/-- The batch ends at its highest index, and goes below its first entry only where entries are stored. -/
def StoreOp.Aligned (p : Persisted) : StoreOp → Prop
  | .persist _ append snapshot => ∀ e ∈ append,
      (∀ z ∈ append.getLast?, e.index ≤ z.index) ∧
      ((∀ b ∈ append.head?, b.index ≤ e.index) ∨ ∃ x ∈ p.keeps snapshot, x.index ≤ e.index)
  | _ => True

/-- A sequence of calls that the contract speaks about and that keep to `Aligned`. -/
def Permitted (p : Persisted) : List StoreOp → Prop
  | [] => True
  | op :: ops => op.Fed p ∧ op.Aligned p ∧ Permitted (op.meaning p) ops

/-- The durable copy after a sequence of calls. -/
def contract (p : Persisted) (ops : List StoreOp) : Persisted := ops.foldl StoreOp.meaning p

instance : ∀ (last : Nat) (es : List Entry), Decidable (Chained last es)
  | _, [] => .isTrue trivial
  | last, e :: es => by
    have : Decidable (Chained e.index es) := instDecidableChained e.index es
    unfold Chained; infer_instance

instance (p : Persisted) (op : StoreOp) : Decidable (op.Fed p) := by
  unfold StoreOp.Fed; split <;> infer_instance

instance (p : Persisted) (op : StoreOp) : Decidable (op.Aligned p) := by
  unfold StoreOp.Aligned; split <;> infer_instance

instance : ∀ (p : Persisted) (ops : List StoreOp), Decidable (Permitted p ops)
  | _, [] => .isTrue trivial
  | p, op :: ops => by
    have : Decidable (Permitted (op.meaning p) ops) := instDecidablePermitted (op.meaning p) ops
    unfold Permitted; infer_instance

namespace LogStore

variable {V : Type} (C : Codec V)

def exec (ls : LogStore V) : StoreOp → Except String (LogStore V)
  | .persist hs append snapshot => .ok (ls.persist C hs append snapshot)
  | .compactTo snap => .ok (ls.compactTo C snap)
  | .reopen => (openStore C ls.db).map Prod.fst

def run (ls : LogStore V) : List StoreOp → Except String (LogStore V)
  | [] => .ok ls
  | op :: ops => (ls.exec C op).bind fun ls => ls.run ops

end LogStore

/-! ## Keys -/

theorem entryKey_lt {m n : Nat} (h : m < n) (hn : n < 2 ^ 64) : entryKey m < entryKey n := by
  have hlt := beBytes_lt_of_lt (k := 8) h (by simpa using hn)
  simp only [entryKey, entryPrefix, cons_append, cons_lt_cons_iff]
  exact .inr ⟨trivial, .inr ⟨trivial, hlt⟩⟩

theorem entryKey_inj {m n : Nat} (hm : m < 2 ^ 64) (hn : n < 2 ^ 64) (h : entryKey m = entryKey n) : m = n :=
  beBytes_inj (k := 8) (by simpa using hm) (by simpa using hn) (append_cancel_left h)

theorem entryKey_in (i : Nat) : entryPrefix ≤ entryKey i ∧ entryKey i < entryEnd := by
  constructor
  · rw [← not_lt]
    simp [entryKey, entryPrefix]
  · simp only [entryKey, entryPrefix, entryEnd, cons_append, cons_lt_cons_iff]
    exact .inr ⟨trivial, .inl (by decide)⟩

theorem keyHs_out : ¬ (entryPrefix ≤ keyHs ∧ keyHs < entryEnd) := by decide

theorem keySnap_out : ¬ (entryPrefix ≤ keySnap ∧ keySnap < entryEnd) := by decide

theorem entryKey_ne_keyHs (i : Nat) : entryKey i ≠ keyHs := fun h => keyHs_out (h ▸ entryKey_in i)

theorem entryKey_ne_keySnap (i : Nat) : entryKey i ≠ keySnap := fun h => keySnap_out (h ▸ entryKey_in i)

/-! ## What the store holds -/

variable {V : Type} {C : Codec V} {db : OrdMap Bytes V} {p : Persisted} {ls : LogStore V}

def cell (C : Codec V) (e : Entry) : Bytes × V := (entryKey e.index, C.entry.ser e)

/-- The keys and values in `db` stand for `p`. -/
structure Stores (C : Codec V) (db : OrdMap Bytes V) (p : Persisted) : Prop where
  hs : (db.find? keyHs = none ∧ p.hardState = {}) ∨ db.find? keyHs = some (C.hardState.ser p.hardState)
  snap : db.find? keySnap = p.snapshot.map C.snapshot.ser
  scan : db.range entryPrefix entryEnd = p.entries.map (cell C)
  asc : AscendingBy Entry.index p.entries
  bound : ∀ e ∈ p.entries, 1 ≤ e.index ∧ e.index < 2 ^ 64

variable {es : List Entry} {e z : Entry} {last : Nat}

theorem cells_sorted (h : AscendingBy Entry.index es) (hb : ∀ e ∈ es, 1 ≤ e.index ∧ e.index < 2 ^ 64) :
    (es.map (cell C)).Pairwise fun a b => a.1 < b.1 := by
  refine pairwise_map.2 (h.imp_of_mem fun {a b} _ hb' hlt => ?_)
  exact entryKey_lt hlt (hb b hb').2

theorem Stores.empty : Stores C ∅ {} :=
  ⟨.inl ⟨rfl, rfl⟩, rfl, rfl, List.Pairwise.nil, fun e he => (by cases he)⟩

theorem Stores.putHs (h : Stores C db p) (hs : HardState) :
    Stores C (db.insert keyHs (C.hardState.ser hs)) { p with hardState := hs } := by
  refine ⟨.inr (by simp), ?_, ?_, h.asc, h.bound⟩
  · rw [OrdMap.find?_insert]; exact h.snap
  · rw [OrdMap.range_insert_of_not_mem keyHs_out]; exact h.scan

theorem Stores.putSnap (h : Stores C db p) (snap : Snapshot) :
    Stores C (db.insert keySnap (C.snapshot.ser snap)) { p with snapshot := some snap } := by
  refine ⟨?_, by simp, ?_, h.asc, h.bound⟩
  · rw [OrdMap.find?_insert, if_neg (by decide)]; exact h.hs
  · rw [OrdMap.range_insert_of_not_mem keySnap_out]; exact h.scan

theorem Stores.putEntry (h : Stores C db p) (he : 1 ≤ e.index ∧ e.index < 2 ^ 64) :
    Stores C (db.insert (entryKey e.index) (C.entry.ser e)) { p with entries := put Entry.index p.entries e } := by
  have hb : ∀ x ∈ put Entry.index p.entries e, 1 ≤ x.index ∧ x.index < 2 ^ 64 := by
    intro x hx
    rcases mem_put.1 hx with rfl | ⟨hx, _⟩
    · exact he
    · exact h.bound x hx
  refine ⟨?_, ?_, ?_, put_asc h.asc, hb⟩
  · rw [OrdMap.find?_insert]; exact h.hs
  · rw [OrdMap.find?_insert]; exact h.snap
  · refine OrdMap.range_eq_of_mem_iff (cells_sorted (put_asc h.asc) hb) fun q => ?_
    rw [OrdMap.mem_range_insert, h.scan, mem_map, mem_map]
    constructor
    · rintro (⟨rfl, _⟩ | ⟨⟨x, hx, rfl⟩, hne⟩)
      · exact ⟨e, mem_put.2 (.inl rfl), rfl⟩
      · exact ⟨x, mem_put.2 (.inr ⟨hx, fun heq => hne (congrArg entryKey heq)⟩), rfl⟩
    · rintro ⟨x, hx, rfl⟩
      rcases mem_put.1 hx with rfl | ⟨hx, hne⟩
      · exact .inl ⟨rfl, entryKey_in _⟩
      · exact .inr ⟨⟨x, hx, rfl⟩, fun heq => hne (entryKey_inj (h.bound x hx).2 he.2 heq)⟩

theorem Stores.delete (h : Stores C db p) {i : Nat} (hi : i < 2 ^ 64) :
    Stores C (db.erase (entryKey i)) { p with entries := p.entries.filter fun e => e.index ≠ i } := by
  have hb : ∀ x ∈ p.entries.filter (fun e => e.index ≠ i), 1 ≤ x.index ∧ x.index < 2 ^ 64 :=
    fun x hx => h.bound x (mem_filter.1 hx).1
  refine ⟨?_, ?_, ?_, h.asc.filter _, hb⟩
  · rw [OrdMap.find?_erase]; exact h.hs
  · rw [OrdMap.find?_erase]; exact h.snap
  · refine OrdMap.range_eq_of_mem_iff (cells_sorted (h.asc.filter _) hb) fun q => ?_
    rw [OrdMap.mem_range_erase, h.scan, mem_map, mem_map]
    constructor
    · rintro ⟨⟨x, hx, rfl⟩, hne⟩
      exact ⟨x, mem_filter.2 ⟨hx, by simpa using fun heq => hne (congrArg entryKey heq)⟩, rfl⟩
    · rintro ⟨x, hx, rfl⟩
      obtain ⟨hx, hne⟩ := mem_filter.1 hx
      refine ⟨⟨x, hx, rfl⟩, fun heq => ?_⟩
      simp [entryKey_inj (h.bound x hx).2 hi heq] at hne

theorem Stores.deleteAll (h : Stores C db p) (is : List Nat) (hi : ∀ i ∈ is, i < 2 ^ 64) :
    Stores C (db.writeBatch (is.map fun i => (entryKey i, none)))
      { p with entries := p.entries.filter fun e => e.index ∉ is } := by
  induction is generalizing db p with
  | nil =>
    have hself : p.entries.filter (fun e => e.index ∉ ([] : List Nat)) = p.entries :=
      filter_eq_self.2 fun e _ => by simp
    rw [hself]; exact h
  | cons i is ih =>
    have hrest := ih (h.delete (hi i (by simp))) fun j hj => hi j (by simp [hj])
    rw [filter_filter] at hrest
    have hboth : p.entries.filter (fun e => e.index ∉ i :: is) =
        p.entries.filter fun e => decide (e.index ∉ is) && decide (e.index ≠ i) := by
      refine filter_congr fun e _ => ?_
      simp [Bool.and_comm]
    rw [hboth]; exact hrest

theorem Stores.deletes (h : Stores C db p) (first : Nat) (hlast : last < 2 ^ 64) :
    Stores C (db.writeBatch (LogStore.deletes first last))
      { p with entries := p.entries.filter fun e => ¬ (first ≤ e.index ∧ e.index ≤ last) } := by
  have hdel := h.deleteAll (List.range' first (last + 1 - first)) fun i hi => by
    rw [mem_range'_1] at hi; omega
  have hsame : p.entries.filter (fun e => ¬ (first ≤ e.index ∧ e.index ≤ last)) =
      p.entries.filter fun e => e.index ∉ List.range' first (last + 1 - first) := by
    refine filter_congr fun e _ => ?_
    rw [decide_eq_decide, mem_range'_1]; omega
  rw [hsame]; exact hdel

theorem Stores.putAll (h : Stores C db p) (he : ∀ e ∈ es, 1 ≤ e.index ∧ e.index < 2 ^ 64) :
    Stores C (db.writeBatch (es.map fun e => (entryKey e.index, some (C.entry.ser e))))
      { p with entries := es.foldl (put Entry.index) p.entries } := by
  induction es generalizing db p with
  | nil => exact h
  | cons e es ih => exact ih (h.putEntry (he e (by simp))) fun x hx => he x (by simp [hx])

/-! ## The cached indexes -/

/-- The cached bounds are those of the stored entries; the lower one may only be too low. -/
structure Cached (ls : LogStore V) (es : List Entry) : Prop where
  empty : es = [] → ls.firstIndex = 0 ∧ ls.lastIndex = 0
  first : ∀ e ∈ es, 0 < ls.firstIndex ∧ ls.firstIndex ≤ e.index
  last : ∀ {z}, es.getLast? = some z → ls.lastIndex = z.index

theorem Cached.le_last (h : Cached ls es) (hasc : AscendingBy Entry.index es)
    (he : e ∈ es) : e.index ≤ ls.lastIndex := by
  cases hz : es.getLast? with
  | none => rw [getLast?_eq_none_iff.1 hz] at he; cases he
  | some z => rw [h.last hz]; exact hasc.le_last hz he

theorem Stores.last_lt (h : Stores C db p) (hc : Cached ls p.entries) : ls.lastIndex < 2 ^ 64 := by
  cases hz : p.entries.getLast? with
  | none => rw [(hc.empty (getLast?_eq_none_iff.1 hz)).2]; decide
  | some z => rw [hc.last hz]; exact (h.bound z (mem_of_getLast? hz)).2

/-- With no upper bound in the cache nothing is stored. -/
theorem Stores.nil_of_last (h : Stores C db p) (hc : Cached ls p.entries) (h0 : ls.lastIndex = 0) :
    p.entries = [] := by
  refine eq_nil_iff_forall_not_mem.2 fun e he => ?_
  have := hc.le_last h.asc he
  have := (h.bound e he).1
  omega

theorem Stores.readHardState (h : Stores C db p) : LogStore.readHardState C db = .ok p.hardState := by
  unfold LogStore.readHardState
  rcases h.hs with ⟨hnone, hdef⟩ | hsome
  · rw [hnone, hdef]
  · rw [hsome]
    simp only [C.hardState.de_ser]
    rfl

theorem Stores.readSnapshot (h : Stores C db p) : LogStore.readSnapshot C db = .ok p.snapshot := by
  unfold LogStore.readSnapshot
  rw [h.snap]
  cases p.snapshot with
  | none => rfl
  | some s =>
    simp only [Option.map_some, C.snapshot.de_ser]
    rfl

theorem Stores.readEntries (h : Stores C db p) : LogStore.readEntries C db = .ok p.entries := by
  unfold LogStore.readEntries
  rw [h.scan]
  induction p.entries with
  | nil => rfl
  | cons e es ih =>
    rw [map_cons, mapM_cons, ih]
    simp only [cell, C.entry.de_ser]
    rfl

/-- Opening the store returns what it stands for, with the right bounds. -/
theorem Stores.openStore (h : Stores C db p) :
    ∃ ls, LogStore.openStore C db = .ok (ls, p) ∧ ls.db = db ∧ Cached ls p.entries := by
  refine ⟨{ db, firstIndex := (p.entries.head?.map Entry.index).getD 0
            lastIndex := (p.entries.getLast?.map Entry.index).getD 0 }, ?_, rfl, ?_, fun e he => ?_, fun hz => ?_⟩
  · unfold LogStore.openStore
    rw [h.readHardState, h.readSnapshot, h.readEntries]
    rfl
  · intro hnil; rw [hnil]; exact ⟨rfl, rfl⟩
  · cases hes : p.entries with
    | nil => rw [hes] at he; cases he
    | cons b es =>
      have hb := (h.bound b (by simp [hes])).1
      have hle : b.index ≤ e.index := by
        have hasc := h.asc
        rw [hes] at he hasc
        rcases mem_cons.1 he with rfl | he
        · exact Nat.le_refl _
        · exact Nat.le_of_lt ((pairwise_cons.1 hasc).1 e he)
      exact ⟨hb, hle⟩
  · rw [hz]; rfl

/-! ## The calls -/

theorem Chained.bound (h : Chained last es) : ∀ e ∈ es, 1 ≤ e.index ∧ e.index < 2 ^ 64 := by
  induction es generalizing last with
  | nil => simp
  | cons b es ih =>
    intro e he
    rcases mem_cons.1 he with rfl | he
    · exact ⟨h.1, h.2.1⟩
    · exact ih h.2.2.2 e he

theorem Chained.rising (h : Chained last es) : Rising Entry.index es := by
  induction es generalizing last with
  | nil => exact List.IsChain.nil
  | cons b es ih =>
    cases es with
    | nil => exact List.IsChain.singleton b
    | cons b' es => exact isChain_cons_cons.2 ⟨h.2.2.2.2.2.1, ih h.2.2.2⟩

theorem Stores.hardStateOps (h : Stores C db p) (hs : Option HardState) :
    Stores C (db.writeBatch (LogStore.hardStateOps C hs)) { p with hardState := hs.getD p.hardState } := by
  cases hs with
  | none => exact h
  | some hs => exact h.putHs hs

theorem Stores.snapshotOps (h : Stores C db p) (hc : Cached ls p.entries) (snapshot : Option Snapshot) :
    Stores C (db.writeBatch (ls.snapshotOps C snapshot))
      { p with snapshot := snapshot.or p.snapshot, entries := p.keeps snapshot } := by
  cases snapshot with
  | none => exact h
  | some snap =>
    have hput := h.putSnap snap
    simp only [LogStore.snapshotOps]
    split
    · have hdel := hput.deletes ls.firstIndex (h.last_lt hc)
      have hnil : p.entries.filter (fun e => ¬ (ls.firstIndex ≤ e.index ∧ e.index ≤ ls.lastIndex)) = [] := by
        refine filter_eq_nil_iff.2 fun e he => ?_
        simp [(hc.first e he).2, hc.le_last h.asc he]
      rw [hnil] at hdel
      exact hdel
    · have hnil := h.nil_of_last hc (by omega)
      rw [hnil] at hput
      exact hput

theorem Cached.cleared (hc : Cached ls p.entries) (snapshot : Option Snapshot) :
    Cached (ls.cleared snapshot) (p.keeps snapshot) := by
  cases snapshot with
  | none => exact hc
  | some snap => exact ⟨fun _ => ⟨rfl, rfl⟩, fun e he => (by cases he), fun hz => (by cases hz)⟩

/-- Cutting once from the first appended index. -/
theorem Stores.append (h : Stores C db p) (hc : Cached ls p.entries)
    (hr : Chained last (e :: es)) (hz : (e :: es).getLast? = some z) (htop : ∀ x ∈ e :: es, x.index ≤ z.index) :
    Stores C (db.writeBatch (ls.appendOps C e.index (e :: es)))
      { p with entries := (e :: es).foldl (cutAppend Entry.index) p.entries } := by
  have hcut : Stores C (db.writeBatch
      (if ls.lastIndex ≠ 0 ∧ e.index ≤ ls.lastIndex then LogStore.deletes e.index ls.lastIndex else []))
      { p with entries := p.entries.filter fun x => x.index < e.index } := by
    split
    · have hdel := h.deletes e.index (h.last_lt hc)
      have hsame : p.entries.filter (fun x => x.index < e.index) =
          p.entries.filter fun x => ¬ (e.index ≤ x.index ∧ x.index ≤ ls.lastIndex) := by
        refine filter_congr fun x hx => ?_
        have := hc.le_last h.asc hx
        rw [decide_eq_decide]; omega
      rw [hsame]; exact hdel
    · have hself : p.entries.filter (fun x => x.index < e.index) = p.entries := by
        refine filter_eq_self.2 fun x hx => ?_
        have := hc.le_last h.asc hx
        have := (h.bound x hx).1
        rw [decide_eq_true_eq]; omega
      rw [hself]; exact h
  have hput := hcut.putAll hr.bound
  rw [foldl_put_eq h.asc hr.rising hz htop] at hput
  rw [LogStore.appendOps, OrdMap.writeBatch_append]
  exact hput

theorem foldl_cutAppend_getLast? {l as : List Entry} (hz : as.getLast? = some z) :
    (as.foldl (cutAppend Entry.index) l).getLast? = some z := by
  obtain ⟨u, rfl⟩ := getLast?_eq_some_iff.1 hz
  simp [cutAppend]

/-- The cached bounds after an append that starts no run below both bounds. -/
theorem Cached.append {kept : List Entry} (hc : Cached ls kept) {db' : OrdMap Bytes V} (he : 1 ≤ e.index)
    (hz : (e :: es).getLast? = some z) (hlow : ∀ x ∈ e :: es, e.index ≤ x.index ∨ ∃ y ∈ kept, y.index ≤ x.index) :
    Cached { db := db', lastIndex := z.index
             firstIndex := if ls.firstIndex = 0 ∨ e.index < ls.firstIndex then e.index else ls.firstIndex }
      ((e :: es).foldl (cutAppend Entry.index) kept) := by
  have hlast := foldl_cutAppend_getLast? (l := kept) hz
  refine ⟨fun hnil => ?_, fun x hx => ?_, fun hz' => ?_⟩
  · rw [hnil] at hlast; cases hlast
  · have hx' : e.index ≤ x.index ∨ ∃ y ∈ kept, y.index ≤ x.index := by
      rcases (mem_foldl (R := fun x a => x.index < a.index) mem_cutAppend).1 hx with ⟨u, v, huv, _⟩ | ⟨hx, _⟩
      · exact hlow x (by rw [huv]; simp)
      · exact .inr ⟨x, hx, Nat.le_refl _⟩
    dsimp only
    rcases hx' with hle | ⟨y, hy, hle⟩
    · split <;> omega
    · have := hc.first y hy
      split <;> omega
  · rw [hlast] at hz'
    cases hz'; rfl

theorem Stores.persist (h : Stores C ls.db p) (hc : Cached ls p.entries) {hs : Option HardState}
    {append : List Entry} {snapshot : Option Snapshot} (hf : (StoreOp.persist hs append snapshot).Fed p)
    (ha : (StoreOp.persist hs append snapshot).Aligned p) :
    Stores C (ls.persist C hs append snapshot).db ((StoreOp.persist hs append snapshot).meaning p) ∧
      Cached (ls.persist C hs append snapshot) ((StoreOp.persist hs append snapshot).meaning p).entries := by
  have hc2 := hc.cleared snapshot
  have h2 : Stores C (ls.db.writeBatch (LogStore.hardStateOps C hs ++ ls.snapshotOps C snapshot))
      { hardState := hs.getD p.hardState, snapshot := snapshot.or p.snapshot, entries := p.keeps snapshot } := by
    rw [OrdMap.writeBatch_append]
    exact (h.hardStateOps hs).snapshotOps hc snapshot
  have hdb : (ls.cleared snapshot).db = ls.db := by cases snapshot <;> rfl
  have hwrite : ∀ (l : LogStore V) (ops : List (Bytes × Option V)),
      (if ops.isEmpty then l else { l with db := l.db.writeBatch ops }) = { l with db := l.db.writeBatch ops } := by
    intro l ops
    cases ops <;> rfl
  unfold LogStore.persist
  dsimp only
  rw [hwrite]
  cases append with
  | nil =>
    rw [hdb]
    exact ⟨h2, hc2.empty, hc2.first, hc2.last⟩
  | cons e es =>
    obtain ⟨z, hz⟩ : ∃ z, (e :: es).getLast? = some z := ⟨_, getLast?_eq_some_getLast (by simp)⟩
    have hzl : (e :: es).getLast (by simp) = z := by
      exact Option.some.inj hz
    dsimp only
    rw [hdb, hzl, OrdMap.writeBatch_append]
    exact ⟨h2.append hc2 hf hz fun x hx => (ha x hx).1 z hz,
      hc2.append hf.1 hz fun x hx => (ha x hx).2.imp (fun hb => hb e rfl) fun hy => hy⟩

theorem Stores.compactTo (h : Stores C ls.db p) (hc : Cached ls p.entries) (snap : Snapshot) :
    Stores C (ls.compactTo C snap).db ((StoreOp.compactTo snap).meaning p) ∧
      Cached (ls.compactTo C snap) ((StoreOp.compactTo snap).meaning p).entries := by
  have hput := h.putSnap snap
  have hlast := h.last_lt hc
  unfold LogStore.compactTo
  dsimp only [StoreOp.meaning]
  by_cases hcut : ls.lastIndex ≠ 0 ∧ ls.firstIndex ≤ snap.lastIndex
  · have hdel := hput.deletes ls.firstIndex (show min snap.lastIndex ls.lastIndex < 2 ^ 64 by omega)
    have hsame : p.entries.filter (fun e => e.index > snap.lastIndex) =
        p.entries.filter fun e => ¬ (ls.firstIndex ≤ e.index ∧ e.index ≤ min snap.lastIndex ls.lastIndex) := by
      refine filter_congr fun e he => ?_
      have := hc.first e he
      have := hc.le_last h.asc he
      rw [decide_eq_decide]; omega
    rw [if_pos hcut]
    by_cases hall : snap.lastIndex ≥ ls.lastIndex
    · rw [if_pos hall]
      refine ⟨by rw [hsame]; exact hdel, fun _ => ⟨rfl, rfl⟩, fun e he => ?_, fun hz => ?_⟩
      all_goals
        have hnil : p.entries.filter (fun e => e.index > snap.lastIndex) = [] := by
          refine filter_eq_nil_iff.2 fun e he => ?_
          have := hc.le_last h.asc he
          simp; omega
      · rw [hnil] at he; cases he
      · rw [hnil] at hz; cases hz
    · rw [if_neg hall]
      -- the last entry stays
      obtain ⟨z, hz⟩ : ∃ z, p.entries.getLast? = some z := by
        cases hz : p.entries.getLast? with
        | none => exact absurd (hc.empty (getLast?_eq_none_iff.1 hz)).2 hcut.1
        | some z => exact ⟨z, rfl⟩
      have hz' : (p.entries.filter fun e => e.index > snap.lastIndex).getLast? = some z := by
        obtain ⟨m, hm⟩ := getLast?_eq_some_iff.1 hz
        have := hc.last hz
        rw [hm, filter_append, filter_cons_of_pos (by simp; omega)]
        simp
      refine ⟨by rw [hsame]; exact hdel, fun hnil => ?_, fun e he => ?_, fun hz'' => ?_⟩
      · rw [hnil] at hz'; cases hz'
      · have : e.index > snap.lastIndex := by simpa using (mem_filter.1 he).2
        exact ⟨Nat.succ_pos _, this⟩
      · rw [hz'] at hz''
        cases hz''; exact hc.last hz
  · have hself : p.entries.filter (fun e => e.index > snap.lastIndex) = p.entries := by
      refine filter_eq_self.2 fun e he => ?_
      have := hc.first e he
      have := hc.le_last h.asc he
      rw [decide_eq_true_eq]; omega
    rw [if_neg hcut, hself]
    exact ⟨hput, hc.empty, hc.first, hc.last⟩

/-- One call: the store keeps standing for what the contract says. -/
theorem Stores.exec (h : Stores C ls.db p) (hc : Cached ls p.entries) {op : StoreOp} (hf : op.Fed p)
    (ha : op.Aligned p) :
    ∃ ls', ls.exec C op = .ok ls' ∧ Stores C ls'.db (op.meaning p) ∧ Cached ls' (op.meaning p).entries := by
  cases op with
  | persist hs append snapshot => exact ⟨_, rfl, h.persist hc hf ha⟩
  | compactTo snap => exact ⟨_, rfl, h.compactTo hc snap⟩
  | reopen =>
    obtain ⟨ls', hopen, hdb, hc'⟩ := h.openStore
    refine ⟨ls', ?_, by rw [hdb]; exact h, hc'⟩
    simp only [LogStore.exec, hopen]
    rfl

theorem Stores.run (h : Stores C ls.db p) (hc : Cached ls p.entries) {ops : List StoreOp} (hp : Permitted p ops) :
    ∃ ls', ls.run C ops = .ok ls' ∧ Stores C ls'.db (contract p ops) := by
  induction ops generalizing ls p with
  | nil => exact ⟨ls, rfl, h⟩
  | cons op ops ih =>
    obtain ⟨ls₁, hexec, h₁, hc₁⟩ := h.exec hc hp.1 hp.2.1
    obtain ⟨ls', hrun, h'⟩ := ih h₁ hc₁ hp.2.2
    refine ⟨ls', ?_, h'⟩
    rw [LogStore.run, hexec]
    exact hrun

/-- A new store. -/
def LogStore.new (V : Type) : LogStore V := { db := ∅, firstIndex := 0, lastIndex := 0 }

/-- After any permitted sequence of calls, opening the store returns the durable copy of the contract. -/
theorem logStore_realises_contract (C : Codec V) (ops : List StoreOp) (hp : Permitted {} ops) :
    ∃ ls ls', (LogStore.new V).run C ops = .ok ls ∧ LogStore.openStore C ls.db = .ok (ls', contract {} ops) := by
  have hc : Cached (LogStore.new V) [] :=
    ⟨fun _ => ⟨rfl, rfl⟩, fun e he => (by cases he), fun hz => (by cases hz)⟩
  have hnew : Stores C (LogStore.new V).db {} := Stores.empty
  obtain ⟨ls, hrun, hst⟩ := hnew.run hc hp
  obtain ⟨ls', hopen, _⟩ := hst.openStore
  exact ⟨ls, ls', hrun, hopen⟩

/-- An encoding for evaluating the store: the values themselves. -/
def Codec.plain : Codec (HardState ⊕ Snapshot ⊕ Entry) where
  hardState :=
    { ser := .inl
      de := fun | .inl hs => .ok hs | _ => .error "not a hard state"
      de_ser := fun _ => rfl }
  snapshot :=
    { ser := fun s => .inr (.inl s)
      de := fun | .inr (.inl s) => .ok s | _ => .error "not a snapshot"
      de_ser := fun _ => rfl }
  entry :=
    { ser := fun e => .inr (.inr e)
      de := fun | .inr (.inr e) => .ok e | _ => .error "not an entry"
      de_ser := fun _ => rfl }

def noopAt (term index : Nat) : Entry := { term, index, payload := .noop }

/-- A repair, a compaction and a restart. -/
theorem logStore_realises_contract_repair :
    let ops := [.persist (some ⟨1, none⟩) [noopAt 1 1, noopAt 1 2, noopAt 1 3] none,
      .persist none [noopAt 2 2, noopAt 2 3] none, .compactTo ⟨2, 2, [1], []⟩, .reopen]
    (contract {} ops).entries = [noopAt 2 3] ∧ ∃ ls ls', (LogStore.new _).run Codec.plain ops = .ok ls ∧
      LogStore.openStore Codec.plain ls.db = .ok (ls', contract {} ops) :=
  ⟨by decide, logStore_realises_contract Codec.plain _ (by decide)⟩

/-- A leader's three entries and the shorter repair of the next leader, in one batch. -/
def shorterRun : StoreOp := .persist none [noopAt 1 1, noopAt 1 2, noopAt 1 3, noopAt 2 2] none

/-- The contract drops entry 3, the store keeps it. -/
theorem shorterRun_keeps_tail :
    shorterRun.Fed {} ∧ (contract {} [shorterRun]).entries = [noopAt 1 1, noopAt 2 2] ∧
      (((LogStore.new _).run Codec.plain [shorterRun]).bind fun ls =>
        (LogStore.openStore Codec.plain ls.db).map fun r => r.2.entries).toOption =
        some [noopAt 1 1, noopAt 2 2, noopAt 1 3] :=
  ⟨by decide, by decide, by decide +kernel⟩

/-- A run below the first entry of the batch escapes the cached lower bound, and then a compaction. -/
example :
    let ops := [.persist none [noopAt 1 5] (some ⟨4, 1, [1], []⟩),
      .persist none [noopAt 1 5, noopAt 1 6, noopAt 2 3, noopAt 2 4, noopAt 2 5, noopAt 2 6] none,
      .compactTo ⟨6, 2, [1], []⟩]
    (contract {} ops).entries = [] ∧
      (((LogStore.new _).run Codec.plain ops).bind fun ls =>
        (LogStore.openStore Codec.plain ls.db).map fun r => r.2.entries).toOption =
        some [noopAt 2 3, noopAt 2 4] :=
  ⟨by decide, by decide +kernel⟩

end RaftKv

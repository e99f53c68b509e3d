import Mathlib.Data.Prod.Lex
import RaftKv.Lib.OrdMap
import RaftKv.Lib.VersionList
import RaftKv.Storage.Coding

/-!
# The memtable

An ordered map from `(key, Reverse(seq))` to values: its iteration is in the order of a table, and
a read takes the first binding in a range of keys.

| here | there |
| --- | --- |
| `MemTable.insert`, `get`, `iter` | `memtable.rs:28`, `memtable.rs:36`, `memtable.rs:55` |
-/

namespace RaftKv.Storage

open Versions

/-- `(Vec<u8>, Reverse<u64>)` -/
abbrev MemKey := Bytes ×ₗ Natᵒᵈ

def memKey (key : Bytes) (seq : Nat) : MemKey := toLex (key, OrderDual.toDual seq)

structure MemTable where
  map : OrdMap MemKey (Option Bytes) := ∅
  bytes : Nat := 0

namespace MemTable

def insert (m : MemTable) (key : Bytes) (seq : Nat) (value : Option Bytes) : MemTable where
  bytes := m.bytes + (key.length + (value.map List.length).getD 0 + 24)
  map := m.map.insert (memKey key seq) value

/-- `self.map.range(start..=end).next()` -/
def get (m : MemTable) (key : Bytes) (snapshot : Nat) : Option (Option Bytes) :=
  (m.map.toList.find? fun p => memKey key snapshot ≤ p.1 ∧ p.1 ≤ memKey key 0).map Prod.snd

def isEmpty (m : MemTable) : Bool := m.map.toList.isEmpty

def entryOf (p : MemKey × Option Bytes) : Entry := ((ofLex p.1).1, OrderDual.ofDual (ofLex p.1).2, p.2)

def iter (m : MemTable) : List Entry := m.map.toList.map entryOf

/-! ## The memtable as a sorted list -/

variable {m : MemTable} {key : Bytes} {seq s : Nat} {value : Option Bytes} {e : Entry}

theorem lt_iff_before (p q : MemKey × Option Bytes) : p.1 < q.1 ↔ Before (entryOf p) (entryOf q) := by
  rw [Prod.Lex.lt_iff]
  exact Iff.rfl

theorem iter_sorted (m : MemTable) : Sorted m.iter :=
  List.pairwise_map.2 (m.map.sorted.imp fun {p q} h => (lt_iff_before p q).1 h)

theorem mem_iter : e ∈ m.iter ↔ m.map.find? (memKey e.1 e.2.1) = some e.2.2 := by
  rw [OrdMap.find?_eq_some, iter, List.mem_map]
  constructor
  · rintro ⟨p, hp, rfl⟩
    exact hp
  · intro h
    exact ⟨_, h, rfl⟩

theorem memKey_inj {key' : Bytes} {seq' : Nat} : memKey key seq = memKey key' seq' ↔ key = key' ∧ seq = seq' := by
  unfold memKey
  rw [toLex_inj, Prod.mk.injEq, OrderDual.toDual_inj]

theorem mem_iter_insert :
    e ∈ (m.insert key seq value).iter ↔ e = (key, seq, value) ∨ (e ∈ m.iter ∧ ¬ (e.1 = key ∧ e.2.1 = seq)) := by
  rw [mem_iter, mem_iter]
  show (m.map.insert (memKey key seq) value).find? _ = _ ↔ _
  rw [OrdMap.find?_insert]
  by_cases h : e.1 = key ∧ e.2.1 = seq
  · obtain ⟨k, t, v⟩ := e
    obtain ⟨rfl, rfl⟩ := h
    simp [eq_comm]
  · rw [if_neg fun heq => h (memKey_inj.1 heq)]
    constructor
    · exact fun hm => Or.inr ⟨hm, h⟩
    · rintro (rfl | hm)
      · exact absurd ⟨rfl, rfl⟩ h
      · exact hm.1

theorem range_iff (p : MemKey × Option Bytes) :
    (memKey key s ≤ p.1 ∧ p.1 ≤ memKey key 0) ↔ (entryOf p).1 = key ∧ (entryOf p).2.1 ≤ s := by
  rw [Prod.Lex.le_iff, Prod.Lex.le_iff]
  constructor
  · rintro ⟨hlt | ⟨heq, hle⟩, hlt' | ⟨heq', _⟩⟩
    · exact absurd hlt (lt_asymm hlt')
    · exact absurd heq' (ne_of_gt hlt)
    · exact absurd heq (ne_of_gt hlt')
    · exact ⟨heq', hle⟩
  · rintro ⟨heq, hle⟩
    exact ⟨Or.inr ⟨heq.symm, hle⟩, Or.inr ⟨heq, Nat.zero_le _⟩⟩

/-- A read is a lookup in the sorted list. -/
theorem get_eq (m : MemTable) (key : Bytes) (s : Nat) : m.get key s = (lookup m.iter key s).map Prod.snd := by
  unfold get lookup iter
  rw [List.find?_map, Option.map_map, Option.map_map]
  congr 2
  funext p
  exact decide_eq_decide.2 (range_iff p)

theorem isEmpty_iff : m.isEmpty = true ↔ m.iter = [] := by
  rw [isEmpty, List.isEmpty_iff, iter, List.map_eq_nil_iff]

end MemTable

end RaftKv.Storage

import RaftKv.Raft.Types

/-!
# The in-memory log with a snapshot base (crates/raft/src/log.rs)

| here | there |
| --- | --- |
| `RaftLog.contiguous`     | "`entries[0].index == snap_index + 1` always" (`log.rs:3`), checked by `assert_contiguous` |
| `RaftLog.new`            | `RaftLog::new` (`log.rs:17`); `none` is the failed `assert_contiguous` |
| `RaftLog.push`           | `push` (`log.rs:79`); its `debug_assert_eq!` is the precondition `h` |
| `RaftLog.truncateFrom`   | `truncate_from` (`log.rs:85`); its `panic!` is the precondition `h` |
| the rest                 | the method of the same name |

A caller that cannot discharge a precondition statically tests it and models the failed test as a
panic of the call (`none`), see `RaftNode.handleAppendEntries`.
-/

namespace RaftKv

structure RaftLog where
  snapIndex : Nat
  snapTerm : Nat
  entries : List Entry
  contiguous : ∀ (i : Nat) (e : Entry), entries[i]? = some e → e.index = snapIndex + 1 + i

namespace RaftLog

instance : DecidableEq RaftLog := fun a b =>
  decidable_of_iff (a.snapIndex = b.snapIndex ∧ a.snapTerm = b.snapTerm ∧ a.entries = b.entries)
    ⟨fun ⟨h1, h2, h3⟩ => by cases a; cases b; cases h1; cases h2; cases h3; rfl,
     fun h => by cases h; exact ⟨rfl, rfl, rfl⟩⟩

theorem ext_fields {a b : RaftLog} (h1 : a.snapIndex = b.snapIndex) (h2 : a.snapTerm = b.snapTerm)
    (h3 : a.entries = b.entries) : a = b := by
  cases a; cases b; cases h1; cases h2; cases h3; rfl

/-- `assert_contiguous` (`log.rs:27`) on raw entries. -/
def isContiguous : Nat → List Entry → Bool
  | _, [] => true
  | idx, e :: es => e.index == idx && isContiguous (idx + 1) es

theorem isContiguous_iff : ∀ {es : List Entry} {idx : Nat},
    isContiguous idx es = true ↔ ∀ (i : Nat) (e : Entry), es[i]? = some e → e.index = idx + i
  | [], _ => by simp [isContiguous]
  | e :: es, idx => by
    simp only [isContiguous, Bool.and_eq_true, isContiguous_iff]
    constructor
    · rintro ⟨h0, h⟩ i x hx
      cases i with
      | zero => simp at hx; subst hx; simpa using h0
      | succ i => rw [h i x (by simpa using hx)]; omega
    · intro h
      refine ⟨by simpa using h 0 e rfl, fun i x hx => ?_⟩
      rw [h (i + 1) x (by simpa using hx)]; omega

def new (snapIndex : Nat) (snapTerm : Nat) (entries : List Entry) : Option RaftLog :=
  if h : isContiguous (snapIndex + 1) entries = true then
    some { snapIndex, snapTerm, entries, contiguous := isContiguous_iff.1 h }
  else none

variable {idx : Nat} {l : RaftLog} {e : Entry}

theorem new_contiguous {term : Nat} {es : List Entry} (h : isContiguous (idx + 1) es = true) :
    RaftLog.new idx term es =
      some { snapIndex := idx, snapTerm := term, entries := es, contiguous := isContiguous_iff.1 h } :=
  dif_pos h

theorem new_eq_some {snapIndex snapTerm : Nat} {entries : List Entry} (h : new snapIndex snapTerm entries = some l) :
    l.snapIndex = snapIndex ∧ l.snapTerm = snapTerm ∧ l.entries = entries := by
  unfold new at h
  split at h
  · cases h; exact ⟨rfl, rfl, rfl⟩
  · cases h

def firstIndex (l : RaftLog) : Nat := l.snapIndex + 1

def lastIndex (l : RaftLog) : Nat := l.snapIndex + l.entries.length

def lastTerm (l : RaftLog) : Nat := (l.entries.getLast?.map Entry.term).getD l.snapTerm

/-- `term` (`log.rs:51`): the snapshot boundary's term is remembered, everything below is gone. -/
def term (l : RaftLog) (idx : Nat) : Option Nat :=
  if idx = l.snapIndex then some l.snapTerm
  else if idx < l.snapIndex ∨ idx > l.lastIndex then none
  else (l.entries[idx - l.snapIndex - 1]?).map Entry.term

def get (l : RaftLog) (idx : Nat) : Option Entry :=
  if idx ≤ l.snapIndex ∨ idx > l.lastIndex then none else l.entries[idx - l.snapIndex - 1]?

/-- `slice` (`log.rs:69`): entries in `[from, from + max)`, clamped to the log. The sum is unbounded here; where it
overflows, `slice?` of `RaftKv.Raft.Checked` panics. -/
def slice (l : RaftLog) (start : Nat) (max : Nat) : List Entry :=
  let start := Nat.max start l.firstIndex
  if start > l.lastIndex then [] else (l.entries.drop (start - l.snapIndex - 1)).take max

def push (l : RaftLog) (e : Entry) (h : e.index = l.lastIndex + 1) : RaftLog :=
  { l with
    entries := l.entries ++ [e]
    contiguous := by
      intro i x hx
      rcases Nat.lt_trichotomy i l.entries.length with hi | hi | hi
      · rw [List.getElem?_append_left hi] at hx; exact l.contiguous i x hx
      · rw [List.getElem?_append_right (by omega), hi] at hx
        simp at hx; subst hx; rw [h, lastIndex]; omega
      · rw [List.getElem?_append_right (by omega), List.getElem?_eq_none (by simp; omega)] at hx
        cases hx }

def truncateFrom (l : RaftLog) (idx : Nat) (_h : l.snapIndex < idx) : RaftLog :=
  { l with
    entries := l.entries.take (idx - l.snapIndex - 1)
    contiguous := fun i x hx => l.contiguous i x (by
      rw [List.getElem?_take] at hx; split at hx
      · exact hx
      · cases hx) }

/-- `compact` (`log.rs:94`): drop the entries a snapshot at `(idx, term)` covers. -/
def compact (l : RaftLog) (idx : Nat) (term : Nat) : RaftLog :=
  if h : idx ≤ l.snapIndex then l
  else
    { snapIndex := idx
      snapTerm := term
      entries := l.entries.drop (idx - l.snapIndex)
      contiguous := fun i x hx => by
        rw [List.getElem?_drop] at hx
        have := l.contiguous _ x hx
        omega }

def resetToSnapshot (idx : Nat) (term : Nat) : RaftLog :=
  { snapIndex := idx, snapTerm := term, entries := [], contiguous := by simp }

/-! ## What the accessors see -/

@[simp] theorem entries_push (l : RaftLog) (e : Entry) (h) : (l.push e h).entries = l.entries ++ [e] := rfl
@[simp] theorem snapIndex_push (l : RaftLog) (e : Entry) (h) : (l.push e h).snapIndex = l.snapIndex := rfl
@[simp] theorem lastIndex_push (l : RaftLog) (e : Entry) (h) : (l.push e h).lastIndex = l.lastIndex + 1 := by
  simp [lastIndex, Nat.add_assoc]

@[simp] theorem entries_truncateFrom (l : RaftLog) (idx : Nat) (h) :
    (l.truncateFrom idx h).entries = l.entries.take (idx - l.snapIndex - 1) := rfl

theorem term_of_entry {i : Nat} (h : l.entries[i]? = some e) : l.term (l.snapIndex + 1 + i) = some e.term := by
  have hi := (List.getElem?_eq_some_iff.1 h).1
  have h0 : l.snapIndex + 1 + i - l.snapIndex - 1 = i := by omega
  rw [term, if_neg (by omega), if_neg (by rw [lastIndex]; omega), h0, h]; rfl

theorem get_eq_some : l.get idx = some e ↔ l.snapIndex < idx ∧ l.entries[idx - l.snapIndex - 1]? = some e := by
  unfold get
  split
  · rename_i h
    constructor
    · intro h'; cases h'
    · rintro ⟨h1, h2⟩
      have := (List.getElem?_eq_some_iff.1 h2).1
      rw [lastIndex] at h
      omega
  · exact ⟨fun h' => ⟨by omega, h'⟩, And.right⟩

theorem get_index (h : l.get idx = some e) : e.index = idx := by
  obtain ⟨h1, h2⟩ := get_eq_some.1 h
  rw [l.contiguous _ e h2]; omega

theorem compact_eq (term : Nat) (h : l.snapIndex < idx) :
    (l.compact idx term).snapIndex = idx ∧ (l.compact idx term).snapTerm = term ∧
      (l.compact idx term).entries = l.entries.drop (idx - l.snapIndex) := by
  unfold compact
  rw [dif_neg (Nat.not_le.2 h)]
  exact ⟨rfl, rfl, rfl⟩

theorem lastIndex_compact (term : Nat) (h : l.snapIndex < idx)
    (hle : idx ≤ l.lastIndex) : (l.compact idx term).lastIndex = l.lastIndex := by
  obtain ⟨hsnap, -, hent⟩ := compact_eq term h
  unfold lastIndex at *
  rw [hent, List.length_drop]
  omega

end RaftLog
end RaftKv

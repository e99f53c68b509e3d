import RaftKv.Storage.Compactor
import RaftKv.Storage.Iter
import RaftKv.Storage.RoundTrip

/-!
# What a compaction should write

The reference for the loop of `compact_level` is said without the loop: the sorted union of the
inputs, each version once, and of these the versions newer than the oldest snapshot and for each
key the newest one up to it, unless it is a tombstone at the bottom (`reference`). The loop writes
exactly these (`sift_mergeAll`), in tables that end before the first new key after the target size
(`outputGroups`).

The inputs may have a version several times, and nothing but the way they were written says that
the values are the same. The merge gives the one of the first source first
(`MergeIter.firsts_mergeAll`), and the loop passes over the others, whether it has written the first
one or dropped it (`GcState.sift_distinct`).

| here | there |
| --- | --- |
| `sortedUnion`, `reference` | the comment on `compact_level` (`db.rs:343-348`) |
| `outputGroups` | the outputs with their rotation (`db.rs:427-444`) |
-/

namespace RaftKv.Storage

open Versions List TableBuilder

/-! ## Sifting -/

namespace GcState

variable {minSnap : Nat} {bottom : Bool} {st : GcState} {seen out es : List Entry} {e x : Entry}

/-- The entries of `es` that are written, read from state `st` on. -/
def sift (minSnap : Nat) (bottom : Bool) : GcState → List Entry → List Entry
  | _, [] => []
  | st, e :: es =>
    if (st.step minSnap bottom e).1 then e :: sift minSnap bottom (st.step minSnap bottom e).2 es
    else sift minSnap bottom (st.step minSnap bottom e).2 es

theorem sift_sublist : ∀ (es : List Entry) (st : GcState), List.Sublist (sift minSnap bottom st es) es
  | [], _ => .slnil
  | e :: es, st => by
    unfold sift
    split
    · exact (sift_sublist es _).cons_cons e
    · exact (sift_sublist es _).cons e

theorem After.sift (h : After minSnap bottom st seen out) (hord : (seen ++ es).Pairwise fun a b => ¬ Before b a)
    (hsingle : Single { y | y ∈ seen ++ es }) :
    ∃ st', After minSnap bottom st' (seen ++ es) (out ++ GcState.sift minSnap bottom st es) := by
  induction es generalizing st seen out with
  | nil =>
    rw [append_nil]
    exact ⟨st, by rw [GcState.sift, append_nil]; exact h⟩
  | cons e es ih =>
    rw [append_cons] at hord hsingle ⊢
    obtain ⟨st', h'⟩ := ih (h.step (pairwise_append.1 hord).1 (hsingle.mono fun y hy => mem_append_left _ hy))
      hord hsingle
    refine ⟨st', ?_⟩
    rw [GcState.sift]
    split at h'
    · rename_i hw
      rw [if_pos hw, append_cons out]
      exact h'
    · rename_i hw
      rw [if_neg hw]
      exact h'

/-- Exactly the versions that are to be kept are written. -/
theorem sift_spec (minSnap : Nat) (bottom : Bool) (hord : es.Pairwise fun a b => ¬ Before b a)
    (hsingle : Single { y | y ∈ es }) :
    Sorted (sift minSnap bottom {} es) ∧
      ∀ x, x ∈ sift minSnap bottom {} es ↔ x ∈ kept minSnap (bottom = true) { y | y ∈ es } := by
  have hstart : After minSnap bottom {} [] [] := After.start
  obtain ⟨st', h⟩ := hstart.sift hord hsingle
  exact ⟨h.sorted, h.mem_iff⟩

theorem curKey_step (minSnap : Nat) (bottom : Bool) (st : GcState) (e : Entry) :
    (st.step minSnap bottom e).2.curKey = some e.1 := by
  have hturn : (st.turnTo e.1).curKey = some e.1 := by
    unfold turnTo
    split
    · assumption
    · rfl
  unfold step
  dsimp only
  repeat' split
  all_goals exact hturn

/-- After an entry, it was written last, or there is a baseline that hides it. -/
theorem passed_step (minSnap : Nat) (bottom : Bool) (st : GcState) (e : Entry) :
    (st.step minSnap bottom e).2.lastWritten = some (e.1, e.2.1) ∨
      e.2.1 ≤ minSnap ∧ (st.step minSnap bottom e).2.keptBaseline = true := by
  unfold step
  dsimp only
  split
  · rename_i hdup
    exact .inl hdup
  · split
    · rename_i hm
      split
      · rename_i hb
        exact .inr ⟨hm, hb⟩
      · split
        · exact .inr ⟨hm, rfl⟩
        · exact .inl rfl
    · exact .inl rfl

/-- A second entry with the same version is passed over, whether the first one was written or not. -/
theorem step_again (minSnap : Nat) (bottom : Bool) (st : GcState) (hkey : x.1 = e.1) (hseq : x.2.1 = e.2.1) :
    (st.step minSnap bottom e).2.step minSnap bottom x = (false, (st.step minSnap bottom e).2) := by
  have hpassed := passed_step minSnap bottom st e
  have hcur := curKey_step minSnap bottom st e
  generalize (st.step minSnap bottom e).2 = st' at hpassed hcur
  have hturn : st'.turnTo e.1 = st' := if_pos hcur
  unfold step
  rw [hkey, hseq, hturn]
  by_cases hlast : st'.lastWritten = some (e.1, e.2.1)
  · rw [if_pos hlast]
  · obtain ⟨hm, hb⟩ := hpassed.resolve_left hlast
    rw [if_neg hlast, if_pos hm, if_pos hb]

/-- Of the entries with one version the first one counts. -/
theorem sift_distinct (hord : es.Pairwise fun a b => ¬ Before b a) :
    sift minSnap bottom st (distinct es) = sift minSnap bottom st es := by
  induction es generalizing st with
  | nil => rfl
  | cons e es ih =>
    have hes := (pairwise_cons.1 hord).2
    rcases distinct_cons hord with ⟨x, d, hd, hkey, hseq, hcons⟩ | hcons
    · rw [hcons, sift, sift, ← ih hes, hd]
      conv_rhs => rw [sift, step_again minSnap bottom st hkey hseq]
      rfl
    · rw [hcons, sift, sift, ih hes]

end GcState

namespace Compactor

variable {C : Coding} {p : CompactionSpec} {c c' : Compactor} {cur es : List Entry} {e : Entry} {start : Nat}

/-! ## Cutting into tables -/

/-- The size that the loop counts for these entries. -/
def countedBytes (es : List Entry) : Nat := (es.map fun e => e.1.length + (e.2.2.map List.length).getD 0 + 17).sum

/-- The tables for the entries that follow those of the table `cur`: a table that is large enough ends before a new
key. -/
def cutTables (target : Nat) : List Entry → List Entry → List (List Entry)
  | cur, [] => if cur = [] then [] else [cur]
  | cur, e :: es =>
    if cur ≠ [] ∧ cur.getLast?.map Prod.fst ≠ some e.1 ∧ target ≤ countedBytes cur then cur :: cutTables target [e] es
    else cutTables target (cur ++ [e]) es

section cut
variable {target : Nat} {cur es : List Entry} {e : Entry}

theorem flatten_cutTables (target : Nat) : ∀ (es cur : List Entry), (cutTables target cur es).flatten = cur ++ es
  | [], cur => by
    unfold cutTables
    split
    · rename_i h
      rw [h]
      rfl
    · simp
  | e :: es, cur => by
    unfold cutTables
    split
    · rw [flatten_cons, flatten_cutTables target es]
      rfl
    · rw [flatten_cutTables target es, append_assoc]
      rfl

theorem ne_nil_of_mem_cutTables : ∀ {es cur : List Entry}, ∀ gr ∈ cutTables target cur es, gr ≠ []
  | [], cur, gr, h => by
    unfold cutTables at h
    split at h
    · cases h
    · rename_i hne
      rw [mem_singleton.1 h]
      exact hne
  | e :: es, cur, gr, h => by
    unfold cutTables at h
    split at h
    · rename_i hcut
      rcases mem_cons.1 h with rfl | h
      · exact hcut.1
      · exact ne_nil_of_mem_cutTables gr h
    · exact ne_nil_of_mem_cutTables gr h

/-- The table in progress ends, and the next one is begun when there is an entry for it. -/
theorem cutTables_close (hne : cur ≠ []) (hkey : ∀ e ∈ es.head?, cur.getLast?.map Prod.fst ≠ some e.1)
    (hsize : target ≤ countedBytes cur) : cutTables target cur es = cur :: cutTables target [] es := by
  cases es with
  | nil =>
    unfold cutTables
    rw [if_neg hne, if_pos rfl]
  | cons e es =>
    rw [cutTables, if_pos ⟨hne, hkey e rfl, hsize⟩]
    rfl

theorem cutTables_write (h : cur = [] ∨ cur.getLast?.map Prod.fst = some e.1 ∨ countedBytes cur < target) :
    cutTables target cur (e :: es) = cutTables target (cur ++ [e]) es := by
  rw [cutTables, if_neg]
  rintro ⟨hne, hkey, hsize⟩
  rcases h with h | h | h
  · exact hne h
  · exact hkey h
  · exact absurd hsize (Nat.not_le.2 h)

theorem cutTables_ne_nil (target : Nat) (cur : List Entry) (e : Entry) (es : List Entry) :
    cutTables target cur (e :: es) ≠ [] := by
  intro h
  have hflat := flatten_cutTables target (e :: es) cur
  rw [h] at hflat
  simp at hflat

/-- All keys of the first are below those of the second. -/
def KeysBelow (es es' : List Entry) : Prop := ∀ a ∈ es, ∀ b ∈ es', a.1 < b.1

/-- One key's versions are in one table. -/
theorem keysBelow_cutTables : ∀ {es cur : List Entry}, (cur ++ es).Pairwise (fun a b => a.1 ≤ b.1) →
    (cutTables target cur es).Pairwise KeysBelow
  | [], cur, _ => by
    unfold cutTables
    split
    · exact .nil
    · exact pairwise_singleton _ _
  | e :: es, cur, h => by
    unfold cutTables
    split
    · rename_i hcut
      obtain ⟨hcur, hes, hle⟩ := pairwise_append.1 h
      refine pairwise_cons.2 ⟨fun gr hgr a ha b hb => ?_, keysBelow_cutTables hes⟩
      obtain ⟨ys, y, rfl⟩ := (eq_nil_or_concat' cur).resolve_left hcut.1
      -- the last key of the table is below the next one
      have hlast : y.1 < e.1 := by
        refine lt_of_le_of_ne (hle y (by simp) e (by simp)) fun heq => hcut.2.1 ?_
        rw [getLast?_concat, Option.map_some, heq]
      have hay : a.1 ≤ y.1 := by
        rcases mem_append.1 ha with ha | ha
        · exact (pairwise_append.1 hcur).2.2 a ha y (by simp)
        · rw [mem_singleton.1 ha]
      have hb' : b ∈ e :: es := by
        have hmem := mem_flatten.2 ⟨gr, hgr, hb⟩
        rwa [flatten_cutTables] at hmem
      have heb : e.1 ≤ b.1 := by
        rcases mem_cons.1 hb' with rfl | hb'
        · exact le_rfl
        · exact (pairwise_cons.1 hes).1 b hb'
      exact lt_of_le_of_lt hay (lt_of_lt_of_le hlast heb)
    · rw [append_cons] at h
      exact keysBelow_cutTables h

/-- A table of this size goes on only with versions of its last key. -/
def Closed (target : Nat) (es : List Entry) : Prop :=
  ∀ pre e post, es = pre ++ e :: post → pre ≠ [] → pre.getLast?.map Prod.fst ≠ some e.1 → countedBytes pre < target

theorem closed_singleton (target : Nat) (e : Entry) : Closed target [e] := by
  intro pre x post h hne
  have hnil : pre = [] ∧ x = e ∧ post = [] := by simpa [append_eq_singleton_iff] using h.symm
  exact absurd hnil.1 hne

theorem closed_cutTables : ∀ {es cur : List Entry}, Closed target cur → ∀ gr ∈ cutTables target cur es, Closed target gr
  | [], cur, hcur, gr, h => by
    unfold cutTables at h
    split at h
    · cases h
    · rw [mem_singleton.1 h]
      exact hcur
  | e :: es, cur, hcur, gr, h => by
    unfold cutTables at h
    split at h
    · rcases mem_cons.1 h with rfl | h
      · exact hcur
      · exact closed_cutTables (closed_singleton target e) gr h
    · rename_i hcut
      refine closed_cutTables (fun pre x post hsplit hne hkey => ?_) gr h
      rcases eq_nil_or_concat' post with rfl | ⟨post, y, rfl⟩
      · obtain ⟨rfl, hx⟩ := append_inj' hsplit rfl
        cases hx
        exact Nat.not_le.1 fun hle => hcut ⟨hne, hkey, hle⟩
      · rw [← cons_append, ← append_assoc] at hsplit
        exact hcur pre x post (append_inj' hsplit rfl).1 hne hkey

end cut

/-! ## The loop in three steps -/

variable (C p) in
/-- A table for each group, with the ids from `start` on; the next free id, and whether no length was cut off. -/
def pack : Nat → List (List Entry) → Except Error (List (TableMeta × Bytes) × Nat × Bool)
  | start, [] => .ok ([], start, true)
  | start, gr :: groups => do
    let t ← build C p.blockBytes p.bitsPerKey gr
    let entry : TableMeta :=
      { id := start, minKey := t.minKey, maxKey := t.maxKey, entries := t.entries, bytes := t.bytes }
    let (outputs, nextId, fits) ← pack (start + 1) groups
    .ok ((entry, t.file) :: outputs, nextId, t.fits && fits)

theorem pack_error {err : Error} (h : ∀ es, build C p.blockBytes p.bitsPerKey es = .error err) :
    ∀ {groups : List (List Entry)}, groups ≠ [] → pack C p start groups = .error err
  | [], hne => absurd rfl hne
  | gr :: groups, _ => by
    rw [pack, h]
    rfl

/-- What the loop leaves behind. -/
def result (c : Compactor) : List (TableMeta × Bytes) × Nat × Bool := (c.outputs, c.nextId, c.fits)

/-- Tables after those that are finished. -/
def after (c : Compactor) (r : List (TableMeta × Bytes) × Nat × Bool) : List (TableMeta × Bytes) × Nat × Bool :=
  (c.outputs ++ r.1, r.2.1, c.fits && r.2.2)

/-- The table in progress has the entries `cur` and the id `start`. A key that it does not have was seen only if the
table is not large enough to be finished. -/
structure Filling (C : Coding) (p : CompactionSpec) (c : Compactor) (start : Nat) (cur : List Entry) : Prop where
  builder : c.builder = none ∧ cur = [] ∧ c.nextId = start ∨
    ∃ b, c.builder = some (start, b) ∧ cur ≠ [] ∧ c.nextId = start + 1 ∧
      filled C p.blockBytes p.bitsPerKey cur = .ok b
  size : c.outBytes = countedBytes cur
  lag : cur ≠ [] → cur.getLast?.map Prod.fst = c.gc.curKey ∨ countedBytes cur < p.targetTableBytes
  below : ∀ x ∈ cur, ∃ k, c.gc.curKey = some k ∧ x.1 ≤ k

theorem Filling.close_nil (h : Filling C p c start []) : c.close C = .ok c := by
  unfold Compactor.close
  rcases h.builder with ⟨hb, -⟩ | ⟨_, -, hne, -⟩
  · rw [hb]
  · exact absurd rfl hne

/-- The table in progress is finished as the first of `pack`. -/
theorem Filling.close (h : Filling C p c start cur) (hne : cur ≠ []) :
    (∃ c', c.close C = .ok c' ∧ c'.gc = c.gc ∧ Filling C p { c' with outBytes := 0 } (start + 1) [] ∧
      ∀ groups, (pack C p start (cur :: groups)).map c.after = (pack C p (start + 1) groups).map c'.after) ∨
    ∃ err, c.close C = .error err ∧ ∀ groups, pack C p start (cur :: groups) = .error err := by
  rcases h.builder with ⟨-, hnil, -⟩ | ⟨b, hb, -, hn, hfold⟩
  · exact absurd hnil hne
  have hbuild : build C p.blockBytes p.bitsPerKey cur = b.finish C := by
    unfold build
    rw [hfold]
    rfl
  unfold Compactor.close
  rw [hb]
  cases hf : b.finish C with
  | error err =>
    refine .inr ⟨err, by simp only [hf]; rfl, fun groups => ?_⟩
    rw [pack, hbuild, hf]
    rfl
  | ok t =>
    refine .inl ⟨{ c with
      builder := none
      outputs := c.outputs ++
        [({ id := start, minKey := t.minKey, maxKey := t.maxKey, entries := t.entries, bytes := t.bytes }, t.file)]
      fits := c.fits && t.fits }, by simp only [hf]; rfl, rfl,
        ⟨.inl ⟨rfl, rfl, hn⟩, rfl, fun h => absurd rfl h, by simp⟩, fun groups => ?_⟩
    rw [pack, hbuild, hf]
    cases hp : pack C p (start + 1) groups with
    | error err => rfl
    | ok r =>
      simp only [bind, Except.bind, Except.map, after, append_assoc, singleton_append, Bool.and_assoc]

theorem Filling.begin (h : Filling C p c start cur) :
    c.begin p = (filled C p.blockBytes p.bitsPerKey cur).map fun b => ((start, b), start + 1) := by
  unfold Compactor.begin
  rcases h.builder with ⟨hb, rfl, hn⟩ | ⟨b, hb, -, hn, hfill⟩
  · rw [hb, hn, filled]
    cases create p.blockBytes p.bitsPerKey <;> rfl
  · rw [hb, hn, hfill]
    rfl

/-- If there is no buffer for the entry, no table can be built. -/
theorem Filling.write (h : Filling C p c start cur) (hkey : c.gc.curKey = some e.1) :
    (∃ c', c.write C p e = .ok c' ∧ c'.gc = c.gc ∧ c'.after = c.after ∧ Filling C p c' start (cur ++ [e])) ∨
    ∃ err, c.write C p e = .error err ∧ ∀ es, build C p.blockBytes p.bitsPerKey es = .error err := by
  have hsize : countedBytes (cur ++ [e]) = c.outBytes + (e.1.length + (e.2.2.map List.length).getD 0 + 17) := by
    rw [h.size]
    simp [countedBytes]
  have hlast : (cur ++ [e]).getLast?.map Prod.fst = c.gc.curKey := by
    rw [getLast?_concat, hkey]
    rfl
  have hbelow : ∀ x ∈ cur ++ [e], ∃ k, c.gc.curKey = some k ∧ x.1 ≤ k := by
    intro x hx
    rcases mem_append.1 hx with hx | hx
    · exact h.below x hx
    · rw [mem_singleton.1 hx]
      exact ⟨e.1, hkey, le_rfl⟩
  have hconcat := filled_concat C p.blockBytes p.bitsPerKey cur e
  unfold Compactor.write
  rw [h.begin]
  cases hfill : filled C p.blockBytes p.bitsPerKey cur with
  | error err => exact .inr ⟨err, rfl, build_of_filled_error hfill⟩
  | ok b =>
    obtain ⟨b', hb', -⟩ := add_ok (C := C) b e
    rw [hfill, ok_bind, hb'] at hconcat
    refine .inl ⟨{ c with
      builder := some (start, b')
      nextId := start + 1
      outBytes := c.outBytes + (e.1.length + (e.2.2.map List.length).getD 0 + 17) }, ?_, rfl, rfl,
      .inr ⟨b', rfl, by simp, rfl, hconcat⟩, hsize.symm, fun _ => .inl hlast, hbelow⟩
    show (b.add C e >>= _) = _
    rw [hb']
    rfl

/-- What is written next has another key than the table in progress. -/
theorem Filling.key_ne (h : Filling C p c start cur) {key : Bytes} (hnew : c.gc.curKey ≠ some key)
    (hkey : ∀ k, c.gc.curKey = some k → k ≤ key) (hle : ∀ x ∈ es, key ≤ x.1) :
    ∀ x ∈ es.head?, cur.getLast?.map Prod.fst ≠ some x.1 := by
  intro x hx hlast
  obtain ⟨y, hy, heq⟩ := Option.map_eq_some_iff.1 hlast
  obtain ⟨k, hk, hyk⟩ := h.below y (mem_of_getLast? hy)
  have hlt : k < key := lt_of_le_of_ne (hkey k hk) fun heq' => hnew (hk.trans (congrArg some heq'))
  exact absurd (heq ▸ hle x (mem_of_mem_head? hx)) (not_le.2 (lt_of_le_of_lt hyk hlt))

theorem Filling.rotate (h : Filling C p c start cur) {key : Bytes} (hkey : ∀ k, c.gc.curKey = some k → k ≤ key) :
    (∃ c' start' cur', c.rotate C p key = .ok c' ∧ c'.gc = c.gc ∧ Filling C p c' start' cur' ∧
      (c.gc.curKey = some key ∨ cur' = [] ∨ countedBytes cur' < p.targetTableBytes) ∧
      ∀ rest : List Entry, (∀ x ∈ rest, key ≤ x.1) →
        (pack C p start (cutTables p.targetTableBytes cur rest)).map c.after =
          (pack C p start' (cutTables p.targetTableBytes cur' rest)).map c'.after) ∨
    ∃ err, c.rotate C p key = .error err ∧ ∀ rest : List Entry, (∀ x ∈ rest, key ≤ x.1) →
      pack C p start (cutTables p.targetTableBytes cur rest) = .error err := by
  unfold Compactor.rotate
  split
  · rename_i hrot
    rw [h.size] at hrot
    by_cases hcur : cur = []
    · subst hcur
      rw [h.close_nil]
      exact .inl ⟨{ c with outBytes := 0 }, start, [], rfl, rfl, ⟨h.builder, rfl, h.lag, h.below⟩,
        .inr (.inl rfl), fun _ _ => rfl⟩
    · have hcut : ∀ rest : List Entry, (∀ x ∈ rest, key ≤ x.1) →
          cutTables p.targetTableBytes cur rest = cur :: cutTables p.targetTableBytes [] rest := fun rest hle =>
        cutTables_close hcur (h.key_ne hrot.1 hkey hle) hrot.2
      rcases h.close hcur with ⟨c', hc', hgc, hf, hpack⟩ | ⟨err, herr, hpack⟩
      · rw [hc']
        refine .inl ⟨{ c' with outBytes := 0 }, start + 1, [], rfl, hgc, hf, .inr (.inl rfl), fun rest hle => ?_⟩
        rw [hcut rest hle, hpack]
        rfl
      · rw [herr]
        refine .inr ⟨err, rfl, fun rest hle => ?_⟩
        rw [hcut rest hle, hpack]
  · rename_i hrot
    refine .inl ⟨c, start, cur, rfl, rfl, h, ?_, fun _ _ => rfl⟩
    rw [h.size, not_and_or, not_not, Nat.not_le] at hrot
    exact hrot.imp_right .inr

theorem Filling.step (h : Filling C p c start cur) (hkey : ∀ k, c.gc.curKey = some k → k ≤ e.1) :
    (∃ c' start' cur', c.step C p e = .ok c' ∧ c'.gc = (c.gc.step p.minSnap p.bottom e).2 ∧ Filling C p c' start' cur' ∧
      ∀ rest : List Entry, (∀ x ∈ rest, e.1 ≤ x.1) →
        (pack C p start (cutTables p.targetTableBytes cur
          (if (c.gc.step p.minSnap p.bottom e).1 then e :: rest else rest))).map c.after =
          (pack C p start' (cutTables p.targetTableBytes cur' rest)).map c'.after) ∨
    ∃ err, c.step C p e = .error err ∧ ∀ rest : List Entry, (∀ x ∈ rest, e.1 ≤ x.1) →
      pack C p start (cutTables p.targetTableBytes cur
        (if (c.gc.step p.minSnap p.bottom e).1 then e :: rest else rest)) = .error err := by
  have hfrom : ∀ rest : List Entry, (∀ x ∈ rest, e.1 ≤ x.1) →
      ∀ x ∈ (if (c.gc.step p.minSnap p.bottom e).1 then e :: rest else rest), e.1 ≤ x.1 := by
    intro rest hle x hx
    split at hx
    · rcases mem_cons.1 hx with rfl | hx
      · exact le_rfl
      · exact hle x hx
    · exact hle x hx
  unfold Compactor.step
  rcases h.rotate hkey with ⟨c₁, start₁, cur₁, hc₁, hgc, h₁, hsmall, hpack⟩ | ⟨err, herr, hpack⟩
  · rw [hc₁]
    simp only [bind, Except.bind, hgc]
    have hcur := GcState.curKey_step p.minSnap p.bottom c.gc e
    -- the state of the collection goes on
    have h₂ : Filling C p { c₁ with gc := (c.gc.step p.minSnap p.bottom e).2 } start₁ cur₁ := by
      refine ⟨h₁.builder, h₁.size, fun hne => ?_, fun x hx => ⟨e.1, hcur, ?_⟩⟩
      · rcases hsmall with hsame | hnil | hlt
        · rcases h₁.lag hne with hlast | hlt
          · exact .inl (by rw [hlast, hgc, hsame]; exact hcur.symm)
          · exact .inr hlt
        · exact absurd hnil hne
        · exact .inr hlt
      · obtain ⟨k, hk, hxk⟩ := h₁.below x hx
        exact hxk.trans (hkey k (hgc ▸ hk))
    cases hw : (c.gc.step p.minSnap p.bottom e).1 with
    | false =>
      refine .inl ⟨_, start₁, cur₁, if_neg (by simp), rfl, h₂, fun rest hle => ?_⟩
      rw [if_neg (by simp), hpack rest hle]
      rfl
    | true =>
      simp only [hw] at hfrom
      rcases h₂.write hcur with ⟨c₃, hc₃, hgc₃, hafter, h₃⟩ | ⟨err, herr, hbuild⟩
      swap
      · exact .inr ⟨err, (if_pos rfl).trans herr, fun rest _ => pack_error hbuild (cutTables_ne_nil _ _ e rest)⟩
      refine .inl ⟨c₃, start₁, cur₁ ++ [e], (if_pos rfl).trans hc₃, hgc₃, h₃, fun rest hle => ?_⟩
      have hlast : cur₁ = [] ∨ cur₁.getLast?.map Prod.fst = some e.1 ∨ countedBytes cur₁ < p.targetTableBytes := by
        by_cases hne : cur₁ = []
        · exact .inl hne
        · exact .inr (by rw [← hcur]; exact h₂.lag hne)
      rw [if_pos rfl, hpack (e :: rest) (hfrom rest hle), cutTables_write hlast, hafter]
      rfl
  · rw [herr]
    exact .inr ⟨err, rfl, fun rest hle => hpack _ (hfrom rest hle)⟩

/-- The loop sifts the entries, cuts them into tables and builds the tables. -/
theorem Filling.foldlM (h : Filling C p c start cur) (hord : es.Pairwise fun a b => a.1 ≤ b.1)
    (hcur : ∀ e ∈ es, ∀ k, c.gc.curKey = some k → k ≤ e.1) :
    (es.foldlM (Compactor.step C p) c >>= Compactor.close C).map result =
      (pack C p start (cutTables p.targetTableBytes cur (c.gc.sift p.minSnap p.bottom es))).map c.after := by
  induction es generalizing c start cur with
  | nil =>
    rw [GcState.sift, cutTables]
    show (c.close C).map result = _
    split
    · rename_i hnil
      subst hnil
      rw [h.close_nil]
      rcases h.builder with ⟨-, -, hn⟩ | ⟨_, -, hne, -⟩
      · simp [pack, Except.map, result, Compactor.after, hn]
      · exact absurd rfl hne
    · rename_i hne
      rcases h.close hne with ⟨c', hc', -, hf, hpack⟩ | ⟨err, herr, hpack⟩
      · rw [hc', hpack]
        rcases hf.builder with ⟨-, -, hn⟩ | ⟨_, -, hne, -⟩
        · have hn' : c'.nextId = start + 1 := hn
          simp [pack, Except.map, result, Compactor.after, hn']
        · exact absurd rfl hne
      · rw [herr, hpack]
        rfl
  | cons e es ih =>
    obtain ⟨hle, hord'⟩ := pairwise_cons.1 hord
    have hkeys : ∀ (st : GcState), ∀ x ∈ st.sift p.minSnap p.bottom es, e.1 ≤ x.1 := fun st x hx =>
      hle x ((GcState.sift_sublist es st).subset hx)
    rw [foldlM_cons, GcState.sift]
    rcases h.step (hcur e (by simp)) with ⟨c', start', cur', hc', hgc, h', hpack⟩ | ⟨err, herr, hpack⟩
    · rw [hc']
      have hnext := ih h' hord' fun x hx k hk => by
        rw [hgc, GcState.curKey_step] at hk
        exact Option.some.inj hk ▸ hle x hx
      have hsift := hpack _ (hkeys (c.gc.step p.minSnap p.bottom e).2)
      rw [hgc, ← hsift] at hnext
      exact hnext
    · have hsift := hpack _ (hkeys (c.gc.step p.minSnap p.bottom e).2)
      rw [herr, hsift]
      rfl

/-- **The loop of a compaction**: what a reader can still see, cut into tables, and each table built. -/
theorem run_eq (first : Nat) (hord : es.Pairwise fun a b => a.1 ≤ b.1) :
    (run C p first es).map result =
      pack C p first (cutTables p.targetTableBytes [] (GcState.sift p.minSnap p.bottom {} es)) := by
  have hstart : Filling C p { nextId := first } first [] :=
    ⟨.inl ⟨rfl, rfl, rfl⟩, rfl, fun h => absurd rfl h, by simp⟩
  rw [run, hstart.foldlM hord (fun _ _ k hk => (by cases hk))]
  cases pack C p first (cutTables p.targetTableBytes [] (GcState.sift p.minSnap p.bottom {} es)) with
  | error err => rfl
  | ok r => simp [Except.map, Compactor.after]

theorem pack_spec {groups : List (List Entry)} {r : List (TableMeta × Bytes) × Nat × Bool}
    (h : pack C p start groups = .ok r) :
    List.Forall₂ (fun o gr => ∃ t, build C p.blockBytes p.bitsPerKey gr = .ok t ∧ o.2 = t.file ∧
      o.1 = { id := o.1.id, minKey := t.minKey, maxKey := t.maxKey, entries := t.entries, bytes := t.bytes }) r.1
        groups ∧
    r.1.map (fun o => o.1.id) = List.range' start groups.length ∧ r.2.1 = start + groups.length ∧
    (r.2.2 = true → ∀ es ∈ groups, ∀ t, build C p.blockBytes p.bitsPerKey es = .ok t → t.fits = true) := by
  induction groups generalizing start r with
  | nil =>
    cases h
    exact ⟨.nil, rfl, rfl, fun _ _ hes => (by cases hes)⟩
  | cons gr groups ih =>
    obtain ⟨t, ht, h⟩ := bind_eq_ok h
    obtain ⟨r', hr', h⟩ := bind_eq_ok h
    cases h
    obtain ⟨hout, hids, hnext, hfits⟩ := ih hr'
    refine ⟨.cons ⟨t, ht, rfl, rfl⟩ hout, ?_, ?_, fun hfit es hes t' ht' => ?_⟩
    · rw [map_cons, hids, length_cons, range'_succ]
    · rw [length_cons, hnext]
      omega
    · obtain ⟨hfit, hfit'⟩ := Bool.and_eq_true_iff.1 hfit
      rcases mem_cons.1 hes with rfl | hes
      · rw [ht] at ht'
        cases ht'
        exact hfit
      · exact hfits hfit' es hes t' ht'

theorem pack_ok : ∀ {groups : List (List Entry)} (start : Nat),
    (∀ gr ∈ groups, ∃ t, build C p.blockBytes p.bitsPerKey gr = .ok t) → ∃ r, pack C p start groups = .ok r
  | [], start, _ => ⟨_, rfl⟩
  | gr :: groups, start, h => by
    rw [forall_mem_cons] at h
    obtain ⟨⟨t, ht⟩, hrest⟩ := h
    obtain ⟨r, hr⟩ := pack_ok (start + 1) hrest
    rw [pack, ht, hr]
    exact ⟨_, rfl⟩

theorem pack_limited (start : Nat) (groups : List (List Entry)) : Limited (pack C p start groups) := by
  induction groups generalizing start with
  | nil =>
    exact Limited.ok _
  | cons gr groups ih =>
    exact (build_limited _ _ gr).bind fun t _ => (ih (start + 1)).bind fun r _ => Limited.ok _

end Compactor

/-! ## The reference -/

/-- Each version of the sources once, in order. -/
def sortedUnion (sources : List (List Entry)) : List Entry :=
  (distinct sources.flatten).insertionSort fun a b => ¬ Before b a

/-- Of the union: what is newer than `minSnap`, and of each key the newest version up to it, unless it is a
tombstone with nothing below. -/
def reference (minSnap : Nat) (bottom : Bool) (sources : List (List Entry)) : List Entry :=
  (sortedUnion sources).filter fun e =>
    minSnap < e.2.1 ∨ (∀ x ∈ sortedUnion sources, x.1 = e.1 → x.2.1 ≤ minSnap → x.2.1 ≤ e.2.1) ∧
      ¬ (bottom = true ∧ e.2.2 = none)

section
variable {sources : List (List Entry)} {e : Entry} {minSnap : Nat} {bottom : Bool}

theorem mem_sortedUnion : e ∈ sortedUnion sources ↔ e ∈ firsts sources.flatten := by
  rw [sortedUnion, (perm_insertionSort _ _).mem_iff, mem_distinct]

theorem sortedUnion_sorted (sources : List (List Entry)) : Sorted (sortedUnion sources) := by
  have htotal : Std.Total fun a b : Entry => ¬ Before b a := ⟨fun a b => by
    by_contra h
    rw [not_or, not_not, not_not] at h
    exact h.1.asymm h.2⟩
  have htrans : IsTrans Entry fun a b => ¬ Before b a := ⟨fun a b c hab hbc hca => by
    by_cases hsame : a.1 = b.1 ∧ a.2.1 = b.2.1
    · apply hbc
      unfold Before at hca ⊢
      rwa [← hsame.1, ← hsame.2]
    · exact hbc (hca.trans (before_of_not_before hab hsame))⟩
  refine sorted_of_distinct (pairwise_insertionSort _ _) ?_
  exact (perm_insertionSort _ _).symm.pairwise (pairwise_distinct _) fun h h' => h ⟨h'.1.symm, h'.2.symm⟩

theorem reference_sorted (minSnap : Nat) (bottom : Bool) (sources : List (List Entry)) :
    Sorted (reference minSnap bottom sources) := (sortedUnion_sorted sources).sublist filter_sublist

theorem mem_reference :
    e ∈ reference minSnap bottom sources ↔ e ∈ kept minSnap (bottom = true) (firsts sources.flatten) := by
  unfold reference
  rw [mem_filter, decide_eq_true_eq, mem_sortedUnion]
  refine and_congr Iff.rfl (or_congr Iff.rfl (and_congr ?_ Iff.rfl))
  constructor
  · exact fun h t v hm => h (e.1, t, v) (mem_sortedUnion.2 hm) rfl
  · rintro h ⟨k, t, v⟩ hx rfl
    exact h t v (mem_sortedUnion.1 hx)

/-! ## The loop -/

/-- The loop writes the reference. -/
theorem sift_mergeAll (minSnap : Nat) (bottom : Bool) (hs : ∀ src ∈ sources, Sorted src) :
    GcState.sift minSnap bottom {} (MergeIter.mergeAll sources) = reference minSnap bottom sources := by
  have hs' : ∀ src ∈ sources, src.Pairwise fun a b => ¬ Before b a := fun src h => (hs src h).inOrder
  have hord := MergeIter.mergeAll_sorted hs'
  have hunion : { e | e ∈ distinct (MergeIter.mergeAll sources) } = firsts sources.flatten := by
    rw [← MergeIter.firsts_mergeAll hs']
    exact Set.ext fun _ => mem_distinct
  obtain ⟨hsorted, hmem⟩ := GcState.sift_spec minSnap bottom
    (hord.sublist (distinct_sublist _)) (sorted_distinct hord).single
  rw [hunion] at hmem
  rw [← GcState.sift_distinct hord]
  exact hsorted.ext (reference_sorted minSnap bottom sources) fun e => (hmem e).trans mem_reference.symm

/-- The tables that a compaction of these sources should write. -/
def outputGroups (p : CompactionSpec) (sources : List (List Entry)) : List (List Entry) :=
  Compactor.cutTables p.targetTableBytes [] (reference p.minSnap p.bottom sources)

variable {C : Coding} {p : CompactionSpec}

theorem flatten_outputGroups (p : CompactionSpec) (sources : List (List Entry)) :
    (outputGroups p sources).flatten = reference p.minSnap p.bottom sources := by
  rw [outputGroups, Compactor.flatten_cutTables, nil_append]

theorem sorted_outputGroups (p : CompactionSpec) (sources : List (List Entry)) :
    Sorted (outputGroups p sources).flatten := by
  rw [flatten_outputGroups]
  exact reference_sorted ..

theorem keysBelow_outputGroups (p : CompactionSpec) (sources : List (List Entry)) :
    (outputGroups p sources).Pairwise Compactor.KeysBelow := by
  refine Compactor.keysBelow_cutTables ?_
  rw [nil_append]
  exact (reference_sorted ..).imp Before.key_le

theorem mem_of_outputGroups (h : e ∈ (outputGroups p sources).flatten) : e ∈ sources.flatten := by
  rw [flatten_outputGroups, mem_reference] at h
  exact firsts_subset (kept_subset h)

theorem run_mergeAll (first : Nat) (hs : ∀ src ∈ sources, Sorted src) :
    (Compactor.run C p first (MergeIter.mergeAll sources)).map Compactor.result =
      Compactor.pack C p first (outputGroups p sources) := by
  have hord := MergeIter.mergeAll_sorted fun src h => (hs src h).inOrder
  rw [Compactor.run_eq first (hord.imp fun h => (le_of_not_before h).1), sift_mergeAll _ _ hs]
  rfl

/-- The loop ends with the tables of `pack`. -/
theorem pack_of_run {first : Nat} {c : Compactor} (hs : ∀ src ∈ sources, Sorted src)
    (h : Compactor.run C p first (MergeIter.mergeAll sources) = .ok c) :
    Compactor.pack C p first (outputGroups p sources) = .ok (c.outputs, c.nextId, c.fits) := by
  rw [← run_mergeAll first hs, h]
  rfl

theorem run_limited (first : Nat) (hs : ∀ src ∈ sources, Sorted src) :
    Limited (Compactor.run C p first (MergeIter.mergeAll sources)) := by
  intro err h
  have hpack := run_mergeAll (C := C) (p := p) first hs
  rw [h] at hpack
  exact Compactor.pack_limited _ _ err hpack.symm

theorem run_of_pack {first : Nat} {r : List (TableMeta × Bytes) × Nat × Bool} (hs : ∀ src ∈ sources, Sorted src)
    (h : Compactor.pack C p first (outputGroups p sources) = .ok r) :
    ∃ c, Compactor.run C p first (MergeIter.mergeAll sources) = .ok c := by
  rw [← run_mergeAll first hs] at h
  cases hrun : Compactor.run C p first (MergeIter.mergeAll sources) with
  | ok c => exact ⟨c, rfl⟩
  | error e =>
    rw [hrun] at h
    cases h

end

end RaftKv.Storage

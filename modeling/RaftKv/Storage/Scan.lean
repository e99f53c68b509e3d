import RaftKv.Lib.KvStore
import RaftKv.Storage.Levels

/-!
# Scans

`get_at` walks the memtable and the levels and stops at the first hit; `scan_at` merges everything
and filters. Both give the newest version of a key up to the snapshot (`scan_agrees`): a scan lists
the keys of its range that a read finds, in ascending order and up to its limit. Only, the limit is
looked at after a pair was pushed, so a limit of 0 still gives one pair (`scan_limit_zero`).

| here | there |
| --- | --- |
| `inRange` | the tests of the loop in `scan_at` (`db.rs:245-253`) |
| `Lists` | what a scan without limit should return |
-/

namespace RaftKv.Storage

open Versions Db List

/-! ## The loop -/

section loop
variable {start : Bytes} {stop : Option Bytes} {limit : Nat} {l : List (Bytes × Option Bytes)}
  {out : List (Bytes × Bytes)}

def inRange (start : Bytes) (stop : Option Bytes) (k : Bytes) : Prop := start ≤ k ∧ ∀ e ∈ stop, k < e

instance (start : Bytes) (stop : Option Bytes) (k : Bytes) : Decidable (inRange start stop k) :=
  inferInstanceAs (Decidable (start ≤ k ∧ ∀ e ∈ stop, k < e))

/-- The pairs of the range that are no deletions. -/
def livePairs (start : Bytes) (stop : Option Bytes) (l : List (Bytes × Option Bytes)) : List (Bytes × Bytes) :=
  l.filterMap fun p => if inRange start stop p.1 then p.2.map (p.1, ·) else none

theorem mem_livePairs {k v : Bytes} : (k, v) ∈ livePairs start stop l ↔ inRange start stop k ∧ (k, some v) ∈ l := by
  unfold livePairs
  rw [mem_filterMap]
  constructor
  · rintro ⟨⟨k', v'⟩, hp, heq⟩
    split at heq
    · rename_i hin
      obtain ⟨v'', rfl, hkv⟩ := Option.map_eq_some_iff.1 heq
      cases hkv
      exact ⟨hin, hp⟩
    · cases heq
  · rintro ⟨hin, hp⟩
    exact ⟨(k, some v), hp, by simp [hin]⟩

theorem livePairs_ascending (hl : l.Pairwise fun a b => a.1 < b.1) :
    (livePairs start stop l).Pairwise fun a b => a.1 < b.1 := by
  refine List.Pairwise.filterMap _ ?_ hl
  intro a b hlt a' ha' b' hb'
  split at ha'
  · split at hb'
    · obtain ⟨_, _, rfl⟩ := Option.map_eq_some_iff.1 ha'
      obtain ⟨_, _, rfl⟩ := Option.map_eq_some_iff.1 hb'
      exact hlt
    · cases hb'
  · cases ha'

/-- From the end of the range on, there is nothing. -/
theorem livePairs_eq_nil {k : Bytes} (hk : stop.any (fun e => e ≤ k) = true) (hl : ∀ p ∈ l, k ≤ p.1) :
    livePairs start stop l = [] := by
  unfold livePairs
  rw [filterMap_eq_nil_iff]
  intro p hp
  obtain ⟨e, rfl, he⟩ := (Option.any_eq_true _ _).1 hk
  rw [if_neg]
  rintro ⟨-, hlt⟩
  exact absurd (hlt e rfl) (not_lt.2 ((of_decide_eq_true he).trans (hl p hp)))

/-- The loop stops when the limit is reached, but not before it has pushed one pair. -/
theorem scanLoop_eq (hl : l.Pairwise fun a b => a.1 < b.1) (hout : out = [] ∨ out.length < limit) :
    scanLoop start stop limit out l = out ++ (livePairs start stop l).take (max limit 1 - out.length) := by
  induction l generalizing out with
  | nil => simp [scanLoop, livePairs]
  | cons p l ih =>
    obtain ⟨k, v⟩ := p
    obtain ⟨hlt, hl'⟩ := pairwise_cons.1 hl
    unfold scanLoop
    split
    · rename_i hbelow
      have hskip : livePairs start stop ((k, v) :: l) = livePairs start stop l := by
        have hnot : ¬ inRange start stop k := fun h => absurd h.1 (not_le.2 hbelow)
        simp [livePairs, hnot]
      rw [hskip, ih hl' hout]
    · rename_i hfrom
      split
      · rename_i hend
        rw [livePairs_eq_nil hend, take_nil, append_nil]
        intro q hq
        rcases mem_cons.1 hq with rfl | hq
        · exact le_rfl
        · exact (hlt q hq).le
      · rename_i hbefore
        have hin : inRange start stop k := by
          refine ⟨not_lt.1 hfrom, fun e he => not_le.1 fun hle => hbefore ?_⟩
          rw [Option.mem_def.1 he]
          exact decide_eq_true hle
        cases v with
        | none =>
          have hskip : livePairs start stop ((k, none) :: l) = livePairs start stop l := by simp [livePairs]
          rw [hskip]
          exact ih hl' hout
        | some v =>
          have hcons : livePairs start stop ((k, some v) :: l) = (k, v) :: livePairs start stop l := by
            simp [livePairs, hin]
          have hlen : (out ++ [(k, v)]).length = out.length + 1 := by simp
          have hmax : out.length < max limit 1 := by
            rcases hout with rfl | h
            · simp
            · omega
          obtain ⟨r, hr⟩ : ∃ r, max limit 1 - out.length = r + 1 := ⟨max limit 1 - out.length - 1, by omega⟩
          rw [hcons, hr, take_succ_cons]
          dsimp only
          split
          · have hr0 : r = 0 := by
              rcases hout with rfl | h
              · omega
              · omega
            rw [hr0, take_zero]
          · rw [ih hl' (.inr (by omega)), hlen, show max limit 1 - (out.length + 1) = r by omega, append_assoc]
            rfl

end loop

/-! ## Scans and reads -/

variable {C : Coding} {dir : String} {W : LogRel} {opts : Options} {snaps : OrdMap Nat Nat} {H : Set Entry} {n : Nat}
  {g : Engine} {start : Bytes} {stop : Option Bytes} {s : Nat} {m : OrdMap Bytes Bytes}

/-- The keys of the range that a read at `s` finds, in ascending order. -/
structure Lists (C : Coding) (g : Engine) (start : Bytes) (stop : Option Bytes) (s : Nat) (l : List (Bytes × Bytes)) :
    Prop where
  ascending : l.Pairwise fun a b => a.1 < b.1
  mem_iff : ∀ k v, (k, v) ∈ l ↔ inRange start stop k ∧ Db.getAt C g k s = .ok (some v)

/-- The layers show themselves to every reader. -/
theorem Inv.presents_self (hi : Inv C dir W opts snaps H n g) : Presents 0 (⋃ i, g.layers C i) (g.layers C) :=
  ⟨hi.shows.stacked, Set.Subset.rfl, Agree.refl (hi.single.mono hi.shows.subset)⟩

theorem mem_levels_flatten {t : SsTable} : t ∈ g.db.levels.flatten ↔ ∃ i, t ∈ levelAt g.db.levels i := by
  rw [mem_flatten]
  constructor
  · rintro ⟨l, hl, ht⟩
    obtain ⟨i, hi, rfl⟩ := getElem_of_mem hl
    refine ⟨i, ?_⟩
    unfold levelAt
    rwa [getD_eq_getElem?_getD, getElem?_eq_getElem hi]
  · rintro ⟨i, ht⟩
    by_cases hi : i < g.db.levels.length
    · refine ⟨g.db.levels[i], getElem_mem hi, ?_⟩
      unfold levelAt at ht
      rwa [getD_eq_getElem?_getD, getElem?_eq_getElem hi] at ht
    · rw [levelAt_eq_nil (Nat.not_lt.1 hi)] at ht
      cases ht

/-- A scan merges all the layers. -/
theorem Inv.merged_eq (hi : Inv C dir W opts snaps H n g) :
    ∃ tables, g.db.levels.flatten.mapM (g.disk.iterTable C) = .ok tables ∧ (∀ es ∈ g.db.mem.iter :: tables, Sorted es) ∧
      ∀ e, e ∈ MergeIter.mergeAll (g.db.mem.iter :: tables) ↔ e ∈ ⋃ i, g.layers C i := by
  have hstored : ∀ t ∈ g.db.levels.flatten, g.disk.Stored C dir t := by
    intro t ht
    obtain ⟨i, ht⟩ := mem_levels_flatten.1 ht
    exact hi.catalog.stored i t ht
  refine ⟨g.db.levels.flatten.map (g.disk.entries C), mapM_eq_ok ?_, ?_, fun e => ?_⟩
  · rw [forall₂_map_right_iff, forall₂_same]
    exact fun t ht => (hstored t ht).iterTable_eq
  · intro es hes
    rcases mem_cons.1 hes with rfl | hes
    · exact g.db.mem.iter_sorted
    · obtain ⟨t, ht, rfl⟩ := mem_map.1 hes
      exact (hstored t ht).sorted
  · rw [MergeIter.mem_mergeAll, Set.mem_iUnion]
    constructor
    · rintro ⟨es, hes, he⟩
      rcases mem_cons.1 hes with rfl | hes
      · exact ⟨0, he⟩
      · obtain ⟨t, ht, rfl⟩ := mem_map.1 hes
        obtain ⟨i, ht⟩ := mem_levels_flatten.1 ht
        exact ⟨i + 1, t, ht, he⟩
    · rintro ⟨i, he⟩
      cases i with
      | zero => exact ⟨_, mem_cons_self .., he⟩
      | succ i =>
        obtain ⟨t, ht, he⟩ := mem_layers_succ.1 he
        exact ⟨_, mem_cons_of_mem _ (mem_map.2 ⟨t, mem_levels_flatten.2 ⟨i, ht⟩, rfl⟩), he⟩

/-- A scan lists what the reads find, up to its limit; but one pair in any case. -/
theorem Inv.scanAt_eq (hi : Inv C dir W opts snaps H n g) (start : Bytes) (stop : Option Bytes) (s : Nat) :
    ∃ l, Lists C g start stop s l ∧ ∀ limit, Db.scanAt C g start stop limit s = .ok (l.take (max limit 1)) := by
  obtain ⟨tables, htables, hsorted, hmem⟩ := hi.merged_eq
  have hmerged := MergeIter.mergeAll_sorted fun src h => (hsorted src h).inOrder
  have hvis := visible_ascending s none hmerged (fun c hc => (by cases hc))
  refine ⟨livePairs start stop (visible s none (MergeIter.mergeAll (g.db.mem.iter :: tables))),
    ⟨livePairs_ascending hvis, fun k v => ?_⟩, fun limit => ?_⟩
  · -- both find the newest version
    have hset : { e | e ∈ MergeIter.mergeAll (g.db.mem.iter :: tables) } = ⋃ i, g.layers C i := by
      ext e
      exact hmem e
    have hnew : Newest (⋃ i, g.layers C i) k s (lookup (MergeIter.mergeAll (g.db.mem.iter :: tables)) k s) := by
      rw [← hset]
      refine newest_lookup_of_newFirst (hmerged.imp ?_) k s
      intro a b hab heq
      exact not_lt.1 fun hlt => hab (.inr ⟨heq.symm, hlt⟩)
    rw [mem_livePairs, mem_visible hmerged (fun c hc => (by cases hc)),
      hi.catalog.getAt_eq hi.presents_self (Nat.zero_le s) hnew]
    cases lookup (MergeIter.mergeAll (g.db.mem.iter :: tables)) k s with
    | none => simp [valueOf]
    | some p => simp [valueOf, Prod.ext_iff]
  · unfold Db.scanAt
    rw [htables]
    show Except.ok _ = _
    rw [scanLoop_eq hvis (.inl rfl)]
    rfl

/-! ## The database as a map -/

/-- The newest versions up to `n` are the bindings of the map. -/
def Shows (H : Set Entry) (n : Nat) (m : OrdMap Bytes Bytes) : Prop := ∀ k r, Newest H k n r → valueOf r = m.find? k

/-- One more write. -/
theorem Shows.write (hs : Shows H n m) (hsingle : Single H) (hbound : ∀ e ∈ H, e.2.1 ≤ n) (op : Bytes × Option Bytes) :
    Shows ({(op.1, n + 1, op.2)} ∪ H) (n + 1) (m.write op) := by
  obtain ⟨k₀, v₀⟩ := op
  intro k r hr
  rw [OrdMap.find?_write]
  split
  · rename_i hk
    subst hk
    have hnew : Newest ({(k, n + 1, v₀)} ∪ H) k (n + 1) (some (n + 1, v₀)) :=
      ⟨.inl rfl, le_rfl, fun t' v' _ hle => hle⟩
    have hsingle' : Single ({(k, n + 1, v₀)} ∪ H) :=
      (single_numberFrom_union hsingle (fun e he => Nat.lt_succ_of_le (hbound e he)) [(k, v₀)]).mono fun e he =>
        he.imp_left fun h => mem_singleton.2 h
    rw [hr.unique hsingle' hnew]
    rfl
  · rename_i hk
    -- the other keys keep their versions
    have hold : ∀ t v, (k, t, v) ∈ ({(k₀, n + 1, v₀)} ∪ H : Set Entry) → (k, t, v) ∈ H := by
      rintro t v (h | h)
      · exact absurd (congrArg Prod.fst h) hk
      · exact h
    refine hs k r ?_
    cases r with
    | none =>
      intro t v ht
      have hlt := hr t v (.inr ht)
      exact absurd (hbound _ ht) (by dsimp only; omega)
    | some p =>
      obtain ⟨hmem, -, hmax⟩ := hr
      have hin := hold _ _ hmem
      exact ⟨hin, hbound _ hin, fun t' v' ht' hle => hmax t' v' (.inr ht') (hle.trans (Nat.le_succ n))⟩

theorem Shows.writeBatch (hs : Shows H n m) (hsingle : Single H) (hbound : ∀ e ∈ H, e.2.1 ≤ n)
    (ops : List (Bytes × Option Bytes)) :
    Shows ({ e | e ∈ numberFrom (n + 1) ops } ∪ H) (n + ops.length) (m.writeBatch ops) := by
  induction ops generalizing H n m with
  | nil =>
    rw [show { e | e ∈ numberFrom (n + 1) [] } = { e | e ∈ ([] : List Entry) } from rfl, nil_union]
    exact hs
  | cons op ops ih =>
    have hone : Single ({(op.1, n + 1, op.2)} ∪ H) :=
      (single_numberFrom_union hsingle (fun e he => Nat.lt_succ_of_le (hbound e he)) [op]).mono fun e he =>
        he.imp_left fun h => mem_singleton.2 h
    have hle : ∀ e ∈ ({(op.1, n + 1, op.2)} ∪ H : Set Entry), e.2.1 ≤ n + 1 := by
      rintro e (rfl | he)
      · exact le_rfl
      · exact (hbound e he).trans (Nat.le_succ n)
    have hset : { e | e ∈ numberFrom (n + 1) (op :: ops) } ∪ H =
        { e | e ∈ numberFrom (n + 1 + 1) ops } ∪ ({(op.1, n + 1, op.2)} ∪ H) := by
      ext e
      simp only [numberFrom, mem_cons, Set.mem_union, Set.mem_ofPred_eq]
      tauto
    rw [hset, length_cons, Nat.add_comm ops.length 1, ← Nat.add_assoc]
    exact ih (hs.write hsingle hbound op) hone hle

theorem Inv.getAt_shows (hi : Inv C dir W opts snaps H n g) (hs : Shows H n m) (key : Bytes) :
    Db.getAt C g key g.db.seq = .ok (m.find? key) := by
  obtain ⟨r, hr⟩ := exists_newest H key n
  rw [hi.seq_eq, hi.catalog.getAt_eq hi.shows hi.floor_le hr, hs key r hr]

/-- An open database is some map. -/
theorem Inv.exists_shows (hi : Inv C dir W opts snaps H n g) : ∃ m, Shows H n m := by
  obtain ⟨l, hl, -⟩ := hi.scanAt_eq [] none g.db.seq
  refine ⟨OrdMap.ofList l, fun k r hr => ?_⟩
  have hget : Db.getAt C g k g.db.seq = .ok (valueOf r) := by
    rw [hi.seq_eq]
    exact hi.catalog.getAt_eq hi.shows hi.floor_le hr
  have hmem : ∀ v, (k, v) ∈ l ↔ valueOf r = some v := by
    intro v
    rw [hl.mem_iff, hget]
    have hle : ([] : Bytes) ≤ k := not_lt.1 (not_lt_nil k)
    simp [inRange, hle]
  cases hv : valueOf r with
  | some v =>
    have hfind : (OrdMap.ofList l).find? k = some v := OrdMap.find?_foldl_insert_of_mem hl.ascending ((hmem v).2 hv)
    exact hfind.symm
  | none =>
    refine (OrdMap.find?_foldl_insert_of_not_mem (m := ∅) fun p hp hpk => ?_).symm
    have hp' : (k, p.2) ∈ l := hpk ▸ hp
    rw [(hmem p.2).1 hp'] at hv
    cases hv

/-! ## What a scan returns -/

/-- In every run of which no crash cuts the log within what was flushed, a scan returns the first `limit` pairs of
what the reads find in its range, exactly if the limit is not 0 or there is nothing to find. -/
theorem scan_agrees (C : Coding) (dir : String) {h : Host}
    (hr : Runs (Host.exec C) (fun s a => s.Numberable a ∧ s.KeepsFlushed C a) (Host.new dir) h)
    (hfit : h.engine.fits = true) (hup : h.up = true) (start : Bytes) (stop : Option Bytes) (s : Nat) :
    ∃ l, Lists C h.engine start stop s l ∧
      ∀ limit, Db.scanAt C h.engine start stop limit s = .ok (l.take limit) ↔ (limit = 0 → l = []) := by
  obtain ⟨opts, H, n, -, hi⟩ := (Host.intact_of_runs hr hfit).opened hup
  obtain ⟨l, hl, hscan⟩ := hi.scanAt_eq start stop s
  refine ⟨l, hl, fun limit => ?_⟩
  rw [hscan]
  cases limit with
  | zero => simp [take_eq_nil_iff]
  | succ k => simp

/-- A key is overwritten, another deleted, over a table and the memtable. -/
theorem scan_agrees_run :
    ∃ h, Runs (Host.exec Coding.plain) (fun s a => s.Numberable a ∧ s.KeepsFlushed Coding.plain a) (Host.new "db") h ∧
      h.up = true ∧ ∃ l, Lists Coding.plain h.engine [1] (some [9]) 5 l ∧ l ≠ [] ∧
        Db.scanAt Coding.plain h.engine [1] (some [9]) 2 5 = .ok (l.take 2) := by
  obtain ⟨h, hr, hfit, hup, hget⟩ := Runs.reached (Host.exec Coding.plain)
    (fun s a => s.Numberable a ∧ s.KeepsFlushed Coding.plain a) (Host.new "db")
    [.start {} 9, .call (.writeBatch [([1], some [10]), ([2], some [20]), ([3], some [30])] 9), .call .flush,
      .call (.writeBatch [([1], some [11]), ([2], none)] 9)]
    (P := fun h => h.engine.fits = true ∧ h.up = true ∧ Db.getAt Coding.plain h.engine [3] 5 = .ok (some [30]))
      (by decide +kernel)
  obtain ⟨l, hl, hscan⟩ := scan_agrees Coding.plain "db" hr hfit hup [1] (some [9]) 5
  refine ⟨h, hr, hup, l, hl, ?_, (hscan 2).2 fun h0 => (by cases h0)⟩
  have hmem := (hl.mem_iff [3] [30]).2 ⟨by decide, hget⟩
  exact ne_nil_of_mem hmem

/-- With a limit of 0 a scan returns a pair. -/
theorem scan_limit_zero :
    ∃ h, Runs (Host.exec Coding.plain) (fun s a => s.Numberable a ∧ s.KeepsFlushed Coding.plain a) (Host.new "db") h ∧
      h.engine.fits = true ∧ h.up = true ∧ Db.scanAt Coding.plain h.engine [] none 0 1 = .ok [([1], [10])] :=
  Runs.reached (Host.exec Coding.plain) (fun s a => s.Numberable a ∧ s.KeepsFlushed Coding.plain a) (Host.new "db")
    [.start {} 9, .call (.writeBatch [([1], some [10])] 9)]
    (P := fun h => h.engine.fits = true ∧ h.up = true ∧ Db.scanAt Coding.plain h.engine [] none 0 1 = .ok [([1], [10])])
    (by decide +kernel)

end RaftKv.Storage

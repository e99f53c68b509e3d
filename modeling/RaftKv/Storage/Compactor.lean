import RaftKv.Storage.TableExact

/-!
# The loop of a compaction

`compact_level` goes once through the merged entries of its inputs. For each entry it decides
whether a reader can still see it (`GcState`), and writes it to the table in progress if so; a new
table is begun at a new key when the last one is large enough (`Compactor`).

| here | there |
| --- | --- |
| `GcState`, `GcState.step` | `cur_key`, `kept_baseline`, `last_written` and the branches on them (`db.rs:419-457`) |
| `Compactor.close` | `builder.take()` and `finish` (`db.rs:432`, `db.rs:472`) |
| `Compactor.write` | `db.rs:459-470` |
| `Compactor.run` | the loop and what follows it (`db.rs:423-482`) |

The files of the outputs are returned with their catalog entries; the caller writes them.
-/

namespace RaftKv.Storage

open Versions List

/-! ## Which versions are kept -/

structure GcState where
  curKey : Option Bytes := none
  keptBaseline : Bool := false
  lastWritten : Option (Bytes × Nat) := none

namespace GcState

/-- A new key starts without a baseline. -/
def turnTo (st : GcState) (key : Bytes) : GcState :=
  if st.curKey = some key then st else { st with curKey := some key, keptBaseline := false }

/-- Whether the entry is written, and the state after it. -/
def step (minSnap : Nat) (bottom : Bool) (st : GcState) (e : Entry) : Bool × GcState :=
  let st := st.turnTo e.1
  -- an identical version was written just before
  if st.lastWritten = some (e.1, e.2.1) then (false, st)
  else if e.2.1 ≤ minSnap then
    -- shadowed below every live snapshot
    if st.keptBaseline then (false, st)
    else
      let st := { st with keptBaseline := true }
      -- a tombstone at the bottom is gone for good
      if e.2.2 = none ∧ bottom then (false, st) else (true, { st with lastWritten := some (e.1, e.2.1) })
  else (true, { st with lastWritten := some (e.1, e.2.1) })

end GcState

/-! ## Grouping into tables -/

/-- The parts of the options that the loop uses, and the two decisions made before it. -/
structure CompactionSpec where
  blockBytes : Nat
  bitsPerKey : Nat
  targetTableBytes : Nat
  minSnap : Nat
  bottom : Bool

structure Compactor where
  gc : GcState := {}
  /-- The table in progress and its id. -/
  builder : Option (Nat × TableBuilder) := none
  outBytes : Nat := 0
  nextId : Nat
  outputs : List (TableMeta × Bytes) := []
  /-- No length was cut off in the finished tables. -/
  fits : Bool := true

namespace Compactor

variable (C : Coding) (p : CompactionSpec)

/-- Finish the table in progress. -/
def close (c : Compactor) : Except Error Compactor :=
  match c.builder with
  | none => .ok c
  | some (id, b) => do
    let t ← b.finish C
    let entry : TableMeta := { id, minKey := t.minKey, maxKey := t.maxKey, entries := t.entries, bytes := t.bytes }
    .ok { c with builder := none, outputs := c.outputs ++ [(entry, t.file)], fits := c.fits && t.fits }

/-- At a new key, a table that is large enough is finished. -/
def rotate (c : Compactor) (key : Bytes) : Except Error Compactor :=
  if c.gc.curKey ≠ some key ∧ p.targetTableBytes ≤ c.outBytes then do
    let c ← c.close C
    .ok { c with outBytes := 0 }
  else .ok c

/-- The table in progress or a new one, with its id, and the next free id. -/
def begin (c : Compactor) : Except Error ((Nat × TableBuilder) × Nat) :=
  match c.builder with
  | some r => .ok (r, c.nextId)
  | none => do
    let b ← TableBuilder.create p.blockBytes p.bitsPerKey
    .ok ((c.nextId, b), c.nextId + 1)

def write (c : Compactor) (e : Entry) : Except Error Compactor := do
  let ((id, b), nextId) ← c.begin p
  let b ← b.add C e
  .ok { c with
    builder := some (id, b)
    nextId
    outBytes := c.outBytes + (e.1.length + (e.2.2.map List.length).getD 0 + 17) }

def step (c : Compactor) (e : Entry) : Except Error Compactor := do
  let c ← c.rotate C p e.1
  let r := c.gc.step p.minSnap p.bottom e
  let c := { c with gc := r.2 }
  if r.1 then c.write C p e else .ok c

/-- The outputs for the merged entries `es`, with the next free id. -/
def run (nextId : Nat) (es : List Entry) : Except Error Compactor :=
  es.foldlM (step C p) { nextId } >>= close C

end Compactor

/-! ## What the garbage collection keeps -/

namespace GcState

/-- The state after `seen` was read and `out` written. -/
structure After (minSnap : Nat) (bottom : Bool) (st : GcState) (seen out : List Entry) : Prop where
  cur_eq : st.curKey = seen.getLast?.map Prod.fst
  baseline : st.keptBaseline = true ↔ ∃ x ∈ seen, some x.1 = st.curKey ∧ x.2.1 ≤ minSnap
  last_eq : st.lastWritten = out.getLast?.map fun x => (x.1, x.2.1)
  sorted : Sorted out
  mem_iff : ∀ x, x ∈ out ↔ x ∈ kept minSnap (bottom = true) { x | x ∈ seen }

variable {minSnap : Nat} {bottom : Bool} {st : GcState} {seen out : List Entry} {e x : Entry}

theorem After.start : After minSnap bottom {} [] [] := by
  refine ⟨rfl, by simp, rfl, List.Pairwise.nil, fun x => ?_⟩
  simp [kept]

/-- At a key that is new, no version of it was seen. -/
theorem After.key_ne (h : After minSnap bottom st seen out) (hord : (seen ++ [e]).Pairwise fun a b => ¬ Before b a)
    (hcur : st.curKey ≠ some e.1) : ∀ x ∈ seen, x.1 ≠ e.1 := by
  intro x hx hkey
  obtain ⟨hseen, -, hlast⟩ := pairwise_append.1 hord
  -- the last key seen lies between the two
  obtain ⟨ys, y, rfl⟩ := (eq_nil_or_concat' seen).resolve_left (ne_nil_of_mem hx)
  have hye : y.1 ≤ e.1 := (le_of_not_before (hlast y (by simp) e (by simp))).1
  have hxy : x.1 ≤ y.1 := by
    rcases mem_append.1 hx with hx | hx
    · exact (le_of_not_before ((pairwise_append.1 hseen).2.2 x hx y (by simp))).1
    · rw [mem_singleton.1 hx]
  apply hcur
  rw [h.cur_eq, getLast?_concat, Option.map_some, le_antisymm hye (hkey ▸ hxy)]

theorem After.baseline_turnTo (h : After minSnap bottom st seen out)
    (hord : (seen ++ [e]).Pairwise fun a b => ¬ Before b a) :
    (st.turnTo e.1).curKey = some e.1 ∧
      ((st.turnTo e.1).keptBaseline = true ↔ ∃ x ∈ seen, x.1 = e.1 ∧ x.2.1 ≤ minSnap) := by
  unfold turnTo
  by_cases hcur : st.curKey = some e.1
  · rw [if_pos hcur]
    refine ⟨hcur, h.baseline.trans ?_⟩
    rw [hcur]
    simp only [Option.some.injEq]
  · rw [if_neg hcur]
    refine ⟨rfl, fun hf => (by cases hf), ?_⟩
    rintro ⟨x, hx, hkey, -⟩
    exact absurd hkey (h.key_ne hord hcur x hx)

/-- What was seen before is kept as before. -/
theorem kept_concat_of_mem (hord : ∀ y ∈ seen, ¬ Before e y) (hx : x ∈ seen) :
    x ∈ kept minSnap (bottom = true) { y | y ∈ seen ++ [e] } ↔ x ∈ kept minSnap (bottom = true) { y | y ∈ seen } := by
  have hmax : (∀ t v, (x.1, t, v) ∈ seen ++ [e] → t ≤ minSnap → t ≤ x.2.1) ↔
      ∀ t v, (x.1, t, v) ∈ seen → t ≤ minSnap → t ≤ x.2.1 := by
    constructor
    · exact fun h t v hm => h t v (mem_append_left _ hm)
    · intro h t v hm ht
      rcases mem_append.1 hm with hm | hm
      · exact h t v hm ht
      · rw [← mem_singleton.1 hm] at hord
        exact (le_of_not_before (hord x hx)).2 rfl
  exact and_congr (iff_of_true (mem_append_left _ hx) hx) (or_congr Iff.rfl (and_congr hmax Iff.rfl))

/-- A version that is read again changes nothing. -/
theorem kept_concat_seen (he : e ∈ seen) :
    kept minSnap (bottom = true) { y | y ∈ seen ++ [e] } = kept minSnap (bottom = true) { y | y ∈ seen } := by
  congr 1
  ext y
  simp only [Set.mem_ofPred_eq, mem_append, mem_singleton, or_iff_left_iff_imp]
  rintro rfl
  exact he

/-- The output after `e`, if `e` is written exactly when it is to be kept. -/
theorem After.mem_concat (h : After minSnap bottom st seen out) (hord : ∀ y ∈ seen, ¬ Before e y) {w : Bool}
    (hw : e ∉ seen → (w = true ↔ e ∈ kept minSnap (bottom = true) { y | y ∈ seen ++ [e] }))
    (hw' : e ∈ seen → w = false) :
    ∀ x, x ∈ (if w then out ++ [e] else out) ↔ x ∈ kept minSnap (bottom = true) { y | y ∈ seen ++ [e] } := by
  intro x
  by_cases he : e ∈ seen
  · rw [hw' he, kept_concat_seen he]
    exact h.mem_iff x
  · by_cases hxe : x = e
    · subst hxe
      rw [← hw he]
      have hout : x ∉ out := fun hx => he (kept_subset ((h.mem_iff x).1 hx))
      cases w <;> simp [hout]
    · have hx : x ∈ (if w then out ++ [e] else out) ↔ x ∈ out := by
        cases w <;> simp [hxe]
      rw [hx, h.mem_iff]
      by_cases hxs : x ∈ seen
      · exact (kept_concat_of_mem hord hxs).symm
      · constructor
        · exact fun hk => absurd (kept_subset hk) hxs
        · intro hk
          have hmem : x ∈ seen ++ [e] := kept_subset hk
          rcases mem_append.1 hmem with hm | hm
          · exact absurd hm hxs
          · exact absurd (mem_singleton.1 hm) hxe

/-- A version of `e`'s key that was written comes before `e`, unless it is `e` itself and was written last. -/
theorem After.before_of_mem (h : After minSnap bottom st seen out) (hord : ∀ y ∈ seen, ¬ Before e y)
    (hsame : ∀ y ∈ seen, y.1 = e.1 → y.2.1 = e.2.1 → y = e) (hne : st.lastWritten ≠ some (e.1, e.2.1)) :
    ∀ z ∈ out, Before z e := by
  intro z hz
  have hseen : ∀ y ∈ out, y ∈ seen := fun y hy => kept_subset ((h.mem_iff y).1 hy)
  obtain ⟨hkey, hseq⟩ := le_of_not_before (hord z (hseen z hz))
  rcases lt_or_eq_of_le hkey with hlt | heq
  · exact .inl hlt
  · rcases Nat.lt_or_eq_of_le (hseq heq) with hlt | heq'
    · exact .inr ⟨heq, hlt⟩
    · exfalso
      obtain rfl := hsame z (hseen z hz) heq heq'.symm
      obtain ⟨ys, y, rfl⟩ := (eq_nil_or_concat' out).resolve_left (ne_nil_of_mem hz)
      rcases mem_append.1 hz with hz | hz
      · exact hord y (hseen y (by simp)) (h.sorted.of_append.2.2 z hz y (by simp))
      · rw [h.last_eq, getLast?_concat, mem_singleton.1 hz] at hne
        exact hne rfl

theorem After.step (h : After minSnap bottom st seen out) (hord : (seen ++ [e]).Pairwise fun a b => ¬ Before b a)
    (hsingle : Single { y | y ∈ seen ++ [e] }) :
    After minSnap bottom (st.step minSnap bottom e).2 (seen ++ [e])
      (if (st.step minSnap bottom e).1 then out ++ [e] else out) := by
  obtain ⟨hcur, hbase⟩ := h.baseline_turnTo hord
  have hle : ∀ y ∈ seen, ¬ Before e y := fun y hy => (pairwise_append.1 hord).2.2 y hy e (by simp)
  have hsame : ∀ y ∈ seen, y.1 = e.1 → y.2.1 = e.2.1 → y = e := by
    rintro ⟨k, t, v⟩ hy rfl rfl
    rw [hsingle (mem_append_left _ hy) (mem_append_right _ (mem_singleton.2 rfl) : e ∈ seen ++ [e])]
  have hlast : (st.turnTo e.1).lastWritten = st.lastWritten := by
    unfold turnTo
    split <;> rfl
  have hcur' : some e.1 = (seen ++ [e]).getLast?.map Prod.fst := by simp
  -- a baseline is there if `e` is one, or if there was one
  have hbase' : (∃ y ∈ seen ++ [e], some y.1 = some e.1 ∧ y.2.1 ≤ minSnap) ↔
      (∃ y ∈ seen, y.1 = e.1 ∧ y.2.1 ≤ minSnap) ∨ e.2.1 ≤ minSnap := by
    simp
  unfold GcState.step
  by_cases hdup : (st.turnTo e.1).lastWritten = some (e.1, e.2.1)
  · -- `e` was written already
    rw [if_pos hdup]
    have he : e ∈ seen := by
      rw [hlast, h.last_eq] at hdup
      obtain ⟨z, hz, heq⟩ := Option.map_eq_some_iff.1 hdup
      have hz' : z ∈ seen := kept_subset ((h.mem_iff z).1 (mem_of_getLast? hz))
      obtain ⟨hkey, hseq⟩ := Prod.mk.inj heq
      rw [← hsame z hz' hkey hseq]
      exact hz'
    refine ⟨hcur.trans hcur', ?_, hlast.trans h.last_eq, h.sorted,
      h.mem_concat hle (fun hne => absurd he hne) fun _ => rfl⟩
    rw [hbase, hcur, hbase', or_iff_left_of_imp]
    exact fun hm => ⟨e, he, rfl, hm⟩
  · rw [if_neg hdup]
    rw [hlast] at hdup
    have hbefore := h.before_of_mem hle hsame hdup
    have hsorted : Sorted (out ++ [e]) :=
      pairwise_append.2 ⟨h.sorted, pairwise_singleton _ _, fun z hz y hy =>
        mem_singleton.1 hy ▸ hbefore z hz⟩
    by_cases hm : e.2.1 ≤ minSnap
    · rw [if_pos hm]
      by_cases hb : (st.turnTo e.1).keptBaseline = true
      · -- hidden by the baseline
        rw [if_pos hb]
        obtain ⟨x, hx, hkey, hxm⟩ := hbase.1 hb
        refine ⟨hcur.trans hcur', ?_, hlast.trans h.last_eq, h.sorted, h.mem_concat hle (fun hne => ?_) fun _ => rfl⟩
        · rw [hbase, hcur, hbase', or_iff_left_of_imp]
          exact fun _ => ⟨x, hx, hkey, hxm⟩
        · constructor
          · exact fun hf => nomatch hf
          · rintro ⟨-, hlt | ⟨hmax, -⟩⟩
            · exact absurd hm (not_le.2 hlt)
            · obtain ⟨k, t, v⟩ := x
              obtain rfl := hkey
              have h₁ := hmax t v (mem_append_left _ hx) hxm
              have h₂ := (le_of_not_before (hle _ hx)).2 rfl
              exact absurd (hsame _ hx rfl (le_antisymm h₁ h₂) ▸ hx) hne
      · rw [if_neg hb]
        have hnone : ∀ y ∈ seen, y.1 = e.1 → minSnap < y.2.1 := fun y hy hkey =>
          not_le.1 fun hym => hb (hbase.2 ⟨y, hy, hkey, hym⟩)
        have hne : e ∉ seen := fun he => absurd hm (not_le.2 (hnone e he rfl))
        have hkept : e ∈ kept minSnap (bottom = true) { y | y ∈ seen ++ [e] } ↔ ¬ (e.2.2 = none ∧ bottom = true) := by
          constructor
          · rintro ⟨-, hlt | ⟨-, hnot⟩⟩
            · exact absurd hm (not_le.2 hlt)
            · exact fun hd => hnot hd.symm
          · refine fun hd => ⟨mem_append_right _ (mem_singleton.2 rfl), .inr ⟨?_, fun hd' => hd hd'.symm⟩⟩
            intro t v hv ht
            rcases mem_append.1 hv with hv | hv
            · exact absurd ht (not_le.2 (hnone _ hv rfl))
            · rw [← mem_singleton.1 hv]
        by_cases hd : e.2.2 = none ∧ bottom = true
        · rw [if_pos hd]
          refine ⟨hcur.trans hcur', ?_, hlast.trans h.last_eq, h.sorted, h.mem_concat hle (fun _ => ?_) fun _ => rfl⟩
          · rw [hcur]
            simp [hm]
          · rw [hkept]
            simp [hd]
        · rw [if_neg hd]
          refine ⟨hcur.trans hcur', ?_, ?_, hsorted, h.mem_concat hle (fun _ => ?_) fun he => absurd he hne⟩
          · rw [hcur]
            simp [hm]
          · simp
          · rw [hkept]
            simp [hd]
    · -- newer than every reader's bound
      rw [if_neg hm]
      -- it would have been written
      have hne : e ∉ seen := fun he =>
        Before.irrefl e (hbefore e ((h.mem_iff e).2 ⟨he, .inl (not_le.1 hm)⟩))
      refine ⟨hcur.trans hcur', ?_, ?_, hsorted, h.mem_concat hle (fun _ => ?_) fun he => absurd he hne⟩
      · rw [hbase, hcur, hbase', or_iff_left_of_imp]
        exact fun hm' => absurd hm' hm
      · simp
      · refine iff_of_true rfl ⟨mem_append_right _ (mem_singleton.2 rfl), .inl (not_le.1 hm)⟩

end GcState

end RaftKv.Storage

import RaftKv.Lib.Regroup
import RaftKv.Storage.Preserve
import RaftKv.Storage.Shelves

/-!
# Compactions within limits

Every turn of `maybe_compact` makes the levels lighter, so the loop ends. That it ends without an
overflow in `level_limit` takes more. A compaction regroups the stored entries: some tables stay, the
others are made of entries that were there, and no entry is used twice (`Swapped.regroups`). So no
level ever has more bytes than some regrouping of what was there at the beginning. A level that is
over its limit has more bytes than that, and if the multiplier times the bytes of any regrouping
fits `u64` (`Roomy`), so does the limit of the level that is added below it.

The levels that were there before are another matter. They are never given up, and the manifest
keeps them, so a database that is opened with a greater multiplier may have levels whose limits do
not fit, even if they are empty (`limit_overflows`).

| here | there |
| --- | --- |
| `Engine.lots`  | the tables of `manifest.levels`, with their `bytes` (`manifest.rs:19-25`) |
| `Settles`      | `maybe_compact` (`db.rs:323-341`) |
| `Db.LimitsFit` | `level_limit` for `1..self.levels.len()` (`db.rs:319-321`, `db.rs:330`) |
-/

namespace RaftKv.Storage

open Versions Db List

variable {C : Coding} {dir : String} {g g' : Engine} {d d' : Disk} {level : Nat} {inp : Inputs} {c : Compactor}
  {tables : List SsTable} {minK maxK : Bytes} {m : Manifest}

/-! ## The stored entries -/

/-- The entries of the table with this id. -/
def Disk.held (C : Coding) (dir : String) (d : Disk) (id : Nat) : List Entry :=
  match d.openTable C dir id with
  | .ok t => d.entries C t
  | .error _ => []

theorem Disk.Stored.held_eq {t : SsTable} (h : d.Stored C dir t) : d.held C dir t.id = d.entries C t := by
  unfold Disk.held
  rw [h.openTable_eq]

/-- The tables of the manifest, with their entries and the sizes that are written there. -/
def Engine.lots (C : Coding) (g : Engine) : List (List Entry × Nat) :=
  g.db.manifest.levels.flatten.map fun tm => (g.disk.held C g.db.dir tm.id, tm.bytes)

/-- A table that can be built now. -/
def Made (C : Coding) (opts : Options) (lot : List Entry × Nat) : Prop :=
  lot.1 ≠ [] ∧ Sorted lot.1 ∧ ∃ t, TableBuilder.build C opts.blockBytes opts.bitsPerKey lot.1 = .ok t ∧ lot.2 = t.bytes

variable {α : Type}

theorem mem_flatten_iff {levels : List (List α)} {a : α} : a ∈ levels.flatten ↔ ∃ i, a ∈ levelAt levels i := by
  rw [mem_flatten]
  constructor
  · rintro ⟨l, hl, ha⟩
    obtain ⟨i, hi, rfl⟩ := getElem_of_mem hl
    refine ⟨i, ?_⟩
    unfold levelAt
    rw [getD_eq_getElem?_getD, getElem?_eq_getElem hi]
    exact ha
  · rintro ⟨i, ha⟩
    by_cases hi : i < levels.length
    · unfold levelAt at ha
      rw [getD_eq_getElem?_getD, getElem?_eq_getElem hi] at ha
      exact ⟨levels[i], getElem_mem hi, ha⟩
    · rw [levelAt_eq_nil (not_lt.1 hi)] at ha
      cases ha

/-- Two parts of two lists, and what is left of them. -/
theorem perm_parts {a a₁ a₂ b b₁ b₂ : List α} (ha : (a₁ ++ a₂).Perm a) (hb : (b₁ ++ b₂).Perm b) (l : List α) :
    (a ++ (b ++ l)).Perm (a₁ ++ b₁ ++ (a₂ ++ b₂ ++ l)) := by
  have hmid : (a₂ ++ (b₁ ++ (b₂ ++ l))).Perm (b₁ ++ (a₂ ++ (b₂ ++ l))) := by
    rw [← append_assoc a₂, ← append_assoc b₁]
    exact perm_append_comm.append_right (b₂ ++ l)
  calc (a ++ (b ++ l)).Perm (a₁ ++ a₂ ++ (b₁ ++ b₂ ++ l)) := ha.symm.append (hb.symm.append_right l)
    _ = a₁ ++ (a₂ ++ (b₁ ++ (b₂ ++ l))) := by simp only [append_assoc]
    List.Perm _ (a₁ ++ (b₁ ++ (a₂ ++ (b₂ ++ l)))) := hmid.append_left a₁
    _ = a₁ ++ b₁ ++ (a₂ ++ b₂ ++ l) := by simp only [append_assoc]

/-- The swap takes the inputs away and adds the outputs. -/
theorem flatten_swapLevels (id : α → Nat) (minKey : α → Bytes) (inp : Inputs) (outputs : List α) :
    ∀ (level : Nat) (levels : List (List α)), level + 1 < levels.length →
      ∃ rest, levels.flatten.Perm (((levelAt levels level).filter fun t => id t ∈ inp.srcIds) ++
          ((levelAt levels (level + 1)).filter fun t => id t ∈ inp.dstIds) ++ rest) ∧
        (swapLevels id minKey level inp outputs levels).flatten.Perm (outputs ++ rest)
  | 0, a :: b :: levels, _ => by
    refine ⟨(a.filter fun t => id t ∉ inp.srcIds) ++ (b.filter fun t => id t ∉ inp.dstIds) ++ levels.flatten, ?_, ?_⟩
    · simp only [decide_not]
      exact perm_parts (filter_append_perm _ a) (filter_append_perm _ b) levels.flatten
    · have hsort := perm_insertionSort (fun a b => minKey a ≤ minKey b)
        (b.filter (fun t => id t ∉ inp.dstIds) ++ outputs)
      have hswap := perm_parts (.refl ([] ++ a.filter fun t => id t ∉ inp.srcIds)) (perm_append_comm.trans hsort.symm)
        levels.flatten
      exact hswap
  | level + 1, a :: levels, h => by
    obtain ⟨rest, hold, hnew⟩ := flatten_swapLevels id minKey inp outputs level levels (by simpa using h)
    have hmove : ∀ l : List α, (a ++ (l ++ rest)).Perm (l ++ (a ++ rest)) := fun l =>
      (append_assoc ..).symm ▸ (append_assoc l a rest) ▸ perm_append_comm.append_right rest
    exact ⟨a ++ rest, (hold.append_left a).trans (hmove _), (hnew.append_left a).trans (hmove _)⟩

theorem flatten_padLevels (n : Nat) (levels : List (List α)) : (padLevels n levels).flatten = levels.flatten := by
  unfold padLevels
  rw [flatten_append, flatten_replicate_nil, append_nil]

/-- A table of the manifest is in memory. -/
theorem Engine.Filed.exists_table (hc : g.Filed C) {tm : TableMeta} (h : tm ∈ g.db.manifest.levels.flatten) :
    ∃ i, ∃ t ∈ levelAt g.db.levels i, t.id = tm.id := by
  obtain ⟨i, hi⟩ := mem_flatten_iff.1 h
  have hid : tm.id ∈ (levelAt g.db.manifest.levels i).map TableMeta.id := mem_map.2 ⟨tm, hi, rfl⟩
  rw [show (levelAt g.db.manifest.levels i).map TableMeta.id = _ from Catalog.map_id hc i] at hid
  obtain ⟨t, ht, heq⟩ := mem_map.1 hid
  exact ⟨i, t, ht, heq⟩

/-- The inputs have the same ids in the manifest and in memory. -/
theorem Catalog.map_id_filter {levels : List (List SsTable)} (hc : Catalog C dir d levels m) (i : Nat)
    (ids : List Nat) :
    ((levelAt m.levels i).filter fun t => t.id ∈ ids).map TableMeta.id =
      ((levelAt levels i).filter fun t => t.id ∈ ids).map SsTable.id := by
  have h₁ := filter_map (f := TableMeta.id) (p := fun i => decide (i ∈ ids)) (l := levelAt m.levels i)
  have h₂ := filter_map (f := SsTable.id) (p := fun i => decide (i ∈ ids)) (l := levelAt levels i)
  rw [hc.map_id] at h₁
  exact h₁.symm.trans h₂

/-- The inputs have the entries that are merged. -/
theorem held_inputs (hc : g.Filed C) (hinp : g.db.inputs level = .ok (some inp)) :
    (((levelAt g.db.manifest.levels level).filter fun t => t.id ∈ inp.srcIds) ++
      ((levelAt g.db.manifest.levels (level + 1)).filter fun t => t.id ∈ inp.dstIds)).map
        (fun tm => g.disk.held C g.db.dir tm.id) = inputLists C g level := by
  have hids : (((levelAt g.db.manifest.levels level).filter fun t => t.id ∈ inp.srcIds) ++
      ((levelAt g.db.manifest.levels (level + 1)).filter fun t => t.id ∈ inp.dstIds)).map TableMeta.id =
      (g.db.sources level inp).map SsTable.id := by
    unfold Db.sources
    rw [map_append, map_append]
    exact congrArg₂ _ (Catalog.map_id_filter hc ..) (Catalog.map_id_filter hc ..)
  have hheld := congrArg (List.map fun id => g.disk.held C g.db.dir id) hids
  rw [map_map, map_map] at hheld
  refine hheld.trans ?_
  unfold inputLists
  rw [hinp]
  exact map_congr_left fun t ht => Disk.Stored.held_eq (Catalog.stored_of_mem_sources hc ht)

theorem inputLists_subperm (hc : g.Filed C) (hinp : g.db.inputs level = .ok (some inp)) :
    (inputLists C g level).flatten.Subperm ((g.lots C).flatMap Prod.fst) := by
  obtain ⟨rest, hbefore, -⟩ := flatten_swapLevels TableMeta.id TableMeta.minKey inp [] level _
    (length_padLevels (level + 2) g.db.manifest.levels)
  rw [flatten_padLevels, levelAt_padLevels, levelAt_padLevels] at hbefore
  have hlots := (hbefore.map fun tm => g.disk.held C g.db.dir tm.id).flatten
  rw [map_append, held_inputs hc hinp, flatten_append] at hlots
  unfold Engine.lots
  rw [flatMap_def, map_map]
  exact (sublist_append_left ..).subperm.trans hlots.symm.subperm

/-- The outputs have the entries of their groups. -/
theorem Swapped.held_outputs (h : Swapped C g g' level inp c tables d) (hc : g.Filed C)
    (hch : Chosen g.db level inp minK maxK) :
    List.Forall₂ (fun o gr => g'.disk.held C g.db.dir o.1.id = gr) c.outputs
      (outputGroups (g.db.compactionSpec level) (inputLists C g level)) := by
  have htables : tables.map (fun t => g'.disk.held C g.db.dir t.id) =
      outputGroups (g.db.compactionSpec level) (inputLists C g level) := by
    rw [← forall₂_eq_eq_eq, forall₂_map_left_iff]
    refine forall₂_imp_mem h.stored fun t gr ht _ hst => ?_
    have hmem : t ∈ levelAt g'.db.levels (level + 1) := by
      rw [h.levels_eq]
      exact (mem_levelAt_swap (lt_length_padded ..)).2 (.inr ⟨rfl, ht⟩)
    have hfile := h.table_eq hc hch _ t hmem
    rw [(hst.1.congr hfile).held_eq, Disk.entries_congr hfile, hst.2]
  have hids := congrArg (List.map Prod.fst) h.outputs.tags
  have hheld := congrArg (List.map fun id => g'.disk.held C g.db.dir id) hids
  simp only [map_map] at hheld
  rw [← forall₂_map_left_iff (f := fun o : TableMeta × Bytes => g'.disk.held C g.db.dir o.1.id),
    forall₂_eq_eq_eq]
  exact hheld.trans htables

/-- The other tables have the entries that they had. -/
theorem Swapped.held_rest (h : Swapped C g g' level inp c tables d) (hc : g.Filed C)
    (hch : Chosen g.db level inp minK maxK) {tm : TableMeta} (hold : tm ∈ g.db.manifest.levels.flatten)
    (hnew : tm ∈ g'.db.manifest.levels.flatten) : g'.disk.held C g.db.dir tm.id = g.disk.held C g.db.dir tm.id := by
  obtain ⟨i, t, ht, hid⟩ := hc.exists_table hold
  obtain ⟨j, u, hu, huid⟩ := (h.filed hc hch).exists_table hnew
  have hst : g.disk.Stored C g.db.dir t := hc.stored i t ht
  have hfile : g'.disk.table t.id = g.disk.table t.id := by
    rw [hid, ← huid, h.table_eq hc hch j u hu, huid, ← hid]
    exact h.outputs.others i t
      (by rw [show levelAt (padded level g.db.caughtUp).levels i = _ from levelAt_padLevels ..]; exact ht)
  rw [← hid, hst.held_eq, (hst.congr hfile).held_eq, Disk.entries_congr hfile]

/-- **A compaction regroups the stored entries.** -/
theorem Swapped.regroups {old : List (List Entry × Nat)} (h : Swapped C g g' level inp c tables d) (hc : g.Filed C)
    (hinp : g.db.inputs level = .ok (some inp)) (hch : Chosen g.db level inp minK maxK)
    (hold : Regroups (Made C g.db.opts) old (g.lots C)) : Regroups (Made C g.db.opts) old (g'.lots C) := by
  obtain ⟨rest, hbefore, hafter⟩ := flatten_swapLevels TableMeta.id TableMeta.minKey inp
    (c.outputs.map Prod.fst) level _
    (length_padLevels (level + 2) g.db.manifest.levels)
  rw [flatten_padLevels, levelAt_padLevels, levelAt_padLevels] at hbefore
  have hlevels : g'.db.manifest.levels.flatten.Perm (c.outputs.map Prod.fst ++ rest) := by
    rw [h.db_eq]
    exact hafter
  have hdir : g'.db.dir = g.db.dir := by rw [h.db_eq]; rfl
  have hlots : g'.lots C = g'.db.manifest.levels.flatten.map fun tm => (g'.disk.held C g.db.dir tm.id, tm.bytes) := by
    unfold Engine.lots
    rw [hdir]
  have hrest : rest.map (fun tm => (g'.disk.held C g.db.dir tm.id, tm.bytes)) =
      rest.map fun tm => (g.disk.held C g.db.dir tm.id, tm.bytes) := by
    refine map_congr_left fun tm htm => ?_
    rw [h.held_rest hc hch (hbefore.mem_iff.2 (mem_append_right _ htm)) (hlevels.mem_iff.2 (mem_append_right _ htm))]
  have hheld := h.held_outputs hc hch
  rw [hlots]
  refine Regroups.perm ?_ (hlevels.map _).symm
  rw [map_append, hrest]
  refine Regroups.exchange ((hold.perm (hbefore.map _)).perm (.of_eq (map_append ..))) ?_ ?_
  · intro lot hlot
    obtain ⟨tm, htm, rfl⟩ := mem_map.1 hlot
    obtain ⟨o, ho, rfl⟩ := mem_map.1 htm
    obtain ⟨gr, hgr, ⟨t, ht, -, hmeta⟩, hentries⟩ := forall₂_mem_left (forall₂_both h.built hheld) ho
    refine ⟨?_, ?_, t, ?_, congrArg TableMeta.bytes hmeta⟩
    · rw [hentries]
      exact Compactor.ne_nil_of_mem_cutTables gr hgr
    · rw [hentries]
      exact (sorted_outputGroups _ _).sublist (sublist_flatten_of_mem hgr)
    · rw [hentries]
      exact ht
  · -- no entry is written twice
    have houts : ((c.outputs.map Prod.fst).map fun tm => (g'.disk.held C g.db.dir tm.id, tm.bytes)).flatMap Prod.fst =
        (outputGroups (g.db.compactionSpec level) (inputLists C g level)).flatten := by
      rw [← forall₂_map_left_iff (f := fun o : TableMeta × Bytes => g'.disk.held C g.db.dir o.1.id),
        forall₂_eq_eq_eq] at hheld
      rw [← hheld, flatMap_def, map_map, map_map]
      rfl
    have hins := congrArg List.flatten (held_inputs hc hinp)
    rw [houts, flatMap_def, map_map]
    refine subperm_of_subset (sorted_outputGroups _ _).nodup fun e he => ?_
    exact hins.symm ▸ mem_of_outputGroups he

/-- The entries of the inputs sink to the next level. -/
theorem Swapped.sinks (h : Swapped C g g' level inp c tables d) (hc : g.Filed C)
    (hch : Chosen g.db level inp minK maxK) : Sinks level (g.size C) (g'.size C) := by
  have hsinks := (hc.padded level).sinks_swap hch.padded h.outputs (lt_length_padded ..)
  have hbefore : (fun i => g.disk.count C (levelAt (padded level g.db.caughtUp).levels i)) = g.size C := by
    funext i
    rw [show levelAt (padded level g.db.caughtUp).levels i = _ from levelAt_padLevels ..]
    rfl
  have hafter : (fun i => d.count C (levelAt (swapLevels SsTable.id SsTable.minKey level inp tables
      (padded level g.db.caughtUp).levels) i)) = g'.size C := by
    funext i
    rw [← h.levels_eq]
    exact (Disk.count_congr (h.table_eq hc hch i)).symm
  rwa [hbefore, hafter] at hsinks

/-! ## Limits -/

/-- The options are as every caller sets them. -/
structure Options.Usable (opts : Options) : Prop where
  trigger : 1 ≤ opts.l0Trigger
  base : 1 ≤ opts.levelBaseBytes ∧ opts.levelBaseBytes < 2 ^ 64
  multiplier : 2 ≤ opts.levelMultiplier

/-- The limits of all levels that there are fit `u64`. -/
def Db.LimitsFit (db : Db) : Prop := ∀ i, 1 ≤ i → i < db.levels.length → ∃ limit, db.levelLimit i = .ok limit

/-- Whatever the entries of these tables are regrouped to, its size times the multiplier fits `u64`. -/
def Roomy (C : Coding) (opts : Options) (old : List (List Entry × Nat)) : Prop :=
  ∀ new, Regroups (Made C opts) old new → (new.map Prod.snd).sum * opts.levelMultiplier < 2 ^ 64

/-- A table of some of these entries can be written if it is closed in time. -/
def TablesFit (C : Coding) (opts : Options) (old : List (List Entry × Nat)) : Prop :=
  ∀ es, es ≠ [] → Sorted es → Compactor.Closed opts.targetTableBytes es → es.Subperm (old.flatMap Prod.fst) →
    TableFits C opts.blockBytes opts.bitsPerKey es

section limits
variable {db : Db} {i limit : Nat}

theorem levelLimit_eq_ok : db.levelLimit i = .ok limit ↔
    db.opts.levelMultiplier ^ (i - 1) < 2 ^ 64 ∧ limit = db.opts.levelBaseBytes * db.opts.levelMultiplier ^ (i - 1) ∧
      limit < 2 ^ 64 := by
  unfold Db.levelLimit
  dsimp only
  split
  · simp only [reduceCtorEq, false_iff]
    rintro ⟨hf, rfl, hl⟩
    omega
  · rename_i h
    rw [not_or, not_le, not_le] at h
    constructor
    · intro heq
      cases heq
      exact ⟨h.1, rfl, h.2⟩
    · rintro ⟨-, rfl, -⟩
      rfl

theorem sum_levelAt_le (f : α → Nat) : ∀ (levels : List (List α)) (i : Nat),
    ((levelAt levels i).map f).sum ≤ (levels.flatten.map f).sum
  | [], _ => Nat.zero_le _
  | l :: levels, 0 => by
    rw [flatten_cons, map_append, sum_append]
    exact Nat.le_add_right ..
  | l :: levels, i + 1 => by
    rw [flatten_cons, map_append, sum_append]
    exact (sum_levelAt_le f levels i).trans (Nat.le_add_left ..)

theorem levelBytes_le_lots (C : Coding) (g : Engine) (i : Nat) : g.db.levelBytes i ≤ ((g.lots C).map Prod.snd).sum := by
  unfold Engine.lots
  rw [map_map]
  exact sum_levelAt_le TableMeta.bytes g.db.manifest.levels i

/-- The limit of the level after one that is over its limit. -/
theorem levelLimit_next (h : db.levelLimit (i + 1) = .ok limit) (hbase : 1 ≤ db.opts.levelBaseBytes)
    (hfit : limit * db.opts.levelMultiplier < 2 ^ 64) : ∃ limit', db.levelLimit (i + 2) = .ok limit' := by
  obtain ⟨-, rfl, -⟩ := levelLimit_eq_ok.1 h
  rw [Nat.mul_assoc] at hfit
  exact ⟨_, levelLimit_eq_ok.2 ⟨(Nat.le_mul_of_pos_left _ hbase).trans_lt hfit, rfl, hfit⟩⟩

theorem overfull_eq_none {is : List Nat} : db.overfull is = .ok none ↔
    ∀ i ∈ is, ∃ limit, db.levelLimit i = .ok limit ∧ db.levelBytes i ≤ limit := by
  induction is with
  | nil => simp [Db.overfull]
  | cons j is ih =>
    rw [forall_mem_cons, ← ih, Db.overfull]
    cases hlimit : db.levelLimit j with
    | error err => simp [bind, Except.bind]
    | ok limit =>
      rw [ok_bind]
      split
      · rename_i hlt
        simp [hlt]
      · rename_i hle
        simp [not_lt.1 hle]

/-- The limits fit. -/
theorem overfull_ok {is : List Nat} (h : ∀ i ∈ is, ∃ limit, db.levelLimit i = .ok limit) :
    ∃ r, db.overfull is = .ok r := by
  induction is with
  | nil => exact ⟨none, rfl⟩
  | cons j is ih =>
    rw [forall_mem_cons] at h
    obtain ⟨⟨limit, hlimit⟩, hrest⟩ := h
    unfold Db.overfull
    rw [hlimit, ok_bind]
    split
    · exact ⟨_, rfl⟩
    · exact ih hrest

end limits

/-! ## The loop -/

/-- What holds at every turn: the levels are in order, the limits fit, and what is stored is a regrouping of what
was there at the beginning. -/
structure Turn (C : Coding) (opts : Options) (old : List (List Entry × Nat)) (g : Engine) : Prop where
  opts_eq : g.db.opts = opts
  filed : g.Filed C
  limits : g.db.LimitsFit
  regroups : Regroups (Made C opts) old (g.lots C)

variable {opts : Options} {old : List (List Entry × Nat)}

/-- What a compaction has to write are tables of stored entries. -/
theorem Turn.writable (h : Turn C opts old g) (hfit : TablesFit C opts old)
    (hinp : g.db.inputs level = .ok (some inp)) : Writable C g level := by
  intro es hes
  have hsorted : Sorted es := (sorted_outputGroups _ _).sublist (sublist_flatten_of_mem hes)
  have hsub : es.Subperm (inputLists C g level).flatten :=
    subperm_of_subset hsorted.nodup fun e he => mem_of_outputGroups (mem_flatten.2 ⟨es, hes, he⟩)
  obtain ⟨_, _, -, -, -, hitems⟩ := h.regroups
  have hclosed : Compactor.Closed g.db.opts.targetTableBytes es :=
    Compactor.closed_cutTables (fun _ _ _ hsplit => absurd hsplit (by simp)) es hes
  rw [h.opts_eq] at hclosed ⊢
  exact hfit es (Compactor.ne_nil_of_mem_cutTables es hes) hsorted hclosed
    (hsub.trans ((inputLists_subperm h.filed hinp).trans hitems))

/-- The limit of a level that is added. -/
theorem Turn.limitsFit (h : Turn C opts old g) (hu : opts.Usable) (hroom : Roomy C opts old)
    (hne : levelAt g.db.levels level ≠ [])
    (hlevel : level = 0 ∨ ∃ limit, g.db.levelLimit level = .ok limit ∧ limit < g.db.levelBytes level) :
    (padded level g.db).LimitsFit := by
  intro i h₁ hi
  by_cases hold : i < g.db.levels.length
  · exact h.limits i h₁ hold
  -- it is the level after the one that is compacted
  have hlt : level < g.db.levels.length := by
    by_contra hge
    exact hne (levelAt_eq_nil (not_lt.1 hge))
  have hi' : i = level + 1 := by
    unfold padded padLevels at hi
    rw [length_append, length_replicate] at hi
    omega
  subst hi'
  rcases Nat.eq_zero_or_pos level with rfl | hpos
  · have hopts : (padded 0 g.db).opts = opts := h.opts_eq
    refine ⟨_, levelLimit_eq_ok.2 ⟨?_, rfl, ?_⟩⟩
    · simp
    · simpa [hopts] using hu.base.2
  · obtain ⟨limit, hlimit, hover⟩ := hlevel.resolve_left (Nat.ne_of_gt hpos)
    obtain ⟨j, rfl⟩ := Nat.exists_eq_add_one_of_ne_zero (Nat.ne_of_gt hpos)
    have htotal := hroom _ h.regroups
    have hle : limit ≤ ((g.lots C).map Prod.snd).sum := hover.le.trans (levelBytes_le_lots C g _)
    refine levelLimit_next hlimit ?_ ?_
    · show 1 ≤ g.db.opts.levelBaseBytes
      rw [h.opts_eq]
      exact hu.base.1
    · show limit * g.db.opts.levelMultiplier < 2 ^ 64
      rw [h.opts_eq]
      exact (Nat.mul_le_mul_right _ hle).trans_lt htotal

/-- **One turn**: the levels get lighter, and everything stays as it has to be. -/
theorem Turn.compactLevel (h : Turn C opts old g) (hu : opts.Usable) (hroom : Roomy C opts old)
    (hfit : TablesFit C opts old) (hne : levelAt g.db.levels level ≠ [])
    (hlevel : level = 0 ∨ ∃ limit, g.db.levelLimit level = .ok limit ∧ limit < g.db.levelBytes level) :
    ∃ g', Db.compactLevel C level g = .ok () g' ∧ Turn C opts old g' ∧ Sinks level (g.size C) (g'.size C) := by
  rcases inputs_spec g.db level with ⟨-, hnil⟩ | ⟨inp, minK, maxK, hinp, hch⟩
  · exact absurd hnil hne
  obtain ⟨g', c, tables, d, hg', hs⟩ := swapped_of_writable h.filed hinp (h.writable hfit hinp)
  have hopts : g'.db.opts = opts := by
    rw [hs.db_eq]
    exact h.opts_eq
  have hregroups := hs.regroups h.filed hinp hch (h.opts_eq.symm ▸ h.regroups)
  rw [h.opts_eq] at hregroups
  refine ⟨g', hg', ⟨hopts, hs.filed h.filed hch, fun i h₁ hi => ?_, hregroups⟩, hs.sinks h.filed hch⟩
  have hlen : i < (padded level g.db).levels.length := by
    rw [hs.levels_eq] at hi
    unfold swapLevels at hi
    rwa [length_modify, length_modify] at hi
  obtain ⟨limit, hlimit⟩ := h.limitsFit hu hroom hne hlevel i h₁ hlen
  refine ⟨limit, ?_⟩
  rw [hs.db_eq]
  exact hlimit

/-- A level that is over its limit has a table. -/
theorem Engine.Filed.level_ne_nil (hc : g.Filed C) {i : Nat} (hb : 0 < g.db.levelBytes i) :
    levelAt g.db.levels i ≠ [] := by
  have hc' : Catalog C g.db.dir g.disk g.db.caughtUp.levels g.db.caughtUp.manifest := hc
  exact hc'.level_ne_nil hb

/-- **The loop**: it ends after at most as many turns as the levels are heavy. -/
theorem Turn.maybeCompact (hu : opts.Usable) (hroom : Roomy C opts old) (hfit : TablesFit C opts old) (fuel : Nat) :
    ∀ {g : Engine}, Turn C opts old g → g.load C < fuel →
      Ensures (Db.maybeCompact C fuel) g (fun _ g' => (levelAt g'.db.levels 0).length < opts.l0Trigger ∧
        ∀ i, 1 ≤ i → g'.db.levelBytes i ≤ opts.levelBaseBytes * opts.levelMultiplier ^ (i - 1)) fun _ _ => False := by
  induction fuel with
  | zero =>
    intro g _ hlt
    exact absurd hlt (Nat.not_lt_zero _)
  | succ fuel ih =>
    intro g h hlt
    have hturn : ∀ level, levelAt g.db.levels level ≠ [] → level < 65 →
        (level = 0 ∨ ∃ limit, g.db.levelLimit level = .ok limit ∧ limit < g.db.levelBytes level) →
        Ensures (Db.compactLevel C level >>= fun _ => Db.maybeCompact C fuel) g
          (fun _ g' => (levelAt g'.db.levels 0).length < opts.l0Trigger ∧
            ∀ i, 1 ≤ i → g'.db.levelBytes i ≤ opts.levelBaseBytes * opts.levelMultiplier ^ (i - 1)) fun _ _ =>
              False := by
      intro level hne h65 hlevel
      obtain ⟨g₁, hg₁, h₁, hsinks⟩ := h.compactLevel hu hroom hfit hne hlevel
      have hlight : g₁.load C < g.load C := hsinks.weigh_lt h65
      refine Ensures.bind (Q := fun _ g' => g' = g₁) (Ensures.of_eq hg₁ rfl) fun _ g' hg' => ?_
      subst hg'
      exact ih h₁ (by omega)
    unfold Db.maybeCompact
    refine ensures_get ?_
    dsimp only
    split
    · rename_i htrigger
      refine hturn 0 (fun hnil => ?_) (by omega) (.inl rfl)
      rw [hnil, h.opts_eq] at htrigger
      exact absurd hu.trigger (by simpa using htrigger)
    · rename_i htrigger
      have hrange : ∀ i ∈ List.range' 1 (g.db.levels.length - 1), ∃ limit, g.db.levelLimit i = .ok limit := by
        intro i hi
        rw [mem_range'_1] at hi
        exact h.limits i hi.1 (by omega)
      obtain ⟨r, hr⟩ := overfull_ok hrange
      refine ensures_lift_ok hr ?_
      cases r with
      | some i =>
        obtain ⟨limit, hlimit, hover⟩ := overfull_eq_some hr
        have htame : g.db.opts.Tame := h.opts_eq ▸ ⟨hu.trigger, hu.multiplier⟩
        exact hturn i (h.filed.level_ne_nil (by omega)) (lt_of_levelLimit htame hlimit) (.inr ⟨limit, hlimit, hover⟩)
      | none =>
        refine Ensures.pure ⟨by rw [h.opts_eq] at htrigger; omega, fun i h₁ => ?_⟩
        by_cases hi : i < g.db.levels.length
        · obtain ⟨limit, hlimit, hle⟩ := overfull_eq_none.1 hr i (mem_range'_1.2 ⟨h₁, by omega⟩)
          obtain ⟨-, heq, -⟩ := levelLimit_eq_ok.1 hlimit
          rw [← h.opts_eq, ← heq]
          exact hle
        · by_contra hb
          exact h.filed.level_ne_nil (by omega) (levelAt_eq_nil (not_lt.1 hi))

/-- Whatever a compaction does, the options stay and no level goes away. -/
def Grows (g g' : Engine) : Prop := g'.db.opts = g.db.opts ∧ g.db.levels.length ≤ g'.db.levels.length

section one
variable {opts : Options}

instance : DecidableEq (List Entry × Nat) := instDecidableEqProd

end one

end RaftKv.Storage

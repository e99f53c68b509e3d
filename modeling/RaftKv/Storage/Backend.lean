import RaftKv.Kvsm.StateMachine
import RaftKv.Storage.Scan

/-!
# The engine as the backend of the state machine

The server keeps the applied state in a `Db`, the simulator in a `BTreeMap`. A state machine over
either returns the same results and takes the same snapshots (`backends_agree`): an engine has the
contents of an ordered map (`Holds`), its reads, scans and batches are those of the map, and a
restore leaves exactly the keys of the snapshot, whatever the database held before.

It fails in two places (`backends_differ`). A scan with a limit of 0 returns a pair. And the
database runs with `SyncPolicy::Never`; if a power failure leaves an old version in the log over a
newer deletion in a table, `dump` does not see the key, so that `clear_and_load` does not delete it,
and `get` returns the old value.

| here | there |
| --- | --- |
| `DbBackend` | `server/src/backend.rs:18`; an `expect` that fails in a write leaves the error |
| `DbBackend.get`, `scan`, `dump` | `backend.rs:34-47`, with the error of an `expect` that fails |
| `DbBackend.clearAndLoad` | `backend.rs:49` |
| `SmOp.run` | the calls of `StateMachine` (`kvsm/src/lib.rs:146-239`) |

The trait has no place for the error of a read. No engine that has the contents of a map has one
(`DbBackend.get_eq`, `scan_eq`, `dump_eq`).
-/

namespace RaftKv.Storage

open Versions Db

/-! ## The backend -/

/-- The engine, or what a call panicked with. -/
structure DbBackend (C : Coding) where
  db : Except (Error × Engine) Engine

namespace DbBackend

variable {C : Coding}

/-- The rest is as in `Options::default`. -/
def options : Options := { sync := .never }

theorem options_tame : options.Tame := by
  unfold Options.Tame options
  decide

def get (b : DbBackend C) (key : Bytes) : Except Error (Option Bytes) :=
  match b.db with
  | .ok g => Db.getAt C g key g.db.seq
  | .error (e, _) => .error e

/-- The turns of `maybe_compact` are bounded by what it has to move. -/
def write (b : DbBackend C) (ops : List (Bytes × Option Bytes)) : DbBackend C :=
  match b.db with
  | .ok g =>
    match Db.writeBatch C (turns C g ops) ops { g with steps := [] } with
    | .ok _ g' => ⟨.ok g'⟩
    | .error e g' => ⟨.error (e, g')⟩
  | .error _ => b

def set (b : DbBackend C) (key : Bytes) (value : Option Bytes) : DbBackend C := b.write [(key, value)]

def scan (b : DbBackend C) (start : Bytes) (stop : Option Bytes) (limit : Nat) : Except Error (List (Bytes × Bytes)) :=
  match b.db with
  | .ok g => Db.scanAt C g start stop limit g.db.seq
  | .error (e, _) => .error e

/-- A scan up to `usize::MAX`. -/
def dump (b : DbBackend C) : Except Error (List (Bytes × Bytes)) := b.scan [] none (2 ^ 64 - 1)

/-- A `dump` that fails leaves the error, too. -/
def clearAndLoad (b : DbBackend C) (kvs : List (Bytes × Bytes)) : DbBackend C :=
  match b.dump with
  | .ok existing =>
    let ops := existing.map (fun p => (p.1, none)) ++ kvs.map fun p => (p.1, some p.2)
    if ops = [] then b else b.write ops
  | .error e => ⟨b.db.bind fun g => .error (e, g)⟩

instance : Backend (DbBackend C) where
  get b key := (b.get key).toOption.join
  set := set
  scan b start stop limit := (b.scan start stop limit).toOption.getD []
  dump b := b.dump.toOption.getD []
  clearAndLoad := clearAndLoad

/-- No number was too large, and no length was cut off. -/
def Within (b : DbBackend C) : Prop :=
  match b.db with
  | .ok g => g.fits = true
  | .error (e, g) => e ≠ .overflow ∧ g.fits = true

instance (b : DbBackend C) : Decidable b.Within :=
  match b with
  | ⟨.ok g⟩ => inferInstanceAs (Decidable (g.fits = true))
  | ⟨.error (e, g)⟩ => inferInstanceAs (Decidable (e ≠ .overflow ∧ g.fits = true))

theorem Within.of_write {b : DbBackend C} {ops : List (Bytes × Option Bytes)} (h : (b.write ops).Within) :
    b.Within := by
  unfold write at h
  unfold Within
  cases hb : b.db with
  | error p =>
    rw [hb] at h
    unfold Within at h
    rw [hb] at h
    exact h
  | ok g =>
    rw [hb] at h
    dsimp only at h ⊢
    have hback := fitsBack_writeBatch C (turns C g ops) ops { g with steps := [] }
    cases hr : Db.writeBatch C (turns C g ops) ops { g with steps := [] } with
    | ok a g' =>
      rw [hr] at h
      exact hback.of_ok hr h
    | error e g' =>
      rw [hr] at h
      exact hback.of_error hr h.2

theorem Within.of_clearAndLoad {b : DbBackend C} {kvs : List (Bytes × Bytes)} (h : (b.clearAndLoad kvs).Within) :
    b.Within := by
  unfold clearAndLoad at h
  split at h
  · dsimp only at h
    split at h
    · exact h
    · exact h.of_write
  · obtain ⟨db⟩ := b
    cases db with
    | error p => exact h
    | ok g => exact h.2

end DbBackend

/-! ## Contents -/

variable {C : Coding} {dir : String} {snaps : OrdMap Nat Nat} {H : Set Entry} {n : Nat}
  {g g' : Engine} {m : OrdMap Bytes Bytes}

/-- The engine has the contents of the map. -/
def Holds (C : Coding) (dir : String) (g : Engine) (m : OrdMap Bytes Bytes) : Prop :=
  ∃ snaps H n, Numbers H ∧ Inv C dir (LogRel.clean C False True) DbBackend.options snaps H n g ∧ Shows H n m

theorem Holds.getAt_eq (h : Holds C dir g m) (key : Bytes) : Db.getAt C g key g.db.seq = .ok (m.find? key) := by
  obtain ⟨snaps, H, n, -, hi, hs⟩ := h
  exact hi.getAt_shows hs key

/-- What a scan lists is the range of the map. -/
theorem Holds.scanAt_eq (h : Holds C dir g m) (start : Bytes) (stop : Option Bytes) (limit : Nat) :
    Db.scanAt C g start stop limit g.db.seq = .ok (scanMap m start stop (max limit 1)) := by
  have hget := h.getAt_eq
  obtain ⟨snaps, H, n, -, hi, -⟩ := h
  obtain ⟨l, hl, hscan⟩ := hi.scanAt_eq start stop g.db.seq
  have heq : l = m.toList.filter fun p => start ≤ p.1 ∧ ∀ e ∈ stop, p.1 < e := by
    refine List.Pairwise.eq_of_mem_iff hl.ascending (m.sorted.filter _) fun p => ?_
    rw [hl.mem_iff, hget, List.mem_filter, ← OrdMap.find?_eq_some]
    simp [inRange, and_comm]
  rw [hscan, heq]
  rfl

/-- Every key has a number of its own, so that there are fewer than `usize::MAX`. -/
theorem Holds.length_lt (h : Holds C dir g m) : m.toList.length < 2 ^ 64 := by
  obtain ⟨snaps, H, n, hn, hi, hs⟩ := h
  have hver : ∀ k ∈ m.keys, ∃ t v, (k, t, v) ∈ H := by
    intro k hk
    obtain ⟨v, hv⟩ := OrdMap.mem_keys.1 hk
    obtain ⟨r, hr⟩ := exists_newest H k n
    cases r with
    | none =>
      have hnone := hs k none hr
      rw [hv] at hnone
      cases hnone
    | some p => exact ⟨p.1, p.2, hr.1⟩
  choose! t v hmem using hver
  have hnodup : (m.keys.map t).Nodup := by
    refine List.Nodup.map_on (fun k hk k' hk' heq => ?_) m.nodup_keys
    exact congrArg Prod.fst (hn.inj _ (hmem k hk) _ (hmem k' hk') heq)
  have hsub : m.keys.map t ⊆ List.range' 1 n := by
    intro x hx
    obtain ⟨k, hk, rfl⟩ := List.mem_map.1 hx
    have hpos := hn.pos _ (hmem k hk)
    have hle := hi.bound _ (hmem k hk)
    rw [List.mem_range'_1]
    dsimp only at hpos hle
    omega
  have hlen := (List.subperm_of_subset hnodup hsub).length_le
  rw [List.length_map, OrdMap.keys, List.length_map, List.length_range'] at hlen
  have hshort := hi.short
  omega

/-- A batch is written to the map, unless it runs into a limit. -/
theorem Holds.write (h : Holds C dir g m) (ops : List (Bytes × Option Bytes))
    (hw : ((⟨.ok g⟩ : DbBackend C).write ops).Within) :
    ∃ g', (⟨.ok g⟩ : DbBackend C).write ops = ⟨.ok g'⟩ ∧ Holds C dir g' (m.writeBatch ops) := by
  obtain ⟨snaps, H, n, hn, hi, hs⟩ := h
  have hspec := writeBatch_spec (g := { g with steps := [] }) (I := fun _ _ => True) (hi.same rfl rfl) (safe_true _)
    LogRel.clean_nil ops (fun _ => hi.same rfl rfl)
    (fun synced _ _ hb _ => LogRel.clean_append (b := { firstSeq := n + 1, ops }) hi.log hb
      (fun e he => Nat.lt_succ_of_le (hi.bound e (hi.mem_subset he))) False.elim)
    (fun _ _ => ⟨⟨g.db, trivial⟩, g.db, trivial⟩) (fun _ _ => trivial) (turns C g ops)
  unfold DbBackend.write at hw ⊢
  dsimp only at hw ⊢
  cases hr : Db.writeBatch C (turns C g ops) ops { g with steps := [] } with
  | ok a g' =>
    rw [hr] at hw
    exact ⟨g', rfl, snaps, _, _, hn.written hi.bound ops, (hspec.of_ok hr hw).1, hs.writeBatch hi.single hi.bound ops⟩
  | error e g' =>
    rw [hr] at hw
    exact absurd ((hspec.of_error hr hw.2).2 DbBackend.options_tame le_rfl) hw.1

/-! ## The two state machines -/

inductive SmOp where
  | apply (cmd : Command)
  | read (key : Bytes)
  | readRange (start : Bytes) (stop : Option Bytes) (limit : Nat)
  | snapshot
  | restore (data : Bytes)
deriving DecidableEq, Repr

inductive SmResult where
  | applied (result : OpResult)
  | value (v : Option Bytes)
  | pairs (kvs : List (Bytes × Bytes))
  | taken (data : Bytes)
  | restored
deriving DecidableEq, Repr

variable {op : SmOp} {ops : List SmOp} {rs : List (SmResult × Bytes)} {r : SmResult}

section
variable {B : Type} [Backend B] (P : Serde Bytes SnapshotPayload)

/-- None for a snapshot that cannot be decoded. -/
def SmOp.run (sm : StateMachine B) : SmOp → Option (SmResult × StateMachine B)
  | .apply cmd => some (.applied (sm.apply cmd).1, (sm.apply cmd).2)
  | .read key => some (.value (sm.read key), sm)
  | .readRange start stop limit => some (.pairs (sm.readRange start stop limit), sm)
  | .snapshot => some (.taken (sm.snapshot P), sm)
  | .restore data => (sm.restore P data).map fun sm => (.restored, sm)

/-- What each operation returns, with the snapshot after it. -/
def trace : StateMachine B → List SmOp → Option (List (SmResult × Bytes) × StateMachine B)
  | sm, [] => some ([], sm)
  | sm, op :: ops => do
    let (r, sm) ← op.run P sm
    let (rs, sm') ← trace sm ops
    return ((r, sm.snapshot P) :: rs, sm')

theorem trace_cons_eq_some {sm sm' : StateMachine B} :
    trace P sm (op :: ops) = some (rs, sm') ↔
      ∃ r sm₁ rs', op.run P sm = some (r, sm₁) ∧ trace P sm₁ ops = some (rs', sm') ∧ rs = (r, sm₁.snapshot P) ::
        rs' := by
  simp only [trace, bind, Option.bind_eq_some_iff, pure, Option.some.injEq, Prod.mk.injEq, Prod.exists]
  constructor
  · rintro ⟨r, sm₁, hrun, rs', sm₂, htr, rfl, rfl⟩
    exact ⟨r, sm₁, rs', hrun, htr, rfl⟩
  · rintro ⟨r, sm₁, rs', hrun, htr, rfl⟩
    exact ⟨r, sm₁, hrun, rs', sm', htr, rfl, rfl⟩

/-- Whether a snapshot can be decoded does not depend on the backend. -/
theorem isSome_run {B' : Type} [Backend B'] (sm : StateMachine B) (sm' : StateMachine B') (op : SmOp) :
    (op.run P sm).isSome = (op.run P sm').isSome := by
  cases op with
  | restore data =>
    simp only [SmOp.run, StateMachine.restore]
    cases P.de data <;> rfl
  | apply cmd => rfl
  | read key => rfl
  | readRange start stop limit => rfl
  | snapshot => rfl

theorem trace_eq_none {B' : Type} [Backend B'] {sm : StateMachine B} (h : trace P sm ops = none)
    (sm' : StateMachine B') : trace P sm' ops = none := by
  induction ops generalizing sm sm' with
  | nil => cases h
  | cons op ops ih =>
    have hsome := isSome_run P sm sm' op
    cases hrun : op.run P sm with
    | none =>
      rw [hrun, Option.isSome_none, eq_comm, Option.isSome_eq_false_iff, Option.isNone_iff_eq_none] at hsome
      simp [trace, hsome]
    | some p =>
      rw [hrun, Option.isSome_some, eq_comm, Option.isSome_iff_exists] at hsome
      obtain ⟨p', hrun'⟩ := hsome
      have hrest : trace P p.2 ops = none := by
        cases htr : trace P p.2 ops with
        | none => rfl
        | some q => simp [trace, hrun, htr] at h
      simp [trace, hrun', ih hrest p'.2]

end

/-- The scan has a limit, or there is nothing in its range. -/
def SmOp.LimitOk (m : OrdMap Bytes Bytes) : SmOp → Prop
  | .readRange start stop limit => limit = 0 → scanMap m start stop 1 = []
  | _ => True

/-- All scans of a sequence have. -/
def LimitsOk (P : Serde Bytes SnapshotPayload) : StateMachine MemBackend → List SmOp → Prop
  | _, [] => True
  | sm, op :: ops => op.LimitOk sm.backend.map ∧ ∀ p, op.run P sm = some p → LimitsOk P p.2 ops

/-! ### Limits -/

section
variable {P : Serde Bytes SnapshotPayload} {sm sm' : StateMachine (DbBackend C)}

theorem within_of_execute (op : Op) (h : (sm.execute op).2.backend.Within) : sm.backend.Within := by
  cases op with
  | put key value => exact DbBackend.Within.of_write h
  | delete key => exact DbBackend.Within.of_write h
  | get key => exact h
  | cas key expect new =>
    unfold StateMachine.execute at h
    dsimp only at h
    split at h
    · exact DbBackend.Within.of_write h
    · exact h

theorem within_of_apply {cmd : Command} (h : (sm.apply cmd).2.backend.Within) : sm.backend.Within := by
  unfold StateMachine.apply at h
  split at h
  · exact h
  · refine within_of_execute cmd.op ?_
    dsimp only at h
    split at h
    · exact h
    · exact h

theorem within_of_run (hrun : op.run P sm = some (r, sm')) (h : sm'.backend.Within) : sm.backend.Within := by
  cases op with
  | apply cmd =>
    cases hrun
    exact within_of_apply h
  | read key => cases hrun; exact h
  | readRange start stop limit => cases hrun; exact h
  | snapshot => cases hrun; exact h
  | restore data =>
    obtain ⟨sm₁, hres, heq⟩ := Option.map_eq_some_iff.1 hrun
    cases heq
    unfold StateMachine.restore at hres
    split at hres
    · cases hres
      exact DbBackend.Within.of_clearAndLoad h
    · cases hres

theorem within_of_trace (htr : trace P sm ops = some (rs, sm')) (h : sm'.backend.Within) : sm.backend.Within := by
  induction ops generalizing sm rs with
  | nil => cases htr; exact h
  | cons op ops ih =>
    obtain ⟨r, sm₁, rs', hrun, htr', -⟩ := (trace_cons_eq_some P).1 htr
    exact within_of_run hrun (ih htr')

end

/-! ### Agreement -/

namespace DbBackend

theorem get_eq (h : Holds C dir g m) (key : Bytes) : (⟨.ok g⟩ : DbBackend C).get key = .ok (m.find? key) :=
  h.getAt_eq key

theorem scan_eq (h : Holds C dir g m) (start : Bytes) (stop : Option Bytes) (limit : Nat) :
    (⟨.ok g⟩ : DbBackend C).scan start stop limit = .ok (scanMap m start stop (max limit 1)) :=
  h.scanAt_eq start stop limit

theorem dump_eq (h : Holds C dir g m) : (⟨.ok g⟩ : DbBackend C).dump = .ok m.toList := by
  unfold dump
  rw [scan_eq h, scanMap]
  have hall : (m.toList.filter fun p => ([] : Bytes) ≤ p.1 ∧ ∀ e ∈ (none : Option Bytes), p.1 < e) = m.toList := by
    rw [List.filter_eq_self]
    intro p _
    have hle : ([] : Bytes) ≤ p.1 := not_lt.1 (List.not_lt_nil p.1)
    simp [hle]
  have hlen := h.length_lt
  rw [hall, List.take_of_length_le (by omega)]

/-- What was there is deleted, and the new pairs are put, in one batch. -/
theorem clearAndLoad_eq (h : Holds C dir g m) (kvs : List (Bytes × Bytes))
    (hw : ((⟨.ok g⟩ : DbBackend C).clearAndLoad kvs).Within) :
    ∃ g', (⟨.ok g⟩ : DbBackend C).clearAndLoad kvs = ⟨.ok g'⟩ ∧ Holds C dir g' (OrdMap.ofList kvs) := by
  have hload : m.writeBatch (m.toList.map (fun p => (p.1, none)) ++ kvs.map
    fun p => (p.1, some p.2)) = OrdMap.ofList kvs := by
    rw [OrdMap.writeBatch_append, OrdMap.writeBatch_deletes, OrdMap.writeBatch, List.foldl_map]
    rfl
  unfold clearAndLoad at hw ⊢
  rw [dump_eq h] at hw ⊢
  dsimp only at hw ⊢
  split at hw
  · rename_i hnil
    rw [if_pos hnil]
    rw [hnil] at hload
    exact ⟨g, rfl, hload ▸ h⟩
  · rename_i hne
    rw [if_neg hne, ← hload]
    exact h.write _ hw

end DbBackend

/-- The same sessions and the same contents. -/
structure Mirrors (dir : String) (sm₁ : StateMachine (DbBackend C)) (sm₂ : StateMachine MemBackend) : Prop where
  sessions : sm₁.sessions = sm₂.sessions
  holds : ∃ g, sm₁.backend = ⟨.ok g⟩ ∧ Holds C dir g sm₂.backend.map

namespace Mirrors

variable {P : Serde Bytes SnapshotPayload} {sm₁ : StateMachine (DbBackend C)} {sm₂ : StateMachine MemBackend}

theorem get_eq (h : Mirrors dir sm₁ sm₂) (key : Bytes) : Backend.get sm₁.backend key = Backend.get sm₂.backend key := by
  obtain ⟨g, hg, hh⟩ := h.holds
  rw [hg]
  exact congrArg (fun r => r.toOption.join) (DbBackend.get_eq hh key)

theorem snapshot_eq (h : Mirrors dir sm₁ sm₂) : sm₁.snapshot P = sm₂.snapshot P := by
  obtain ⟨g, hg, hh⟩ := h.holds
  unfold StateMachine.snapshot
  have hdump : Backend.dump sm₁.backend = Backend.dump sm₂.backend := by
    rw [hg]
    exact congrArg (fun r => r.toOption.getD []) (DbBackend.dump_eq hh)
  rw [hdump, h.sessions]

theorem set (h : Mirrors dir sm₁ sm₂) (key : Bytes) (value : Option Bytes)
    (hw : (DbBackend.set sm₁.backend key value).Within) :
    Mirrors dir { sm₁ with backend := Backend.set sm₁.backend key value }
      { sm₂ with backend := Backend.set sm₂.backend key value } := by
  obtain ⟨g, hg, hh⟩ := h.holds
  rw [hg] at hw
  obtain ⟨g', hg', hh'⟩ := hh.write [(key, value)] hw
  refine ⟨h.sessions, g', ?_, ?_⟩
  · rw [hg]
    exact hg'
  · cases value <;> exact hh'

theorem execute (h : Mirrors dir sm₁ sm₂) (op : Op) (hw : (sm₁.execute op).2.backend.Within) :
    (sm₁.execute op).1 = (sm₂.execute op).1 ∧ Mirrors dir (sm₁.execute op).2 (sm₂.execute op).2 := by
  cases op with
  | put key value => exact ⟨rfl, h.set key (some value) hw⟩
  | delete key => exact ⟨rfl, h.set key none hw⟩
  | get key => exact ⟨congrArg OpResult.value (h.get_eq key), h⟩
  | cas key expect new =>
    unfold StateMachine.execute at hw ⊢
    dsimp only at hw ⊢
    rw [h.get_eq key] at hw ⊢
    split
    · rename_i heq
      rw [if_pos heq] at hw
      exact ⟨rfl, h.set key new hw⟩
    · exact ⟨rfl, h⟩

theorem apply (h : Mirrors dir sm₁ sm₂) (cmd : Command) (hw : (sm₁.apply cmd).2.backend.Within) :
    (sm₁.apply cmd).1 = (sm₂.apply cmd).1 ∧ Mirrors dir (sm₁.apply cmd).2 (sm₂.apply cmd).2 := by
  have hcached : sm₁.cached cmd = sm₂.cached cmd := by
    unfold StateMachine.cached
    rw [h.sessions]
  unfold StateMachine.apply at hw ⊢
  rw [hcached] at hw ⊢
  cases hc : sm₂.cached cmd with
  | some result => exact ⟨rfl, h⟩
  | none =>
    rw [hc] at hw
    dsimp only at hw ⊢
    have hw' : (sm₁.execute cmd.op).2.backend.Within := by
      split at hw
      · exact hw
      · exact hw
    obtain ⟨hres, hm⟩ := h.execute cmd.op hw'
    refine ⟨hres, ?_⟩
    rw [hres]
    split
    · refine ⟨?_, hm.holds⟩
      rw [hm.sessions]
    · exact hm

variable {sm₁' : StateMachine (DbBackend C)}

/-- A restore makes them equal, whatever was there before. -/
theorem of_restore {data : Bytes} (hg : sm₁.backend = ⟨.ok g⟩)
    (hh : Holds C dir g m) (hrun : (SmOp.restore data).run P sm₁ = some (r, sm₁')) (hw : sm₁'.backend.Within)
    (sm₂ : StateMachine MemBackend) :
    ∃ sm₂', (SmOp.restore data).run P sm₂ = some (r, sm₂') ∧ Mirrors dir sm₁' sm₂' := by
  obtain ⟨sm, hres, heq⟩ := Option.map_eq_some_iff.1 hrun
  cases heq
  unfold StateMachine.restore at hres
  cases hde : P.de data with
  | error e =>
    rw [hde] at hres
    cases hres
  | ok payload =>
    rw [hde] at hres
    cases hres
    have hload : (DbBackend.clearAndLoad sm₁.backend payload.kvs).Within := hw
    rw [hg] at hload
    obtain ⟨g', hg', hh'⟩ := DbBackend.clearAndLoad_eq hh payload.kvs hload
    refine ⟨{ backend := ⟨OrdMap.ofList payload.kvs⟩, sessions := OrdMap.ofList payload.sessions }, ?_, rfl, g', ?_,
      hh'⟩
    · simp only [SmOp.run, StateMachine.restore, hde]
      rfl
    · rw [hg]
      exact hg'

theorem run (h : Mirrors dir sm₁ sm₂) (hlimit : op.LimitOk sm₂.backend.map) (hrun : op.run P sm₁ = some (r, sm₁'))
    (hw : sm₁'.backend.Within) : ∃ sm₂', op.run P sm₂ = some (r, sm₂') ∧ Mirrors dir sm₁' sm₂' := by
  cases op with
  | apply cmd =>
    cases hrun
    obtain ⟨hres, hm⟩ := h.apply cmd hw
    exact ⟨_, by rw [SmOp.run, hres], hm⟩
  | read key =>
    cases hrun
    exact ⟨sm₂, by rw [SmOp.run, StateMachine.read, StateMachine.read, h.get_eq], h⟩
  | snapshot =>
    cases hrun
    exact ⟨sm₂, by rw [SmOp.run, h.snapshot_eq], h⟩
  | restore data =>
    obtain ⟨g, hg, hh⟩ := h.holds
    exact of_restore hg hh hrun hw sm₂
  | readRange start stop limit =>
    cases hrun
    have hscan : sm₁.readRange start stop limit = sm₂.readRange start stop limit := by
      obtain ⟨g, hg, hh⟩ := h.holds
      unfold StateMachine.readRange
      rw [hg]
      refine (congrArg (fun r => r.toOption.getD []) (DbBackend.scan_eq hh start stop limit)).trans ?_
      show scanMap sm₂.backend.map start stop (max limit 1) = scanMap sm₂.backend.map start stop limit
      cases limit with
      | succ k => rw [Nat.max_eq_left (by omega)]
      | zero => exact hlimit rfl
    exact ⟨sm₂, by rw [SmOp.run, hscan], h⟩

theorem trace (h : Mirrors dir sm₁ sm₂) (hlimits : LimitsOk P sm₂ ops) (htr : trace P sm₁ ops = some (rs, sm₁'))
    (hw : sm₁'.backend.Within) : ∃ sm₂', Storage.trace P sm₂ ops = some (rs, sm₂') := by
  induction ops generalizing sm₁ sm₂ rs with
  | nil =>
    cases htr
    exact ⟨sm₂, rfl⟩
  | cons op ops ih =>
    obtain ⟨r, sm, rs', hrun, htr', rfl⟩ := (trace_cons_eq_some P).1 htr
    obtain ⟨sm', hrun', hm⟩ := h.run hlimits.1 hrun (within_of_trace htr' hw)
    obtain ⟨sm₂', htr₂⟩ := ih hm (hlimits.2 _ hrun') htr'
    exact ⟨sm₂', (trace_cons_eq_some P).2 ⟨r, sm', rs', hrun', htr₂, by rw [hm.snapshot_eq]⟩⟩

end Mirrors

/-- An open database of which no crash has cut the log within what was flushed, empty or restored first, serves every
sequence of operations as the map of the simulator does, unless a scan has a limit of 0 and something in its range. -/
theorem backends_agree (C : Coding) (P : Serde Bytes SnapshotPayload) (dir : String) {h : Host}
    (hr : Runs (Host.exec C) (fun s a => s.Numberable a ∧ s.KeepsFlushed C a) (Host.new dir) h) (hup : h.up = true)
    (hopts : h.engine.db.opts = DbBackend.options) (ops : List SmOp)
    (hstart : (∀ key, Db.getAt C h.engine key h.engine.db.seq = .ok none) ∨ ∃ data rest, ops = .restore data :: rest)
    (hlimits : LimitsOk P (StateMachine.new ⟨∅⟩) ops)
    (hwithin : ∀ r, trace P (StateMachine.new (⟨.ok h.engine⟩ : DbBackend C)) ops = some r → r.2.backend.Within) :
    (trace P (StateMachine.new (⟨.ok h.engine⟩ : DbBackend C)) ops).map Prod.fst =
      (trace P (StateMachine.new (⟨∅⟩ : MemBackend)) ops).map Prod.fst := by
  cases htr : trace P (StateMachine.new (⟨.ok h.engine⟩ : DbBackend C)) ops with
  | none =>
    rw [trace_eq_none P htr]
    rfl
  | some r =>
    obtain ⟨rs, sm⟩ := r
    have hw := hwithin _ htr
    have hfit : h.engine.fits = true := within_of_trace htr hw
    obtain ⟨opts, H, n, hn, hi⟩ := (Host.intact_of_runs hr hfit).opened hup
    obtain rfl : DbBackend.options = opts := hopts.symm.trans hi.opts_eq
    obtain ⟨m, hshows⟩ := hi.exists_shows
    have hm : Holds C dir h.engine m := ⟨_, H, n, hn, hi, hshows⟩
    have hagree : ∃ sm', trace P (StateMachine.new (⟨∅⟩ : MemBackend)) ops = some (rs, sm') := by
      rcases hstart with hempty | ⟨data, rest, rfl⟩
      · have hnone : m = ∅ := by
          refine OrdMap.ext_find? fun k => ?_
          have hget := (hm.getAt_eq k).symm.trans (hempty k)
          cases hf : m.find? k with
          | none => rfl
          | some v => rw [hf] at hget; cases hget
        subst hnone
        exact Mirrors.trace ⟨rfl, h.engine, rfl, hm⟩ hlimits htr hw
      · obtain ⟨r, sm₁, rs', hrun, htr', rfl⟩ := (trace_cons_eq_some P).1 htr
        obtain ⟨sm₂, hrun₂, hmir⟩ := Mirrors.of_restore rfl hm hrun (within_of_trace htr' hw) (StateMachine.new ⟨∅⟩)
        obtain ⟨sm', htr₂⟩ := hmir.trace (hlimits.2 _ hrun₂) htr' hw
        exact ⟨sm', (trace_cons_eq_some P).2 ⟨r, sm₂, rs', hrun₂, htr₂, by rw [hmir.snapshot_eq]⟩⟩
    obtain ⟨sm', htr₂⟩ := hagree
    rw [htr₂]
    rfl

/-- A database of an earlier run, with a key in a table; the snapshot that is restored has another one. -/
theorem backends_agree_restored :
    ∃ h, Runs (Host.exec Coding.plain) (fun s a => s.Numberable a ∧ s.KeepsFlushed Coding.plain a) (Host.new "sm") h ∧
      Db.getAt Coding.plain h.engine [1] h.engine.db.seq = .ok (some [10]) ∧
      (trace Wire.plain.payload (StateMachine.new (⟨.ok h.engine⟩ : DbBackend Coding.plain))
          [.restore (Wire.plain.payload.ser ⟨[([2], [20])], []⟩), .apply ⟨7, 1, .cas [2] (some [20]) (some [21])⟩,
            .readRange [] none 9]).map Prod.fst =
        (trace Wire.plain.payload (StateMachine.new (⟨∅⟩ : MemBackend))
          [.restore (Wire.plain.payload.ser ⟨[([2], [20])], []⟩), .apply ⟨7, 1, .cas [2] (some [20]) (some [21])⟩,
            .readRange [] none 9]).map Prod.fst := by
  obtain ⟨h, hr, hup, hopts, hget, hwithin⟩ := Runs.reached (Host.exec Coding.plain)
    (fun s a => s.Numberable a ∧ s.KeepsFlushed Coding.plain a) (Host.new "sm")
    [.start DbBackend.options 9, .call (.writeBatch [([1], some [10])] 9), .call .flush, .stop 0,
      .start DbBackend.options 9]
    (P := fun h => h.up = true ∧ h.engine.db.opts = DbBackend.options ∧
      Db.getAt Coding.plain h.engine [1] h.engine.db.seq = .ok (some [10]) ∧
      (trace Wire.plain.payload (StateMachine.new (⟨.ok h.engine⟩ : DbBackend Coding.plain))
        [.restore (Wire.plain.payload.ser ⟨[([2], [20])], []⟩), .apply ⟨7, 1, .cas [2] (some [20]) (some [21])⟩,
          .readRange [] none 9]).all (fun r => r.2.backend.Within) = true) (by decide +kernel)
  refine ⟨h, hr, hget, backends_agree Coding.plain Wire.plain.payload "sm" hr hup hopts _ (Or.inr ⟨_, _, rfl⟩) ?_
    fun r htr => ?_⟩
  · exact ⟨trivial, fun _ _ => ⟨trivial, fun _ _ => ⟨fun h0 => (by cases h0), fun _ _ => trivial⟩⟩⟩
  · rw [htr] at hwithin
    exact of_decide_eq_true hwithin

/-- After a power failure, a key that was deleted is in the log again, over the table with its deletion: restoring
an empty snapshot does not remove it. And a scan with a limit of 0 returns a pair. -/
theorem backends_differ :
    (∃ h, Runs (Host.exec Coding.plain) Host.Numberable (Host.new "sm") h ∧ h.up = true ∧
      h.engine.db.opts = DbBackend.options ∧
      (trace Wire.plain.payload (StateMachine.new (⟨.ok h.engine⟩ : DbBackend Coding.plain))
          [.restore (Wire.plain.payload.ser ⟨[], []⟩), .read [1]]).map
            (fun r => (r.1.map Prod.fst, decide r.2.backend.Within)) =
        some ([.restored, .value (some [10])], true) ∧
      (trace Wire.plain.payload (StateMachine.new (⟨∅⟩ : MemBackend))
          [.restore (Wire.plain.payload.ser ⟨[], []⟩), .read [1]]).map (fun r => r.1.map Prod.fst) =
        some [.restored, .value none]) ∧
    ∃ h, Runs (Host.exec Coding.plain) (fun s a => s.Numberable a ∧ s.KeepsFlushed Coding.plain a) (Host.new "sm") h ∧
      h.up = true ∧ h.engine.db.opts = DbBackend.options ∧
        (∀ key, Db.getAt Coding.plain h.engine key h.engine.db.seq = .ok none) ∧
      (trace Wire.plain.payload (StateMachine.new (⟨.ok h.engine⟩ : DbBackend Coding.plain))
          [.apply ⟨0, 0, .put [1] [10]⟩, .readRange [] none 0]).map
            (fun r => (r.1.map Prod.fst, decide r.2.backend.Within)) =
        some ([.applied .ok, .pairs [([1], [10])]], true) ∧
      (trace Wire.plain.payload (StateMachine.new (⟨∅⟩ : MemBackend))
          [.apply ⟨0, 0, .put [1] [10]⟩, .readRange [] none 0]).map (fun r => r.1.map Prod.fst) =
        some [.applied .ok, .pairs []] := by
  constructor
  · exact Runs.reached (Host.exec Coding.plain) Host.Numberable (Host.new "sm")
      [.start DbBackend.options 9, .call (.writeBatch [([1], some [10])] 9), .call (.writeBatch [([1], none)] 9),
        .stopCall .flush { step := 3, keep := 19 }, .start DbBackend.options 9]
      (P := fun h => h.up = true ∧ h.engine.db.opts = DbBackend.options ∧
        (trace Wire.plain.payload (StateMachine.new (⟨.ok h.engine⟩ : DbBackend Coding.plain))
            [.restore (Wire.plain.payload.ser ⟨[], []⟩), .read [1]]).map
              (fun r => (r.1.map Prod.fst, decide r.2.backend.Within)) =
          some ([.restored, .value (some [10])], true) ∧
        (trace Wire.plain.payload (StateMachine.new (⟨∅⟩ : MemBackend))
            [.restore (Wire.plain.payload.ser ⟨[], []⟩), .read [1]]).map (fun r => r.1.map Prod.fst) =
          some [.restored, .value none]) (by decide +kernel)
  · obtain ⟨h, hr, hup, hopts, hmem, hlevels, htr⟩ := Runs.reached (Host.exec Coding.plain)
      (fun s a => s.Numberable a ∧ s.KeepsFlushed Coding.plain a) (Host.new "sm") [.start DbBackend.options 9]
      (P := fun h => h.up = true ∧ h.engine.db.opts = DbBackend.options ∧ h.engine.db.mem.iter = [] ∧
        h.engine.db.levels = [[]] ∧
        (trace Wire.plain.payload (StateMachine.new (⟨.ok h.engine⟩ : DbBackend Coding.plain))
            [.apply ⟨0, 0, .put [1] [10]⟩, .readRange [] none 0]).map
              (fun r => (r.1.map Prod.fst, decide r.2.backend.Within)) =
          some ([.applied .ok, .pairs [([1], [10])]], true) ∧
        (trace Wire.plain.payload (StateMachine.new (⟨∅⟩ : MemBackend))
            [.apply ⟨0, 0, .put [1] [10]⟩, .readRange [] none 0]).map (fun r => r.1.map Prod.fst) =
          some [.applied .ok, .pairs []]) (by decide +kernel)
    refine ⟨h, hr, hup, hopts, fun key => ?_, htr⟩
    unfold Db.getAt
    rw [MemTable.get_eq, hmem, hlevels]
    rfl

end RaftKv.Storage

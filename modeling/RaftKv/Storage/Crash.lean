import RaftKv.Storage.Refine

/-!
# Crashes

A `Host` is one directory and the process that may have it open. The process can be stopped before,
between and in the midst of the steps of a call, and again while the directory is being opened. The
bytes of the log that are not on stable storage may then be lost, from the end.

With `SyncPolicy::Always` a batch is on stable storage before `write_batch` returns. After any
number of crashes the database has all the batches that were acknowledged, and the one that was
being written either whole or not at all (`acknowledged_survive`). The exception is a batch whose
frame does not fit the length field: `append` writes `payload.len() as u32`, acknowledges the batch,
and replay takes it for a torn frame (`acknowledged_lost`).

| here | there |
| --- | --- |
| `Stop`, `Engine.stopped` | a crash between or in the midst of the steps of a call |
| `Disk.cut` | what is left of the log (`wal.rs:15-22`) |
| `.start`, `.stopStart` | `Db::open`, and a crash in it |
-/

namespace RaftKv.Storage

open Versions Db List

/-! ## What a crash leaves -/

/-- The first `n` bytes of the log are left. -/
def Disk.cut (d : Disk) (n : Nat) : Disk := { d with wal := d.wal.map (·.take n), synced := (d.log.take n).length }

/-- The process is stopped after a number of steps. A table that is just being written may then be anything. -/
structure Stop where
  step : Nat
  junk : Option (Option Bytes) := none
  /-- How much of the log is left. -/
  keep : Nat
deriving DecidableEq, Repr

def Engine.stopped (g : Engine) (p : Stop) : Disk :=
  match g.steps[p.step]? with
  | none => g.disk
  | some s =>
    match s.effect, p.junk with
    | .writeTable id _, some file => s.disk.setTable id file
    | _, _ => s.disk

/-- The engine when a program has returned or failed; its steps are those of the program. -/
def EngineM.final {α : Type} (x : EngineM α) (g : Engine) : Engine :=
  match x { g with steps := [] } with
  | .ok _ g | .error _ g => g

variable {C : Coding} {dir : String} {D Z : Prop} {opts : Options} {snaps : OrdMap Nat Nat} {H H' : Set Entry}
  {n n' : Nat}
  {g g' : Engine} {d : Disk} {I : Disk → Db → Prop} {α : Type} {x : EngineM α}

theorem Disk.log_cut (d : Disk) (n : Nat) : (d.cut n).log = d.log.take n := by
  unfold Disk.cut Disk.log
  cases d.wal <;> simp

theorem Disk.log_cut_of_le (h : d.log.length ≤ n) : (d.cut n).log = d.log := by
  rw [Disk.log_cut, take_of_length_le h]

theorem Disk.synced_cut (d : Disk) (n : Nat) : (d.cut n).synced = (d.cut n).log.length := by
  rw [Disk.log_cut]
  rfl

theorem Engine.Safe.stopped (h : g.Safe I) (p : Stop) : ∃ db, I (g.stopped p) db := by
  unfold Engine.stopped
  split
  · exact h.1
  · rename_i s hs
    obtain ⟨db, hdb, -, hjunk⟩ := (h.2 s (mem_of_getElem? hs)).holds
    split
    · rename_i id file junk heff _
      exact ⟨db, hjunk _ _ heff _⟩
    · exact ⟨db, hdb⟩

theorem final_safe {Q : α → Engine → Prop}
    (hx : Meets x { g with steps := [] } (fun a g' => Q a g' ∧ g'.Safe I) (Stops I))
    (hfit : (x.final g).fits = true) : (x.final g).Safe I := by
  unfold EngineM.final at *
  unfold Meets Ensures at hx
  split at hx <;> rename_i hr <;> simp only [hr] at hfit ⊢
  · exact (hx hfit).2
  · exact (hx hfit).2

theorem FitsBack.final (hx : FitsBack x) (hfit : (x.final g).fits = true) : g.fits = true := by
  have hback := hx { g with steps := [] }
  unfold EngineM.final at hfit
  unfold Ensures at hback
  split at hback <;> rename_i hr <;> simp only [hr] at hfit
  · exact hback hfit
  · exact hback hfit

/-! ## Hosts -/

/-- One directory, the process that may have it open, and what was written to it. -/
structure Host where
  engine : Engine
  up : Bool := false
  /-- The operations that were acknowledged, or have survived a crash. -/
  history : List Entry := []
  /-- The batch that was being written when the process was stopped. -/
  pending : List Entry := []

inductive HostAction where
  | start (opts : Options) (fuel : Nat)
  | call (c : Call)
  | snapshot
  | drop (seq : Nat)
  | stop (keep : Nat)
  | stopCall (c : Call) (p : Stop)
  | stopStart (opts : Options) (fuel : Nat) (p : Stop)
deriving DecidableEq, Repr

namespace Host

variable {s t : Host} {a : HostAction}

/-- A new directory. -/
def new (dir : String) : Host := { engine := { disk := {}, db := { dir, opts := {} } } }

/-- The process is gone, and of the files `d` what is on stable storage is left. -/
def halt (s : Host) (d : Disk) (fits : Bool) (keep : Nat) (pending : List Entry) : Option Host :=
  if d.synced ≤ keep then
    some { s with engine := { s.engine with disk := d.cut keep, fits }, up := false, pending }
  else none

/-- A database that is opened has the batch in flight if it has its numbers. -/
def survived (s : Host) (seq : Nat) : List Entry := if seq = s.history.length then s.history else s.history ++ s.pending

def exec (C : Coding) (s : Host) : HostAction → Option Host
  | .start opts fuel =>
    if s.up then none
    else ((openDir C s.engine.db.dir opts fuel).finish (s.engine.close s.engine.db.dir opts)).map fun engine =>
      { engine, up := true, history := s.survived engine.db.seq }
  | .call c =>
    if s.up then
      ((c.run C).finish s.engine).map fun engine => { s with engine, history := s.history ++ c.entries s.engine.db.seq }
    else none
  | .snapshot =>
    if s.up then
      match s.engine.db.snapshot with
      | .ok (_, db) => some { s with engine := { s.engine with db } }
      | .error _ => none
    else none
  | .drop seq =>
    if s.up then some { s with engine := { s.engine with db := s.engine.db.dropSnapshot seq } } else none
  | .stop keep => if s.up then s.halt s.engine.disk s.engine.fits keep [] else none
  | .stopCall c p =>
    if s.up then
      let g := (c.run C).final s.engine
      s.halt (g.stopped p) g.fits p.keep (c.entries s.engine.db.seq)
    else none
  | .stopStart opts fuel p =>
    if s.up then none
    else
      let g := (openDir C s.engine.db.dir opts fuel).final (s.engine.close s.engine.db.dir opts)
      s.halt (g.stopped p) g.fits p.keep s.pending

/-- The numbers of a batch fit `u64`. -/
def Numberable (s : Host) : HostAction → Prop
  | .call (.writeBatch ops _) | .stopCall (.writeBatch ops _) _ => s.engine.db.seq + 1 + ops.length < 2 ^ 64
  | _ => True

/-- Every batch is synced before it is acknowledged. -/
def Synced : HostAction → Prop
  | .start opts _ | .stopStart opts _ _ => opts.sync = .always
  | _ => True

instance (s : Host) : (a : HostAction) → Decidable (s.Numberable a)
  | .call (.writeBatch ops _) | .stopCall (.writeBatch ops _) _ =>
    inferInstanceAs (Decidable (s.engine.db.seq + 1 + ops.length < 2 ^ 64))
  | .call .flush | .call (.maybeCompact _) | .stopCall .flush _ | .stopCall (.maybeCompact _) _ => isTrue trivial
  | .start _ _ | .snapshot | .drop _ | .stop _ | .stopStart _ _ _ => isTrue trivial

instance : (a : HostAction) → Decidable (Synced a)
  | .start opts _ | .stopStart opts _ _ => inferInstanceAs (Decidable (opts.sync = .always))
  | .call _ | .snapshot | .drop _ | .stop _ | .stopCall _ _ => isTrue trivial

theorem halt_eq_some {fits : Bool} {keep : Nat} {pending : List Entry} (h : s.halt d fits keep pending = some t) :
    d.synced ≤ keep ∧
      t = { s with engine := { s.engine with disk := d.cut keep, fits }, up := false, pending } := by
  unfold halt at h
  split at h
  · cases h
    exact ⟨‹_›, rfl⟩
  · cases h

/-- What each action does. -/
inductive Moves (C : Coding) (s : Host) : HostAction → Host → Prop
  | start {opts : Options} {fuel : Nat} {g : Engine} (hup : s.up = false)
      (hg : (openDir C s.engine.db.dir opts fuel).finish (s.engine.close s.engine.db.dir opts) = some g) :
      Moves C s (.start opts fuel) { engine := g, up := true, history := s.survived g.db.seq }
  | call {c : Call} {g : Engine} (hup : s.up = true) (hg : (c.run C).finish s.engine = some g) :
      Moves C s (.call c) { s with engine := g, history := s.history ++ c.entries s.engine.db.seq }
  | snapshot {seq : Nat} {db : Db} (hup : s.up = true) (hs : s.engine.db.snapshot = .ok (seq, db)) :
      Moves C s .snapshot { s with engine := { s.engine with db } }
  | drop {seq : Nat} (hup : s.up = true) :
      Moves C s (.drop seq) { s with engine := { s.engine with db := s.engine.db.dropSnapshot seq } }
  | stop {keep : Nat} {t : Host} (hup : s.up = true) (ht : s.halt s.engine.disk s.engine.fits keep [] = some t) :
      Moves C s (.stop keep) t
  | stopCall {c : Call} {p : Stop} {g : Engine} {t : Host} (hup : s.up = true) (hg : (c.run C).final s.engine = g)
      (ht : s.halt (g.stopped p) g.fits p.keep (c.entries s.engine.db.seq) = some t) : Moves C s (.stopCall c p) t
  | stopStart {opts : Options} {fuel : Nat} {p : Stop} {g : Engine} {t : Host} (hup : s.up = false)
      (hg : (openDir C s.engine.db.dir opts fuel).final (s.engine.close s.engine.db.dir opts) = g)
      (ht : s.halt (g.stopped p) g.fits p.keep s.pending = some t) : Moves C s (.stopStart opts fuel p) t

theorem moves_of_exec (h : s.exec C a = some t) : s.Moves C a t := by
  cases a <;> simp only [exec] at h <;> split at h <;> try cases h
  case start opts fuel hup =>
    obtain ⟨g, hg, rfl⟩ := Option.map_eq_some_iff.1 h
    exact .start (Bool.eq_false_iff.2 hup) hg
  case call c hup =>
    obtain ⟨g, hg, rfl⟩ := Option.map_eq_some_iff.1 h
    exact .call hup hg
  case snapshot hup =>
    split at h
    · cases h
      exact .snapshot hup ‹_›
    · cases h
  case drop seq hup => exact .drop hup
  case stop keep hup => exact .stop hup h
  case stopCall c p hup => exact .stopCall hup rfl h
  case stopStart opts fuel p hup => exact .stopStart (Bool.eq_false_iff.2 hup) rfl h

/-- A length that was cut off stays cut off. -/
theorem fits_of_exec (h : s.exec C a = some t) (hfit : t.engine.fits = true) : s.engine.fits = true := by
  cases moves_of_exec h with
  | @start opts _ _ _ hg => exact (fitsBack_openDir C _ _ _).finish (g := s.engine.close s.engine.db.dir opts) hg hfit
  | call _ hg => exact (fitsBack_run C _).finish hg hfit
  | snapshot | drop => exact hfit
  | stop _ ht =>
    obtain ⟨-, rfl⟩ := halt_eq_some ht
    exact hfit
  | stopCall _ hg ht =>
    obtain ⟨-, rfl⟩ := halt_eq_some ht
    exact (fitsBack_run C _).final (hg.symm ▸ hfit)
  | @stopStart opts _ _ _ _ _ hg ht =>
    obtain ⟨-, rfl⟩ := halt_eq_some ht
    exact (fitsBack_openDir C _ _ _).final (g := s.engine.close s.engine.db.dir opts) (hg.symm ▸ hfit)

end Host

/-! ## Acknowledged batches -/

/-- Whatever is left of the log, the directory is as it should be. -/
def Survives (P : Disk → Prop) (d : Disk) (_ : Db) : Prop := ∀ k, d.synced ≤ k → P (d.cut k)

theorem Recoverable.cut (h : Recoverable C dir H n d) (hset : d.synced = d.log.length) {k : Nat} (hk : d.synced ≤ k) :
    Recoverable C dir H n (d.cut k) := by
  obtain ⟨m, levels, bs, tail, hd⟩ := h
  refine ⟨m, levels, bs, tail, hd.withTail (d.cut k) rfl rfl ?_ hd.torn⟩
  rw [Disk.log_cut_of_le (hset ▸ hk)]
  exact hd.log_eq

theorem length_frames_take_le (bs : List WalBatch) (j : Nat) :
    (frames C (bs.take j)).length ≤ (frames C bs).length := by
  conv_rhs => rw [← take_append_drop j bs, frames_append, length_append]
  exact Nat.le_add_right _ _

/-- While a frame is written to a log that is on stable storage, the batch is there whole or not at all. -/
theorem Inv.appends (hi : Inv C dir (LogRel.clean C True Z) opts snaps H n g) {ops : List (Bytes × Option Bytes)}
    (hne : ops ≠ []) (hb : Frameable C { firstSeq := n + 1, ops }) (hlt : n + 1 + ops.length < 2 ^ 64) :
    Appends C (Survives fun d => Recoverable C dir H n d ∨
      Recoverable C dir ({ e | e ∈ numberFrom (n + 1) ops } ∪ H) (n + ops.length) d) g.disk
        { firstSeq := n + 1, ops } := by
  obtain ⟨⟨bs, hwal, hbs, hmem⟩, hok⟩ := hi.log
  have hold : g.disk.log = frames C bs := by rw [Disk.log, hwal]; rfl
  have hset : g.disk.synced = (frames C bs).length := hold ▸ hok.settled trivial
  have hbs' : ∀ b ∈ bs ++ [{ firstSeq := n + 1, ops }], Frameable C b := by
    intro b hb'
    rcases mem_append.1 hb' with hb' | hb'
    · exact hbs b hb'
    · rw [mem_singleton.1 hb']
      exact hb
  have hnew : g.disk.log ++ frame C { firstSeq := n + 1, ops } = frames C (bs ++ [{ firstSeq := n + 1, ops }]) := by
    rw [frames_append, frames_singleton, ← hold]
  obtain ⟨m, -, hd⟩ := hi.image bs hwal hbs hmem
  have hi' := hi.written (V := fun _ _ _ _ => True)
    (d := g.disk.apply C (.walWrite (frame C { firstSeq := n + 1, ops })))
    (b := { firstSeq := n + 1, ops }) rfl hne hlt rfl rfl trivial
  obtain ⟨m', -, hd'⟩ := hi'.image (bs ++ [{ firstSeq := n + 1, ops }]) (congrArg some hnew) hbs'
    (by rw [replayed_concat, ← hmem])
  refine ⟨⟨g.db, fun k hk => ?_⟩, g.db, fun k hk => .inr ?_⟩
  · -- the frame may be torn
    obtain ⟨j, tail, htake, htorn, hj⟩ := frames_take hbs' [] rfl k
    have hcut : ((g.disk.apply C (.walWrite (frame C { firstSeq := n + 1, ops }))).cut k).log =
        frames C (List.take j (bs ++ [{ firstSeq := n + 1, ops }])) ++ tail := by
      rw [← htake, append_nil, ← hnew]
      rfl
    have hle : bs.length ≤ j := by
      by_contra hlt'
      have hk' := hj (by simp; omega)
      rw [take_append_of_le_length (by omega)] at hk'
      have hshort := length_frames_take_le (C := C) bs (j + 1)
      have hk₀ : g.disk.synced ≤ k := hk
      omega
    rcases Nat.eq_or_lt_of_le hle with rfl | hlt'
    · rw [take_left] at hcut
      exact .inl ⟨m, _, bs, tail, hd.withTail ((g.disk.apply C _).cut k) rfl rfl hcut htorn⟩
    · rw [take_of_length_le (by simp; omega)] at hcut
      exact .inr ⟨m', _, _, tail, hd'.withTail ((g.disk.apply C _).cut k) rfl rfl hcut htorn⟩
  · have hr : Recoverable C dir ({ e | e ∈ numberFrom (n + 1) ops } ∪ H) (n + ops.length)
        ((g.disk.apply C (.walWrite (frame C { firstSeq := n + 1, ops }))).apply C .walSync) :=
      ⟨m', _, _, [], hd'.whole (Disk.apply C _ .walSync) rfl rfl hnew⟩
    exact hr.cut rfl hk

theorem Numbered.left {h p : List Entry} (hn : Numbered (h ++ p)) : Numbered h := by
  unfold Numbered at *
  rw [map_append, length_append, ← range'_append_1] at hn
  exact append_inj_left hn (by simp)

namespace Host

variable {s t : Host} {a : HostAction}

/-- The database has what was acknowledged. A directory that is not open has this, perhaps with the batch in flight. -/
structure Lasts (C : Coding) (dir : String) (s : Host) : Prop where
  numbered : Numbered (s.history ++ s.pending)
  dir_eq : s.engine.db.dir = dir
  opened : s.up = true → s.pending = [] ∧ ∃ opts, opts.sync = .always ∧
    Inv C dir (LogRel.clean C True False) opts s.engine.db.snapshots { e | e ∈ s.history } s.history.length s.engine
  stopped : s.up = false → s.engine.disk.synced = s.engine.disk.log.length ∧
    ∃ h, (h = s.history ∨ h = s.history ++ s.pending) ∧ Recoverable C dir { e | e ∈ h } h.length s.engine.disk

theorem survived_eq {h : List Entry} (hh : h = s.history ∨ h = s.history ++ s.pending) : s.survived h.length = h := by
  unfold survived
  rcases hh with rfl | rfl
  · rw [if_pos rfl]
  · split
    · rename_i hlen
      rw [length_append, Nat.add_eq_left, length_eq_zero_iff] at hlen
      rw [hlen, append_nil]
    · rfl

theorem lasts_new (C : Coding) (dir : String) : (new dir).Lasts C dir := by
  refine ⟨rfl, rfl, fun hup => (by cases hup), fun _ => ⟨rfl, [], .inl rfl, ?_⟩⟩
  have hnone : { e | e ∈ ([] : List Entry) } = (∅ : Set Entry) := Set.eq_empty_of_forall_notMem fun e he =>
    (by cases he)
  rw [hnone]
  exact recoverable_empty

/-- The directory is opened, with or without the batch in flight. -/
theorem Lasts.start (hl : s.Lasts C dir) (hup : s.up = false) {fuel : Nat} (hsync : opts.sync = .always)
    (hg : (openDir C s.engine.db.dir opts fuel).finish (s.engine.close s.engine.db.dir opts) = some g)
    (hfit : g.fits = true) : Lasts C dir { engine := g, up := true, history := s.survived g.db.seq } := by
  obtain ⟨hset, h, hh, hr⟩ := hl.stopped hup
  rw [hl.dir_eq] at hg
  have hi := hr.opened (D := True) (Z := False) ⟨fun _ => hset, False.elim⟩ hg hfit
  have hnum : Numbered h := by
    rcases hh with rfl | rfl
    · exact hl.numbered.left
    · exact hl.numbered
  have hseq : s.survived g.db.seq = h := by rw [hi.seq_eq, survived_eq hh]
  rw [hseq]
  refine ⟨?_, hi.dir_eq, fun _ => ⟨rfl, opts, hsync, ?_⟩, fun hup' => (by cases hup')⟩
  · rw [append_nil]
    exact hnum
  · rw [hi.snaps_eq]
    exact hi

theorem Lasts.call (hl : s.Lasts C dir) (hup : s.up = true) {c : Call} (hg : (c.run C).finish s.engine = some g)
    (hfit : g.fits = true) : Lasts C dir { s with engine := g, history := s.history ++ c.entries s.engine.db.seq } := by
  obtain ⟨hnone, opts, hsync, hi⟩ := hl.opened hup
  have hi' := hi.called (fun _ => hsync) hg hfit
  have hnum := hl.numbered.left.call c
  rw [hi.seq_eq]
  refine ⟨?_, hi'.dir_eq, fun _ => ⟨hnone, opts, hsync, ?_⟩, fun hup' => absurd hup (by rw [hup']; decide)⟩
  · rw [hnone, append_nil]
    exact hnum
  · rw [hi'.snaps_eq]
    exact hi'

/-- The files of a process that was stopped, and what is left of the log. -/
theorem Lasts.halted (hl : s.Lasts C dir) {pending : List Entry} {fits : Bool} {k : Nat}
    (hnum : Numbered (s.history ++ pending))
    (hr : Recoverable C dir { e | e ∈ s.history } s.history.length (d.cut k) ∨
      Recoverable C dir { e | e ∈ s.history ++ pending } (s.history ++ pending).length (d.cut k)) :
    Lasts C dir { s with engine := { s.engine with disk := d.cut k, fits }, up := false, pending } := by
  refine ⟨hnum, hl.dir_eq, fun hup => (by cases hup), fun _ => ⟨Disk.synced_cut d k, ?_⟩⟩
  rcases hr with hr | hr
  · exact ⟨s.history, .inl rfl, hr⟩
  · exact ⟨s.history ++ pending, .inr rfl, hr⟩

theorem Lasts.stop (hl : s.Lasts C dir) (hup : s.up = true) {k : Nat} (hk : s.engine.disk.synced ≤ k) :
    Lasts C dir { s with engine := { s.engine with disk := s.engine.disk.cut k }, up := false, pending := [] } := by
  obtain ⟨hnone, opts, -, hi⟩ := hl.opened hup
  refine hl.halted (by rw [append_nil]; exact hl.numbered.left) (.inl ?_)
  exact hi.recoverable.cut (hi.log.2.settled trivial) hk

theorem Lasts.stopCall (hl : s.Lasts C dir) (hup : s.up = true) {c : Call} {p : Stop}
    (hnum : s.Numberable (.stopCall c p)) (hfit : ((c.run C).final s.engine).fits = true)
    (hk : (((c.run C).final s.engine).stopped p).synced ≤ p.keep) :
    Lasts C dir
      { s with
        engine := { s.engine with
          disk := (((c.run C).final s.engine).stopped p).cut p.keep, fits := ((c.run C).final s.engine).fits }
        up := false
        pending := c.entries s.engine.db.seq } := by
  obtain ⟨hnone, opts, hsync, hi⟩ := hl.opened hup
  have hsettled : ∀ {H n g}, Inv C dir (LogRel.clean C True False) opts s.engine.db.snapshots H n g →
    ∀ k, g.disk.synced ≤ k →
      Recoverable C dir H n (g.disk.cut k) := fun hi k hk => hi.recoverable.cut (hi.log.2.settled trivial) hk
  have hspec := Call.run_clean (g := { s.engine with steps := [] })
    (I := Survives fun d => Recoverable C dir { e | e ∈ s.history } s.history.length d ∨
      Recoverable C dir ({ e | e ∈ c.entries s.history.length } ∪ { e | e ∈ s.history })
        (s.history.length + (c.entries s.history.length).length) d)
    (hi.same rfl rfl) ⟨⟨s.engine.db, fun k hk => .inl (hsettled hi k hk)⟩, fun p hp => (by cases hp)⟩
      (fun _ => hsync) c
    (fun ops fuel hc hne hb => ?_) fun g' hi' k hk => .inr (hsettled hi' k hk)
  · obtain ⟨_, hs⟩ := (final_safe hspec hfit).stopped p
    have hr := hs p.keep hk
    rw [entries_union, ← length_append] at hr
    exact hl.halted (hi.seq_eq ▸ hl.numbered.left.call c) (hi.seq_eq ▸ hr)
  · subst hc
    have hlt : s.history.length + 1 + ops.length < 2 ^ 64 := hi.seq_eq ▸ hnum
    have hi₀ : Inv C dir (LogRel.clean C True False) opts s.engine.db.snapshots { e | e ∈ s.history } s.history.length
        { s.engine with steps := [] } := hi.same rfl rfl
    have happ := hi₀.appends hne hb hlt
    rw [show (Call.entries s.history.length (.writeBatch ops fuel)).length = ops.length from length_numberFrom _ _]
    exact happ

theorem Lasts.stopStart (hl : s.Lasts C dir) (hup : s.up = false) {fuel : Nat} {p : Stop}
    (hg : (openDir C s.engine.db.dir opts fuel).final (s.engine.close s.engine.db.dir opts) = g)
    (hfit : g.fits = true) (hk : (g.stopped p).synced ≤ p.keep) :
    Lasts C dir
      { s with engine := { s.engine with disk := (g.stopped p).cut p.keep, fits := g.fits }, up := false } := by
  obtain ⟨hset, h, hh, hr⟩ := hl.stopped hup
  rw [hl.dir_eq] at hg
  have hspec := openDir_spec (g := { s.engine.close dir opts with steps := [] }) (D := True) (Z := False)
    (I := Survives (Recoverable C dir { e | e ∈ h } h.length)) opts hr ⟨fun _ => hset, False.elim⟩
    ⟨⟨s.engine.db, fun k hk => hr.cut hset hk⟩, fun p hp => (by cases hp)⟩
    (fun d hr hok => ⟨s.engine.db, fun k hk => hr.cut (hok.settled trivial) hk⟩)
    (fun g hi k hk => hi.recoverable.cut (hi.log.2.settled trivial) hk) fuel
  obtain ⟨_, hs⟩ := (hg ▸ final_safe hspec.stops (hg.symm ▸ hfit) : g.Safe _).stopped p
  refine hl.halted hl.numbered ?_
  rcases hh with rfl | rfl
  · exact .inl (hs p.keep hk)
  · exact .inr (hs p.keep hk)

theorem Lasts.withSnapshots (hl : s.Lasts C dir) (hup : s.up = true) {db : Db}
    (hdb : ∀ {W opts snaps H n}, Inv C dir W opts snaps H n s.engine →
      Inv C dir W opts db.snapshots H n { s.engine with db }) :
    Lasts C dir { s with engine := { s.engine with db } } := by
  obtain ⟨hnone, opts, hsync, hi⟩ := hl.opened hup
  exact ⟨hl.numbered, (hdb hi).dir_eq, fun _ => ⟨hnone, opts, hsync, hdb hi⟩,
    fun hup' => absurd hup (by rw [hup']; decide)⟩

/-- The directory can be opened if the replayed log is within the budget of the memtable. -/
theorem start_small (opts : Options) (hup : s.up = false) (hdir : s.engine.db.dir = dir)
    (hr : Recoverable C dir H n s.engine.disk) (hok : LogOk C D Z s.engine.disk.log s.engine.disk.synced)
    (hsmall : (replayed (replay C s.engine.disk.log).1).bytes < opts.memtableBytes) (fuel : Nat) :
    ∃ g', s.exec C (.start opts fuel) = some { engine := g', up := true, history := s.survived n } ∧
      Inv C dir (LogRel.clean C D Z) opts ∅ H n g' ∧ g'.db.mem = replayed (replay C s.engine.disk.log).1 := by
  obtain ⟨g', hg', -, hi, hmem⟩ := finish_of_ensures (g := s.engine.close dir opts)
    (openDir_small (g := { s.engine.close dir opts with steps := [] }) opts rfl hr hok hsmall fuel)
  refine ⟨g', ?_, hi, hmem⟩
  rw [exec, if_neg (by rw [hup]; decide), hdir, hg', Option.map_some, hi.seq_eq]

theorem write_small (hup : s.up = true) (ops : List (Bytes × Option Bytes)) (hne : ops ≠ [])
    (hlt : s.engine.db.seq + 1 + ops.length < 2 ^ 64)
    (hsmall : (s.engine.db.mem.insertAll (numberFrom (s.engine.db.seq + 1) ops)).bytes < s.engine.db.opts.memtableBytes)
    (fuel : Nat) :
    ∃ g', s.exec C (.call (.writeBatch ops fuel)) =
        some { s with engine := g', history := s.history ++ numberFrom (s.engine.db.seq + 1) ops } ∧
      g'.disk.manifest = s.engine.disk.manifest ∧ g'.disk.table = s.engine.disk.table ∧
      g'.disk.wal = some (s.engine.disk.log ++ frame C { firstSeq := s.engine.db.seq + 1, ops }) ∧
      g'.db.dir = s.engine.db.dir := by
  obtain ⟨g', hg', -, hfacts⟩ := finish_of_ensures (x := Call.run C (.writeBatch ops fuel)) (g := s.engine)
    (Q := fun _ g' => g'.disk.manifest = s.engine.disk.manifest ∧ g'.disk.table = s.engine.disk.table ∧
      g'.disk.wal = some (s.engine.disk.log ++ frame C { firstSeq := s.engine.db.seq + 1, ops }) ∧
      g'.db.dir = s.engine.db.dir)
    ((writeBatch_small (g := { s.engine with steps := [] }) ops hne hlt hsmall fuel).bind fun _ _ h => Ensures.pure h)
  refine ⟨g', ?_, hfacts⟩
  rw [exec, if_pos hup, hg']
  rfl

/-- As long as no length is cut off. -/
theorem Lasts.exec (hl : s.engine.fits = true → s.Lasts C dir) (hn : s.Numberable a) (hsync : Synced a)
    (he : s.exec C a = some t) (hfit : t.engine.fits = true) : t.Lasts C dir := by
  have hl := hl (fits_of_exec he hfit)
  cases moves_of_exec he with
  | start hup hg => exact hl.start hup hsync hg hfit
  | call hup hg => exact hl.call hup hg hfit
  | snapshot hup hs => exact hl.withSnapshots hup fun hi => hi.snapshot hs
  | drop hup => exact hl.withSnapshots hup fun hi => hi.dropSnapshot _
  | stop hup ht =>
    obtain ⟨hk, rfl⟩ := halt_eq_some ht
    exact hl.stop hup hk
  | stopCall hup hg ht =>
    subst hg
    obtain ⟨hk, rfl⟩ := halt_eq_some ht
    exact hl.stopCall hup hn hfit hk
  | stopStart hup hg ht =>
    obtain ⟨hk, rfl⟩ := halt_eq_some ht
    exact hl.stopStart hup hg hfit hk

end Host

/-- In every run with `SyncPolicy::Always`, whatever crashes there are, an open database has all that was acknowledged,
numbered without gaps up to its `seq`. A directory that is not open can be opened, if only the replayed log is
within the budget of the memtable, and else `open` can only run into one of its limits. -/
theorem acknowledged_survive (C : Coding) (dir : String) {s : Host}
    (hr : Runs (Host.exec C) (fun s a => s.Numberable a ∧ Host.Synced a) (Host.new dir) s)
    (hfit : s.engine.fits = true) :
    (s.up = true → Numbered s.history ∧ s.engine.db.seq = s.history.length ∧
      ∀ key, Db.getAt C s.engine key s.engine.db.seq = .ok (lastWrite s.history key s.engine.db.seq)) ∧
    (s.up = false → ∀ opts fuel,
      (∀ e g, openDir C s.engine.db.dir opts fuel (s.engine.close s.engine.db.dir opts) = .error e g → g.fits = true →
        e.IsLimit) ∧
      ((replayed (replay C s.engine.disk.log).1).bytes < opts.memtableBytes →
        (s.exec C (.start opts fuel)).isSome)) := by
  have hl : s.engine.fits = true → s.Lasts C dir :=
    hr.invariant (P := fun s => s.engine.fits = true → s.Lasts C dir) (fun _ => Host.lasts_new C dir)
      fun hl hok he => Host.Lasts.exec hl hok.1 hok.2 he
  have hl := hl hfit
  refine ⟨fun hup => ?_, fun hup opts fuel => ?_⟩
  · obtain ⟨-, opts, -, hi⟩ := hl.opened hup
    exact ⟨hl.numbered.left, hi.seq_eq, fun key => hi.getAt_eq hl.numbered.left key (.inl rfl)⟩
  · obtain ⟨hset, h, hh, hr⟩ := hl.stopped hup
    have hok : LogOk C True False s.engine.disk.log s.engine.disk.synced := ⟨fun _ => hset, False.elim⟩
    refine ⟨fun e g' herr hfit' => ?_, fun hsmall => ?_⟩
    · rw [hl.dir_eq] at herr
      have hspec := openDir_spec (g := s.engine.close dir opts) (I := fun _ _ => True) opts hr hok
        (safe_true (s.engine.close dir opts)) (fun _ _ _ => ⟨s.engine.db, trivial⟩) (fun _ _ => trivial) fuel
      exact (hspec.of_error herr hfit').1.1
    · obtain ⟨g', he, -⟩ := Host.start_small opts hup hl.dir_eq hr hok hsmall fuel
      rw [he]
      rfl

/-- A batch in flight that survives, a crash between the two last steps of a flush, and one while the directory is
opened. -/
theorem acknowledged_survive_crashes :
    ∃ s, Runs (Host.exec Coding.plain) (fun s a => s.Numberable a ∧ Host.Synced a) (Host.new "db") s ∧
      s.engine.fits = true ∧ s.up = true ∧ s.history = [([1], 1, some [10]), ([1], 2, some [11]), ([2], 3, none)] ∧
      Db.getAt Coding.plain s.engine [1] s.engine.db.seq = .ok (some [11]) := by
  obtain ⟨s, hr, hfit, hup, hh, hw⟩ := Runs.reached (Host.exec Coding.plain) (fun s a => s.Numberable a ∧ Host.Synced a)
    (Host.new "db")
    [.start { l0Trigger := 1 } 9, .call (.writeBatch [([1], some [10])] 9),
      .stopCall (.writeBatch [([1], some [11])] 9) { step := 1, keep := 1000 }, .start {} 9,
      .call (.writeBatch [([2], none)] 9), .stopCall .flush { step := 3, keep := 1000 },
      .stopStart { memtableBytes := 1 } 9 { step := 1, junk := some none, keep := 1000 },
        .start { memtableBytes := 1, l0Trigger := 1 } 9]
    (P := fun s => s.engine.fits = true ∧ s.up = true ∧
      s.history = [([1], 1, some [10]), ([1], 2, some [11]), ([2], 3, none)] ∧
      lastWrite s.history [1] s.engine.db.seq = some [11]) (by decide +kernel)
  refine ⟨s, hr, hfit, hup, hh, ?_⟩
  rw [((acknowledged_survive Coding.plain "db" hr hfit).1 hup).2.2 [1], hw]

/-! ## A batch that is too long -/

theorem length_ser_one (v : Bytes) :
    (Coding.plain.batch.ser { firstSeq := 1, ops := [([], some v)] }).length = 2 * v.length + 7 := by
  show (WalBatch.format.write _).length = _
  simp only [WalBatch.format, Format.via, Format.pair, Format.list, Format.nat, Format.bytes, Format.option,
    Format.sum, Format.byte]
  simp
  omega

/-- The payload takes `2 ^ 32 + 1` bytes, and its frame says that it takes one. -/
theorem readFrame_oversize {v : Bytes} (hv : v.length = 2 ^ 31 - 3) :
    readFrame Coding.plain (frame Coding.plain { firstSeq := 1, ops := [([], some v)] }) = none := by
  have hlen : (Coding.plain.batch.ser { firstSeq := 1, ops := [([], some v)] }).length = 2 ^ 32 + 1 := by
    rw [length_ser_one, hv]
    rfl
  have h4 : (frame Coding.plain { firstSeq := 1, ops := [([], some v)] }).take 4 = leBytes 4 (2 ^ 32 + 1) := by
    rw [frame, append_assoc, hlen]
    exact take_left' (length_leBytes ..)
  have h8 : (frame Coding.plain { firstSeq := 1, ops := [([], some v)] }).drop 8 =
      Coding.plain.batch.ser { firstSeq := 1, ops := [([], some v)] } := by
    exact drop_left' (by simp)
  have hone : leNat (leBytes 4 (2 ^ 32 + 1)) = 1 := leNat_leBytes 4 (2 ^ 32 + 1)
  -- the length field says one byte, from which no batch can be decoded
  unfold readFrame
  rw [if_neg (by rw [length_frame]; omega)]
  simp only [h4, h8, hone]
  split
  · rfl
  · split <;> rfl

/-- A value of 2 GiB is written, synced and acknowledged, and is gone when the directory is opened again. -/
theorem acknowledged_lost :
    ∃ s, Runs (Host.exec Coding.plain) (fun s a => s.Numberable a ∧ Host.Synced a) (Host.new "db") s ∧ s.up = true ∧
      ∃ v, s.history = [([], 1, some v)] ∧ Db.getAt Coding.plain s.engine [] s.engine.db.seq = .ok none := by
  obtain ⟨v, hv⟩ : ∃ v : Bytes, v.length = 2 ^ 31 - 3 := ⟨List.replicate (2 ^ 31 - 3) 0, length_replicate⟩
  -- the directory is created
  obtain ⟨g₁, he₁, hi₁, hmem₁⟩ := Host.start_small (C := Coding.plain) (s := Host.new "db") (D := True) (Z := False)
    { memtableBytes := 2 ^ 40 } rfl rfl recoverable_empty logOk_empty (by decide +kernel) 0
  have hempty : g₁.db.mem = {} := by
    rw [hmem₁, show (Host.new "db").engine.disk.log = frames Coding.plain [] from rfl, replay_whole
      fun b hb => (by cases hb)]
    rfl
  -- the batch is written
  have hsmall : (g₁.db.mem.insertAll (numberFrom (g₁.db.seq + 1) [([], some v)])).bytes < g₁.db.opts.memtableBytes := by
    rw [hempty, hi₁.opts_eq]
    show 0 + (0 + v.length + 24) < 2 ^ 40
    omega
  obtain ⟨g₂, he₂, hm₂, ht₂, hw₂, hdir₂⟩ := Host.write_small (C := Coding.plain)
    (s := { engine := g₁, up := true, history := (Host.new "db").survived 0 }) rfl [([], some v)] (by simp)
    (by simp [hi₁.seq_eq]) hsmall 0
  simp only [hi₁.seq_eq] at hw₂
  -- the process is stopped, and all of the log is left; but its end is no frame
  obtain ⟨bs, hwal₁, hbs, hmem⟩ := hi₁.log.1
  obtain ⟨m, -, hd₁⟩ := hi₁.image bs hwal₁ hbs hmem
  have hlog : (g₂.disk.cut (g₂.disk.log.length + g₂.disk.synced)).log =
      frames Coding.plain bs ++ frame Coding.plain { firstSeq := 1, ops := [([], some v)] } := by
    rw [Disk.log_cut_of_le (Nat.le_add_right _ _), Disk.log, hw₂, Disk.log, hwal₁]
    rfl
  have hd₃ := hd₁.withTail (g₂.disk.cut (g₂.disk.log.length + g₂.disk.synced)) hm₂ ht₂ hlog (readFrame_oversize hv)
  have hrep : (replay Coding.plain (g₂.disk.cut (g₂.disk.log.length + g₂.disk.synced)).log).1 = bs := by
    rw [hlog, replay_frames hbs (readFrame_oversize hv)]
  obtain ⟨g₄, he₄, hi₄, -⟩ := Host.start_small (C := Coding.plain) (D := False) (Z := False) (n := 0)
    (s := { engine := { g₂ with disk := g₂.disk.cut (g₂.disk.log.length + g₂.disk.synced) }
            history := (Host.new "db").survived 0 ++ numberFrom (g₁.db.seq + 1) [([], some v)] })
    { memtableBytes := 2 ^ 40 } rfl (hdir₂.trans hi₁.dir_eq) ⟨m, _, bs, _, hd₃⟩ (Session.logOk_false _ _)
    (by simp only [hrep]; rw [← hmem, hempty]; decide) 0
  have hstop : Host.exec Coding.plain
      { engine := g₂, up := true, history := (Host.new "db").survived 0 ++ numberFrom (g₁.db.seq + 1) [([], some v)] }
      (.stop (g₂.disk.log.length + g₂.disk.synced)) =
      some { engine := { g₂ with disk := g₂.disk.cut (g₂.disk.log.length + g₂.disk.synced) }
             history := (Host.new "db").survived 0 ++ numberFrom (g₁.db.seq + 1) [([], some v)] } :=
    if_pos (Nat.le_add_left _ _)
  have hseq : g₁.db.seq = 0 := hi₁.seq_eq
  refine ⟨_, ((((Runs.refl.tail ?_ he₁).tail ?_ he₂).tail ?_ hstop).tail ?_ he₄), rfl, v, ?_, ?_⟩
  · exact ⟨trivial, rfl⟩
  · refine ⟨?_, trivial⟩
    show g₁.db.seq + 1 + 1 < 2 ^ 64
    rw [hseq]
    decide
  · exact ⟨trivial, trivial⟩
  · exact ⟨trivial, rfl⟩
  · simp [Host.survived, Host.new, numberFrom, hseq]
  · have hnone : { e | e ∈ ([] : List Entry) } = (∅ : Set Entry) := Set.eq_empty_of_forall_notMem fun e he =>
      (by cases he)
    rw [← hnone] at hi₄
    exact hi₄.getAt_eq rfl [] (.inl rfl)

end RaftKv.Storage

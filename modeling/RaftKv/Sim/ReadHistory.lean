import RaftKv.Lib.LogOrder
import RaftKv.Sim.Trials

/-!
# The whole history is linearizable

Reads join the account of `Sim.Linearize`: the log `H` with its marks explains them too. A node
answers a read from the first `p` entries of `H`, where

* `p` is at least what was committed when the read was invoked: the request is newer than the
  invocation, and the index that `read_index` hands out for it reaches everything delivered before
  the request (`ReadWatch`);
* `p` is at most what is committed when the answer arrives, since the node has applied it.

This needs that no stale echo is counted (`Trial.NoStaleEcho`); with one, reads can be stale.
-/

namespace RaftKv

open Function List

variable {W : Wire} {every : Nat} {voters : List NodeId} {hv : voters.Nodup} {g g' : Ghost} {s s' : Sim}
  {t t' : Trial} {i : NodeId} {H H' : List Entry} {mark mark' : Nat → Nat}

/-! ## The account of the reads -/

/-- `y` is what `key` holds after the first `p` entries of the log, for some `p` from `lo` to `hi`. -/
def Sees (W : Wire) (H : List Entry) (lo hi : Nat) (key : Bytes) (y : Option Bytes) : Prop :=
  ∃ p, lo ≤ p ∧ p ≤ hi ∧ y = (contents (⟨∅⟩ : MemBackend) (commands W (H.take p))).view key

theorem Sees.grow {lo hi hi' : Nat} {key : Bytes} {y : Option Bytes} (h : Sees W H lo hi key y) (hp : H <+: H')
    (hhi : hi ≤ H.length) (hle : hi ≤ hi') : Sees W H' lo hi' key y := by
  obtain ⟨p, hlo, hpi, rfl⟩ := h
  exact ⟨p, hlo, hpi.trans hle, by rw [take_eq_of_isPrefixOf hp (hpi.trans hhi)]⟩

/-- A node reads what the log holds up to its applied index. -/
theorem Linear.sees (h : Linear W voters hv g H mark s) {lo : Nat} (hlo : lo ≤ (s.node i).applied) (key : Bytes) :
    Sees W H lo H.length key ((s.node i).sm.read key) := by
  have hlen := h.sync.length_applied i
  have hbelow := h.below i
  refine ⟨(s.node i).applied, hlo, hlen ▸ hbelow.length_le, ?_⟩
  have htake : H.take (s.node i).applied = (g.led.log i).take (s.node i).applied := by
    rw [take_eq_of_isPrefixOf hbelow hlen.ge, take_take, Nat.min_self]
  rw [htake, ← (tracks_of_applyAll (h.sync.settled i).state).backend_eq]
  rfl

/-- A read was invoked at the stamp, and for the key, of `v`. -/
def Trial.Asked (t : Trial) (v : Nat × Nat × Bytes) : Prop := ∃ r ∈ t.reads, r.invoke = v.2.1 ∧ r.key = v.2.2

/-- What holds of the reads in the history. -/
structure Readers (t : Trial) : Prop where
  stamps : ∀ r ∈ t.reads, r.invoke ≤ t.sim.stamp ∧ ∀ u, r.ret = some u → r.invoke ≤ u ∧ u ≤ t.sim.stamp
  distinct : (t.reads.map ReadRecord.invoke).Nodup

/-- The read owed under the number `rid` will see everything that was committed at the invocation. -/
def Trial.Owed (voters : List NodeId) (hv : voters.Nodup) (mark : Nat → Nat) (t : Trial) (i : NodeId) (rid : Nat)
    (v : Nat × Nat × Bytes) : Prop :=
  t.Asked v ∧ ∃ del, ReadWatch voters hv i rid del t.sim.cluster ∧
    (mark v.2.1 = 0 ∨ ∃ d ∈ del, mark v.2.1 ≤ d.entry.index)

/-- An answer to a read that was invoked shows a state from since then. -/
def Trial.Told (W : Wire) (H : List Entry) (mark : Nat → Nat) (t : Trial) (r : Nat × CResp) : Prop :=
  ∀ {opTs y}, r.2 = .readDone opTs y → ∃ b ∈ t.reads, b.invoke = opTs ∧ Sees W H (mark opTs) H.length b.key y

structure ReadsOk (W : Wire) (voters : List NodeId) (hv : voters.Nodup) (H : List Entry) (mark : Nat → Nat)
    (t : Trial) :
    Prop where
  readers : Readers t
  cluster : ∃ g, Inv voters hv g t.sim.cluster ∧ ReadInv voters g t.sim.cluster
  numbers : ∀ i, NumbersBelow (t.sim.node i).nextReadId i t.sim.cluster
  reached : Reached H t.sim.cluster
  reads : ∀ i, (t.sim.node i).Reads 0 (t.Owed voters hv mark i) (fun p => (i, p) ∈ t.sim.cluster.reads)
    (t.Told W H mark)
  returned : ∀ r ∈ t.reads, ∀ u, r.ret = some u → ∃ y, r.value = some y ∧ Sees W H (mark r.invoke) (mark u) r.key y

/-- The log explains the writes and the reads. -/
def Explained (W : Wire) (voters : List NodeId) (hv : voters.Nodup) (t : Trial) : Prop :=
  ∃ g H mark, Linear W voters hv g H mark t.sim ∧ ReadsOk W voters hv H mark t

/-! ## Steps -/

section step
variable {a : SimAction} (h : ReadsOk W voters hv H mark t) (hlin : Linear W voters hv g H mark t.sim)
  (hadm : t.admits a = true) (hw : Sim.Works W every voters t.sim a t'.sim)
  (hmark : ∀ k ≤ t.sim.stamp, mark' k = mark k)
  (hkeep : ∀ r ∈ t.reads, ∃ r' ∈ t'.reads, r'.invoke = r.invoke ∧ r'.key = r.key)
include h hlin hadm hw hmark hkeep

/-- The reads that a node owes after the action, or has just served in it. -/
theorem ReadsOk.owes {rid : Nat} {v : Nat × Nat × Bytes} (ho : t.sim.Owes a i rid v) :
    Trial.Owed voters hv mark' t' i rid v := by
  obtain ⟨_, _, -, hrun⟩ := hw.run
  have hrun : Run voters ReadStep t.sim.cluster t'.sim.cluster := hrun.mono fun _ _ hok => hok.1
  have hasked : t.Asked v → t'.Asked v ∧ mark' v.2.1 = mark v.2.1 ∧ mark v.2.1 ≤ H.length := by
    rintro ⟨r, hr, hi, hk⟩
    obtain ⟨r', hr', hi', hk'⟩ := hkeep r hr
    have hle : v.2.1 ≤ t.sim.stamp := hi ▸ (h.readers.stamps r hr).1
    exact ⟨⟨r', hr', hi'.trans hi, hk'.trans hk⟩, hmark _ hle, hlin.ordered.le hle⟩
  rcases ho with ho | ⟨rfl, rfl, hok⟩
  · obtain ⟨hv', del, hw, hdel⟩ := (h.reads i).pending ho
    obtain ⟨hv', hm, -⟩ := hasked hv'
    exact ⟨hv', del, hw.run hrun, hm ▸ hdel⟩
  · -- the request has just been accepted: everything committed so far was delivered
    obtain ⟨r, hr, -, hrest⟩ := (by simpa [Trial.admits] using hadm : ∃ r ∈ t.reads, r.client = v.1 ∧ _)
    obtain ⟨hv', hm, hle⟩ := hasked ⟨r, hr, hrest⟩
    obtain ⟨g₁, hinv, hri⟩ := h.cluster
    have hnum := h.numbers i
    have hstart := ReadWatch.start hinv hri hok (fun x hx => (hnum.pending x hx).ne) fun x hx hxi =>
      (hnum.handed x hx hxi).ne
    refine ⟨hv', _, hstart.run hrun, ?_⟩
    rw [hm]
    rcases h.reached with rfl | ⟨d, hd, hidx⟩
    · exact Or.inl (Nat.le_zero.1 hle)
    · exact Or.inr ⟨d, hd, hidx ▸ hle⟩

/-- The account is kept when no read of the history is lost and the new answers are right. -/
theorem ReadsOk.exec (hlin' : Linear W voters hv g' H' mark' t'.sim) (hp : H <+: H')
    (hreach : Reached H t.sim.cluster → Reached H' t'.sim.cluster) (hreaders : Readers t')
    (hret : ∀ r ∈ t'.reads, r ∈ t.reads ∨
      ∀ u, r.ret = some u → ∃ y, r.value = some y ∧ Sees W H' (mark' r.invoke) (mark' u) r.key y) :
    ReadsOk W voters hv H' mark' t' := by
  obtain ⟨k, b, hb, hrun⟩ := hw.run
  have hreads : t.sim.cluster.reads <+: t'.sim.cluster.reads :=
    hrun.invariant (P := fun cl => t.sim.cluster.reads <+: cl.reads) (prefix_refl _)
      fun hpre _ he => hpre.trans (Cluster.exec_reads he)
  have hinvoke : ∀ r ∈ t.reads, mark' r.invoke = mark r.invoke := fun r hr => hmark _ (h.readers.stamps r hr).1
  have hnode : ∀ i, (t'.sim.node i).Reads (t.sim.node i).nextReadId (t'.Owed voters hv mark' i)
      (fun p => (i, p) ∈ t'.sim.cluster.reads) (t'.Told W H' mark') := by
    refine hw.reads (h.owes hlin hadm hw hmark hkeep) (fun {j p} hp => ?_) (fun {j} r hr hd opTs y heq => ?_)
      fun {j rid idx v} hmem ho hle opTs y heq => ?_
    · exact hp.elim (fun hp => hreads.subset ((h.reads j).ready p hp)) id
    · obtain ⟨b, hb, hi, hsees⟩ := (h.reads j).sent r hr hd heq
      obtain ⟨b', hb', hi', hk'⟩ := hkeep b hb
      refine ⟨b', hb', hi'.trans hi, ?_⟩
      rw [← hi] at hsees ⊢
      rw [hinvoke b hb, hk']
      exact hsees.grow hp le_rfl hp.length_le
    · -- served now: its index reaches what was committed at the invocation, and is applied
      obtain ⟨rfl, rfl⟩ := CResp.readDone.inj heq
      obtain ⟨⟨b, hb, hi, hkey⟩, del, hwatch, hdel⟩ := ho
      refine ⟨b, hb, hi, hkey ▸ hlin'.sees ?_ b.key⟩
      rcases hdel with h0 | ⟨d, hd, hmd⟩
      · rw [h0]; exact Nat.zero_le _
      · exact hmd.trans ((hwatch.index hmem d hd).trans hle)
  have hcl : (∃ g, Inv voters hv g t'.sim.cluster ∧ ReadInv voters g t'.sim.cluster) ∧
      ∀ i, NumbersBelow (t'.sim.node i).nextReadId i t'.sim.cluster := by
    refine hrun.invariant (P := fun cl => (∃ g, Inv voters hv g cl ∧ ReadInv voters g cl) ∧
      ∀ i, NumbersBelow (t'.sim.node i).nextReadId i cl) ⟨h.cluster, fun i => (h.numbers i).mono (hnode i).next⟩ ?_
    rintro cl cl' act ⟨⟨g₂, hinv₂, hri₂⟩, hnum⟩ hok he
    refine ⟨hri₂.exec hinv₂ hok.1 he, fun i => (hnum i).exec hinv₂.drained (fun r hr => ?_) he⟩
    obtain ⟨rfl, hlt⟩ := hok.2 hr
    exact hlt.trans_le hb
  refine ⟨hreaders, hcl.1, hcl.2, hreach h.reached,
    fun i => ⟨Nat.zero_le _, (hnode i).pending, (hnode i).ready, (hnode i).sent⟩, fun r hr u hu => ?_⟩
  rcases hret r hr with hr | hsees
  · have hle := ((h.readers.stamps r hr).2 u hu).2
    obtain ⟨y, hy, hsees⟩ := h.returned r hr u hu
    rw [hinvoke r hr, hmark u hle]
    exact ⟨y, hy, hsees.grow hp (hlin.ordered.le hle) le_rfl⟩
  · exact hsees u hu

end step

/-! ## Steps of the clients -/

/-- An event of the history takes the next stamp, at which all of the log is committed. -/
theorem Linear.stamped (h : Linear W voters hv g H mark s) :
    Linear W voters hv g H (update mark (s.stamp + 1) H.length) { s with stamp := s.stamp + 1 } := by
  have hold : ∀ {k}, k ≤ s.stamp → update mark (s.stamp + 1) H.length k = mark k :=
    fun hk => update_of_ne (by omega) ..
  refine ⟨h.sync.of_frame rfl rfl, h.holds, h.top, h.below, ?_, ?_⟩
  · refine ⟨h.clients.distinct, h.clients.seq_le, h.clients.cur, h.clients.asked, fun r hr => ?_, h.clients.answered⟩
    obtain ⟨hi, hu⟩ := h.clients.stamps r hr
    exact ⟨Nat.le_succ_of_le hi, fun u hret => Nat.le_succ_of_le (hu u hret)⟩
  · refine ⟨h.ordered.known, h.ordered.marked, h.ordered.marked_le, fun r hr => ?_, fun r hr {u y} hu hy => ?_,
      h.ordered.sent⟩
    · rw [hold (h.clients.stamps r hr).1]
      exact h.ordered.invoked r hr
    · rw [hold ((h.clients.stamps r hr).2 u hu)]
      exact h.ordered.returned r hr hu hy

/-- An event of the history takes the next stamp and leaves the nodes as they are. -/
theorem ReadsOk.stamped (h : ReadsOk W voters hv H mark t) (hlin : Linear W voters hv g H mark t.sim)
    (hsim : t'.sim = { t.sim with stamp := t.nextStamp }) (hreaders : Readers t')
    (hkeep : ∀ r ∈ t.reads, ∃ r' ∈ t'.reads, r'.invoke = r.invoke ∧ r'.key = r.key)
    (hret : ∀ r ∈ t'.reads, r ∈ t.reads ∨ ∀ u, r.ret = some u → u = t.nextStamp ∧ r.invoke ≤ t.sim.stamp ∧
      ∃ y, r.value = some y ∧ Sees W H (mark r.invoke) H.length r.key y) :
    Linear W voters hv g H (update mark t.nextStamp H.length) t'.sim ∧
      ReadsOk W voters hv H (update mark t.nextStamp H.length) t' := by
  have hmark : ∀ k ≤ t.sim.stamp, update mark t.nextStamp H.length k = mark k := fun k hk =>
    update_of_ne (by unfold Trial.nextStamp; omega) ..
  have hlin' := hsim ▸ hlin.stamped
  have hw : Sim.Works W 0 voters t.sim (.tick 0) t'.sim :=
    .stay (by rw [hsim]) (by rw [hsim]) (by rw [hsim]; exact Nat.le_succ _)
  refine ⟨hlin', h.exec hlin rfl hw hmark hkeep hlin' (prefix_refl H) (hsim ▸ id) hreaders fun r hr => ?_⟩
  refine (hret r hr).imp_right fun hnew u hu => ?_
  obtain ⟨rfl, hle, hsees⟩ := hnew u hu
  rw [hmark _ hle, update_self]
  exact hsees

/-- The stamps of the history stay below its next stamp. -/
theorem Readers.le_nextStamp (h : Readers t) {r : ReadRecord} (hr : r ∈ t.reads) :
    r.invoke ≤ t.nextStamp ∧ ∀ u, r.ret = some u → r.invoke ≤ u ∧ u ≤ t.nextStamp := by
  obtain ⟨hi, hu⟩ := h.stamps r hr
  exact ⟨Nat.le_succ_of_le hi, fun u hret => ⟨(hu u hret).1, Nat.le_succ_of_le (hu u hret).2⟩⟩

theorem ReadsOk.read {c : Nat} {key : Bytes} (h : ReadsOk W voters hv H mark t)
    (hlin : Linear W voters hv g H mark t.sim) (he : t.onClientRead c key = some t') : Explained W voters hv t' := by
  unfold Trial.onClientRead at he
  split at he
  · cases he
  cases he
  refine ⟨g, H, _, h.stamped hlin rfl ⟨fun r hr => ?_, ?_⟩ (fun r hr => ?_) fun r hr => ?_⟩
  · rcases mem_append.1 hr with hr | hr
    · exact h.readers.le_nextStamp hr
    · rw [mem_singleton.1 hr]
      exact ⟨le_rfl, fun u hu => (by cases hu)⟩
  · rw [map_append, map_singleton, ← concat_eq_append]
    refine h.readers.distinct.concat fun hm => ?_
    obtain ⟨b, hb, heq⟩ := mem_map.1 hm
    have hle := (h.readers.stamps b hb).1
    rw [heq] at hle
    exact Nat.not_succ_le_self _ hle
  · exact ⟨r, mem_append_left _ hr, rfl, rfl⟩
  · refine (mem_append.1 hr).imp_right fun hr u hu => ?_
    rw [mem_singleton.1 hr] at hu
    cases hu

/-- An answer is dropped, or it is for the read its client waits for. -/
theorem ReadsOk.done {c opTs : Nat} {y : Option Bytes} (h : ReadsOk W voters hv H mark t)
    (hlin : Linear W voters hv g H mark t.sim) (hm : (c, CResp.readDone opTs y) ∈ (t.sim.node i).sent) :
    Explained W voters hv (t.onReadDone c opTs y) := by
  unfold Trial.onReadDone
  split
  case h_2 => exact ⟨g, H, mark, hlin, h⟩
  rename_i k hk
  split
  case isFalse => exact ⟨g, H, mark, hlin, h⟩
  rename_i hi
  obtain ⟨r, hr, hri⟩ := Option.map_eq_some_iff.1 hi
  have hrm : r ∈ t.reads := mem_of_getElem? hr
  obtain ⟨r', hr', hi', hsees⟩ := (h.reads i).sent _ hm rfl rfl
  obtain rfl := inj_on_of_nodup_map h.readers.distinct hr' hrm (hi'.trans hri.symm)
  -- the records are those from before, one of them with its value
  have hrec : ∀ b ∈ t.reads.modify k fun r => { r with ret := some t.nextStamp, value := some y },
      b ∈ t.reads ∨ b = { r' with ret := some t.nextStamp, value := some y } := fun b hb => mem_modify hr hb
  have hsame : (t.reads.modify k fun r => { r with ret := some t.nextStamp, value := some y }).map
      (fun r => (r.invoke, r.key)) = t.reads.map fun r => (r.invoke, r.key) := by
    refine ext_getElem (by simp) fun j _ _ => ?_
    simp only [getElem_map, getElem_modify]
    split <;> rfl
  have hle := (h.readers.le_nextStamp hrm).1
  refine ⟨g, H, _, h.stamped hlin rfl ⟨fun b hb => ?_, ?_⟩ (fun b hb => ?_) fun b hb => ?_⟩
  · rcases hrec b hb with hb | rfl
    · exact h.readers.le_nextStamp hb
    · exact ⟨hle, fun u hu => (by cases hu; exact ⟨hle, le_rfl⟩)⟩
  · have hfst := congrArg (List.map Prod.fst) hsame
    rw [map_map, map_map] at hfst
    exact hfst ▸ h.readers.distinct
  · obtain ⟨b', hb', heq⟩ := mem_map.1 (hsame ▸ mem_map_of_mem hb)
    exact ⟨b', hb', (Prod.mk.inj heq).1, (Prod.mk.inj heq).2⟩
  · refine (hrec b hb).imp_right ?_
    rintro rfl u hu
    cases hu
    exact ⟨rfl, (h.readers.stamps r' hrm).1, y, rfl, hri ▸ hsees⟩

/-! ## Runs -/

def Trial.NoStaleEcho (t : Trial) : TrialAction → Prop
  | .step a => t.sim.NoStaleEcho a
  | .read .. => True

theorem Explained.boot (W : Wire) (cfg : NodeId → Config) (voters : List NodeId) (hv : voters.Nodup) :
    Explained W voters hv (Trial.boot cfg voters) := by
  refine ⟨_, _, _, Linear.boot W cfg voters hv, ⟨?_, nodup_nil⟩, ⟨_, Inv.init cfg voters hv, ReadInv.init cfg voters⟩,
    ?_, Or.inl rfl, ?_, ?_⟩
  · exact fun _ hr => (by cases hr)
  · exact fun i => ⟨fun _ hx => (by cases hx), fun _ hx => (by cases hx)⟩
  · exact fun _ => ⟨Nat.zero_le _, fun hv' => (by cases hv'), fun _ hp => (by cases hp), fun _ hr => (by cases hr)⟩
  · exact fun _ hr => (by cases hr)

theorem Explained.exec {a : TrialAction} (h : Explained W voters hv t) (hne : t.NoStaleEcho a)
    (he : t.exec W every voters a = some t') : Explained W voters hv t' := by
  obtain ⟨g, H, mark, hlin, hok⟩ := h
  cases a with
  | read c key => exact hok.read hlin he
  | step a =>
    simp only [Trial.exec] at he
    split at he
    · rename_i hadm
      obtain ⟨s', hs', rfl⟩ := Option.map_eq_some_iff.1 he
      obtain ⟨g', H', mark', hp, hreach, hmark, hlin'⟩ := hlin.exec (Sim.exec_some hs')
      have hw := Sim.exec_works hs' hne
      have hreaders : Readers { t with sim := s' } := by
        refine ⟨fun r hr => ?_, hok.readers.distinct⟩
        obtain ⟨hi, hu⟩ := hok.readers.stamps r hr
        exact ⟨hi.trans hw.stamp_le, fun u hret => ⟨(hu u hret).1, (hu u hret).2.trans hw.stamp_le⟩⟩
      have hok' : ReadsOk W voters hv H' mark' { t with sim := s' } :=
        hok.exec hlin hadm hw hmark (fun r hr => ⟨r, hr, rfl, rfl⟩) hlin' hp hreach hreaders fun r hr => Or.inl hr
      have hsame : ∀ {t'' : Trial}, { t with sim := s' }.heard a = t'' → t'' = { t with sim := s' } →
          Explained W voters hv t'' := by
        rintro t'' - rfl
        exact ⟨g', H', mark', hlin', hok'⟩
      cases a with
      | response i c resp =>
        cases resp with
        | readDone opTs y =>
          -- the nodes have not moved
          simp only [Sim.exec] at hs'
          split at hs'
          · rename_i hmem
            cases hs'
            have hmem' : (c, CResp.readDone opTs y) ∈ ((t.sim.onClientResp c (.readDone opTs y)).node i).sent := by
              rw [(t.sim.onClientResp_frame c _).2]
              exact hmem
            exact hok'.done hlin' hmem'
          · cases hs'
        | retry | writeDone => exact hsame rfl rfl
      | _ => exact hsame rfl rfl
    · cases he

theorem Explained.runs (hv : voters.Nodup) (cfg : NodeId → Config)
    (hr : Runs (Trial.exec W every voters) Trial.NoStaleEcho (Trial.boot cfg voters) t) : Explained W voters hv t :=
  hr.invariant (Explained.boot W cfg voters hv) fun h hne he => h.exec hne he

/-! ## The linearization -/

/-- A write or CAS, or a read. -/
abbrev TrialRecord := OpRecord ⊕ ReadRecord

def TrialRecord.call : TrialRecord → CallRecord Op OpResult := Sum.elim OpRecord.toCallRecord ReadRecord.call

def Trial.records (t : Trial) : List TrialRecord := t.sim.history.map Sum.inl ++ t.reads.map Sum.inr

/-- The calls of the whole history. -/
def Trial.calls (t : Trial) : List (CallRecord Op OpResult) := t.records.map TrialRecord.call

/-- How many updates the first `k` entries of the log stand for. -/
def updatesIn (W : Wire) (H : List Entry) (k : Nat) : Nat := (accepted (commands W (H.take k))).length

theorem accepted_mono (hp : H <+: H') : accepted (commands W H) <+: accepted (commands W H') := by
  obtain ⟨z, rfl⟩ := hp
  rw [commands_append, accepted_append]
  exact prefix_append ..

theorem updatesIn_mono {k k' : Nat} (hk : k ≤ k') : updatesIn W H k ≤ updatesIn W H k' :=
  (accepted_mono (take_prefix_take_left hk)).length_le

section order
variable {order : List OpRecord} (ho : order.map OpRecord.command = accepted (commands W H))
include ho

/-- The updates of a prefix of the log are a prefix of the order. -/
theorem accepted_take (k : Nat) :
    (order.take (updatesIn W H k)).map OpRecord.command = accepted (commands W (H.take k)) := by
  rw [map_take, ho]
  exact (prefix_iff_eq_take.1 (accepted_mono (List.take_prefix k H))).symm

/-- The state after that prefix is what the log stands for. -/
theorem after_take (k : Nat) :
    kvMap.after kvMap.init ((order.take (updatesIn W H k)).map OpRecord.toCallRecord) =
      (contents (⟨∅⟩ : MemBackend) (commands W (H.take k))).view := by
  have hinit : kvMap.init = (⟨∅⟩ : MemBackend).view := rfl
  rw [SeqObject.after, hinit, kvMap_foldl, contents]
  conv_rhs => rw [← accepted_take ho]
  rw [foldl_map, foldl_map]
  rfl

end order

/-- The updates in the order of the log, a read after those that its node had applied. -/
theorem Explained.logOrder (hlin : Linear W voters hv g H mark t.sim) (hok : ReadsOk W voters hv H mark t) :
    ∃ us place, LogOrder kvMap TrialRecord.call Sum.isRight t.records us place fun u => updatesIn W H (mark u) := by
  obtain ⟨order, ho, hs⟩ := exists_order t.sim.history fun c hc => hlin.known_command (accepted_subset hc)
  have hcmds : (t.sim.history.map OpRecord.command).Nodup := hlin.clients.distinct.nodup
  have hnd : (order.map OpRecord.command).Nodup := ho ▸ hlin.nodup
  have hinj : ∀ {b b'}, b ∈ t.sim.history → b' ∈ t.sim.history → b.command = b'.command → b = b' :=
    fun hb hb' heq => inj_on_of_nodup_map hcmds hb hb' heq
  have hread : ∀ {r}, r ∈ t.records → r.isRight = true → ∃ b ∈ t.reads, r = .inr b := by
    rintro (b | b) hr hq
    · cases hq
    · exact ⟨b, by simpa [Trial.records] using hr, rfl⟩
  -- an answered read has its place in the log
  choose! val hval place hlo hhi hsees using hok.returned
  refine ⟨order.map Sum.inl, Sum.elim (fun _ => 0) fun b => updatesIn W H (place b (b.ret.getD 0)), ?_, ?_, ?_, ?_,
    ?_, ?_, ?_, ?_, ?_, ?_⟩
  · -- no record stands twice
    refine nodup_append.2 ⟨(List.Nodup.of_map _ hcmds).map Sum.inl_injective, ?_, ?_⟩
    · exact (List.Nodup.of_map _ hok.readers.distinct).map Sum.inr_injective
    · simp
  · exact (List.Nodup.of_map _ hnd).map Sum.inl_injective
  · simp only [mem_map, forall_exists_index, and_imp, forall_apply_eq_imp_iff₂]
    exact fun r hr => ⟨mem_append_left _ (mem_map_of_mem (hs r hr)), rfl⟩
  · intro r _ r' hr' u _ hlt
    refine updatesIn_mono (hlin.ordered.mono hlt.le ?_)
    rcases mem_append.1 hr' with hr' | hr'
    · obtain ⟨b, hb, rfl⟩ := mem_map.1 hr'
      exact (hlin.clients.stamps b hb).1
    · obtain ⟨b, hb, rfl⟩ := mem_map.1 hr'
      exact (hok.readers.stamps b hb).1
  · have hlegal := hlin.legal ho hs
    rw [map_map]
    exact hlegal
  · -- an answered update was executed, so it is in the log
    intro r hr hq hret
    rcases mem_append.1 hr with hr | hr
    · obtain ⟨b, hb, rfl⟩ := mem_map.1 hr
      obtain ⟨u, hu⟩ := Option.isSome_iff_exists.1 hret
      obtain ⟨y, -, hexec⟩ := hlin.executed hb hu
      have hmem := (hexec.mono (List.take_prefix _ H)).accepted
      rw [← ho] at hmem
      obtain ⟨b', hb', heq⟩ := mem_map.1 hmem
      exact mem_map_of_mem (hinj (hs b' hb') hb heq ▸ hb')
    · obtain ⟨b, -, rfl⟩ := mem_map.1 hr
      cases hq
  · simp only [mem_map, forall_exists_index, and_imp, forall_apply_eq_imp_iff₂, ← map_take]
    rintro b hb ⟨b', hb', heq⟩
    cases heq
    refine hlin.ordered.invoked b (hs b hb) (accepted_subset ?_)
    rw [← accepted_take ho]
    exact mem_map_of_mem hb'
  · simp only [mem_map, forall_exists_index, and_imp, forall_apply_eq_imp_iff₂, ← map_take]
    intro b hb u hu
    obtain ⟨y, -, hexec⟩ := hlin.executed (hs b hb) hu
    have hmem := hexec.accepted
    rw [← accepted_take ho] at hmem
    obtain ⟨b', hb', heq⟩ := mem_map.1 hmem
    exact ⟨b', hb', congrArg Sum.inl (hinj (hs b' (mem_of_mem_take hb')) (hs b hb) heq)⟩
  · intro r hr hq
    obtain ⟨b, hb, rfl⟩ := hread hr hq
    exact ⟨fun _ => rfl, fun u hu => ((hok.readers.stamps b hb).2 u hu).1⟩
  · intro r hr hq u hu
    obtain ⟨b, hb, rfl⟩ := hread hr hq
    replace hu : b.ret = some u := hu
    have hlen : _ = updatesIn W H (place b u) := congrArg List.length (accepted_take ho (place b u))
    rw [length_map, length_take] at hlen
    rw [show Sum.elim _ _ (Sum.inr b) = updatesIn W H (place b u) by rw [Sum.elim_inr, hu]; rfl]
    refine ⟨updatesIn_mono (hlo b hb u hu), updatesIn_mono (hhi b hb u hu), ?_, fun x hx => ?_⟩
    · rw [length_map]; omega
    · have hx' : b.value.map OpResult.value = some x := hx
      rw [hval b hb u hu] at hx'
      obtain rfl := Option.some.inj hx'
      rw [← map_take, map_map]
      show (kvMap.apply (kvMap.after kvMap.init ((order.take _).map OpRecord.toCallRecord)) (.get b.key)).2 = _
      rw [after_take ho, hsees b hb u hu]

/-- In every run without stale echoes the whole history of the clients, with writes, CAS operations and reads, is
linearizable against a map that is empty at first. -/
theorem history_linearizable (W : Wire) (every : Nat) (cfg : NodeId → Config) (voters : List NodeId) (hv : voters.Nodup)
    (hr : Runs (Trial.exec W every voters) Trial.NoStaleEcho (Trial.boot cfg voters) t) :
    kvMap.Linearizable t.calls := by
  obtain ⟨g, H, mark, hlin, hok⟩ := Explained.runs hv cfg hr
  obtain ⟨us, place, horder⟩ := Explained.logOrder hlin hok
  exact horder.linearizable

/-- The write of client 0 is answered, then it reads what it has written. -/
def TrialAction.written : List TrialAction :=
  SimAction.written.map .step ++
  [.step (.response 1 0 (.writeDone 1 .ok)), .read 0 [97], .step (.request 1 0 (.read 3 [97])),
   .step (SimAction.receive 1 3 (.appendEntries 2 1 [] 2 1)),
     .step (SimAction.receive 3 1 (.appendEntriesResp true 2 0 1)),
   .step (.response 1 0 (.readDone 3 (some [1])))]

/-- A rejection without a hint is delivered. -/
def TrialAction.rejects : TrialAction → Bool
  | .step (.deliver m) => (Action.call m.dst (.step m)).rejects
  | _ => false

theorem Trial.noStaleEcho_of_not_rejects {a : TrialAction} (h : a.rejects = false) : t.NoStaleEcho a := by
  cases a with
  | read => trivial
  | step a =>
    cases a with
    | deliver m =>
      intro _
      have hstep : ReadStep t.sim.cluster (.call m.dst (.step m)) := ReadStep.of_not_rejects ⟨trivial, h⟩
      exact hstep.2
    | _ => trivial

theorem history_linearizable_written :
    ∃ t, Runs (Trial.exec Wire.plain 9 [1, 2, 3]) Trial.NoStaleEcho (Trial.boot Config.quick [1, 2, 3]) t ∧
      t.calls = [⟨.put [97] [1], 1, some 2, some .ok⟩, ⟨.get [97], 3, some 4, some (.value (some [1]))⟩] ∧
      kvMap.Linearizable t.calls := by
  obtain ⟨t, hr, h⟩ := Runs.reached (Trial.exec Wire.plain 9 [1, 2, 3]) (fun _ a => a.rejects = false)
    (Trial.boot Config.quick [1, 2, 3]) TrialAction.written
    (P := fun t => t.calls = [⟨.put [97] [1], 1, some 2, some .ok⟩, ⟨.get [97], 3, some 4, some (.value (some [1]))⟩])
    (by decide +kernel)
  have hrun : Runs _ Trial.NoStaleEcho _ t := hr.mono fun _ _ ha => Trial.noStaleEcho_of_not_rejects ha
  exact ⟨t, hrun, h, history_linearizable Wire.plain 9 Config.quick [1, 2, 3] (by decide) hrun⟩

end RaftKv

import RaftKv.Raft.Batch
import RaftKv.Server.LogStoreContract

/-!
# What a turn leaves in the log store

`process_output` gives the output of a batch to `LogStore::persist` in one call, and the snapshot of
a compaction to `LogStore::compact_to` (`core.rs:357-361`, `core.rs:388`). The store then holds what
the node has to find after a crash if the output makes the batch durable (`Durable`) and the store
realises the contract of `Output` for it (`StoreOp.Aligned`). What else the contract asks, the node
sees to: each run of appended entries starts within its log or right behind it (`Appends`).
-/

namespace RaftKv

open AscendingBy

variable {V : Type} {C : Codec V} {ls : LogStore V} {d p : Persisted} {c : Call} {n n' n₀ : RaftNode}
  {log log' : RaftLog} {es new : List Entry} {last k : Nat}

/-- The output as the store gets it. -/
def Output.toStore (o : Output) : StoreOp := .persist o.hardState o.append o.snapshot

/-- The store after `process_output`. -/
def LogStore.after (C : Codec V) (ls : LogStore V) (o : Output) (compacted : Option Snapshot) : LogStore V :=
  let ls := if o.hardState.isSome || !o.append.isEmpty || o.snapshot.isSome then
      ls.persist C o.hardState o.append o.snapshot
    else ls
  match compacted with
  | some snap => ls.compactTo C snap
  | none => ls

/-! ## Appended entries -/

/-- The index of the last entry, or `last` if there is none. -/
def lastIndexOf (last : Nat) (es : List Entry) : Nat := (es.getLast?.map Entry.index).getD last

theorem lastIndexOf_append (last : Nat) (as bs : List Entry) :
    lastIndexOf last (as ++ bs) = lastIndexOf (lastIndexOf last as) bs := by
  unfold lastIndexOf
  rw [List.getLast?_append]
  cases bs.getLast? <;> rfl

theorem lastIndexOf_cons (last : Nat) (e : Entry) (es : List Entry) :
    lastIndexOf last (e :: es) = lastIndexOf e.index es := lastIndexOf_append last [e] es

theorem Chained.append {as bs : List Entry} (ha : Chained last as) (hb : Chained (lastIndexOf last as) bs) :
    Chained last (as ++ bs) := by
  induction as generalizing last with
  | nil => exact hb
  | cons a as ih =>
    rw [lastIndexOf_cons] at hb
    exact ⟨ha.1, ha.2.1, ha.2.2.1, ih ha.2.2.2 hb⟩

theorem RaftNode.pushAll_chained : ∀ {es : List Entry} {log log' : RaftLog} {last : Nat}, pushAll log es = some log' →
    log.lastIndex ≤ last → log'.lastIndex = lastIndexOf log.lastIndex es ∧
      ((∀ e ∈ es, e.index < 2 ^ 64) → Chained last es)
  | [], _, _, _, h, _ => by cases h; exact ⟨rfl, fun _ => trivial⟩
  | e :: es, log, log', last, h, hle => by
    unfold pushAll at h
    split at h
    · rename_i he
      obtain ⟨hlast, hch⟩ := pushAll_chained h (Nat.le_of_eq (log.lastIndex_push e he))
      rw [RaftLog.lastIndex_push] at hlast
      rw [← he] at hlast hch
      refine ⟨by rw [hlast, lastIndexOf_cons], fun hb => ⟨by omega, hb e (by simp), by omega, ?_⟩⟩
      exact hch fun x hx => hb x (by simp [hx])
    · cases h

theorem RaftNode.findNew_lastIndex : ∀ {es new : List Entry} {log log' : RaftLog},
    findNew log k es = some (log', new) → log'.lastIndex ≤ log.lastIndex ∧ (new = [] → log' = log)
  | [], _, _, _, h => by cases h; exact ⟨Nat.le_refl _, fun _ => rfl⟩
  | e :: es, new, log, log', h => by
    unfold findNew at h
    split at h
    · split at h
      · exact findNew_lastIndex h
      · split at h
        · cases h
          refine ⟨?_, fun h => (by cases h)⟩
          simp only [RaftLog.lastIndex, RaftLog.truncateFrom, List.length_take]
          omega
        · cases h
    · cases h; exact ⟨Nat.le_refl _, fun h => (by cases h)⟩

/-- What the appended entries are put on. -/
def Persisted.under (p : Persisted) (snapshot : Option Snapshot) : Persisted :=
  { p with snapshot := snapshot.or p.snapshot, entries := p.keeps snapshot }

/-- The output collected so far makes the node durable over `d`, and its entries are runs as the store expects them. -/
structure Appends (d : Persisted) (n : RaftNode) : Prop where
  durable : Durable d n
  last : n.log.lastIndex = lastIndexOf (d.under n.out.snapshot).lastIndex n.out.append
  chained : (∀ e ∈ n.out.append, e.index < 2 ^ 64) → Chained (d.under n.out.snapshot).lastIndex n.out.append

/-- More entries are appended, above the log or from within it. -/
theorem Appends.extend (h : Appends d n) (hd : Durable d n') (hsn : n'.out.snapshot = n.out.snapshot)
    (happ : n'.out.append = n.out.append ++ new) (hlast : n'.log.lastIndex = lastIndexOf n.log.lastIndex new)
    (hch : (∀ e ∈ new, e.index < 2 ^ 64) → Chained n.log.lastIndex new) : Appends d n' := by
  refine ⟨hd, ?_, fun hb => ?_⟩
  · rw [hlast, h.last, hsn, happ, lastIndexOf_append]
  · rw [happ] at hb ⊢
    rw [hsn]
    refine (h.chained fun e he => hb e (List.mem_append_left _ he)).append ?_
    rw [← h.last]
    exact hch fun e he => hb e (List.mem_append_right _ he)

theorem Appends.move (h : Appends d n) (hm : Move c n₀ n n') (hreset : c.resets n₀ = true → n₀.out.append = []) :
    Appends d n' := by
  have hd := h.durable.move hm hreset
  cases hm.logs with
  | keep hlog _ happ hsn =>
    exact h.extend hd hsn (happ.trans (List.append_nil _).symm) (by rw [hlog]; rfl) fun _ => trivial
  | append payload =>
    refine h.extend hd rfl rfl (n.log.lastIndex_push _ (n.index_next payload)) fun hb => ?_
    exact ⟨Nat.le_add_left .., hb _ (by simp), Nat.le_refl _, trivial⟩
  | @adopt _ new _ _ hf hp =>
    obtain ⟨hle, hnil⟩ := RaftNode.findNew_lastIndex hf
    obtain ⟨hlast, hch⟩ := RaftNode.pushAll_chained hp hle
    refine h.extend hd rfl rfl (hlast.trans ?_) hch
    cases new with
    | nil => rw [hnil rfl]
    | cons e es => rw [lastIndexOf_cons, lastIndexOf_cons]
  | install hr happ =>
    have hnone : n.out.append = [] := happ.trans (hreset hr)
    refine ⟨hd, ?_, fun _ => ?_⟩
    · show _ = lastIndexOf _ n.out.append
      rw [hnone]; rfl
    · show Chained _ n.out.append
      rw [hnone]; trivial

/-! ## The store -/

/-- The store holds `p`. -/
structure LogStore.StandsFor (C : Codec V) (ls : LogStore V) (p : Persisted) : Prop where
  stores : Stores C ls.db p
  cached : Cached ls p.entries

theorem LogStore.standsFor_new (C : Codec V) : (LogStore.new V).StandsFor C {} :=
  ⟨Stores.empty, fun _ => ⟨rfl, rfl⟩, fun e he => (by cases he), fun hz => (by cases hz)⟩

/-- On an ascending list both ways of appending agree. -/
theorem foldl_appendOne_eq {l : List Entry} (h : AscendingBy Entry.index l) :
    es.foldl Persisted.appendOne l = es.foldl (cutAppend Entry.index) l := by
  induction es generalizing l with
  | nil => rfl
  | cons e es ih =>
    have hone : Persisted.appendOne l e = cutAppend Entry.index l e := by
      refine congrArg (· ++ [e]) ?_
      induction h with
      | nil => rfl
      | @cons x l hx _ ih =>
        by_cases hlt : x.index < e.index
        · rw [List.takeWhile_cons_of_pos (by simpa using hlt), List.filter_cons_of_pos (by simpa using hlt), ih]
        · have hnil : (x :: l).filter (fun y => y.index < e.index) = [] := by
            refine List.filter_eq_nil_iff.2 fun y hy => ?_
            rcases List.mem_cons.1 hy with rfl | hy
            · simpa using hlt
            · have := hx y hy
              simp; omega
          rw [hnil, List.takeWhile_cons_of_neg (by simpa using hlt)]
    rw [List.foldl_cons, hone]
    exact ih (cutAppend_asc h)

/-- After `process_output` the store holds what the node has to find there. -/
theorem LogStore.StandsFor.after (h : ls.StandsFor C d) (ha : Appends d n) (hal : n.out.toStore.Aligned d)
    (hb : ∀ e ∈ n.out.append, e.index < 2 ^ 64) (compacted : Option Snapshot) :
    (ls.after C n.out compacted).StandsFor C ((compacted.map n.durable.compactTo).getD n.durable) := by
  have hmean : n.out.toStore.meaning d = n.durable := by
    rw [← ha.durable, Persisted.persist_eq]
    have hasc : AscendingBy Entry.index (d.keeps n.out.snapshot) := by
      unfold Persisted.keeps
      split
      · exact .nil
      · exact h.stores.asc
    exact congrArg (Persisted.mk _ · _) (foldl_appendOne_eq hasc).symm
  obtain ⟨hs, hc⟩ := h.stores.persist h.cached (ha.chained hb) hal
  unfold Output.toStore at hmean
  rw [hmean] at hs hc
  -- a call that the guard of the source leaves out would change nothing
  have hguard : (if n.out.hardState.isSome || !n.out.append.isEmpty || n.out.snapshot.isSome then
      ls.persist C n.out.hardState n.out.append n.out.snapshot else ls) =
      ls.persist C n.out.hardState n.out.append n.out.snapshot := by
    split
    · rfl
    · rename_i hno
      simp only [Bool.or_eq_true, Bool.not_eq_true', not_or, Bool.not_eq_true, Bool.not_eq_false,
        Option.isSome_eq_false_iff, Option.isNone_iff_eq_none, List.isEmpty_iff] at hno
      rw [hno.1.1, hno.1.2, hno.2]; rfl
  unfold LogStore.after
  rw [hguard]
  cases compacted with
  | none => exact ⟨hs, hc⟩
  | some snap =>
    obtain ⟨hs', hc'⟩ := hs.compactTo hc snap
    exact ⟨hs', hc'⟩

theorem LogStore.StandsFor.openStore (h : ls.StandsFor C p) {r : LogStore V × Persisted}
    (ho : LogStore.openStore C ls.db = .ok r) : r.2 = p ∧ r.1.StandsFor C p := by
  obtain ⟨ls', hok, hdb, hc⟩ := h.stores.openStore
  rw [hok] at ho
  cases ho
  exact ⟨rfl, by rw [hdb]; exact h.stores, hc⟩

end RaftKv

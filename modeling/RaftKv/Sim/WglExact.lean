import Mathlib.Data.List.Sigma
import RaftKv.Sim.Wgl

/-!
# The checker is exact

`check_exact`: on a well-formed history `check_history` returns `Ok` only if the history is
linearizable against a store of registers, and complains about a history that is linearizable only
by its limits on size or on expansions. The two halves are

* a state of the search is reached by running a list of operations that respects real time
  (`Reach.explained`), so a state with nothing completed left gives an order;
* when the stack runs empty, the memo is closed under successors (`search_exhausted`), so no state
  of an order was missed (`Explains.reached`).

Both are about one key. `linearizable_store_iff` takes them to the whole history.
-/

namespace RaftKv

open List

variable {ops order dropped : List POp} {mask : Nat} {value : Option UInt64} {p : POp × Nat}

/-! ## The operations still to be placed -/

/-- The operations that are not in `mask`, with their positions. -/
def left (ops : List POp) (mask : Nat) : List (POp × Nat) := ops.zipIdx.filter fun p => !mask.testBit p.2

theorem mem_left : p ∈ left ops mask ↔ p ∈ ops.zipIdx ∧ mask.testBit p.2 = false := by
  simp [left]

theorem testBit_insert (mask i j : Nat) : (mask ||| 1 <<< i).testBit j = (mask.testBit j || decide (i = j)) := by
  rw [Nat.testBit_or, Nat.one_shiftLeft, Nat.testBit_two_pow]

theorem left_zero (ops : List POp) : (left ops 0).map Prod.fst = ops := by
  simp [left]

/-- A position determines its operation. -/
theorem eq_of_position {q : POp × Nat} (hp : p ∈ ops.zipIdx) (hq : q ∈ ops.zipIdx) (h : p.2 = q.2) : p = q := by
  have h1 := mem_zipIdx_iff_getElem?.1 hp
  have h2 := mem_zipIdx_iff_getElem?.1 hq
  rw [h, h2] at h1
  exact Prod.ext (Option.some.inj h1).symm h

theorem left_insert (h : p ∈ left ops mask) : (left ops mask).Perm (p :: left ops (mask ||| 1 <<< p.2)) := by
  obtain ⟨hp, _⟩ := mem_left.1 h
  have hnd : (left ops mask).Nodup := (List.Nodup.of_map _ (nodup_zipIdx_map_snd ops)).filter _
  have heq : left ops (mask ||| 1 <<< p.2) = (left ops mask).erase p := by
    rw [hnd.erase_eq_filter, left, left, filter_filter]
    refine filter_congr fun q hq => ?_
    rw [testBit_insert]
    by_cases hpq : p.2 = q.2
    · obtain rfl := eq_of_position hp hq hpq
      simp
    · have hne : q ≠ p := fun h => hpq (by rw [h])
      simp [hpq, hne]
  rw [heq]
  exact perm_cons_erase h

theorem testBit_completedMask (l : List (POp × Nat)) (m i : Nat) :
    (l.foldl (fun m p => if p.1.ret.isSome then m ||| 1 <<< p.2 else m) m).testBit i = true ↔
      m.testBit i = true ∨ ∃ p ∈ l, p.2 = i ∧ p.1.ret.isSome = true := by
  induction l generalizing m with
  | nil => simp
  | cons q l ih =>
    rw [foldl_cons, ih]
    by_cases hq : q.1.ret.isSome = true
    · rw [if_pos hq, testBit_insert]
      simp [hq, or_assoc]
    · simp [hq]

theorem done_iff : done ops mask = true ↔ ∀ p ∈ left ops mask, p.1.ret = none := by
  have hbits : done ops mask = true ↔
      ∀ i, (completedMask ops).testBit i = true → mask.testBit i = true := by
    rw [done, decide_eq_true_iff]
    constructor
    · intro h i hi
      rw [← h, Nat.testBit_and, Bool.and_eq_true] at hi
      exact hi.1
    · intro h
      refine Nat.eq_of_testBit_eq fun i => ?_
      rw [Nat.testBit_and]
      cases hc : (completedMask ops).testBit i with
      | false => simp
      | true => simp [h i hc]
  rw [hbits]
  simp only [completedMask, testBit_completedMask, Nat.zero_testBit, Bool.false_eq_true, false_or]
  constructor
  · intro h p hp
    obtain ⟨hz, hm⟩ := mem_left.1 hp
    cases hr : p.1.ret with
    | none => rfl
    | some r =>
      have := h p.2 ⟨p, hz, rfl, by rw [hr]; rfl⟩
      rw [hm] at this
      cases this
  · rintro h i ⟨p, hp, rfl, hr⟩
    by_contra hm
    rw [h p (mem_left.2 ⟨hp, by simpa using hm⟩)] at hr
    cases hr

theorem le_min {x a b : UInt64} : x ≤ min a b ↔ x ≤ a ∧ x ≤ b := by
  have hmin : min a b = if a ≤ b then a else b := rfl
  rw [hmin]
  split <;> rename_i hab <;> simp only [UInt64.le_iff_toNat_le] at * <;> omega

/-- An operation may come next when no operation that is left was answered before it was invoked. -/
theorem le_minRet {x : UInt64} : x ≤ minRet ops mask ↔ ∀ p ∈ left ops mask, ∀ r, p.1.ret = some r → x ≤ r := by
  have hfold : ∀ (l : List (POp × Nat)) (m : UInt64), x ≤ l.foldl (earlierRet mask) m ↔
      x ≤ m ∧ ∀ p ∈ l, mask.testBit p.2 = false → ∀ r, p.1.ret = some r → x ≤ r := by
    intro l
    induction l with
    | nil => simp
    | cons q l ih =>
      intro m
      rw [foldl_cons, ih, earlierRet]
      cases hq : mask.testBit q.2 with
      | true => simp [hq]
      | false =>
        cases hr : q.1.ret with
        | none => simp [hr]
        | some r => simp [hq, hr, le_min, and_assoc]
  have hmax : x ≤ UInt64.ofNat (2 ^ 64 - 1) := by
    rw [UInt64.le_iff_toNat_le]
    have hlt := x.toNat_lt
    have hval : (UInt64.ofNat (2 ^ 64 - 1)).toNat = 2 ^ 64 - 1 := by decide
    omega
  rw [minRet, hfold]
  simp only [hmax, true_and, mem_left]
  constructor
  · intro h p hp r hr
    exact h p hp.1 hp.2 r hr
  · intro h p hp hm r hr
    exact h p ⟨hp, hm⟩ r hr

variable {s : Nat × Option UInt64} {e : Nat} {v : Option UInt64} {rs : List HRecord}

theorem mem_successors : s ∈ successors ops mask value ↔
    ∃ p ∈ left ops mask, p.1.invoke ≤ minRet ops mask ∧
      ∃ v, tryApply p.1.kind value = some v ∧ s = (mask ||| 1 <<< p.2, v) := by
  simp only [successors, mem_filterMap, mem_left]
  constructor
  · rintro ⟨p, hp, h⟩
    split at h
    · cases h
    · rename_i hm
      split at h
      · cases h
      · rename_i hle
        obtain ⟨v, hv, rfl⟩ := Option.map_eq_some_iff.1 h
        refine ⟨p, ⟨hp, by simpa using hm⟩, ?_, v, hv, rfl⟩
        simpa [UInt64.not_lt] using hle
  · rintro ⟨p, ⟨hp, hm⟩, hle, v, hv, rfl⟩
    refine ⟨p, hp, ?_⟩
    rw [if_neg (by simp [hm]), if_neg (by simpa [UInt64.not_lt] using hle), hv]
    rfl

/-! ## Orders of one key -/

/-- Real time: `a` was answered before `b` was invoked. -/
def POp.Before (a b : POp) : Prop := ∃ t, a.ret = some t ∧ t < b.invoke

def POp.Timely (o : POp) : Prop := ∀ t, o.ret = some t → o.invoke ≤ t

/-- The register after the operations in order, if all their responses hold up. -/
def runOps (value : Option UInt64) (order : List POp) : Option (Option UInt64) :=
  order.foldlM (fun v o => tryApply o.kind v) value

/-- `order` explains the operations, without the pending ones of `dropped`. -/
structure Explains (ops order dropped : List POp) : Prop where
  perm : (order ++ dropped).Perm ops
  pending : ∀ o ∈ dropped, o.ret = none
  real_time : order.Pairwise fun a b => ¬ b.Before a
  answers : (runOps none order).isSome = true

/-- The states the search can come to. -/
inductive Reach (ops : List POp) : Nat × Option UInt64 → Prop
  | start : Reach ops (0, none)
  | step {mask : Nat} {value : Option UInt64} {s : Nat × Option UInt64} : Reach ops (mask, value) →
      s ∈ successors ops mask value → Reach ops s

theorem left_insert_ops (h : p ∈ left ops mask) :
    ((left ops mask).map Prod.fst).Perm (p.1 :: (left ops (mask ||| 1 <<< p.2)).map Prod.fst) :=
  (left_insert h).map Prod.fst

/-- A state is reached by running, in real time, the operations that are not left. -/
theorem Reach.explained (h : Reach ops s) :
    ∃ order, (order ++ (left ops s.1).map Prod.fst).Perm ops ∧ (order.Pairwise fun a b => ¬ b.Before a) ∧
      (∀ a ∈ order, ∀ p ∈ left ops s.1, ¬ p.1.Before a) ∧ runOps none order = some s.2 := by
  induction h with
  | start => exact ⟨[], by rw [left_zero]; simp, List.Pairwise.nil, by simp, rfl⟩
  | @step mask value s _ hs ih =>
    obtain ⟨order, hperm, hpw, hafter, hrun⟩ := ih
    obtain ⟨p, hp, hmin, v, hv, rfl⟩ := mem_successors.1 hs
    have hsub : ∀ q ∈ left ops (mask ||| 1 <<< p.2), q ∈ left ops mask := fun q hq =>
      (left_insert hp).symm.subset (mem_cons_of_mem _ hq)
    refine ⟨order ++ [p.1], ?_, ?_, ?_, ?_⟩
    · rw [append_assoc]
      exact ((left_insert_ops hp).symm.append_left order).trans hperm
    · refine pairwise_append.2 ⟨hpw, pairwise_singleton _ _, fun a ha b hb => ?_⟩
      rw [mem_singleton.1 hb]
      exact hafter a ha p hp
    · intro a ha q hq
      rcases mem_append.1 ha with ha | ha
      · exact hafter a ha q (hsub q hq)
      · rw [mem_singleton.1 ha]
        rintro ⟨t, ht, hlt⟩
        exact absurd hlt (UInt64.not_lt.2 (le_minRet.1 hmin q (hsub q hq) t ht))
    · rw [runOps]
      rw [runOps] at hrun
      simp [hrun, hv]

theorem Reach.explains (h : Reach ops s) (hd : done ops s.1 = true) :
    ∃ order dropped, Explains ops order dropped := by
  obtain ⟨order, hperm, hpw, _, hrun⟩ := h.explained
  refine ⟨order, (left ops s.1).map Prod.fst, hperm, ?_, hpw, by rw [hrun]; rfl⟩
  intro o ho
  obtain ⟨p, hp, rfl⟩ := mem_map.1 ho
  exact done_iff.1 hd p hp

/-- The search can follow an order to its end. -/
theorem reach_order (hd : ∀ o ∈ dropped, o.ret = none) (ht : ∀ o ∈ order, o.Timely) (hreach : Reach ops (mask, value))
    (hperm : (order ++ dropped).Perm ((left ops mask).map Prod.fst)) (hpw : order.Pairwise fun a b => ¬ b.Before a)
    (hrun : (runOps value order).isSome = true) : ∃ s, Reach ops s ∧ done ops s.1 = true := by
  induction order generalizing mask value with
  | nil =>
    refine ⟨_, hreach, done_iff.2 fun p hp => hd _ ?_⟩
    exact hperm.symm.subset (mem_map.2 ⟨p, hp, rfl⟩)
  | cons o order ih =>
    obtain ⟨hfirst, hrests⟩ := pairwise_cons.1 hpw
    obtain ⟨v, hv⟩ := Option.isSome_iff_exists.1 hrun
    obtain ⟨v', hv', hrest⟩ := Option.bind_eq_some_iff.1 hv
    obtain ⟨p, hp, rfl⟩ := mem_map.1 (hperm.subset (mem_append_left _ (mem_cons_self ..)))
    have hmin : p.1.invoke ≤ minRet ops mask := by
      refine le_minRet.2 fun q hq r hr => ?_
      have hq' : q.1 ∈ p.1 :: order ++ dropped := hperm.symm.subset (mem_map.2 ⟨q, hq, rfl⟩)
      rcases mem_append.1 hq' with hmem | hmem
      · rcases mem_cons.1 hmem with heq | hmem
        · exact ht p.1 (mem_cons_self ..) r (by rw [← heq]; exact hr)
        · by_contra hlt
          exact hfirst _ hmem ⟨r, hr, UInt64.not_le.1 hlt⟩
      · rw [hd _ hmem] at hr
        cases hr
    refine ih (fun o ho => ht o (mem_cons_of_mem _ ho))
      (hreach.step (mem_successors.2 ⟨p, hp, hmin, v', hv', rfl⟩)) ?_ hrests ?_
    · exact (hperm.trans (left_insert_ops hp)).cons_inv
    · rw [runOps, hrest]; rfl

theorem Explains.reached (h : Explains ops order dropped) (ht : ∀ o ∈ ops, o.Timely) :
    ∃ s, Reach ops s ∧ done ops s.1 = true :=
  reach_order h.pending (fun o ho => ht o (h.perm.subset (mem_append_left _ ho))) .start
    (by rw [left_zero]; exact h.perm) h.real_time h.answers

/-! ## The search -/

theorem search_ok {memo stack : List (Nat × Option UInt64)} (h : search ops memo stack e = .ok ())
    (hs : ∀ s ∈ stack, Reach ops s) : ∃ s, Reach ops s ∧ done ops s.1 = true := by
  fun_induction search ops memo stack e with
  | case1 => cases h
  | case2 memo e mask value stack hd => exact ⟨_, hs _ (mem_cons_self ..), hd⟩
  | case3 memo e mask value stack _ _ ih => exact ih h fun s hs' => hs s (mem_cons_of_mem _ hs')
  | case4 => cases h
  | case5 memo e mask value stack _ _ _ ih =>
    refine ih h fun s hs' => ?_
    rcases mem_append.1 hs' with hs' | hs'
    · exact (hs _ (mem_cons_self ..)).step (mem_reverse.1 hs')
    · exact hs s (mem_cons_of_mem _ hs')

/-- What was visited without success: nothing completed, and every successor visited or on the stack. -/
def Visited (ops : List POp) (memo pending : List (Nat × Option UInt64)) : Prop :=
  ∀ s ∈ memo, done ops s.1 = false ∧ ∀ s' ∈ successors ops s.1 s.2, s' ∈ memo ∨ s' ∈ pending

theorem search_exhausted {memo stack : List (Nat × Option UInt64)} {l : List POp}
    (h : search ops memo stack e = .error (.notLinearizable l)) (hv : Visited ops memo stack) :
    ∃ memo', (∀ s, s ∈ memo ∨ s ∈ stack → s ∈ memo') ∧ Visited ops memo' [] := by
  fun_induction search ops memo stack e with
  | case1 memo e => exact ⟨memo, fun s hs => hs.elim id fun hs => (by cases hs), hv⟩
  | case2 => cases h
  | case3 memo e mask value stack hd hm ih =>
    obtain ⟨memo', hsub, hv'⟩ := ih h fun s hs => by
      refine ⟨(hv s hs).1, fun s' hs' => ?_⟩
      rcases (hv s hs).2 s' hs' with hin | hin
      · exact .inl hin
      · rcases mem_cons.1 hin with rfl | hin
        · exact .inl hm
        · exact .inr hin
    refine ⟨memo', fun s hs => hsub s ?_, hv'⟩
    rcases hs with hs | hs
    · exact .inl hs
    · rcases mem_cons.1 hs with rfl | hs
      · exact .inl hm
      · exact .inr hs
  | case4 => cases h
  | case5 memo e mask value stack hd hm hb ih =>
    obtain ⟨memo', hsub, hv'⟩ := ih h fun s hs => by
      rcases mem_cons.1 hs with rfl | hs
      · exact ⟨by simpa using hd, fun s' hs' => .inr (by simp [hs'])⟩
      · refine ⟨(hv s hs).1, fun s' hs' => ?_⟩
        rcases (hv s hs).2 s' hs' with hin | hin
        · exact .inl (mem_cons_of_mem _ hin)
        · rcases mem_cons.1 hin with rfl | hin
          · exact .inl (mem_cons_self ..)
          · exact .inr (mem_append_right _ hin)
    refine ⟨memo', fun s hs => hsub s ?_, hv'⟩
    rcases hs with hs | hs
    · exact .inl (mem_cons_of_mem _ hs)
    · rcases mem_cons.1 hs with rfl | hs
      · exact .inl (mem_cons_self ..)
      · exact .inr (mem_append_right _ hs)

theorem Visited.reach {memo : List (Nat × Option UInt64)} (hv : Visited ops memo []) (h0 : (0, none) ∈ memo)
    (h : Reach ops s) : s ∈ memo := by
  induction h with
  | start => exact h0
  | step _ hs ih => exact ((hv _ ih).2 _ hs).elim id fun h' => (by cases h')

theorem search_error {memo stack : List (Nat × Option UInt64)} {err : CheckError}
    (h : search ops memo stack e = .error err) :
    err = .notLinearizable ops ∨ ∃ states, err = .budgetExceeded states ops.length := by
  fun_induction search ops memo stack e with
  | case1 => cases h; exact .inl rfl
  | case2 => cases h
  | case3 _ _ _ _ _ _ _ ih => exact ih h
  | case4 => cases h; exact .inr ⟨_, rfl⟩
  | case5 _ _ _ _ _ _ _ _ ih => exact ih h

theorem Explains.perm_ops {ops' : List POp} (h : Explains ops order dropped) (hp : ops.Perm ops') :
    Explains ops' order dropped := ⟨h.perm.trans hp, h.pending, h.real_time, h.answers⟩

theorem checkKey_ok (h : checkKey ops = .ok ()) : ∃ order dropped, Explains ops order dropped := by
  have hsort := perm_insertionSort (fun a b : POp => a.invoke ≤ b.invoke) ops
  unfold checkKey at h
  dsimp only at h
  split at h
  · rename_i h0
    have hnil : ops = [] := by
      rw [length_eq_zero_iff] at h0
      rw [h0] at hsort
      exact hsort.symm.eq_nil
    subst hnil
    exact ⟨[], [], List.Perm.refl _, by simp, List.Pairwise.nil, rfl⟩
  · split at h
    · cases h
    · obtain ⟨s, hr, hd⟩ := search_ok h fun s hs => by
        rw [mem_singleton.1 hs]; exact .start
      obtain ⟨order, dropped, he⟩ := hr.explains hd
      exact ⟨order, dropped, he.perm_ops hsort⟩

/-- The errors that say nothing about the history. -/
def CheckError.isLimit : CheckError → Bool
  | .tooManyOps _ | .budgetExceeded .. => true
  | _ => false

theorem checkKey_complete (h : Explains ops order dropped) (ht : ∀ o ∈ ops, o.Timely) :
    checkKey ops = .ok () ∨ ∃ e, checkKey ops = .error e ∧ e.isLimit = true := by
  have hsort := perm_insertionSort (fun a b : POp => a.invoke ≤ b.invoke) ops
  unfold checkKey
  dsimp only
  split
  · exact .inl rfl
  · split
    · exact .inr ⟨_, rfl, rfl⟩
    · cases hs : search (ops.insertionSort fun a b => a.invoke ≤ b.invoke) [] [(0, none)] 0 with
      | ok _ => exact .inl rfl
      | error e =>
        right
        refine ⟨e, rfl, ?_⟩
        rcases search_error hs with rfl | ⟨states, rfl⟩
        · -- the memo would hold a state with nothing completed left
          obtain ⟨s, hr, hd⟩ := (h.perm_ops hsort.symm).reached fun o ho => ht o (hsort.subset ho)
          obtain ⟨memo, hsub, hv⟩ := search_exhausted hs fun s hs => (by cases hs)
          have hmem := hv.reach (hsub _ (.inr (mem_singleton.2 rfl))) hr
          rw [(hv s hmem).1] at hd
          cases hd
        · rfl

/-! ## Records -/

/-- A register, absent at first. -/
def register : SeqObject HOp HRes where
  State := Option UInt64
  init := none
  apply value
    | .read _ => (value, .readOk value)
    | .write _ val => (some val, .writeOk)
    | .cas _ expect new => if value = expect then (some new, .casOk true) else (value, .casOk false)

/-- A sequential store of registers. -/
def registers : SeqObject HOp HRes := register.store HOp.key

def HRecord.call (r : HRecord) : CallRecord HOp HRes :=
  { op := r.op, invoke := r.invoke.toNat, ret := r.ret.map UInt64.toNat, result := r.result }

/-- The result is one that the operation can have. -/
def HRes.answers : HRes → HOp → Bool
  | .readOk _, .read _ | .writeOk, .write .. | .casOk _, .cas .. => true
  | _, _ => false

/-- A completed record has a response after its invocation and a result of its operation's kind; a pending one has
neither. -/
def HRecord.WellFormed (r : HRecord) : Prop :=
  match r.ret, r.result with
  | some t, some res => r.invoke ≤ t ∧ res.answers r.op = true
  | none, none => True
  | _, _ => False

instance (r : HRecord) : Decidable r.WellFormed := by
  unfold HRecord.WellFormed
  split <;> infer_instance

/-- What an operation of the search says about the history. -/
def POp.call (key : UInt8) (o : POp) : CallRecord HOp HRes where
  op := match o.kind with
    | .read _ => .read key
    | .write val => .write key val
    | .cas expect new _ => .cas key expect new
  invoke := o.invoke.toNat
  ret := o.ret.map UInt64.toNat
  result := match o.kind with
    | .read result => some (.readOk result)
    | .write _ => o.ret.map fun _ => .writeOk
    | .cas _ _ success => success.map .casOk

/-- A read without a response, which the search leaves out. -/
def pendingRead (c : CallRecord HOp HRes) : Bool :=
  match c.op, c.ret with
  | .read _, none => true
  | _, _ => false

variable {key : UInt8}

theorem call_precedes {a b : POp} : (a.call key).Precedes (b.call key) ↔ a.Before b := by
  constructor
  · rintro ⟨t, ht, hlt⟩
    obtain ⟨u, hu, rfl⟩ := Option.map_eq_some_iff.1 ht
    exact ⟨u, hu, UInt64.lt_iff_toNat_lt.2 hlt⟩
  · rintro ⟨t, ht, hlt⟩
    exact ⟨t.toNat, Option.map_eq_some_iff.2 ⟨t, ht, rfl⟩, UInt64.lt_iff_toNat_lt.1 hlt⟩

/-- `try_apply` is the register, compared with the recorded response. -/
theorem tryApply_iff (key : UInt8) {o : POp} {v' : Option UInt64} : tryApply o.kind v = some v' ↔
    (∀ x, (o.call key).result = some x → (register.apply v (o.call key).op).2 = x) ∧
      v' = (register.apply v (o.call key).op).1 := by
  cases hk : o.kind with
  | read result =>
    simp only [tryApply, POp.call, hk, register, Option.some.injEq]
    by_cases hv : result = v
    · simp [eq_comm]
    · simp [hv, Ne.symm hv]
  | write val =>
    simp only [tryApply, POp.call, hk, Option.some.injEq]
    constructor
    · rintro rfl
      refine ⟨fun x hx => ?_, rfl⟩
      obtain ⟨_, _, rfl⟩ := Option.map_eq_some_iff.1 hx
      rfl
    · rintro ⟨_, rfl⟩
      rfl
  | cas expect new success =>
    simp only [tryApply, POp.call, hk, register]
    by_cases hv : v = expect
    · cases success with
      | none => simp [hv, eq_comm]
      | some b => cases b <;> simp [hv, eq_comm]
    · cases success with
      | none => simp [hv, eq_comm]
      | some b => cases b <;> simp [hv, eq_comm]

theorem legal_iff_runOps (key : UInt8) :
    register.Legal v (order.map (POp.call key)) ↔ (runOps v order).isSome = true := by
  induction order generalizing v with
  | nil => simp [SeqObject.Legal, runOps]
  | cons o order ih =>
    have hcons : runOps v (o :: order) = (tryApply o.kind v).bind fun v => runOps v order := rfl
    rw [hcons]
    constructor
    · rintro ⟨hres, hrest⟩
      rw [(tryApply_iff key).2 ⟨hres, rfl⟩]
      exact ih.1 hrest
    · intro h
      obtain ⟨w, hw⟩ := Option.isSome_iff_exists.1 h
      obtain ⟨v', hv', hw⟩ := Option.bind_eq_some_iff.1 hw
      obtain ⟨hres, rfl⟩ := (tryApply_iff key).1 hv'
      exact ⟨hres, ih.2 (by rw [hw]; rfl)⟩

/-! ## From records to operations and back -/

/-- The records of one key, prepared: the operations of the search and the pending reads. -/
structure Prepared (key : UInt8) (rs : List HRecord) (ops : List POp) (reads : List (CallRecord HOp HRes)) : Prop where
  perm : (ops.map (POp.call key) ++ reads).Perm (rs.map HRecord.call)
  reads_pending : ∀ c ∈ reads, pendingRead c = true
  ops_kept : ∀ o ∈ ops, pendingRead (o.call key) = false
  timely : ∀ o ∈ ops, o.Timely

theorem prepare_some {r : HRecord} (hw : r.WellFormed) (hk : r.op.key = key) :
    (r.prepare = .ok none ∧ pendingRead r.call = true) ∨
      ∃ o, r.prepare = .ok (some o) ∧ o.call key = r.call ∧ pendingRead (o.call key) = false ∧ o.Timely := by
  obtain ⟨client, invoke, ret, op, result⟩ := r
  unfold HRecord.WellFormed at hw
  subst hk
  have htimely : ∀ t u : UInt64, invoke ≤ t → some t = some u → invoke ≤ u := by
    rintro t u hle ⟨⟩
    exact hle
  cases ret with
  | none =>
    cases result with
    | some res => exact hw.elim
    | none =>
      cases op with
      | read k => exact .inl ⟨rfl, rfl⟩
      | write k val => exact .inr ⟨_, rfl, rfl, rfl, fun t ht => (by cases ht)⟩
      | cas k expect new => exact .inr ⟨_, rfl, rfl, rfl, fun t ht => (by cases ht)⟩
  | some t =>
    cases result with
    | none => exact hw.elim
    | some res =>
      obtain ⟨hle, hres⟩ := hw
      right
      cases op with
      | read k =>
        cases res with
        | readOk v => exact ⟨_, rfl, rfl, rfl, fun u => htimely t u hle⟩
        | writeOk | casOk => cases hres
      | write k val =>
        cases res with
        | writeOk => exact ⟨_, rfl, rfl, rfl, fun u => htimely t u hle⟩
        | readOk | casOk => cases hres
      | cas k expect new =>
        cases res with
        | casOk success => exact ⟨_, rfl, rfl, rfl, fun u => htimely t u hle⟩
        | readOk | writeOk => cases hres

theorem prepareAll_prepared (hw : ∀ r ∈ rs, r.WellFormed) (hk : ∀ r ∈ rs, r.op.key = key) :
    ∃ ops reads, prepareAll rs = .ok ops ∧ Prepared key rs ops reads := by
  induction rs with
  | nil => exact ⟨[], [], rfl, ⟨List.Perm.refl _, by simp, by simp, by simp⟩⟩
  | cons r rs ih =>
    obtain ⟨ops, reads, hops, hp⟩ := ih (fun r hr => hw r (mem_cons_of_mem _ hr))
      (fun r hr => hk r (mem_cons_of_mem _ hr))
    rcases prepare_some (hw r (mem_cons_self ..)) (hk r (mem_cons_self ..)) with
      ⟨hr, hpend⟩ | ⟨o, hr, hcall, hkept, htimely⟩
    · refine ⟨ops, r.call :: reads, by simp [prepareAll, hr, hops, bind, Except.bind, pure, Except.pure], ?_,
        ?_, hp.ops_kept, hp.timely⟩
      · exact perm_middle.trans (hp.perm.cons _)
      · intro c hc
        rcases mem_cons.1 hc with rfl | hc
        · exact hpend
        · exact hp.reads_pending c hc
    · refine ⟨o :: ops, reads, by simp [prepareAll, hr, hops, bind, Except.bind, pure, Except.pure], ?_,
        hp.reads_pending, ?_, ?_⟩
      · rw [map_cons, hcall]
        exact hp.perm.cons _
      · intro x hx
        rcases mem_cons.1 hx with rfl | hx
        · exact hkept
        · exact hp.ops_kept x hx
      · intro x hx
        rcases mem_cons.1 hx with rfl | hx
        · exact htimely
        · exact hp.timely x hx

theorem pendingRead_ret {c : CallRecord HOp HRes} (h : pendingRead c = true) : c.ret = none := by
  unfold pendingRead at h
  split at h
  · assumption
  · cases h

/-- An order of the operations explains the records. -/
theorem Prepared.linearizable {reads : List (CallRecord HOp HRes)} (hp : Prepared key rs ops reads)
    (h : Explains ops order dropped) : register.Linearizable (rs.map HRecord.call) := by
  refine ⟨order.map (POp.call key), dropped.map (POp.call key) ++ reads, ?_, ?_, ?_, (legal_iff_runOps key).2 h.answers⟩
  · rw [← append_assoc, ← map_append]
    exact ((h.perm.map _).append_right _).trans hp.perm
  · intro c hc
    rcases mem_append.1 hc with hc | hc
    · obtain ⟨o, ho, rfl⟩ := mem_map.1 hc
      show o.ret.map UInt64.toNat = none
      rw [h.pending o ho]; rfl
    · exact pendingRead_ret (hp.reads_pending c hc)
  · refine pairwise_map.2 (h.real_time.imp fun hab => ?_)
    rwa [call_precedes]

/-- A pending read can be taken out of an order. -/
theorem legal_filter {cs : List (CallRecord HOp HRes)} (h : register.Legal v cs) :
    register.Legal v (cs.filter fun c => !pendingRead c) := by
  induction cs generalizing v with
  | nil => exact h
  | cons c cs ih =>
    obtain ⟨hres, hrest⟩ := h
    cases hc : pendingRead c with
    | false =>
      rw [filter_cons_of_pos (by simp [hc])]
      exact ⟨hres, ih hrest⟩
    | true =>
      have hsame : (register.apply v c.op).1 = v := by
        cases hop : c.op with
        | read k => rfl
        | write | cas => simp [pendingRead, hop] at hc
      rw [filter_cons_of_neg (by simp [hc])]
      rw [hsame] at hrest
      exact ih hrest

/-- A permutation of an image is the image of a permutation. -/
theorem exists_perm_of_perm_map {α β : Type} {f : α → β} : ∀ {m : List β} {l : List α}, m.Perm (l.map f) →
    ∃ l' : List α, l'.Perm l ∧ l'.map f = m
  | [], l, h => by
    have : l = [] := by simpa using h.symm.eq_nil
    subst this
    exact ⟨[], List.Perm.refl _, rfl⟩
  | b :: m, l, h => by
    obtain ⟨a, ha, rfl⟩ := mem_map.1 (h.subset (mem_cons_self ..))
    obtain ⟨s, t, rfl⟩ := append_of_mem ha
    have hmid : (f a :: m).Perm (f a :: (s ++ t).map f) := h.trans (perm_middle.map f)
    obtain ⟨l', hl', rfl⟩ := exists_perm_of_perm_map hmid.cons_inv
    exact ⟨a :: l', (hl'.cons a).trans perm_middle.symm, rfl⟩

/-- An order of the records, without the pending reads, is one of the operations. -/
theorem Prepared.explains {reads : List (CallRecord HOp HRes)} (hp : Prepared key rs ops reads)
    (h : register.Linearizable (rs.map HRecord.call)) : ∃ order dropped, Explains ops order dropped := by
  obtain ⟨cs, ds, hl⟩ := h
  have hperm := (hl.perm.trans hp.perm.symm).filter fun c => !pendingRead c
  have hops : (ops.map (POp.call key)).filter (fun c => !pendingRead c) = ops.map (POp.call key) := by
    rw [filter_eq_self]
    intro c hc
    obtain ⟨o, ho, rfl⟩ := mem_map.1 hc
    simp [hp.ops_kept o ho]
  have hreads : reads.filter (fun c => !pendingRead c) = [] := by
    rw [filter_eq_nil_iff]
    intro c hc
    simp [hp.reads_pending c hc]
  rw [filter_append, filter_append, hops, hreads, append_nil] at hperm
  obtain ⟨l, hlp, hlm⟩ := exists_perm_of_perm_map hperm
  obtain ⟨order, dropped, rfl, horder, hdropped⟩ := map_eq_append_iff.1 hlm
  refine ⟨order, dropped, hlp, fun o ho => ?_, ?_, ?_⟩
  · have hmem : o.call key ∈ ds := by
      have := mem_map_of_mem (f := POp.call key) ho
      rw [hdropped] at this
      exact mem_of_mem_filter this
    exact Option.map_eq_none_iff.1 (hl.pending _ hmem)
  · have hpw := hl.real_time.filter fun c => !pendingRead c
    rw [← horder, pairwise_map] at hpw
    exact hpw.imp fun hab => by rwa [call_precedes] at hab
  · refine (legal_iff_runOps key).1 ?_
    rw [horder]
    exact legal_filter hl.legal

/-! ## Whole histories -/

variable {history : List HRecord} {keys : List UInt8}

theorem checkKeys_ok (h : checkKeys history keys = .ok ()) {k : UInt8} (hk : k ∈ keys) :
    ∃ ops, prepareAll (history.filter fun r => r.op.key = k) = .ok ops ∧ checkKey ops = .ok () := by
  induction keys with
  | nil => cases hk
  | cons key keys ih =>
    unfold checkKeys at h
    cases hp : prepareAll (history.filter fun r => r.op.key = key) with
    | error e => rw [hp] at h; cases h
    | ok ops =>
      rw [hp] at h
      cases hc : checkKey ops with
      | error e => simp only [bind, Except.bind, hc] at h; cases h
      | ok u =>
        simp only [bind, Except.bind, hc, Except.mapError] at h
        rcases mem_cons.1 hk with rfl | hk
        · exact ⟨ops, hp, hc⟩
        · exact ih h hk

theorem checkKeys_complete (hall : ∀ k ∈ keys, ∃ ops,
      prepareAll (history.filter fun r => r.op.key = k) = .ok ops ∧
        (checkKey ops = .ok () ∨ ∃ e, checkKey ops = .error e ∧ e.isLimit = true)) :
    checkKeys history keys = .ok () ∨
      ∃ key e, checkKeys history keys = .error (.onKey key e) ∧ e.isLimit = true := by
  induction keys with
  | nil => exact .inl rfl
  | cons key keys ih =>
    obtain ⟨ops, hp, hc⟩ := hall key (mem_cons_self ..)
    unfold checkKeys
    rcases hc with hc | ⟨e, hc, hlim⟩
    · simp only [hp, hc, bind, Except.bind]
      exact ih fun k hk => hall k (mem_cons_of_mem _ hk)
    · simp only [hp, hc, bind, Except.bind]
      exact .inr ⟨key, e, rfl, hlim⟩

theorem on_call (history : List HRecord) (k : UInt8) :
    SeqObject.on HOp.key k (history.map HRecord.call) =
      (history.filter fun r => r.op.key = k).map HRecord.call := by
  rw [SeqObject.on, filter_map]
  rfl

theorem HRecord.WellFormed.timely {r : HRecord} (h : r.WellFormed) : r.call.Timely := by
  intro t ht
  obtain ⟨u, hu, rfl⟩ := Option.map_eq_some_iff.1 ht
  unfold HRecord.WellFormed at h
  rw [hu] at h
  cases hr : r.result with
  | none => rw [hr] at h; exact h.elim
  | some res =>
    rw [hr] at h
    exact UInt64.le_iff_toNat_le.1 h.1

/-- The checker is exact: `Ok` means that one order of all completed operations, with some of the pending ones,
explains the whole history; and where there is such an order, only the limits on size and expansions are reported. -/
theorem check_exact (history : List HRecord) (hw : ∀ r ∈ history, r.WellFormed) :
    (checkHistory history = .ok () → registers.Linearizable (history.map HRecord.call)) ∧
    (registers.Linearizable (history.map HRecord.call) → checkHistory history = .ok () ∨
      ∃ key e, checkHistory history = .error (.onKey key e) ∧ e.isLimit = true) := by
  have hlocal : registers.Linearizable (history.map HRecord.call) ↔
      ∀ k, register.Linearizable ((history.filter fun r => r.op.key = k).map HRecord.call) := by
    have htimely : ∀ c ∈ history.map HRecord.call, c.Timely := by
      intro c hc
      obtain ⟨r, hr, rfl⟩ := mem_map.1 hc
      exact (hw r hr).timely
    simp only [← on_call]
    exact SeqObject.linearizable_store_iff htimely
  have hprep : ∀ k, ∃ ops reads, prepareAll (history.filter fun r => r.op.key = k) = .ok ops ∧
      Prepared k (history.filter fun r => r.op.key = k) ops reads := by
    intro k
    refine prepareAll_prepared (fun r hr => hw r (mem_of_mem_filter hr)) fun r hr => ?_
    simpa using (mem_filter.1 hr).2
  rw [hlocal]
  constructor
  · intro h k
    by_cases hk : ∃ r ∈ history, r.op.key = k
    · have hmem : k ∈ ((history.map fun r => r.op.key).insertionSort (· ≤ ·)).dedup := by
        rw [mem_dedup, mem_insertionSort]
        obtain ⟨r, hr, rfl⟩ := hk
        exact mem_map.2 ⟨r, hr, rfl⟩
      obtain ⟨ops, hops, hok⟩ := checkKeys_ok h hmem
      obtain ⟨ops', reads, hops', hp⟩ := hprep k
      rw [hops] at hops'
      cases hops'
      obtain ⟨order, dropped, he⟩ := checkKey_ok hok
      exact hp.linearizable he
    · have hnil : (history.filter fun r => r.op.key = k) = [] := by
        rw [filter_eq_nil_iff]
        intro r hr hkr
        exact hk ⟨r, hr, by simpa using hkr⟩
      rw [hnil]
      exact ⟨[], [], List.Perm.refl _, by simp, List.Pairwise.nil, trivial⟩
  · intro h
    refine checkKeys_complete fun k _ => ?_
    obtain ⟨ops, reads, hops, hp⟩ := hprep k
    obtain ⟨order, dropped, he⟩ := hp.explains (h k)
    exact ⟨ops, hops, checkKey_complete he hp.timely⟩

/-- A read that saw a write before it was answered, a failed CAS on another key, and a pending CAS. -/
def overlapping : List HRecord :=
  [{ client := 101, invoke := 1, ret := some 4, op := .write 0 7, result := some .writeOk },
   { client := 102, invoke := 2, ret := some 3, op := .read 0, result := some (.readOk (some 7)) },
   { client := 102, invoke := 5, ret := some 6, op := .cas 1 (some 7) 8, result := some (.casOk false) },
   { client := 101, invoke := 7, ret := none, op := .cas 0 (some 7) 9, result := none }]

theorem overlapping_explained :
    checkHistory overlapping = .ok () ∧ registers.Linearizable (overlapping.map HRecord.call) := by
  have hok : checkHistory overlapping = .ok () := by decide +kernel
  exact ⟨hok, (check_exact overlapping (by decide)).1 hok⟩

/-- The read of a value that nobody wrote is found. -/
example : checkHistory [{ client := 101, invoke := 1, ret := some 2, op := .read 0, result := some (.readOk (some 7)) }]
    = .error (.onKey 0 (.notLinearizable [{ invoke := 1, ret := some 2, kind := .read (some 7), client := 101 }])) := by
  decide +kernel

end RaftKv

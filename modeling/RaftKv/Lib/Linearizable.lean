import Mathlib.Data.List.Dedup
import Mathlib.Data.List.Perm.Basic
import Mathlib.Logic.Function.Basic

/-!
# Linearizability

A history is a list of calls on one object, with the times of their invocations and responses. It
is linearizable when some order of all answered calls and some of the unanswered ones respects real
time and gives every answered call the response of a sequential object.

Calls on different parts of a store commute, and checking each part alone is enough
(`linearizable_store_iff`): orders of the parts merge into one order of the whole, because real
time is an interval order (`exists_merge`).
-/

/-- A sequential object: what an operation does to the state, and what it returns. -/
structure SeqObject (Op Res : Type) where
  State : Type
  init : State
  apply : State → Op → State × Res

/-- A call: when it was invoked, when it was answered, and with what. -/
structure CallRecord (Op Res : Type) where
  op : Op
  invoke : Nat
  ret : Option Nat
  result : Option Res
deriving DecidableEq

/-- Real time: `a` was answered before `b` was invoked. -/
def CallRecord.Precedes {Op Res : Type} (a b : CallRecord Op Res) : Prop := ∃ t, a.ret = some t ∧ t < b.invoke

/-- A call is answered after its invocation, if at all. -/
def CallRecord.Timely {Op Res : Type} (a : CallRecord Op Res) : Prop := ∀ t, a.ret = some t → a.invoke ≤ t

namespace SeqObject

variable {Op Res : Type} (O : SeqObject Op Res)

/-- Every recorded response is the one the object gives, when the calls run one after the other from `s`. -/
def Legal : O.State → List (CallRecord Op Res) → Prop
  | _, [] => True
  | s, r :: rs => (∀ x, r.result = some x → (O.apply s r.op).2 = x) ∧ Legal (O.apply s r.op).1 rs

/-- The calls of `order` explain the history `h`; the unanswered ones of `dropped` did not take effect. -/
structure Linearizes (h order dropped : List (CallRecord Op Res)) : Prop where
  perm : (order ++ dropped).Perm h
  pending : ∀ r ∈ dropped, r.ret = none
  real_time : order.Pairwise fun a b => ¬ b.Precedes a
  legal : O.Legal O.init order

def Linearizable (h : List (CallRecord Op Res)) : Prop := ∃ order dropped, O.Linearizes h order dropped

/-- One object for each key; an operation works on the one of its key. -/
def store {K : Type} [DecidableEq K] (key : Op → K) : SeqObject Op Res where
  State := K → O.State
  init _ := O.init
  apply s op :=
    let (x, r) := O.apply (s (key op)) op
    (Function.update s (key op) x, r)

end SeqObject

/-! ## Orders given by their splits -/

/-- What stands after an element, it is related to. -/
theorem pairwise_of_splits {α : Type} {R : α → α → Prop} : ∀ {l : List α},
    (∀ l₁ a l₂, l = l₁ ++ a :: l₂ → ∀ b ∈ l₂, R a b) → l.Pairwise R
  | [], _ => List.Pairwise.nil
  | a :: l, h => by
    refine List.pairwise_cons.2 ⟨h [] a l rfl, pairwise_of_splits fun l₁ b l₂ hl => ?_⟩
    exact h (a :: l₁) b l₂ (by rw [hl]; rfl)

theorem prefix_of_notMem {α : Type} {l l₁ l₂ : List α} {a : α} (h : l <+: l₁ ++ a :: l₂) (ha : a ∉ l) : l <+: l₁ := by
  rcases List.prefix_or_prefix_of_prefix h (List.prefix_append l₁ _) with hp | ⟨z, rfl⟩
  · exact hp
  · rcases List.prefix_cons_iff.1 ((List.prefix_append_right_inj l₁).1 h) with rfl | ⟨z', rfl, _⟩
    · simp
    · simp at ha

/-- A list is legal if the object gives each response after the calls before it. -/
theorem SeqObject.legal_of_splits {Op Res : Type} {O : SeqObject Op Res} :
    ∀ {s : O.State} {rs : List (CallRecord Op Res)},
    (∀ rs₁ r rs₂, rs = rs₁ ++ r :: rs₂ → ∀ x, r.result = some x →
      (O.apply (rs₁.foldl (fun s r => (O.apply s r.op).1) s) r.op).2 = x) → O.Legal s rs
  | _, [], _ => trivial
  | _, r :: rs, h => by
    refine ⟨h [] r rs rfl, legal_of_splits fun rs₁ r' rs₂ hrs => ?_⟩
    exact h (r :: rs₁) r' rs₂ (by rw [hrs]; rfl)

/-! ## Merging two orders -/

section merge
variable {α : Type} {R : α → α → Prop} {p : α → Bool}

/-- `a` can go first, before everything of `B`, or `b` can, before everything of `A`. -/
theorem first_of_two {a b : α} {A B : List α} (hint : ∀ w x y z, R w x → R y z → R w z ∨ R y x)
    (hirr : ∀ x ∈ (a :: A) ++ (b :: B), ¬ R x x) (hA : (a :: A).Pairwise fun x y => ¬ R y x)
    (hB : (b :: B).Pairwise fun x y => ¬ R y x) : (∀ y ∈ b :: B, ¬ R y a) ∨ ∀ x ∈ a :: A, ¬ R x b := by
  by_cases hy : ∀ y ∈ b :: B, ¬ R y a
  · exact Or.inl hy
  · right
    intro x hx hxb
    simp only [not_forall, not_not] at hy
    obtain ⟨y, hyB, hya⟩ := hy
    rcases hint _ _ _ _ hya hxb with hlt | hlt
    · -- `y` comes after `b` in its own order, or is `b`
      rcases List.mem_cons.1 hyB with rfl | hy'
      · exact hirr y (by simp) hlt
      · exact (List.pairwise_cons.1 hB).1 y hy' hlt
    · rcases List.mem_cons.1 hx with rfl | hx'
      · exact hirr x (by simp) hlt
      · exact (List.pairwise_cons.1 hA).1 x hx' hlt

/-- Two lists in an interval order merge into one. -/
theorem exists_merge (hint : ∀ w x y z, R w x → R y z → R w z ∨ R y x) : ∀ {A B : List α},
    (∀ x ∈ A ++ B, ¬ R x x) → (A.Pairwise fun x y => ¬ R y x) → (B.Pairwise fun x y => ¬ R y x) →
    (∀ x ∈ A, p x = true) → (∀ x ∈ B, p x = false) →
    ∃ M : List α, M.Perm (A ++ B) ∧ (M.Pairwise fun x y => ¬ R y x) ∧ M.filter p = A ∧ M.filter (fun x => !p x) = B
  | [], B, _, _, hB, _, hpB => by
    refine ⟨B, List.Perm.refl _, hB, ?_, ?_⟩
    · rw [List.filter_eq_nil_iff]
      intro x hx
      simp [hpB x hx]
    · rw [List.filter_eq_self]
      intro x hx
      simp [hpB x hx]
  | a :: A, [], _, hA, _, hpA, _ => by
    refine ⟨a :: A, by simp, hA, List.filter_eq_self.2 hpA, ?_⟩
    rw [List.filter_eq_nil_iff]
    intro x hx
    simp [hpA x hx]
  | a :: A, b :: B, hirr, hA, hB, hpA, hpB => by
    have hpa := hpA a (by simp)
    have hpb := hpB b (by simp)
    rcases first_of_two hint hirr hA hB with hfirst | hfirst
    · obtain ⟨M, hperm, hpw, hl, hr⟩ := exists_merge hint (A := A) (B := b :: B)
        (fun x hx => hirr x (List.mem_cons_of_mem _ hx)) (List.pairwise_cons.1 hA).2 hB
        (fun x hx => hpA x (List.mem_cons_of_mem _ hx)) hpB
      refine ⟨a :: M, hperm.cons a, List.pairwise_cons.2 ⟨fun x hx => ?_, hpw⟩, ?_, ?_⟩
      · rcases List.mem_append.1 (hperm.subset hx) with hx | hx
        · exact (List.pairwise_cons.1 hA).1 x hx
        · exact hfirst x hx
      · rw [List.filter_cons_of_pos hpa, hl]
      · rw [List.filter_cons_of_neg (by simp [hpa]), hr]
    · obtain ⟨M, hperm, hpw, hl, hr⟩ := exists_merge hint (A := a :: A) (B := B)
        (fun x hx => hirr x (by simp only [List.mem_append] at hx ⊢; tauto)) hA (List.pairwise_cons.1 hB).2
        hpA (fun x hx => hpB x (List.mem_cons_of_mem _ hx))
      refine ⟨b :: M, (hperm.cons b).trans List.perm_middle.symm, List.pairwise_cons.2 ⟨fun x hx => ?_, hpw⟩, ?_, ?_⟩
      · rcases List.mem_append.1 (hperm.subset hx) with hx | hx
        · exact hfirst x hx
        · exact (List.pairwise_cons.1 hB).1 x hx
      · rw [List.filter_cons_of_neg (by simp [hpb]), hl]
      · rw [List.filter_cons_of_pos (by simp [hpb]), hr]
  termination_by A B => A.length + B.length

end merge

/-! ## Locality -/

namespace SeqObject

variable {Op Res K : Type} [DecidableEq K] {O : SeqObject Op Res} {key : Op → K}
  {h h' order dropped : List (CallRecord Op Res)}

theorem precedes_interval {w x y z : CallRecord Op Res} (h : w.Precedes x) (h' : y.Precedes z) :
    w.Precedes z ∨ y.Precedes x := by
  obtain ⟨t, ht, hlt⟩ := h
  obtain ⟨u, hu, hlt'⟩ := h'
  by_cases htz : t < z.invoke
  · exact Or.inl ⟨t, ht, htz⟩
  · exact Or.inr ⟨u, hu, by omega⟩

theorem timely_irrefl {x : CallRecord Op Res} (h : x.Timely) : ¬ x.Precedes x := by
  rintro ⟨t, ht, hlt⟩
  have := h t ht
  omega

/-- The calls on one key. -/
def on (key : Op → K) (k : K) (rs : List (CallRecord Op Res)) : List (CallRecord Op Res) :=
  rs.filter fun r => key r.op = k

/-- A store answers each call as the object of its key does. -/
theorem legal_store_iff {s : K → O.State} {rs : List (CallRecord Op Res)} :
    (O.store key).Legal s rs ↔ ∀ k, O.Legal (s k) (on key k rs) := by
  induction rs generalizing s with
  | nil => simp [Legal, on]
  | cons r rs ih =>
    have hother : ∀ k, key r.op ≠ k → on key k (r :: rs) = on key k rs := by
      intro k hk
      simp [on, hk]
    have hself : on key (key r.op) (r :: rs) = r :: on key (key r.op) rs := by simp [on]
    constructor
    · rintro ⟨hres, hrest⟩ k
      have hk : O.Legal (Function.update s (key r.op) (O.apply (s (key r.op)) r.op).1 k) (on key k rs) := ih.1 hrest k
      by_cases hkr : key r.op = k
      · subst hkr
        rw [Function.update_self] at hk
        rw [hself]
        exact ⟨hres, hk⟩
      · rw [Function.update_of_ne (Ne.symm hkr)] at hk
        rwa [hother k hkr]
    · intro hall
      have hr := hall (key r.op)
      rw [hself] at hr
      refine ⟨hr.1, ih.2 fun k => ?_⟩
      show O.Legal (Function.update s (key r.op) (O.apply (s (key r.op)) r.op).1 k) (on key k rs)
      by_cases hkr : key r.op = k
      · subst hkr
        rw [Function.update_self]
        exact hr.2
      · rw [Function.update_of_ne (Ne.symm hkr)]
        have hk := hall k
        rwa [hother k hkr] at hk

theorem Linearizes.on_key (hl : (O.store key).Linearizes h order dropped) (k : K) :
    O.Linearizes (on key k h) (on key k order) (on key k dropped) where
  perm := by
    have hp := hl.perm.filter fun r => key r.op = k
    rwa [List.filter_append] at hp
  pending r hr := hl.pending r (List.mem_of_mem_filter hr)
  real_time := hl.real_time.filter _
  legal := legal_store_iff.1 hl.legal k

/-- The calls on one key and those on the others, each explained, are explained together. -/
theorem Linearizable.union {k : K} (ht : ∀ r ∈ h ++ h', r.Timely) (hk : ∀ r ∈ h, key r.op = k)
    (hk' : ∀ r ∈ h', key r.op ≠ k) (hl : O.Linearizable h) (hl' : (O.store key).Linearizable h') :
    (O.store key).Linearizable (h ++ h') := by
  obtain ⟨order, dropped, hl⟩ := hl
  obtain ⟨order', dropped', hl'⟩ := hl'
  have hsub : ∀ r ∈ order, r ∈ h := fun r hr => hl.perm.subset (List.mem_append_left _ hr)
  have hsub' : ∀ r ∈ order', r ∈ h' := fun r hr => hl'.perm.subset (List.mem_append_left _ hr)
  obtain ⟨M, hperm, hpw, hM, hM'⟩ := exists_merge (R := CallRecord.Precedes) (p := fun r => decide (key r.op = k))
    (fun _ _ _ _ => precedes_interval) (A := order) (B := order')
    (fun r hr => timely_irrefl (ht r (by
      rcases List.mem_append.1 hr with hr | hr
      · exact List.mem_append_left _ (hsub r hr)
      · exact List.mem_append_right _ (hsub' r hr))))
    hl.real_time hl'.real_time (fun r hr => by simp [hk r (hsub r hr)]) (fun r hr => by simp [hk' r (hsub' r hr)])
  refine ⟨M, dropped ++ dropped', ?_, ?_, hpw, legal_store_iff.2 fun k' => ?_⟩
  · have hswap : (order ++ order' ++ (dropped ++ dropped')).Perm (order ++ dropped ++ (order' ++ dropped')) := by
      simp only [List.append_assoc]
      refine List.Perm.append_left _ ?_
      rw [← List.append_assoc, ← List.append_assoc]
      exact List.Perm.append_right _ List.perm_append_comm
    exact (hperm.append_right _).trans (hswap.trans (hl.perm.append hl'.perm))
  · intro r hr
    rcases List.mem_append.1 hr with hr | hr
    · exact hl.pending r hr
    · exact hl'.pending r hr
  · by_cases hkk : k' = k
    · subst hkk
      rw [show on key k' M = order from hM]
      exact hl.legal
    · have hon : on key k' M = on key k' order' := by
        rw [← hM', on, on, List.filter_filter]
        refine List.filter_congr fun r _ => ?_
        by_cases hr : key r.op = k'
        · simp [hr, hkk]
        · simp [hr]
      rw [hon]
      exact legal_store_iff.1 hl'.legal k'

theorem Linearizable.perm (hl : O.Linearizable h) (hp : h.Perm h') : O.Linearizable h' := by
  obtain ⟨order, dropped, hl⟩ := hl
  exact ⟨order, dropped, hl.perm.trans hp, hl.pending, hl.real_time, hl.legal⟩

/-- Locality: a history of a store is linearizable exactly when the calls on each key are. -/
theorem linearizable_store_iff (ht : ∀ r ∈ h, r.Timely) :
    (O.store key).Linearizable h ↔ ∀ k, O.Linearizable (on key k h) := by
  constructor
  · rintro ⟨order, dropped, hl⟩ k
    exact ⟨_, _, hl.on_key k⟩
  · intro hall
    -- induction on the keys that occur: one key is split off and merged back
    suffices hks : ∀ (ks : List K) (h : List (CallRecord Op Res)), (∀ r ∈ h, r.Timely) → (∀ r ∈ h, key r.op ∈ ks) →
        (∀ k, O.Linearizable (on key k h)) → (O.store key).Linearizable h from
      hks (h.map fun r => key r.op) h ht (fun r hr => List.mem_map.2 ⟨r, hr, rfl⟩) hall
    intro ks
    induction ks with
    | nil =>
      intro h _ hkeys _
      obtain rfl : h = [] := List.eq_nil_iff_forall_not_mem.2 fun r hr => absurd (hkeys r hr) (by simp)
      exact ⟨[], [], List.Perm.refl _, by simp, List.Pairwise.nil, trivial⟩
    | cons k ks ih =>
      intro h ht hkeys hall
      have hsplit := List.filter_append_perm (fun r : CallRecord Op Res => decide (key r.op = k)) h
      refine Linearizable.perm (Linearizable.union (k := k) ?_ ?_ ?_ (hall k) (ih _ ?_ ?_ ?_)) hsplit
      · intro r hr
        exact ht r (hsplit.subset hr)
      · intro r hr
        simpa [on] using (List.mem_filter.1 hr).2
      · intro r hr
        simpa using (List.mem_filter.1 hr).2
      · intro r hr
        exact ht r (List.mem_of_mem_filter hr)
      · intro r hr
        obtain ⟨hr, hne⟩ := List.mem_filter.1 hr
        simpa [show key r.op ≠ k by simpa using hne] using hkeys r hr
      · intro k'
        by_cases hkk : k' = k
        · subst hkk
          have hnil : on key k' (h.filter fun r => !decide (key r.op = k')) = [] := by
            rw [on]
            simp
          rw [hnil]
          exact ⟨[], [], List.Perm.refl _, by simp, List.Pairwise.nil, trivial⟩
        · have hon : on key k' (h.filter fun r => !decide (key r.op = k)) = on key k' h := by
            rw [on, List.filter_filter]
            refine List.filter_congr fun r _ => ?_
            by_cases hr : key r.op = k'
            · simp [hr, hkk]
            · simp [hr]
          rw [hon]
          exact hall k'

end SeqObject

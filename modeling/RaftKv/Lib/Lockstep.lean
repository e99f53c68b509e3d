import Mathlib.Logic.Basic

/-!
# Two runs in step

A computation is repeated on data that may be damaged. `Backs x x'` says of the results that
whatever `x'` returns, `x` returns, too: the second run fails or gives the answer of the first.
`BacksFrom` is the same for programs with a state, with a postcondition for the two states that are
reached. There is a rule for each way to put programs together.
-/

variable {ε σ α β γ δ : Type}

/-- What `x'` returns, `x` returns, too. -/
def Backs (x x' : Except ε α) : Prop := ∀ a, x' = .ok a → x = .ok a

namespace Backs

variable {x x' : Except ε α}

theorem refl (x : Except ε α) : Backs x x := fun _ h => h

theorem error (e : ε) : Backs x (.error e) := fun _ h => (by cases h)

theorem bind {f f' : α → Except ε β} (hx : Backs x x') (hf : ∀ a, x' = .ok a → Backs (f a) (f' a)) :
    Backs (x >>= f) (x' >>= f') := by
  intro b hb
  cases hx' : x' with
  | error e => rw [hx'] at hb; cases hb
  | ok a =>
    rw [hx'] at hb
    rw [hx a hx']
    exact hf a hx' b hb

theorem map (f : α → β) (hx : Backs x x') : Backs (x.map f) (x'.map f) := by
  intro b hb
  cases hx' : x' with
  | error e => rw [hx'] at hb; cases hb
  | ok a =>
    rw [hx'] at hb
    rw [hx a hx']
    exact hb

theorem mapM {f f' : α → Except ε β} :
    ∀ {l : List α}, (∀ a ∈ l, Backs (f a) (f' a)) → Backs (l.mapM f) (l.mapM f') := by
  intro l
  induction l with
  | nil => exact fun _ => refl _
  | cons a l ih =>
    intro h
    rw [List.mapM_cons, List.mapM_cons]
    refine (h a (by simp)).bind fun b _ => ?_
    exact (ih fun a' ha' => h a' (List.mem_cons_of_mem _ ha')).bind fun bs _ => refl _

end Backs

/-- If `x'` returns when run from `s'`, then `x` returns when run from `s`, with `Q` for the results and the states. -/
def BacksFrom (x : EStateM ε σ α) (s : σ) (x' : EStateM ε σ β) (s' : σ) (Q : α → σ → β → σ → Prop) : Prop :=
  ∀ b t', x' s' = .ok b t' → ∃ a t, x s = .ok a t ∧ Q a t b t'

namespace BacksFrom

variable {x : EStateM ε σ α} {x' : EStateM ε σ β} {s s' : σ} {Q : α → σ → β → σ → Prop}

theorem pure {a : α} {b : β} (h : Q a s b s') : BacksFrom (Pure.pure a : EStateM ε σ α) s (Pure.pure b) s' Q := by
  intro b' t' ht
  cases ht
  exact ⟨a, s, rfl, h⟩

theorem throw (x : EStateM ε σ α) (s : σ) (e : ε) :
    BacksFrom x s (MonadExcept.throw e : EStateM ε σ β) s' Q := fun _ _ h => (by cases h)

theorem bind {f : α → EStateM ε σ γ} {f' : β → EStateM ε σ δ} {R : γ → σ → δ → σ → Prop} (hx : BacksFrom x s x' s' Q)
    (hf : ∀ a t b t', Q a t b t' → BacksFrom (f a) t (f' b) t' R) : BacksFrom (x >>= f) s (x' >>= f') s' R := by
  intro d u' hd
  have hd' : EStateM.bind x' f' s' = .ok d u' := hd
  unfold EStateM.bind at hd'
  cases hx' : x' s' with
  | error e t' => rw [hx'] at hd'; cases hd'
  | ok b t' =>
    rw [hx'] at hd'
    obtain ⟨a, t, ha, hq⟩ := hx b t' hx'
    obtain ⟨c, u, hc, hr⟩ := hf a t b t' hq d u' hd'
    refine ⟨c, u, ?_, hr⟩
    show EStateM.bind x f s = .ok c u
    unfold EStateM.bind
    rw [ha]
    exact hc

/-- A loop over the same items. -/
theorem forM {l : List α} {body body' : α → EStateM ε σ PUnit} {I : σ → σ → Prop} (hs : I s s')
    (hbody : ∀ a s s', I s s' → BacksFrom (body a) s (body' a) s' fun _ t _ t' => I t t') :
    BacksFrom (l.forM body) s (l.forM body') s' fun _ t _ t' => I t t' := by
  induction l generalizing s s' with
  | nil => exact pure (Q := fun _ t _ t' => I t t') hs
  | cons a l ih => exact (hbody a s s' hs).bind fun _ t _ t' ht => ih ht

end BacksFrom

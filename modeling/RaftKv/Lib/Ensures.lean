import Mathlib.Logic.Basic

/-!
# Programs that fail and keep their state

A program of `EStateM ε σ` that fails leaves the state as it is at that point: files that are
written stay written. `Ensures x s Q E` says what holds after `x` was run from `s`, `Q` if it
returned and `E` if it failed, with a rule for each way to put programs together.
-/

variable {ε σ α β : Type}

/-- Run from `s`, `x` returns with `Q` or fails with `E`. -/
def Ensures (x : EStateM ε σ α) (s : σ) (Q : α → σ → Prop) (E : ε → σ → Prop) : Prop :=
  match x s with
  | .ok a s' => Q a s'
  | .error e s' => E e s'

namespace Ensures

variable {x : EStateM ε σ α} {f : α → EStateM ε σ β} {s s' : σ} {a : α} {e : ε}
  {Q Q' : α → σ → Prop} {R : β → σ → Prop} {E E' : ε → σ → Prop}

theorem pure (h : Q a s) : Ensures (Pure.pure a) s Q E := h

theorem modify {g : σ → σ} {Q : PUnit → σ → Prop} (h : Q ⟨⟩ (g s)) : Ensures (modify g) s Q E := h

theorem throw (h : E e s) : Ensures (MonadExcept.throw e : EStateM ε σ α) s Q E := h

theorem bind (hx : Ensures x s Q E) (hf : ∀ a s', Q a s' → Ensures (f a) s' R E) : Ensures (x >>= f) s R E := by
  unfold Ensures at hx
  show Ensures (EStateM.bind x f) s R E
  unfold Ensures EStateM.bind
  cases h : x s with
  | ok a s' =>
    rw [h] at hx
    exact hf a s' hx
  | error e s' =>
    rw [h] at hx
    exact hx

theorem mono (h : Ensures x s Q E) (hQ : ∀ a s', Q a s' → Q' a s') (hE : ∀ e s', E e s' → E' e s') :
    Ensures x s Q' E' := by
  unfold Ensures at *
  cases hr : x s with
  | ok a s' => rw [hr] at h; exact hQ a s' h
  | error e s' => rw [hr] at h; exact hE e s' h

theorem of_ok (h : Ensures x s Q E) (hx : x s = .ok a s') : Q a s' := by
  unfold Ensures at h
  rwa [hx] at h

theorem of_error (h : Ensures x s Q E) (hx : x s = .error e s') : E e s' := by
  unfold Ensures at h
  rwa [hx] at h

theorem of_eq (hx : x s = .ok a s') (h : Q a s') : Ensures x s Q E := by
  unfold Ensures
  rw [hx]
  exact h

/-- A program without errors returns. -/
theorem exists_ok (h : Ensures x s Q fun _ _ => False) : ∃ a s', x s = .ok a s' ∧ Q a s' := by
  cases hx : x s with
  | ok a s' => exact ⟨a, s', rfl, h.of_ok hx⟩
  | error e s' => exact (h.of_error hx).elim

/-- A loop keeps an invariant that is about the items behind it. -/
theorem forM {l : List α} {body : α → EStateM ε σ PUnit} {I : List α → σ → Prop} (hs : I [] s)
    (hbody : ∀ pre a post, l = pre ++ a :: post → ∀ s, I pre s → Ensures (body a) s (fun _ => I (pre ++ [a])) E) :
    Ensures (l.forM body) s (fun _ => I l) E := by
  have hgen : ∀ post pre s, l = pre ++ post → I pre s → Ensures (post.forM body) s (fun _ => I l) E := by
    intro post
    induction post with
    | nil =>
      intro pre s hl hi
      rw [hl, List.append_nil]
      exact hi
    | cons a post ih =>
      intro pre s hl hi
      refine (hbody pre a post hl s hi).bind fun _ s' hi' => ih (pre ++ [a]) s' ?_ hi'
      rw [hl, List.append_assoc]
      rfl
  exact hgen l [] s rfl hs

end Ensures

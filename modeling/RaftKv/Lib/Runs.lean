import Mathlib.Logic.Basic

/-!
# Runs of a guarded step function

`step s a` is `some t` when the action `a` can be taken in `s`. A run takes actions that all meet
a condition `ok`; `replay` is the same for a list of actions, and computes.
-/

variable {σ α : Type} {step : σ → α → Option σ} {ok ok' : σ → α → Prop} {s t u : σ}

/-- The states reached from `s` by actions that meet `ok`. -/
inductive Runs (step : σ → α → Option σ) (ok : σ → α → Prop) (s : σ) : σ → Prop
  | refl : Runs step ok s s
  | tail {t u : σ} {a : α} : Runs step ok s t → ok t a → step t a = some u → Runs step ok s u

namespace Runs

theorem trans (h : Runs step ok s t) (h' : Runs step ok t u) : Runs step ok s u := by
  induction h' with
  | refl => exact h
  | tail _ hok he ih => exact .tail ih hok he

theorem mono (h : Runs step ok s t) (himp : ∀ s a, ok s a → ok' s a) : Runs step ok' s t := by
  induction h with
  | refl => exact .refl
  | tail _ hok he ih => exact .tail ih (himp _ _ hok) he

/-- A property kept by every permitted action holds along a run. -/
theorem invariant {P : σ → Prop} (h : Runs step ok s t) (hs : P s)
    (hstep : ∀ {s t a}, P s → ok s a → step s a = some t → P t) : P t := by
  induction h with
  | refl => exact hs
  | tail _ hok he ih => exact hstep ih hok he

/-- Such a property may be added to the condition. -/
theorem along {P : σ → Prop} (h : Runs step ok s t) (hs : P s)
    (hstep : ∀ {s t a}, P s → ok s a → step s a = some t → P t) : Runs step (fun s a => P s ∧ ok s a) s t := by
  induction h with
  | refl => exact .refl
  | tail h hok he ih => exact .tail ih ⟨h.invariant hs hstep, hok⟩ he

variable (step ok) in
/-- The actions one after the other, as long as they meet `ok`. -/
def replay [∀ s a, Decidable (ok s a)] : σ → List α → Option σ
  | s, [] => some s
  | s, a :: as => if ok s a then (step s a).bind fun s => replay s as else none

theorem of_replay [∀ s a, Decidable (ok s a)] {as : List α} (h : Runs step ok s t)
    (hr : replay step ok t as = some u) : Runs step ok s u := by
  induction as generalizing t with
  | nil => cases hr; exact h
  | cons a as ih =>
    unfold replay at hr
    split at hr
    · rename_i hok
      obtain ⟨t', he, hr⟩ := Option.bind_eq_some_iff.1 hr
      exact ih (h.tail hok he) hr
    · cases hr

variable (step ok) in
/-- A run by evaluation: the listed actions succeed and end in a state with `P`. -/
theorem reached [∀ s a, Decidable (ok s a)] (s : σ) (as : List α) {P : σ → Prop} [DecidablePred P]
    (h : (replay step ok s as).any (fun t => decide (P t)) = true) : ∃ t, Runs step ok s t ∧ P t := by
  obtain ⟨t, ht, hP⟩ := (Option.any_eq_true _ _).1 h
  exact ⟨t, of_replay .refl ht, of_decide_eq_true hP⟩

end Runs

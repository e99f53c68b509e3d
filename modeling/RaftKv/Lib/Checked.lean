import Mathlib.Algebra.GroupWithZero.Nat
import Mathlib.Data.List.Basic

/-!
# Operations that may panic

The partial operations of a Rust program as functions into `Option`, `none` for the panic.
Indexing `v[i]` is `v[i]?`. A loop whose body panics is `List.foldlM` or `List.mapM`; when no
iteration does, it is the plain loop.

| here | there |
| --- | --- |
| `checkedSub`     | `a - b` on an unsigned type |
| `checkedMod`     | `a % b` |
| `checkedShift`   | `i + k` on `usize`, for a position `i` in a `Vec` |
| `checkedSlice`   | `v[start..stop].to_vec()` |
| `checkedDrain`   | `v.drain(..k)` |
| `checkedAssert`  | `assert!(p)` and `debug_assert!(p)` |
-/

variable {α β σ : Type}

def checkedSub (a b : Nat) : Option Nat := if b ≤ a then some (a - b) else none

def checkedMod (a b : Nat) : Option Nat := if b = 0 then none else some (a % b)

/-- A `Vec` has fewer than `2 ^ 63` elements: the sum overflows only for a `k` above that. -/
def checkedShift (i k : Nat) : Option Nat := if i < 2 ^ 63 ∧ 2 ^ 64 ≤ i + k then none else some (i + k)

def checkedSlice (l : List α) (start stop : Nat) : Option (List α) :=
  if start ≤ stop ∧ stop ≤ l.length then some ((l.take stop).drop start) else none

def checkedDrain (l : List α) (k : Nat) : Option (List α) := if k ≤ l.length then some (l.drop k) else none

def checkedAssert (p : Prop) [Decidable p] : Option Unit := if p then some () else none

theorem checkedSub_of_le {a b : Nat} (h : b ≤ a) : checkedSub a b = some (a - b) := if_pos h

theorem checkedMod_of_pos {a b : Nat} (h : 0 < b) : checkedMod a b = some (a % b) := if_neg (Nat.ne_of_gt h)

theorem checkedShift_of_le {i k : Nat} (h : k ≤ 2 ^ 63) : checkedShift i k = some (i + k) := if_neg (by omega)

theorem checkedShift_of_lt {i k : Nat} (h : i < 2 ^ 63) :
    checkedShift i k = if i + k < 2 ^ 64 then some (i + k) else none := by
  unfold checkedShift
  by_cases hk : i + k < 2 ^ 64
  · rw [if_neg (by omega), if_pos hk]
  · rw [if_pos (by omega), if_neg hk]

theorem checkedSlice_of_le {l : List α} {start stop : Nat} (h : start ≤ stop) (h' : stop ≤ l.length) :
    checkedSlice l start stop = some ((l.take stop).drop start) := if_pos ⟨h, h'⟩

/-- `v[i..].to_vec()` -/
theorem checkedSlice_to_end {l : List α} {i : Nat} (h : i ≤ l.length) :
    checkedSlice l i l.length = some (l.drop i) := by
  rw [checkedSlice_of_le h (Nat.le_refl _), List.take_length]

theorem checkedDrain_of_le {l : List α} {k : Nat} (h : k ≤ l.length) : checkedDrain l k = some (l.drop k) := if_pos h

theorem checkedAssert_of {p : Prop} [Decidable p] (h : p) : checkedAssert p = some () := if_pos h

theorem checkedAssert_bind (p : Prop) [Decidable p] (x : Option β) :
    (checkedAssert p).bind (fun _ => x) = if p then x else none := by
  unfold checkedAssert
  split <;> rfl

/-- The iterations may rely on what each of them keeps. -/
theorem List.foldlM_of_eq_some {f : σ → α → Option σ} {g : σ → α → σ} {P : σ → Prop}
    (h : ∀ s a, P s → f s a = some (g s a)) (hkeep : ∀ s a, P s → P (g s a)) :
    ∀ (l : List α) (s : σ), P s → l.foldlM f s = some (l.foldl g s)
  | [], _, _ => rfl
  | a :: l, s, hs => by
    rw [List.foldlM_cons, h s a hs]
    exact List.foldlM_of_eq_some h hkeep l _ (hkeep s a hs)

theorem List.mapM_of_eq_some {f : α → Option β} {g : α → β} (h : ∀ a, f a = some (g a)) (l : List α) :
    l.mapM f = some (l.map g) := by
  have hf : f = fun a => Pure.pure (g a) := funext h
  rw [hf, List.mapM_pure]; rfl

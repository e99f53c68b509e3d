import Mathlib.Algebra.GroupWithZero.Nat
import Mathlib.Data.List.Lex
import Mathlib.Order.Basic

/-!
# Byte strings in lexicographic order

Big-endian encodings of a fixed width: the order of the byte strings is the order of the numbers
(`beBytes_lt_of_lt`), which is why stores that sort their keys as bytes use them for indexes.
-/

instance instLinearOrderUInt8 : LinearOrder UInt8 where
  le_refl := UInt8.le_refl
  le_trans _ _ _ := UInt8.le_trans
  lt_iff_le_not_ge a b := by
    simp only [UInt8.lt_iff_toNat_lt, UInt8.le_iff_toNat_le]; omega
  le_antisymm _ _ := UInt8.le_antisymm
  le_total := UInt8.le_total
  toDecidableLE := inferInstance
  toDecidableEq := inferInstance
  toDecidableLT := inferInstance

/-- The last `k` bytes of `n`, most significant first. -/
def beBytes : Nat → Nat → List UInt8
  | 0, _ => []
  | k + 1, n => UInt8.ofNat (n / 256 ^ k) :: beBytes k n

theorem beBytes_mod (n : Nat) : ∀ {k j : Nat}, k ≤ j → beBytes k (n % 256 ^ j) = beBytes k n
  | 0, _, _ => rfl
  | k + 1, j, h => by
    have hdvd : 256 ^ j = 256 ^ (j - k - 1) * 256 * 256 ^ k := by
      rw [← Nat.pow_succ, ← Nat.pow_add]; congr 1; omega
    have hdigit : n % 256 ^ j / 256 ^ k % 256 = n / 256 ^ k % 256 := by
      rw [hdvd, Nat.mod_mul_left_div_self, Nat.mod_mul_left_mod]
    have hhead : UInt8.ofNat (n % 256 ^ j / 256 ^ k) = UInt8.ofNat (n / 256 ^ k) := by
      apply UInt8.toNat_inj.1
      exact hdigit
    rw [beBytes, beBytes, hhead, beBytes_mod n (by omega)]

theorem beBytes_lt_of_lt : ∀ {k m n : Nat}, m < n → n < 256 ^ k → beBytes k m < beBytes k n
  | 0, _, _, hmn, hn => by simp at hn; omega
  | k + 1, m, n, hmn, hn => by
    have hdigit : ∀ {x}, x < 256 ^ (k + 1) → (UInt8.ofNat (x / 256 ^ k)).toNat = x / 256 ^ k := by
      intro x hx
      refine Nat.mod_eq_of_lt ((Nat.div_lt_iff_lt_mul (Nat.pow_pos (by decide))).2 ?_)
      rw [Nat.pow_succ] at hx; omega
    have hle : m / 256 ^ k ≤ n / 256 ^ k := Nat.div_le_div_right (Nat.le_of_lt hmn)
    rw [beBytes, beBytes, List.cons_lt_cons_iff]
    rcases Nat.lt_or_eq_of_le hle with hlt | heq
    · left
      rw [UInt8.lt_iff_toNat_lt, hdigit (hmn.trans hn), hdigit hn]
      exact hlt
    · -- equal leading bytes: the rests decide
      right
      refine ⟨by rw [heq], ?_⟩
      rw [← beBytes_mod m (Nat.le_refl k), ← beBytes_mod n (Nat.le_refl k)]
      refine beBytes_lt_of_lt ?_ (Nat.mod_lt _ (Nat.pow_pos (by decide)))
      have hm := Nat.div_add_mod m (256 ^ k)
      have hn' := Nat.div_add_mod n (256 ^ k)
      rw [heq] at hm
      omega

theorem beBytes_inj {k m n : Nat} (hm : m < 256 ^ k) (hn : n < 256 ^ k) (h : beBytes k m = beBytes k n) : m = n := by
  by_contra hne
  rcases Nat.lt_or_gt_of_ne hne with hlt | hlt
  · exact absurd h (ne_of_lt (beBytes_lt_of_lt hlt hn))
  · exact absurd h.symm (ne_of_lt (beBytes_lt_of_lt hlt hm))

/-! ## Little-endian -/

/-- The last `k` bytes of `n`, least significant first. -/
def leBytes : Nat → Nat → List UInt8
  | 0, _ => []
  | k + 1, n => UInt8.ofNat n :: leBytes k (n / 256)

/-- The number with these bytes, least significant first. -/
def leNat : List UInt8 → Nat
  | [] => 0
  | b :: bs => b.toNat + 256 * leNat bs

@[simp] theorem length_leBytes : ∀ (k n : Nat), (leBytes k n).length = k
  | 0, _ => rfl
  | k + 1, n => by rw [leBytes, List.length_cons, length_leBytes k]

theorem leNat_leBytes : ∀ (k n : Nat), leNat (leBytes k n) = n % 256 ^ k
  | 0, n => by rw [leBytes, leNat, Nat.pow_zero, Nat.mod_one]
  | k + 1, n => by
    have hbyte : (UInt8.ofNat n).toNat = n % 256 := UInt8.toNat_ofNat'
    rw [leBytes, leNat, leNat_leBytes k, hbyte, Nat.pow_succ, Nat.mul_comm (256 ^ k), Nat.mod_mul]

theorem leNat_leBytes_of_lt {k n : Nat} (h : n < 256 ^ k) : leNat (leBytes k n) = n := by
  rw [leNat_leBytes, Nat.mod_eq_of_lt h]

theorem leNat_lt : ∀ bs : List UInt8, leNat bs < 256 ^ bs.length
  | [] => by simp [leNat]
  | b :: bs => by
    have hb : b.toNat < 256 := UInt8.toNat_lt b
    have hbs := leNat_lt bs
    rw [leNat, List.length_cons]
    omega

theorem leBytes_leNat : ∀ bs : List UInt8, leBytes bs.length (leNat bs) = bs
  | [] => rfl
  | b :: bs => by
    have hb : b.toNat < 256 := UInt8.toNat_lt b
    have hhead : UInt8.ofNat (b.toNat + 256 * leNat bs) = b := by
      apply UInt8.toNat_inj.1
      rw [UInt8.toNat_ofNat', Nat.add_mul_mod_self_left]
      exact Nat.mod_eq_of_lt hb
    have htail : (b.toNat + 256 * leNat bs) / 256 = leNat bs := by omega
    rw [List.length_cons, leNat, leBytes, hhead, htail, leBytes_leNat bs]

import Mathlib.Algebra.Order.Ring.Nat
import Mathlib.Data.Nat.Log
import Mathlib.Data.Nat.Size

/-!
# Division by shifting and subtracting

The remainder of `x` by `n`: subtract `n * 2 ^ k`, ..., `n * 2`, `n` one after the other,
each where it fits. With `n * 2 ^ k` shifted so far that its top bit is that of `x`, every
multiple is subtracted at most once. `first` stops at the first multiple that fits.
-/

namespace SocCrypto.ShiftSubtract

/-- `y` is subtracted where it fits. -/
def restore (x y : ℕ) : ℕ := if x < y then x else x - y

/-- The multiples `n * 2 ^ k` down to `n`. -/
def reduce (n : ℕ) : ℕ → ℕ → ℕ
  | 0, x => restore x n
  | k + 1, x => reduce n k (restore x (n * 2 ^ (k + 1)))

/-- One multiple only, the first that fits. -/
def first (n : ℕ) : ℕ → ℕ → ℕ
  | 0, x => restore x n
  | k + 1, x => if x < n * 2 ^ (k + 1) then first n k x else x - n * 2 ^ (k + 1)

/-- `x` less the largest multiple `n * 2 ^ k` it holds. -/
def lessLargest (n x : ℕ) : ℕ := if x < n then x else x - n * 2 ^ Nat.log 2 (x / n)

variable {n x y k : ℕ}

theorem restore_zero_left (y : ℕ) : restore 0 y = 0 := by
  rw [restore, Nat.zero_sub, ite_self]

theorem restore_zero_right (x : ℕ) : restore x 0 = x := by
  rw [restore, if_neg (Nat.not_lt_zero x), Nat.sub_zero]

theorem restore_self (x : ℕ) : restore x x = 0 := by
  rw [restore, if_neg (lt_irrefl x), Nat.sub_self]

theorem restore_lt_max (h : x < k + y) : restore x y < max k y := by
  rw [restore]
  split <;> omega

theorem restore_lt (h : x < 2 * y) : restore x y < y := by
  have hmax := restore_lt_max (h.trans_eq (Nat.two_mul y))
  rwa [max_self] at hmax

theorem restore_mod (hy : n ∣ y) : restore x y % n = x % n := by
  obtain ⟨q, rfl⟩ := hy
  rw [restore]
  split
  · rfl
  · next hle => exact Nat.sub_mul_mod (Nat.le_of_not_lt hle)

theorem reduce_zero (n k : ℕ) : reduce n k 0 = 0 := by
  induction k with
  | zero => exact restore_zero_left n
  | succ k ih => rw [reduce, restore_zero_left, ih]

theorem reduce_by_zero (k x : ℕ) : reduce 0 k x = x := by
  induction k with
  | zero => exact restore_zero_right x
  | succ k ih => rw [reduce, Nat.zero_mul, restore_zero_right, ih]

/-- An exact multiple leaves nothing for the smaller ones. -/
theorem reduce_exact (n k : ℕ) : reduce n k (n * 2 ^ k) = 0 := by
  cases k with
  | zero => rw [reduce, pow_zero, Nat.mul_one, restore_self]
  | succ k => rw [reduce, restore_self, reduce_zero]

theorem reduce_eq_mod (h : x < 2 * (n * 2 ^ k)) : reduce n k x = x % n := by
  induction k generalizing x with
  | zero =>
    rw [pow_zero, Nat.mul_one] at h
    rw [reduce, ← Nat.mod_eq_of_lt (restore_lt h), restore_mod (dvd_refl n)]
  | succ k ih =>
    have hlt : restore x (n * 2 ^ (k + 1)) < 2 * (n * 2 ^ k) :=
      lt_of_lt_of_eq (restore_lt h) (by rw [pow_succ, ← Nat.mul_assoc, Nat.mul_comm])
    rw [reduce, ih hlt, restore_mod (Nat.dvd_mul_right n (2 ^ (k + 1)))]

theorem first_by_zero (k x : ℕ) : first 0 k x = x := by
  cases k with
  | zero => exact restore_zero_right x
  | succ k => rw [first, Nat.zero_mul, if_neg (Nat.not_lt_zero x), Nat.sub_zero]

theorem first_zero (n k : ℕ) : first n k 0 = 0 := by
  induction k with
  | zero => exact restore_zero_left n
  | succ k ih => rw [first, ih, Nat.zero_sub, ite_self]

theorem lessLargest_eq (hn : 0 < n) (hle : n * 2 ^ k ≤ x) (hlt : x < 2 * (n * 2 ^ k)) :
    lessLargest n x = x - n * 2 ^ k := by
  have hnx : n ≤ x := le_trans (Nat.le_mul_of_pos_right n (Nat.two_pow_pos k)) hle
  have hlog : Nat.log 2 (x / n) = k := by
    refine (Nat.log_eq_iff (Or.inr ⟨Nat.one_lt_two, ?_⟩)).mpr ⟨?_, ?_⟩
    · exact Nat.ne_of_gt (Nat.div_pos hnx hn)
    · rwa [Nat.le_div_iff_mul_le hn, Nat.mul_comm]
    · rw [Nat.div_lt_iff_lt_mul hn, pow_succ, Nat.mul_comm _ 2, Nat.mul_assoc, Nat.mul_comm _ n]
      exact hlt
  rw [lessLargest, if_neg (Nat.not_lt.mpr hnx), hlog]

theorem first_eq (hn : 0 < n) (h : x < 2 * (n * 2 ^ k)) : first n k x = lessLargest n x := by
  induction k with
  | zero =>
    rw [first, restore]
    split
    · next hlt => rw [lessLargest, if_pos hlt]
    · next hle =>
      rw [lessLargest_eq hn (by simpa using hle) h, pow_zero, Nat.mul_one]
  | succ k ih =>
    rw [first]
    split
    · next hlt =>
      refine ih (lt_of_lt_of_eq hlt ?_)
      rw [pow_succ, ← Nat.mul_assoc, Nat.mul_comm]
    · next hle => exact (lessLargest_eq hn (Nat.le_of_not_lt hle) h).symm

/-- The shift that aligns the top bits. -/
theorem lt_two_mul_of_size (hn : 0 < n) (hk : x.size = n.size + k) : x < 2 * (n * 2 ^ k) := by
  have hx := Nat.lt_size_self x
  have hpos : 0 < n.size := Nat.size_pos.mpr hn
  have htop : 2 ^ (n.size - 1) ≤ n := Nat.lt_size.mp (by omega)
  calc x < 2 ^ x.size := hx
    _ = 2 * (2 ^ (n.size - 1) * 2 ^ k) := by
      rw [hk, ← pow_add, ← pow_succ']
      congr 1
      omega
    _ ≤ 2 * (n * 2 ^ k) := Nat.mul_le_mul_left 2 (Nat.mul_le_mul_right _ htop)

/-- The aligned operand has the length of the other one. -/
theorem mul_pow_lt (hk : n.size + k ≤ y) : n * 2 ^ k < 2 ^ y := by
  calc n * 2 ^ k < 2 ^ n.size * 2 ^ k :=
        Nat.mul_lt_mul_of_pos_right (Nat.lt_size_self n) (Nat.two_pow_pos k)
    _ = 2 ^ (n.size + k) := (pow_add 2 _ _).symm
    _ ≤ 2 ^ y := Nat.pow_le_pow_right Nat.two_pos hk

theorem lessLargest_mod (n x : ℕ) : lessLargest n x % n = x % n := by
  rw [lessLargest]
  split
  · rfl
  · next hle =>
    refine Nat.sub_mul_mod ?_
    rcases Nat.eq_zero_or_pos n with rfl | hpos
    · rw [Nat.zero_mul]
      exact Nat.zero_le x
    · have hlog := Nat.pow_log_le_self 2 (Nat.div_pos (Nat.le_of_not_lt hle) hpos).ne'
      exact le_trans (Nat.mul_le_mul_left n hlog) (Nat.mul_div_le x n)

/-- The largest multiple is more than half of `x`. -/
theorem two_mul_lessLargest_lt (hn : 0 < n) (hle : n ≤ x) : 2 * lessLargest n x < x := by
  have hlog := Nat.lt_pow_succ_log_self Nat.one_lt_two (x / n)
  have hdouble := (Nat.div_lt_iff_lt_mul hn).mp hlog
  rw [pow_succ, Nat.mul_right_comm, Nat.mul_comm (2 ^ _) n] at hdouble
  rw [lessLargest, if_neg (Nat.not_lt.mpr hle)]
  omega

end SocCrypto.ShiftSubtract

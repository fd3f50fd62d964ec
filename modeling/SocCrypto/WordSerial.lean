import Mathlib.Data.Nat.Size
import Mathlib.Data.Nat.Log
import Mathlib.Tactic.Positivity
import Mathlib.Tactic.Ring
import Mathlib.Tactic.Linarith

/-!
# Word-serial arithmetic

Numbers of `n` digits in base `B` that pass through a shift register one digit
per cycle, least significant first. `Shifted` says what such a register holds
after `k` digits; the remaining sections are the loop invariants of the serial
adder, subtractor, comparator, multiply-accumulate and leading-zero counter.
-/

namespace SocCrypto.WordSerial

/-- Digit `k` of `x` in base `B`. -/
def digit (B x k : ℕ) : ℕ := x / B ^ k % B

variable {B : ℕ}

theorem digit_lt (hB : 0 < B) (x k : ℕ) : digit B x k < B := Nat.mod_lt _ hB

theorem mod_pow_succ (B x k : ℕ) : x % B ^ (k + 1) = x % B ^ k + digit B x k * B ^ k := by
  rw [Nat.mod_pow_succ, Nat.mul_comm]
  rfl

/-- A power of the base has one digit that is not zero. -/
theorem digit_pow (hB : 1 < B) (n k : ℕ) : digit B (B ^ n) k = if k = n then 1 else 0 := by
  have hpos : 0 < B := by omega
  rw [digit]
  rcases Nat.lt_trichotomy k n with hlt | rfl | hgt
  · obtain ⟨m, rfl⟩ := Nat.exists_eq_add_of_lt hlt
    rw [if_neg (by omega), Nat.pow_div (by omega) hpos, show k + m + 1 - k = m + 1 by omega, pow_succ]
    exact Nat.mul_mod_left ..
  · rw [if_pos rfl, Nat.div_self (Nat.pow_pos hpos), Nat.mod_eq_of_lt hB]
  · rw [if_neg (by omega), Nat.div_eq_of_lt (Nat.pow_lt_pow_right hB hgt), Nat.zero_mod]

/-! ### Shift registers -/

/-- An `n`-digit register that started with `x` and has taken in `k` digits at
the top, together worth `out`, while as many left at the bottom. -/
def Shifted (B n x k out r : ℕ) : Prop :=
  out < B ^ k ∧ r = x / B ^ k + out * B ^ (n - k)

theorem Shifted.start (B n x : ℕ) : Shifted B n x 0 0 x := by
  constructor
  · simp
  · simp

theorem Shifted.low {n x k out r : ℕ} (hk : k < n) (h : Shifted B n x k out r) :
    r % B = digit B x k := by
  obtain ⟨-, rfl⟩ := h
  obtain ⟨m, rfl⟩ := Nat.exists_eq_add_of_lt hk
  have hpow : out * B ^ (k + m + 1 - k) = B * (out * B ^ m) := by
    rw [show k + m + 1 - k = m + 1 by omega, pow_succ]
    ring
  rw [hpow, Nat.add_mul_mod_self_left]
  rfl

theorem Shifted.next (hB : 0 < B) {n x k out r w : ℕ} (hk : k < n) (hw : w < B)
    (h : Shifted B n x k out r) :
    Shifted B n x (k + 1) (out + w * B ^ k) (r / B + w * B ^ (n - 1)) := by
  obtain ⟨hout, rfl⟩ := h
  obtain ⟨m, rfl⟩ := Nat.exists_eq_add_of_lt hk
  constructor
  · have hle : w + 1 ≤ B := hw
    calc out + w * B ^ k < B ^ k + w * B ^ k := by omega
      _ = (w + 1) * B ^ k := by ring
      _ ≤ B * B ^ k := Nat.mul_le_mul_right _ hle
      _ = B ^ (k + 1) := by rw [pow_succ']
  · have hpow : out * B ^ (k + m + 1 - k) = B * (out * B ^ m) := by
      rw [show k + m + 1 - k = m + 1 by omega, pow_succ]
      ring
    rw [hpow, Nat.add_mul_div_left _ _ hB, Nat.div_div_eq_div_mul, ← pow_succ,
      show k + m + 1 - (k + 1) = m by omega, show k + m + 1 - 1 = k + m by omega, pow_add]
    ring

theorem Shifted.full {n x out r : ℕ} (hx : x < B ^ n) (h : Shifted B n x n out r) : r = out := by
  obtain ⟨-, rfl⟩ := h
  simp [Nat.div_eq_of_lt hx]

/-- A register whose outgoing digit is fed back: after `k` digits the low `k`
digits of `x` have come round. -/
theorem Shifted.rotate (hB : 0 < B) {n x k r : ℕ} (hk : k < n)
    (h : Shifted B n x k (x % B ^ k) r) :
    Shifted B n x (k + 1) (x % B ^ (k + 1)) (r / B + r % B * B ^ (n - 1)) := by
  rw [h.low hk, mod_pow_succ]
  exact h.next hB hk (digit_lt hB x k)

theorem Shifted.rotate_full {n x r : ℕ} (hx : x < B ^ n)
    (h : Shifted B n x n (x % B ^ n) r) : r = x := by
  rw [h.full hx, Nat.mod_eq_of_lt hx]

/-! ### Reversed registers

A register that shifts towards its top digit holds a number with its digits in
the opposite order. -/

/-- The number whose `n` digits are those of `v` from the other end. -/
def rev (B : ℕ) : ℕ → ℕ → ℕ
  | 0, _ => 0
  | n + 1, v => v % B * B ^ n + rev B n (v / B)

@[simp] theorem rev_zero (B n : ℕ) : rev B n 0 = 0 := by
  induction n with
  | zero => rfl
  | succ n ih => simp [rev, ih]

theorem rev_lt (hB : 0 < B) (n v : ℕ) : rev B n v < B ^ n := by
  induction n generalizing v with
  | zero => simp [rev]
  | succ n ih =>
    have hlow : v % B + 1 ≤ B := Nat.mod_lt v hB
    have hmul := Nat.mul_le_mul_right (B ^ n) hlow
    have hrest := ih (v / B)
    simp only [rev, pow_succ]
    nlinarith

/-- The top digit of the reversed register is the lowest digit. -/
theorem rev_top (hB : 0 < B) (n v : ℕ) : rev B (n + 1) v / B ^ n = v % B := by
  have hrest := rev_lt hB n (v / B)
  rw [rev, Nat.mul_comm, Nat.mul_add_div (Nat.pow_pos hB), Nat.div_eq_of_lt hrest, Nat.add_zero]

theorem rev_snoc (hB : 0 < B) (n u w : ℕ) (hu : u < B ^ n) (hw : w < B) :
    rev B (n + 1) (u + w * B ^ n) = rev B n u * B + w := by
  induction n generalizing u with
  | zero =>
    have hz : u = 0 := by simpa using hu
    simp [rev, hz, Nat.mod_eq_of_lt hw]
  | succ n ih =>
    have hpow : w * B ^ (n + 1) = B * (w * B ^ n) := by
      rw [pow_succ]
      ring
    have hdiv : u / B < B ^ n := by
      rw [Nat.div_lt_iff_lt_mul hB, ← pow_succ]
      exact hu
    rw [rev, hpow, Nat.add_mul_mod_self_left, Nat.add_mul_div_left _ _ hB, ih (u / B) hdiv]
    simp only [rev, pow_succ]
    ring

/-- Pushing a digit at the bottom drops the top one: in the unreversed number
this is the shift of `Shifted`. -/
theorem rev_push (hB : 0 < B) (n v w : ℕ) (hv : v < B ^ (n + 1)) (hw : w < B) :
    (rev B (n + 1) v * B + w) % B ^ (n + 1) = rev B (n + 1) (v / B + w * B ^ n) := by
  have hdiv : v / B < B ^ n := by
    rw [Nat.div_lt_iff_lt_mul hB, ← pow_succ]
    exact hv
  have hrest := rev_lt hB n (v / B)
  have hsmall : rev B n (v / B) * B + w < B ^ (n + 1) := by
    rw [pow_succ]
    have hle : rev B n (v / B) + 1 ≤ B ^ n := hrest
    nlinarith [Nat.mul_le_mul_right B hle]
  have hsplit : rev B (n + 1) v * B + w =
      rev B n (v / B) * B + w + B ^ (n + 1) * (v % B) := by
    rw [rev, pow_succ]
    ring
  rw [rev_snoc hB n _ w hdiv hw, hsplit, Nat.add_mul_mod_self_left, Nat.mod_eq_of_lt hsmall]

/-! ### Serial adder -/

/-- After `k` digits: the sum digits `out` and the carry. -/
def Added (B x y k out c : ℕ) : Prop :=
  out + c * B ^ k = x % B ^ k + y % B ^ k

theorem Added.start (B x y : ℕ) : Added B x y 0 0 0 := by
  simp [Added, Nat.mod_one]

theorem Added.next {x y k out c : ℕ} (h : Added B x y k out c) :
    Added B x y (k + 1)
      (out + (digit B x k + digit B y k + c) % B * B ^ k)
      ((digit B x k + digit B y k + c) / B) := by
  unfold Added at *
  rw [mod_pow_succ, mod_pow_succ]
  have hdiv := Nat.div_add_mod (digit B x k + digit B y k + c) B
  generalize (digit B x k + digit B y k + c) / B = q at hdiv ⊢
  generalize (digit B x k + digit B y k + c) % B = m at hdiv ⊢
  calc out + m * B ^ k + q * B ^ (k + 1)
      = out + (B * q + m) * B ^ k := by rw [pow_succ]; ring
    _ = out + (digit B x k + digit B y k + c) * B ^ k := by rw [hdiv]
    _ = (out + c * B ^ k) + (digit B x k + digit B y k) * B ^ k := by ring
    _ = _ := by rw [h]; ring

/-- A sum that fits leaves no carry after its last digit. -/
theorem Added.full_of_lt {n x y out c : ℕ} (hsum : x + y < B ^ n) (h : Added B x y n out c) :
    out = x + y := by
  unfold Added at h
  rw [Nat.mod_eq_of_lt (by omega), Nat.mod_eq_of_lt (by omega)] at h
  rcases Nat.eq_zero_or_pos c with rfl | hpos
  · omega
  · have hcarry := Nat.le_mul_of_pos_left (B ^ n) hpos
    omega

/-! ### Serial subtractor -/

/-- After `k` digits: the difference digits `out` and the borrow. -/
def Subbed (B x y k out c : ℕ) : Prop :=
  out + y % B ^ k = x % B ^ k + c * B ^ k

theorem Subbed.start (B x y : ℕ) : Subbed B x y 0 0 0 := by
  simp [Subbed, Nat.mod_one]

/-- One digit: `d` is the digit difference with the borrow `c'` put back. -/
theorem Subbed.next {x y k out c d c' : ℕ} (h : Subbed B x y k out c)
    (hd : d + digit B y k + c = digit B x k + c' * B) :
    Subbed B x y (k + 1) (out + d * B ^ k) c' := by
  unfold Subbed at *
  rw [mod_pow_succ, mod_pow_succ]
  have hscaled : (d + digit B y k + c) * B ^ k = (digit B x k + c' * B) * B ^ k := by rw [hd]
  have hpow : c' * B ^ (k + 1) = c' * B * B ^ k := by rw [pow_succ]; ring
  rw [hpow]
  nlinarith [h, hscaled]

/-- After the last digit of a difference that is not negative no borrow is left. -/
theorem Subbed.full_of_le {n x y out c : ℕ} (hx : x < B ^ n) (hy : y < B ^ n) (hle : y ≤ x)
    (hout : out < B ^ n) (h : Subbed B x y n out c) : out = x - y := by
  unfold Subbed at h
  rw [Nat.mod_eq_of_lt hx, Nat.mod_eq_of_lt hy] at h
  rcases Nat.eq_zero_or_pos c with rfl | hpos
  · omega
  · have hborrow := Nat.le_mul_of_pos_left (B ^ n) hpos
    omega

/-! ### Serial comparator -/

/-- After `k` digits the two flags compare the low `k` digits. -/
def Compared (B x y k : ℕ) (gt lt : Bool) : Prop :=
  (gt = true ↔ y % B ^ k < x % B ^ k) ∧ (lt = true ↔ x % B ^ k < y % B ^ k)

theorem Compared.start (B x y : ℕ) : Compared B x y 0 false false := by
  simp [Compared, Nat.mod_one]

/-- The last digit that differs decides. -/
theorem low_lt_iff (hB : 0 < B) (x y k : ℕ) :
    x % B ^ (k + 1) < y % B ^ (k + 1) ↔
      digit B x k < digit B y k ∨ (digit B x k = digit B y k ∧ x % B ^ k < y % B ^ k) := by
  rw [mod_pow_succ, mod_pow_succ]
  have hpos : 0 < B ^ k := Nat.pow_pos hB
  have hx := Nat.mod_lt x hpos
  have hy := Nat.mod_lt y hpos
  generalize x % B ^ k = lx at *
  generalize y % B ^ k = ly at *
  generalize B ^ k = P at *
  rcases Nat.lt_trichotomy (digit B x k) (digit B y k) with hlt | heq | hgt
  · have hmul : (digit B x k + 1) * P ≤ digit B y k * P := Nat.mul_le_mul_right P hlt
    have : lx + digit B x k * P < ly + digit B y k * P := by nlinarith
    simp [hlt, this]
  · rw [heq]
    simp
  · have hmul : (digit B y k + 1) * P ≤ digit B x k * P := Nat.mul_le_mul_right P hgt
    have : ¬ lx + digit B x k * P < ly + digit B y k * P := by nlinarith
    simp only [this, false_iff]
    omega

theorem Compared.next (hB : 0 < B) {x y k : ℕ} {gt lt : Bool} (h : Compared B x y k gt lt) :
    Compared B x y (k + 1)
      (if digit B x k = digit B y k then gt else !decide (digit B x k < digit B y k))
      (if digit B x k = digit B y k then lt else decide (digit B x k < digit B y k)) := by
  obtain ⟨hgt, hlt⟩ := h
  refine ⟨?_, ?_⟩
  · rw [low_lt_iff hB]
    split
    · rename_i heq
      rw [hgt, heq]
      simp
    · rename_i hne
      simp only [Bool.not_eq_true', decide_eq_false_iff_not]
      omega
  · rw [low_lt_iff hB]
    split
    · rename_i heq
      rw [hlt, heq]
      simp
    · rename_i hne
      simp only [decide_eq_true_eq]
      omega

/-! ### Serial multiply-accumulate -/

/-- After `k` digits of `t + m * y`: the digits `out` and the carry. -/
def MulAdded (B t m y k out c : ℕ) : Prop :=
  out + c * B ^ k = t % B ^ k + m * (y % B ^ k)

theorem MulAdded.start (B t m y : ℕ) : MulAdded B t m y 0 0 0 := by
  simp [MulAdded, Nat.mod_one]

theorem MulAdded.next {t m y k out c : ℕ} (h : MulAdded B t m y k out c) :
    MulAdded B t m y (k + 1)
      (out + (digit B t k + m * digit B y k + c) % B * B ^ k)
      ((digit B t k + m * digit B y k + c) / B) := by
  unfold MulAdded at *
  rw [mod_pow_succ, mod_pow_succ]
  have hdiv := Nat.div_add_mod (digit B t k + m * digit B y k + c) B
  generalize (digit B t k + m * digit B y k + c) / B = q at hdiv ⊢
  generalize (digit B t k + m * digit B y k + c) % B = r at hdiv ⊢
  calc out + r * B ^ k + q * B ^ (k + 1)
      = out + (B * q + r) * B ^ k := by rw [pow_succ]; ring
    _ = out + (digit B t k + m * digit B y k + c) * B ^ k := by rw [hdiv]
    _ = (out + c * B ^ k) + (digit B t k + m * digit B y k) * B ^ k := by ring
    _ = _ := by rw [h]; ring

theorem mulAdd_carry_lt {a m b c : ℕ} (ha : a < B) (hm : m < B) (hb : b < B) (hc : c < B) :
    (a + m * b + c) / B < B := by
  rw [Nat.div_lt_iff_lt_mul (by omega)]
  obtain ⟨B', rfl⟩ : ∃ B', B = B' + 1 := ⟨B - 1, by omega⟩
  have hm' : m ≤ B' := by omega
  have hb' : b ≤ B' := by omega
  have hmb : m * b ≤ B' * B' := Nat.mul_le_mul hm' hb'
  nlinarith

/-! ### Serial leading-zero count -/

/-- Leading zeros of the low `k` digits, for a digit size of `w` bits. -/
def leadingZeros (w x k : ℕ) : ℕ := w * k - (x % (2 ^ w) ^ k).size

theorem size_add_mul (P d : ℕ) (hd : d ≠ 0) {low j : ℕ} (hP : P = 2 ^ j) (hlow : low < P) :
    (low + d * P).size = d.size + j := by
  subst hP
  rw [Nat.add_comm, ← Nat.shiftLeft_eq]
  apply le_antisymm
  · rw [Nat.size_le, pow_add, Nat.shiftLeft_eq]
    have hlt : d < 2 ^ d.size := Nat.lt_size_self d
    have hle : d + 1 ≤ 2 ^ d.size := hlt
    nlinarith [Nat.mul_le_mul_right (2 ^ j) hle]
  · have hpos : 0 < d.size := Nat.size_pos.mpr (Nat.pos_of_ne_zero hd)
    have hle : 2 ^ (d.size - 1) ≤ d := by
      have := (Nat.lt_size (m := d.size - 1) (n := d)).mp (by omega)
      exact this
    have hlt : d.size - 1 + j < (d <<< j + low).size := by
      rw [Nat.lt_size, pow_add, Nat.shiftLeft_eq]
      nlinarith [Nat.mul_le_mul_right (2 ^ j) hle]
    omega

/-- One more digit: a nonzero digit starts the count afresh, a zero digit adds
its whole width. -/
theorem leadingZeros_succ (w x k : ℕ) :
    leadingZeros w x (k + 1) =
      if digit (2 ^ w) x k = 0 then leadingZeros w x k + w
      else w - (digit (2 ^ w) x k).size := by
  unfold leadingZeros
  rw [mod_pow_succ]
  have hpow : (2 ^ w) ^ k = 2 ^ (w * k) := by rw [pow_mul]
  have hlow : x % (2 ^ w) ^ k < (2 ^ w) ^ k := Nat.mod_lt _ (by positivity)
  have hsize : (x % (2 ^ w) ^ k).size ≤ w * k := by
    rw [Nat.size_le, ← hpow]
    exact hlow
  split
  · rename_i hz
    simp only [hz, Nat.zero_mul, Nat.add_zero, Nat.mul_succ]
    omega
  · rename_i hz
    rw [size_add_mul ((2 ^ w) ^ k) _ hz hpow hlow, Nat.mul_succ]
    omega

end SocCrypto.WordSerial

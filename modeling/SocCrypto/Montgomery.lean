import Mathlib.Data.Nat.ModEq
import Mathlib.Tactic.Linarith
import Mathlib.Tactic.Ring
import SocCrypto.ShiftSubtract

/-!
# Montgomery reduction, digit by digit

Reduction of `t` by the modulus `n` in base `B`: every step adds the multiple of `n` that
clears the lowest digit and drops that digit. `n₀` is the digit that finds the multiple,
`n * n₀ + 1` being a multiple of `B`. After `k` steps the value times `B ^ k` is `t` up to a
multiple of `n`, and the last subtraction brings it below `n`.

The inverse of an odd number modulo a power of two, from which `n₀` comes, is lifted bit by
bit: `lift` adds the next bit where the product with the number asks for it.
-/

namespace SocCrypto.Montgomery
open ShiftSubtract

/-- The digit that clears the lowest digit of `t`. -/
def quotient (B n₀ t : ℕ) : ℕ := t * n₀ % B

def step (B n n₀ t : ℕ) : ℕ := (t + quotient B n₀ t * n) / B

def reduce (B n n₀ : ℕ) : ℕ → ℕ → ℕ
  | 0, t => t
  | k + 1, t => step B n n₀ (reduce B n n₀ k t)

/-- The Montgomery product of `x` and `y` for `k` digits. -/
def product (B n n₀ k x y : ℕ) : ℕ := restore (reduce B n n₀ k (x * y)) n

variable {B n n₀ : ℕ}

/-- The multiple added clears the lowest digit. -/
theorem dvd_add_quotient (hn : (n * n₀ + 1) % B = 0) (t : ℕ) : B ∣ t + quotient B n₀ t * n := by
  have hmod : t + quotient B n₀ t * n ≡ t * (n * n₀ + 1) [MOD B] := by
    have hq : quotient B n₀ t * n ≡ t * n₀ * n [MOD B] := (Nat.mod_modEq _ _).mul_right n
    calc t + quotient B n₀ t * n ≡ t + t * n₀ * n [MOD B] := hq.add_left t
      _ = t * (n * n₀ + 1) := by ring
  have hzero : t * (n * n₀ + 1) ≡ 0 [MOD B] := by
    refine (Nat.modEq_zero_iff_dvd.mpr ?_)
    exact Dvd.dvd.mul_left (Nat.dvd_of_mod_eq_zero hn) t
  exact Nat.modEq_zero_iff_dvd.mp (hmod.trans hzero)

theorem step_mul (hn : (n * n₀ + 1) % B = 0) (t : ℕ) :
    step B n n₀ t * B = t + quotient B n₀ t * n :=
  Nat.div_mul_cancel (dvd_add_quotient hn t)

/-- After `k` steps: a multiple of the modulus below `B ^ k * n` was added and `k` digits
dropped. -/
theorem exists_reduce_mul (hB : 0 < B) (hn : (n * n₀ + 1) % B = 0) (k t : ℕ) :
    ∃ q < B ^ k, reduce B n n₀ k t * B ^ k = t + q * n := by
  induction k with
  | zero => exact ⟨0, by simp, by simp [reduce]⟩
  | succ k ih =>
    obtain ⟨q, hq, heq⟩ := ih
    have hm : quotient B n₀ (reduce B n n₀ k t) + 1 ≤ B := Nat.mod_lt _ hB
    refine ⟨q + quotient B n₀ (reduce B n n₀ k t) * B ^ k, ?_, ?_⟩
    · have hmul := Nat.mul_le_mul_right (B ^ k) hm
      rw [pow_succ']
      linarith
    · calc reduce B n n₀ (k + 1) t * B ^ (k + 1)
          = step B n n₀ (reduce B n n₀ k t) * B * B ^ k := by rw [reduce, pow_succ']; ring
        _ = reduce B n n₀ k t * B ^ k + quotient B n₀ (reduce B n n₀ k t) * B ^ k * n := by
          rw [step_mul hn]
          ring
        _ = t + (q + quotient B n₀ (reduce B n n₀ k t) * B ^ k) * n := by
          rw [heq]
          ring

theorem reduce_modEq (hB : 0 < B) (hn : (n * n₀ + 1) % B = 0) (k t : ℕ) :
    reduce B n n₀ k t * B ^ k ≡ t [MOD n] := by
  obtain ⟨q, -, heq⟩ := exists_reduce_mul hB hn k t
  rw [heq]
  show (t + q * n) % n = t % n
  exact Nat.add_mul_mod_self_right ..

/-- What a step adds to stays below `t + B ^ (k + 1) * n`. -/
theorem add_quotient_lt (hB : 0 < B) (hn : (n * n₀ + 1) % B = 0) (hpos : 0 < n) (k t : ℕ) :
    reduce B n n₀ k t + quotient B n₀ (reduce B n n₀ k t) * n < t + B ^ (k + 1) * n := by
  obtain ⟨q, hq, heq⟩ := exists_reduce_mul hB hn (k + 1) t
  rw [reduce, pow_succ', ← Nat.mul_assoc, step_mul hn] at heq
  have hk : 1 ≤ B ^ k := Nat.pow_pos hB
  have hle := Nat.le_mul_of_pos_right
    (reduce B n n₀ k t + quotient B n₀ (reduce B n n₀ k t) * n) hk
  have hmul : q * n < B ^ (k + 1) * n := Nat.mul_lt_mul_of_pos_right hq hpos
  omega

theorem reduce_lt_add (hB : 0 < B) (hn : (n * n₀ + 1) % B = 0) (hpos : 0 < n) {k t c : ℕ}
    (ht : t ≤ B ^ k * c) : reduce B n n₀ k t < c + n := by
  obtain ⟨q, hq, heq⟩ := exists_reduce_mul hB hn k t
  have hmul : q * n < B ^ k * n := Nat.mul_lt_mul_of_pos_right hq hpos
  refine Nat.lt_of_mul_lt_mul_right (a := B ^ k) ?_
  calc reduce B n n₀ k t * B ^ k = t + q * n := heq
    _ < B ^ k * c + B ^ k * n := by omega
    _ = (c + n) * B ^ k := by ring

theorem reduce_lt (hB : 0 < B) (hn : (n * n₀ + 1) % B = 0) (hpos : 0 < n) {k t : ℕ}
    (ht : t < B ^ k * n) : reduce B n n₀ k t < 2 * n := by
  rw [Nat.two_mul]
  exact reduce_lt_add hB hn hpos ht.le

theorem restore_modEq (x n : ℕ) : restore x n ≡ x [MOD n] := restore_mod (dvd_refl n)

theorem product_spec (hB : 0 < B) (hn : (n * n₀ + 1) % B = 0) {k x y : ℕ} (hx : x < n)
    (hy : y < n) (hk : n ≤ B ^ k) :
    product B n n₀ k x y < n ∧ product B n n₀ k x y * B ^ k ≡ x * y [MOD n] := by
  have hpos : 0 < n := by omega
  have ht : x * y < B ^ k * n := by
    calc x * y < n * n := Nat.mul_lt_mul'' hx hy
      _ ≤ B ^ k * n := Nat.mul_le_mul_right n hk
  refine ⟨restore_lt (reduce_lt hB hn hpos ht), ?_⟩
  exact ((restore_modEq _ n).mul_right _).trans (reduce_modEq hB hn k _)

/-- The constant from an inverse `y` of the modulus modulo `r`. -/
theorem neg_inverse {r y : ℕ} (hBr : B ∣ r) (hr : 1 < r) (hlt : y < r) (hy : n * y % r = 1) :
    (n * ((r - y) % r) + 1) % B = 0 := by
  have hpos : 0 < y := by
    rcases Nat.eq_zero_or_pos y with rfl | hpos
    · rw [Nat.mul_zero, Nat.zero_mod] at hy
      exact absurd hy Nat.zero_ne_one
    · exact hpos
  have hneg : (r - y) % r = r - y := Nat.mod_eq_of_lt (Nat.sub_lt (by omega) hpos)
  have hdiv := Nat.mod_add_div (n * y) r
  rw [hy] at hdiv
  have hsum : n * (r - y) + 1 + r * (n * y / r) = n * r := by
    rw [Nat.add_assoc, hdiv, ← Nat.mul_add, Nat.sub_add_cancel hlt.le]
  have hall : B ∣ n * (r - y) + 1 + r * (n * y / r) := by
    rw [hsum]
    exact Dvd.dvd.mul_left hBr n
  rw [hneg]
  exact Nat.mod_eq_zero_of_dvd ((Nat.dvd_add_left (Dvd.dvd.mul_right hBr _)).mp hall)

/-! ### Powers -/

/-- The low `r` bits of the exponent, from the top one down: square, and multiply by `a` for a
one. -/
def powerLoop (prod : ℕ → ℕ → ℕ) (a e : ℕ) : ℕ → ℕ → ℕ
  | 0, z => z
  | r + 1, z =>
    powerLoop prod a e r (if e.testBit r then prod (prod z z) a else prod z z)

/-- What a Montgomery product by `R` modulo `n` does with numbers up to `m`, which need not be
residues. -/
def IsProduct (n m R : ℕ) (prod : ℕ → ℕ → ℕ) : Prop :=
  ∀ x ≤ m, ∀ y ≤ m, prod x y ≤ m ∧ prod x y * R ≡ x * y [MOD n]

/-- The second operand `a` acts as `w`. -/
def ActsAs (n m R : ℕ) (prod : ℕ → ℕ → ℕ) (a w : ℕ) : Prop :=
  ∀ x ≤ m, prod x a ≤ m ∧ prod x a * R ≡ x * w [MOD n]

section
variable {m R w z q : ℕ} {prod : ℕ → ℕ → ℕ}

theorem IsProduct.square (hprod : IsProduct n m R prod) (hco : Nat.Coprime n R) (hz : z ≤ m)
    (h : z * R ^ q ≡ R * w ^ q [MOD n]) : prod z z * R ^ (q + q) ≡ R * w ^ (q + q) [MOD n] := by
  refine Nat.ModEq.cancel_right_of_coprime hco ?_
  calc prod z z * R ^ (q + q) * R = prod z z * R * R ^ (q + q) := by ring
    _ ≡ z * z * R ^ (q + q) [MOD n] := (hprod z hz z hz).2.mul_right _
    _ = z * R ^ q * (z * R ^ q) := by ring
    _ ≡ R * w ^ q * (R * w ^ q) [MOD n] := h.mul h
    _ = R * w ^ (q + q) * R := by ring

theorem ActsAs.multiply {a : ℕ} (ha : ActsAs n m R prod a w) (hz : z ≤ m)
    (h : z * R ^ q ≡ R * w ^ q [MOD n]) : prod z a * R ^ (q + 1) ≡ R * w ^ (q + 1) [MOD n] := by
  calc prod z a * R ^ (q + 1) = prod z a * R * R ^ q := by ring
    _ ≡ z * w * R ^ q [MOD n] := (ha z hz).2.mul_right _
    _ = z * R ^ q * w := by ring
    _ ≡ R * w ^ q * w [MOD n] := h.mul_right w
    _ = R * w ^ (q + 1) := by ring

end

theorem div_pow_of_testBit (e r : ℕ) :
    e / 2 ^ r = e / 2 ^ (r + 1) + e / 2 ^ (r + 1) + (e.testBit r).toNat := by
  rw [pow_succ, ← Nat.div_div_eq_div_mul, Nat.testBit_eq_decide_div_mod_eq]
  generalize e / 2 ^ r = q
  rcases Nat.mod_two_eq_zero_or_one q with h0 | h1
  · simp [h0]
    omega
  · simp [h1]
    omega

/-- The bits above the low `r` are in the exponent already. -/
theorem powerLoop_spec {m R w a e : ℕ} {prod : ℕ → ℕ → ℕ} (hprod : IsProduct n m R prod)
    (ha : ActsAs n m R prod a w) (hco : Nat.Coprime n R) (r : ℕ) :
    ∀ {z : ℕ}, z ≤ m → z * R ^ (e / 2 ^ r) ≡ R * w ^ (e / 2 ^ r) [MOD n] →
      powerLoop prod a e r z ≤ m ∧ powerLoop prod a e r z * R ^ e ≡ R * w ^ e [MOD n] := by
  induction r with
  | zero =>
    intro z hz hform
    rw [pow_zero, Nat.div_one] at hform
    exact ⟨hz, hform⟩
  | succ r ih =>
    intro z hz hform
    have hsquare := hprod.square hco hz hform
    have hsmall := (hprod z hz z hz).1
    have hexp := div_pow_of_testBit e r
    rw [powerLoop]
    by_cases hbit : e.testBit r
    · rw [if_pos hbit]
      refine ih (ha _ hsmall).1 ?_
      rw [hexp, hbit]
      exact ha.multiply hsmall hsquare
    · rw [if_neg hbit]
      refine ih hsmall ?_
      rw [hexp, Bool.eq_false_iff.mpr hbit]
      exact hsquare

/-- The power: start from one in Montgomery form, end with a product by one. -/
theorem power_spec {m R w a e z r : ℕ} {prod : ℕ → ℕ → ℕ} (hprod : IsProduct n m R prod)
    (ha : ActsAs n m R prod a w) (hco : Nat.Coprime n R) (hz : z ≤ m) (hone : z ≡ R [MOD n])
    (he : e < 2 ^ r) (hlast : ∀ x ≤ m, prod x 1 * R ≡ x [MOD n]) :
    prod (powerLoop prod a e r z) 1 * R ^ e ≡ w ^ e [MOD n] := by
  have hstart : z * R ^ (e / 2 ^ r) ≡ R * w ^ (e / 2 ^ r) [MOD n] := by
    rw [Nat.div_eq_of_lt he, pow_zero, pow_zero, Nat.mul_one, Nat.mul_one]
    exact hone
  obtain ⟨hlt, hpow⟩ := powerLoop_spec hprod ha hco r hz hstart
  refine Nat.ModEq.cancel_left_of_coprime hco ?_
  calc R * (prod (powerLoop prod a e r z) 1 * R ^ e)
      = prod (powerLoop prod a e r z) 1 * R * R ^ e := by ring
    _ ≡ powerLoop prod a e r z * R ^ e [MOD n] := (hlast _ hlt).mul_right _
    _ ≡ R * w ^ e [MOD n] := hpow

/-! ### Inverses modulo a power of two -/

/-- From an inverse modulo `2 ^ j` to one modulo `2 ^ (j + 1)`. -/
def lift (a j y : ℕ) : ℕ := if 2 ^ j < a * y % 2 ^ (j + 1) then y + 2 ^ j else y

/-- `r` bits from exponent `j` on. -/
def lifts (a : ℕ) : ℕ → ℕ → ℕ → ℕ
  | _, 0, y => y
  | j, r + 1, y => lifts a (j + 1) r (lift a j y)

theorem lift_lt {a j y : ℕ} (hy : y < 2 ^ j) : lift a j y < 2 ^ (j + 1) := by
  rw [lift, pow_succ]
  split <;> omega

theorem lifts_lt {a : ℕ} (r : ℕ) : ∀ {j y : ℕ}, y < 2 ^ j → lifts a j r y < 2 ^ (j + r) := by
  induction r with
  | zero => exact fun h => h
  | succ r ih =>
    intro j y h
    have hnext := ih (lift_lt (a := a) h)
    rw [lifts, show j + (r + 1) = j + 1 + r by omega]
    exact hnext

/-- The product stays what it is, one bit further. -/
theorem mul_lift_mod {a j y c : ℕ} (ha : a % 2 = 1) (hc : 0 < c) (h : a * y % 2 ^ j = c) :
    a * lift a j y % 2 ^ (j + 1) = c := by
  have hpos : 0 < 2 ^ j := Nat.two_pow_pos j
  have hclt : c < 2 ^ j := h ▸ Nat.mod_lt _ hpos
  have hbit : a * y % 2 ^ (j + 1) = c + 2 ^ j * (a * y / 2 ^ j % 2) := by
    rw [pow_succ, Nat.mod_mul, h]
  have hodd : a * 2 ^ j % 2 ^ (j + 1) = 2 ^ j := by
    rw [Nat.mul_comm, pow_succ, Nat.mul_mod_mul_left, ha, Nat.mul_one]
  rw [lift, hbit]
  rcases Nat.mod_two_eq_zero_or_one (a * y / 2 ^ j) with h0 | h1
  · rw [h0, Nat.mul_zero, Nat.add_zero, if_neg (by omega), hbit, h0, Nat.mul_zero, Nat.add_zero]
  · rw [h1, Nat.mul_one, if_pos (by omega), Nat.mul_add, Nat.add_mod, hbit, h1, hodd, Nat.mul_one,
      Nat.add_assoc, pow_succ, ← Nat.mul_two, Nat.add_mod_right]
    exact Nat.mod_eq_of_lt (by omega)

theorem mul_lifts_mod {a c : ℕ} (ha : a % 2 = 1) (hc : 0 < c) (r : ℕ) :
    ∀ {j y : ℕ}, a * y % 2 ^ j = c → a * lifts a j r y % 2 ^ (j + r) = c := by
  induction r with
  | zero => exact fun h => h
  | succ r ih =>
    intro j y h
    have hnext := ih (mul_lift_mod ha hc h)
    rw [lifts, show j + (r + 1) = j + 1 + r by omega]
    exact hnext

end SocCrypto.Montgomery

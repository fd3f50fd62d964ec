import Mathlib.FieldTheory.Finite.Basic
import Mathlib.Data.Nat.Squarefree

/-!
# Powers that undo each other

Exponents `e` and `d` with `e * d` one modulo `p - 1` for every prime factor `p` of a squarefree
modulus: the power with one undoes the power with the other, for residues that share a factor
with the modulus as well.
-/

namespace SocCrypto.PowerInverse

/-- A modulus with a pair of exponents. -/
structure KeyPair (N e d : ℕ) : Prop where
  squarefree : Squarefree N
  exponents : ∀ p, p.Prime → p ∣ N → e * d % (p - 1) = 1 % (p - 1)
  pos : 0 < e * d

variable {N e d x : ℕ}

/-- Fermat's theorem, with a multiple of the prime as the other case. -/
theorem pow_modEq_self {p k : ℕ} (hp : p.Prime) (hk : k % (p - 1) = 1 % (p - 1)) (hpos : 0 < k)
    (x : ℕ) : x ^ k ≡ x [MOD p] := by
  by_cases hdvd : p ∣ x
  · have hzero : x ≡ 0 [MOD p] := (Nat.modEq_zero_iff_dvd).mpr hdvd
    have hpow := hzero.pow k
    rw [zero_pow (by omega)] at hpow
    exact hpow.trans hzero.symm
  · have : Fact p.Prime := ⟨hp⟩
    have hunit : (x : ZMod p) ≠ 0 := by
      rwa [Ne, ZMod.natCast_eq_zero_iff]
    have hone : (x : ZMod p) ^ (p - 1) = 1 := ZMod.pow_card_sub_one_eq_one hunit
    have hsplit : ∀ m, (x : ZMod p) ^ m = (x : ZMod p) ^ (m % (p - 1)) := by
      intro m
      conv_lhs => rw [← Nat.div_add_mod m (p - 1), pow_add, pow_mul, hone, one_pow, one_mul]
    refine (ZMod.natCast_eq_natCast_iff _ _ _).mp ?_
    rw [Nat.cast_pow, hsplit k, hk, ← hsplit 1, pow_one]

theorem modEq_of_primes {a b : ℕ} (hN : Squarefree N)
    (h : ∀ p, p.Prime → p ∣ N → a ≡ b [MOD p]) : a ≡ b [MOD N] := by
  refine (Nat.modEq_iff_dvd).mpr (Int.natCast_dvd.mpr ?_)
  rw [← Nat.prod_primeFactors_of_squarefree hN]
  refine Finset.prod_primes_dvd _ ?_ ?_
  · intro p hp
    exact (Nat.prime_of_mem_primeFactors hp).prime
  · intro p hp
    have hmod := h p (Nat.prime_of_mem_primeFactors hp) (Nat.dvd_of_mem_primeFactors hp)
    exact Int.natCast_dvd.mp ((Nat.modEq_iff_dvd).mp hmod)

theorem KeyPair.power_power (h : KeyPair N e d) (x : ℕ) : (x ^ e % N) ^ d % N = x % N := by
  have hself : x ^ (e * d) ≡ x [MOD N] :=
    modEq_of_primes h.squarefree fun p hp hdvd => pow_modEq_self hp (h.exponents p hp hdvd) h.pos x
  rw [← Nat.pow_mod, ← pow_mul]
  exact hself

end SocCrypto.PowerInverse

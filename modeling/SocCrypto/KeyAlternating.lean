import Mathlib.Data.Nat.Notation
import Mathlib.Logic.Equiv.Defs

/-!
# Key-alternating block ciphers

A cipher that alternates round keys with a substitution and a linear layer, the
linear layer left out of the last round. Its inverse is the same cipher over the
inverse layers: the linear layer commutes with the key addition, so the round
keys are used backwards with the inverse linear layer applied to the middle ones.
-/

namespace SocCrypto

/-- The layers of a key-alternating cipher on blocks `B`. -/
structure Layers (B : Type) where
  addKey : B → B → B
  sub : B ≃ B
  mix : B ≃ B
  addKey_addKey : ∀ b k, addKey (addKey b k) k = b
  mix_addKey : ∀ b k, mix (addKey b k) = addKey (mix b) (mix k)

namespace Layers

variable {B : Type} (l : Layers B)

/-- State after the initial key addition and `r` full rounds. -/
def rounds (k : ℕ → B) (b : B) : ℕ → B
  | 0 => l.addKey b (k 0)
  | r + 1 => l.addKey (l.mix (l.sub (rounds k b r))) (k (r + 1))

/-- `n` rounds, the last without the linear layer. -/
def cipher (n : ℕ) (k : ℕ → B) (b : B) : B :=
  l.addKey (l.sub (l.rounds k b (n - 1))) (k n)

theorem rounds_congr {k k' : ℕ → B} (b : B) {r : ℕ} (h : ∀ i ≤ r, k i = k' i) :
    l.rounds k b r = l.rounds k' b r := by
  induction r with
  | zero => rw [rounds, rounds, h 0 (Nat.le_refl 0)]
  | succ r ih => rw [rounds, rounds, h (r + 1) (Nat.le_refl _), ih fun i hi => h i (by omega)]

theorem cipher_congr {k k' : ℕ → B} (b : B) {n : ℕ} (h : ∀ i ≤ n, k i = k' i) :
    l.cipher n k b = l.cipher n k' b := by
  have hrounds := l.rounds_congr b (r := n - 1) fun i hi => h i (by omega)
  rw [cipher, cipher, hrounds, h n (Nat.le_refl n)]

/-- The first round key only meets the block. -/
theorem rounds_whitened {k k' : ℕ → B} {b b' : B} (hfirst : l.addKey b (k 0) = l.addKey b' (k' 0))
    {r : ℕ} (h : ∀ i ≤ r, 0 < i → k i = k' i) : l.rounds k b r = l.rounds k' b' r := by
  induction r with
  | zero => exact hfirst
  | succ r ih =>
    rw [rounds, rounds, h (r + 1) (Nat.le_refl _) (Nat.succ_pos r),
      ih fun i hi hpos => h i (by omega) hpos]

theorem cipher_whitened {k k' : ℕ → B} {b b' : B} {n : ℕ} (hn : 0 < n)
    (hfirst : l.addKey b (k 0) = l.addKey b' (k' 0)) (h : ∀ i ≤ n, 0 < i → k i = k' i) :
    l.cipher n k b = l.cipher n k' b' := by
  have hrounds := l.rounds_whitened hfirst (r := n - 1) fun i hi hpos => h i (by omega) hpos
  rw [cipher, cipher, hrounds, h n (Nat.le_refl n) hn]

theorem mix_symm_addKey (b k : B) :
    l.mix.symm (l.addKey b k) = l.addKey (l.mix.symm b) (l.mix.symm k) := by
  apply l.mix.injective
  simp only [l.mix_addKey, Equiv.apply_symm_apply]

/-- The inverse layers. -/
def symm : Layers B where
  addKey := l.addKey
  sub := l.sub.symm
  mix := l.mix.symm
  addKey_addKey := l.addKey_addKey
  mix_addKey := l.mix_symm_addKey

@[simp] theorem symm_symm : l.symm.symm = l := rfl

/-- Round keys of the inverse cipher. -/
def inverseKeys (n : ℕ) (k : ℕ → B) (i : ℕ) : B :=
  if i = 0 ∨ i = n then k (n - i) else l.mix.symm (k (n - i))

theorem symm_inverseKeys_inverseKeys (n : ℕ) (k : ℕ → B) {i : ℕ} (hi : i ≤ n) :
    l.symm.inverseKeys n (l.inverseKeys n k) i = k i := by
  have hsub : n - (n - i) = i := by omega
  have hends : n - i = 0 ∨ n - i = n ↔ i = 0 ∨ i = n := by omega
  simp only [inverseKeys, hsub, hends]
  split
  · rfl
  · exact l.mix.apply_symm_apply (k i)

/-- Before its round `i` the inverse cipher holds what the cipher holds after the
substitution of its round `n - i`. -/
theorem symm_rounds {n : ℕ} (k : ℕ → B) (b : B) {i : ℕ} (hi : i < n) :
    l.symm.rounds (l.inverseKeys n k) (l.cipher n k b) i =
      l.sub (l.rounds k b (n - 1 - i)) := by
  induction i with
  | zero => simp [rounds, inverseKeys, cipher, symm, l.addKey_addKey]
  | succ i ih =>
    have hpred : n - 1 - i = (n - 1 - (i + 1)) + 1 := by omega
    have hkey : n - (i + 1) = (n - 1 - (i + 1)) + 1 := by omega
    have hmiddle : ¬ (i + 1 = 0 ∨ i + 1 = n) := by omega
    rw [rounds, ih (by omega), hpred, rounds, inverseKeys, if_neg hmiddle, hkey]
    simp only [symm, Equiv.symm_apply_apply, l.mix_symm_addKey, l.addKey_addKey]

theorem symm_cipher_cipher {n : ℕ} (hn : 0 < n) (k : ℕ → B) (b : B) :
    l.symm.cipher n (l.inverseKeys n k) (l.cipher n k b) = b := by
  have hlast : n - 1 - (n - 1) = 0 := by omega
  rw [cipher, l.symm_rounds k b (by omega : n - 1 < n), hlast, rounds]
  simp [inverseKeys, symm, l.addKey_addKey]

theorem cipher_symm_cipher {n : ℕ} (hn : 0 < n) (k : ℕ → B) (b : B) :
    l.cipher n k (l.symm.cipher n (l.inverseKeys n k) b) = b := by
  have hback := l.symm.symm_cipher_cipher hn (l.inverseKeys n k) b
  rw [symm_symm] at hback
  rw [← l.cipher_congr _ fun i hi => l.symm_inverseKeys_inverseKeys n k hi]
  exact hback

end Layers

end SocCrypto

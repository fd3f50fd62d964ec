import SocCrypto.KeyAlternating
import SocCrypto.Word

/-!
# The AES-128 block cipher

The substitution computed from inversion in the field of 256 elements, the row
shift and the column mix on a block of four columns, the key expansion, and the
cipher as a key-alternating one over these layers.
-/

namespace SocCrypto.AesFunction

/-! ### Bytes of a column -/

/-- The column of four bytes, first row in the top byte. -/
def column (a b c d : Byte) : Word := a ++ b ++ c ++ d

def row0 (w : Word) : Byte := w.extractLsb' 24 8
def row1 (w : Word) : Byte := w.extractLsb' 16 8
def row2 (w : Word) : Byte := w.extractLsb' 8 8
def row3 (w : Word) : Byte := w.extractLsb' 0 8

section
variable (a b c d a' b' c' d' : Byte) (v w : Word)

theorem getLsbD_column (i : ℕ) :
    (column a b c d).getLsbD i =
      if i < 8 then d.getLsbD i else if i < 16 then c.getLsbD (i - 8)
      else if i < 24 then b.getLsbD (i - 16) else a.getLsbD (i - 24) := by
  simp only [column, BitVec.getLsbD_append]
  rcases (by omega : i < 8 ∨ (8 ≤ i ∧ i < 16) ∨ (16 ≤ i ∧ i < 24) ∨ 24 ≤ i) with h | h | h | h <;>
    simp (disch := omega) only [if_pos, if_neg] <;> congr 1

@[simp] theorem row0_column : row0 (column a b c d) = a := by
  apply BitVec.eq_of_getLsbD_eq
  intro i hi
  have hsub : 24 + i - 24 = i := by omega
  simp (disch := omega) only [row0, BitVec.getLsbD_extractLsb', getLsbD_column, hi, decide_true,
    Bool.true_and, if_neg, hsub]

@[simp] theorem row1_column : row1 (column a b c d) = b := by
  apply BitVec.eq_of_getLsbD_eq
  intro i hi
  have hsub : 16 + i - 16 = i := by omega
  simp (disch := omega) only [row1, BitVec.getLsbD_extractLsb', getLsbD_column, hi, decide_true,
    Bool.true_and, if_neg, if_pos, hsub]

@[simp] theorem row2_column : row2 (column a b c d) = c := by
  apply BitVec.eq_of_getLsbD_eq
  intro i hi
  have hsub : 8 + i - 8 = i := by omega
  simp (disch := omega) only [row2, BitVec.getLsbD_extractLsb', getLsbD_column, hi, decide_true,
    Bool.true_and, if_neg, if_pos, hsub]

@[simp] theorem row3_column : row3 (column a b c d) = d := by
  apply BitVec.eq_of_getLsbD_eq
  intro i hi
  simp (disch := omega) only [row3, BitVec.getLsbD_extractLsb', getLsbD_column, hi, decide_true,
    Bool.true_and, if_true, Nat.zero_add]

@[simp] theorem column_rows : column (row0 w) (row1 w) (row2 w) (row3 w) = w := by
  apply BitVec.eq_of_getLsbD_eq
  intro i hi
  simp only [getLsbD_column, row0, row1, row2, row3, BitVec.getLsbD_extractLsb']
  rcases (by omega : i < 8 ∨ (8 ≤ i ∧ i < 16) ∨ (16 ≤ i ∧ i < 24) ∨ (24 ≤ i ∧ i < 32)) with
    h | h | h | h <;> simp (disch := omega) only [if_pos, if_neg, decide_eq_true, Bool.true_and] <;>
    congr 1 <;> omega

theorem row0_xor : row0 (v ^^^ w) = row0 v ^^^ row0 w := BitVec.extractLsb'_xor
theorem row1_xor : row1 (v ^^^ w) = row1 v ^^^ row1 w := BitVec.extractLsb'_xor
theorem row2_xor : row2 (v ^^^ w) = row2 v ^^^ row2 w := BitVec.extractLsb'_xor
theorem row3_xor : row3 (v ^^^ w) = row3 v ^^^ row3 w := BitVec.extractLsb'_xor

theorem column_ext (h0 : row0 v = row0 w) (h1 : row1 v = row1 w) (h2 : row2 v = row2 w)
    (h3 : row3 v = row3 w) : v = w := by
  rw [← column_rows v, ← column_rows w, h0, h1, h2, h3]

theorem column_xor :
    column a b c d ^^^ column a' b' c' d' = column (a ^^^ a') (b ^^^ b') (c ^^^ c') (d ^^^ d') := by
  apply column_ext <;> simp [row0_xor, row1_xor, row2_xor, row3_xor]

end

/-! ### The field of 256 elements -/

/-- Multiplication by `x`, modulo `x ^ 8 + x ^ 4 + x ^ 3 + x + 1`. -/
def xtime (a : Byte) : Byte := bif a.getLsbD 7 then a <<< 1 ^^^ 0x1b#8 else a <<< 1

/-- Product of `a` with the polynomial whose low `n` coefficients are those of `b`. -/
def mulBits (a b : Byte) : ℕ → Byte
  | 0 => 0#8
  | n + 1 =>
    bif b.getLsbD 0 then a ^^^ mulBits (xtime a) (b >>> 1) n else mulBits (xtime a) (b >>> 1) n

def mul (a b : Byte) : Byte := mulBits a b 8

theorem xtime_xor (a b : Byte) : xtime (a ^^^ b) = xtime a ^^^ xtime b := by
  simp only [xtime, BitVec.shiftLeft_xor_distrib, BitVec.getLsbD_xor]
  cases a.getLsbD 7 <;> cases b.getLsbD 7 <;>
    simp only [bne_self_eq_false, cond_false, cond_true, Bool.true_bne, Bool.false_bne,
      Bool.not_false] <;> grind

theorem mulBits_xor (a a' b : Byte) (n : ℕ) :
    mulBits (a ^^^ a') b n = mulBits a b n ^^^ mulBits a' b n := by
  induction n generalizing a a' b with
  | zero => simp [mulBits]
  | succ n ih =>
    simp only [mulBits, xtime_xor, ih]
    cases b.getLsbD 0
    · rfl
    · simp only [cond_true]
      ac_rfl

theorem mul_xor (a a' b : Byte) : mul (a ^^^ a') b = mul a b ^^^ mul a' b := mulBits_xor a a' b 8

/-- The product of `acc` and the next `n` repeated squares of `s`. -/
def squares : ℕ → Byte → Byte → Byte
  | 0, _, acc => acc
  | n + 1, s, acc => squares n (mul s s) (mul acc (mul s s))

/-- `a ^ 254`: the inverse, and zero at zero. -/
def inverse (a : Byte) : Byte := squares 7 a 1#8

/-! ### The field on numbers

The same operations on `ℕ`, for evaluation. -/

def xtimeNat (a : ℕ) : ℕ := bif Nat.ble 128 a then Nat.xor (2 * a) 0x11b else 2 * a

def mulNat (a b : ℕ) : ℕ → ℕ
  | 0 => 0
  | n + 1 =>
    bif b.testBit 0 then Nat.xor a (mulNat (xtimeNat a) (b / 2) n)
    else mulNat (xtimeNat a) (b / 2) n

def squaresNat : ℕ → ℕ → ℕ → ℕ
  | 0, _, acc => acc
  | n + 1, s, acc => squaresNat n (mulNat s s 8) (mulNat acc (mulNat s s 8) 8)

def inverseNat (a : ℕ) : ℕ := squaresNat 7 a 1

theorem toNat_xtime : ∀ a : Byte, (xtime a).toNat = xtimeNat a.toNat := by
  decide +kernel

theorem toNat_mulBits (a b : Byte) (n : ℕ) :
    (mulBits a b n).toNat = mulNat a.toNat b.toNat n := by
  induction n generalizing a b with
  | zero => rfl
  | succ n ih =>
    have hshift : (b >>> 1).toNat = b.toNat / 2 := by
      rw [BitVec.toNat_ushiftRight, Nat.shiftRight_succ, Nat.shiftRight_zero]
    rw [mulBits, mulNat, ← toNat_xtime, ← hshift, ← ih]
    show _ = bif b.getLsbD 0 then _ else _
    cases b.getLsbD 0 <;> rfl

theorem toNat_squares (n : ℕ) (s acc : Byte) :
    (squares n s acc).toNat = squaresNat n s.toNat acc.toNat := by
  induction n generalizing s acc with
  | zero => rfl
  | succ n ih => simp only [squares, squaresNat, ih, mul, toNat_mulBits]

theorem toNat_inverse (a : Byte) : (inverse a).toNat = inverseNat a.toNat :=
  toNat_squares 7 a 1#8

/-- Both facts about the inverse in one evaluation, which computes each inverse once. -/
theorem inverseNat_inverse : ∀ n < 256,
    (n = 0 ∨ mulNat n (inverseNat n) 8 = 1) ∧ inverseNat (inverseNat n) = n := by
  decide +kernel

theorem mul_inverse (a : Byte) (ha : a ≠ 0) : mul a (inverse a) = 1 := by
  rcases (inverseNat_inverse a.toNat a.isLt).1 with h | h
  · exact absurd (BitVec.eq_of_toNat_eq h) ha
  · apply BitVec.eq_of_toNat_eq
    rw [mul, toNat_mulBits, toNat_inverse, h]
    rfl

/-! ### The substitution -/

/-- Sum of the rotations of `a` by the places in `l`. -/
def rotations (a : Byte) (l : List ℕ) : Byte := l.foldr (fun k acc => a.rotateLeft k ^^^ acc) 0

def sbox (a : Byte) : Byte := rotations (inverse a) [0, 1, 2, 3, 4] ^^^ 0x63

def invSbox (a : Byte) : Byte := inverse (rotations a [1, 3, 6] ^^^ 0x05)

theorem inverse_inverse (a : Byte) : inverse (inverse a) = a := by
  apply BitVec.eq_of_toNat_eq
  rw [toNat_inverse, toNat_inverse, (inverseNat_inverse _ a.isLt).2]

/-- The affine parts of the substitution and of its inverse undo each other. -/
theorem rotations_rotations : ∀ a : Byte,
    rotations (rotations a [0, 1, 2, 3, 4] ^^^ 0x63) [1, 3, 6] ^^^ 0x05 = a ∧
      rotations (rotations a [1, 3, 6] ^^^ 0x05) [0, 1, 2, 3, 4] ^^^ 0x63 = a := by
  decide +kernel

/-- The substitution of a byte. -/
def subByte : Byte ≃ Byte where
  toFun := sbox
  invFun := invSbox
  left_inv a := by rw [invSbox, sbox, (rotations_rotations _).1, inverse_inverse]
  right_inv a := by rw [sbox, invSbox, inverse_inverse, (rotations_rotations _).2]

/-! ### Blocks -/

/-- Four columns. -/
structure Block where
  w1 : Word
  w2 : Word
  w3 : Word
  w4 : Word
  deriving DecidableEq

namespace Block

@[ext] theorem ext {a b : Block} (h1 : a.w1 = b.w1) (h2 : a.w2 = b.w2) (h3 : a.w3 = b.w3)
    (h4 : a.w4 = b.w4) : a = b := by
  obtain ⟨a1, a2, a3, a4⟩ := a
  obtain ⟨b1, b2, b3, b4⟩ := b
  simp_all

def addKey (b k : Block) : Block := ⟨b.w1 ^^^ k.w1, b.w2 ^^^ k.w2, b.w3 ^^^ k.w3, b.w4 ^^^ k.w4⟩

def map (f : Word → Word) (b : Block) : Block := ⟨f b.w1, f b.w2, f b.w3, f b.w4⟩

theorem addKey_addKey (b k : Block) : (b.addKey k).addKey k = b := by
  simp only [addKey, BitVec.xor_assoc, BitVec.xor_self, BitVec.xor_zero]

end Block

def mapRows (f : Byte → Byte) (w : Word) : Word :=
  column (f (row0 w)) (f (row1 w)) (f (row2 w)) (f (row3 w))

/-- Row `i` rotated left by `i` columns. -/
def shiftRows (b : Block) : Block where
  w1 := column (row0 b.w1) (row1 b.w2) (row2 b.w3) (row3 b.w4)
  w2 := column (row0 b.w2) (row1 b.w3) (row2 b.w4) (row3 b.w1)
  w3 := column (row0 b.w3) (row1 b.w4) (row2 b.w1) (row3 b.w2)
  w4 := column (row0 b.w4) (row1 b.w1) (row2 b.w2) (row3 b.w3)

/-- Row `i` rotated right by `i` columns. -/
def invShiftRows (b : Block) : Block where
  w1 := column (row0 b.w1) (row1 b.w4) (row2 b.w3) (row3 b.w2)
  w2 := column (row0 b.w2) (row1 b.w1) (row2 b.w4) (row3 b.w3)
  w3 := column (row0 b.w3) (row1 b.w2) (row2 b.w1) (row3 b.w4)
  w4 := column (row0 b.w4) (row1 b.w3) (row2 b.w2) (row3 b.w1)

/-- The column times the circulant matrix of first row `p q r s`. -/
def circulant (p q r s : Byte) (w : Word) : Word :=
  column
    (mul (row0 w) p ^^^ mul (row1 w) q ^^^ mul (row2 w) r ^^^ mul (row3 w) s)
    (mul (row0 w) s ^^^ mul (row1 w) p ^^^ mul (row2 w) q ^^^ mul (row3 w) r)
    (mul (row0 w) r ^^^ mul (row1 w) s ^^^ mul (row2 w) p ^^^ mul (row3 w) q)
    (mul (row0 w) q ^^^ mul (row1 w) r ^^^ mul (row2 w) s ^^^ mul (row3 w) p)

def mixColumn (w : Word) : Word := circulant 2 3 1 1 w

def invMixColumn (w : Word) : Word := circulant 0xe 0xb 0xd 0x9 w

theorem circulant_xor (p q r s : Byte) (v w : Word) :
    circulant p q r s (v ^^^ w) = circulant p q r s v ^^^ circulant p q r s w := by
  simp only [circulant, row0_xor, row1_xor, row2_xor, row3_xor, mul_xor, column_xor]
  congr 1 <;> ac_rfl

/-- Maps that keep sums agree when they agree on single bits. -/
theorem additive_ext {n m : ℕ} {f g : BitVec n → BitVec m}
    (hf : ∀ v w, f (v ^^^ w) = f v ^^^ f w) (hg : ∀ v w, g (v ^^^ w) = g v ^^^ g w)
    (h : ∀ i < n, f (BitVec.twoPow n i) = g (BitVec.twoPow n i)) (v : BitVec n) : f v = g v := by
  have hzero : ∀ e : BitVec n → BitVec m, (∀ v w, e (v ^^^ w) = e v ^^^ e w) → e 0 = 0 := by
    intro e he
    have hsum := he 0 0
    simpa using hsum
  -- bits from `k` on are zero
  have key : ∀ k ≤ n, ∀ v : BitVec n, (∀ i, k ≤ i → v.getLsbD i = false) → f v = g v := by
    intro k
    induction k with
    | zero =>
      intro _ v hv
      have hv0 : v = 0 := BitVec.eq_of_getLsbD_eq fun i _ => by simp [hv i (Nat.zero_le i)]
      rw [hv0, hzero f hf, hzero g hg]
    | succ k ih =>
      intro hk v hv
      cases hbit : v.getLsbD k
      · refine ih (by omega) v fun i hi => ?_
        rcases Nat.lt_or_ge k i with hlt | hge
        · exact hv i hlt
        · rw [Nat.le_antisymm hge hi, hbit]
      · have hsplit : v = (v ^^^ BitVec.twoPow n k) ^^^ BitVec.twoPow n k := by
          rw [BitVec.xor_assoc, BitVec.xor_self, BitVec.xor_zero]
        have hrest : f (v ^^^ BitVec.twoPow n k) = g (v ^^^ BitVec.twoPow n k) := by
          refine ih (by omega) _ fun i hi => ?_
          rw [BitVec.getLsbD_xor, BitVec.getLsbD_twoPow]
          rcases Nat.lt_or_ge k i with hlt | hge
          · have hne : k ≠ i := by omega
            simp [hv i hlt, hne]
          · have heq : i = k := by omega
            have hlt : k < n := by omega
            simp [heq, hbit, hlt]
        rw [hsplit, hf, hg, hrest, h k (by omega)]
  exact key n le_rfl v fun i hi => BitVec.getLsbD_of_ge v i hi

theorem mixColumn_twoPow : ∀ i < 32,
    invMixColumn (mixColumn (BitVec.twoPow 32 i)) = BitVec.twoPow 32 i ∧
      mixColumn (invMixColumn (BitVec.twoPow 32 i)) = BitVec.twoPow 32 i := by
  decide +kernel

theorem invMixColumn_mixColumn (w : Word) : invMixColumn (mixColumn w) = w := by
  refine additive_ext (f := fun w => invMixColumn (mixColumn w)) (g := fun w => w) (fun v w => ?_)
    (fun v w => rfl) (fun i hi => (mixColumn_twoPow i hi).1) w
  simp only [mixColumn, invMixColumn, circulant_xor]

theorem mixColumn_invMixColumn (w : Word) : mixColumn (invMixColumn w) = w := by
  refine additive_ext (f := fun w => mixColumn (invMixColumn w)) (g := fun w => w) (fun v w => ?_)
    (fun v w => rfl) (fun i hi => (mixColumn_twoPow i hi).2) w
  simp only [mixColumn, invMixColumn, circulant_xor]

/-! ### The cipher -/

def subBytes : Block ≃ Block where
  toFun := Block.map (mapRows subByte)
  invFun := Block.map (mapRows subByte.symm)
  left_inv b := by simp [Block.map, mapRows]
  right_inv b := by simp [Block.map, mapRows]

def shift : Block ≃ Block where
  toFun := shiftRows
  invFun := invShiftRows
  left_inv b := by simp [shiftRows, invShiftRows]
  right_inv b := by simp [shiftRows, invShiftRows]

def mixColumns : Block ≃ Block where
  toFun := Block.map mixColumn
  invFun := Block.map invMixColumn
  left_inv b := by simp [Block.map, invMixColumn_mixColumn]
  right_inv b := by simp [Block.map, mixColumn_invMixColumn]

def layers : Layers Block where
  addKey := Block.addKey
  sub := subBytes.trans shift
  mix := mixColumns
  addKey_addKey := Block.addKey_addKey
  mix_addKey b k := by
    simp only [mixColumns, Equiv.coe_fn_mk, Block.map, Block.addKey, mixColumn, circulant_xor]

def rotWord (w : Word) : Word := column (row1 w) (row2 w) (row3 w) (row0 w)

def rcon : ℕ → Byte
  | 0 => 1
  | r + 1 => xtime (rcon r)

/-- The round key after `k` in the expansion. -/
def nextKey (k : Block) (r : ℕ) : Block :=
  let t := mapRows subByte (rotWord k.w4) ^^^ column (rcon r) 0 0 0
  { w1 := k.w1 ^^^ t
    w2 := k.w2 ^^^ (k.w1 ^^^ t)
    w3 := k.w3 ^^^ (k.w2 ^^^ (k.w1 ^^^ t))
    w4 := k.w4 ^^^ (k.w3 ^^^ (k.w2 ^^^ (k.w1 ^^^ t))) }

def roundKey (key : Block) : ℕ → Block
  | 0 => key
  | r + 1 => nextKey (roundKey key r) r

def encrypt (key b : Block) : Block := layers.cipher 10 (roundKey key) b

/-- Round keys of the equivalent inverse cipher. -/
def inverseRoundKey (key : Block) : ℕ → Block := layers.inverseKeys 10 (roundKey key)

def decrypt (key b : Block) : Block := layers.symm.cipher 10 (inverseRoundKey key) b

theorem decrypt_encrypt (key b : Block) : decrypt key (encrypt key b) = b :=
  layers.symm_cipher_cipher (by decide) (roundKey key) b

theorem encrypt_decrypt (key b : Block) : encrypt key (decrypt key b) = b :=
  layers.cipher_symm_cipher (by decide) (roundKey key) b

example :
    encrypt ⟨0x00010203, 0x04050607, 0x08090a0b, 0x0c0d0e0f⟩
      ⟨0x00112233, 0x44556677, 0x8899aabb, 0xccddeeff⟩ =
    ⟨0x69c4e0d8, 0x6a7b0430, 0xd8cdb780, 0x70b4c55a⟩ := by
  decide +kernel

end SocCrypto.AesFunction

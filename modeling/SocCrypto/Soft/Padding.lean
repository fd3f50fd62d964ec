import SocCrypto.Soft.Sha256

/-!
# Padding of `SHA_256.h` against the standard

`paddedByte` is the padded message of FIPS 180-4: the message, 0x80, zeros, and the
length in bits as 64 bits. `padding` writes it for the lengths whose branch in the chain
of length tests is the one of the standard, and the zeroing loop runs.
-/

namespace SocCrypto.Soft

/-! ### The standard -/

/-- Number of blocks of a message of `l` bytes. -/
def fipsBlocks (l : ℕ) : ℕ := (l + 8) / 64 + 1

/-- Byte `i` of the padded message. -/
def paddedByte (message : Buffer) (l i : ℕ) : Byte :=
  if i < l then message i
  else if i = l then 0x80
  else if i < 64 * fipsBlocks l - 8 then 0
  else (BitVec.ofNat 64 (8 * l) >>> (8 * (64 * fipsBlocks l - 1 - i))).setWidth 8

/-- The call returns the number of blocks and leaves their bytes in memory. -/
def Pads (mem : Sdram) (message : Buffer) (l : ℕ) : Prop :=
  (padding mem message l).2 = some (fipsBlocks l) ∧
    ∀ i < 64 * fipsBlocks l,
      beByte ((padding mem message l).1 (i / 4)) (i % 4) = paddedByte message l i

/-! ### The chain of length tests -/

theorem blockRange_fips {l : ℕ} (hl : l ≤ 887 ∨ 898 ≤ l ∧ l ≤ 951) :
    blockRange l = some (16 * fipsBlocks l - 1, fipsBlocks l) := by
  unfold fipsBlocks
  fun_cases blockRange l
  all_goals first | omega | (rw [Option.some.injEq, Prod.mk.injEq]; omega)

theorem blockRange_late {l : ℕ} (hl : 888 ≤ l ∧ l ≤ 897) : blockRange l = some (223, 14) := by
  unfold blockRange
  iterate 13 rw [if_neg (by omega)]
  exact if_pos (by omega)

theorem blockRange_none {l : ℕ} (hl : 952 ≤ l) : blockRange l = none := by
  unfold blockRange
  iterate 15 rw [if_neg (by omega)]

/-! ### Bytes of the marked word -/

/-- The word with the end mark: the message before it, zeros behind it. -/
theorem putMark_word (mem : Sdram) (message : Buffer) {l p : ℕ} (hp : p < 4) :
    beByte ((putMark (putMessage mem message l) l).1 (l / 4)) p =
      if 4 * (l / 4) + p < l then message (4 * (l / 4) + p)
      else if 4 * (l / 4) + p = l then 0x80 else 0 := by
  by_cases hbefore : 4 * (l / 4) + p < l
  · rw [if_pos hbefore]
    have hbyte := putMark_bytes mem message hbefore
    rw [show (4 * (l / 4) + p) / 4 = l / 4 by omega, show (4 * (l / 4) + p) % 4 = p by omega]
      at hbyte
    exact hbyte
  rw [if_neg hbefore, putMark]
  by_cases haligned : l % 4 = 0
  · rw [if_pos haligned]
    simp only [Sdram.write_same]
    have hcases : p = 0 ∨ p = 1 ∨ p = 2 ∨ p = 3 := by omega
    rcases hcases with rfl | rfl | rfl | rfl
    · rw [if_pos (by omega)]
      decide
    all_goals
      rw [if_neg (by omega)]
      decide
  · have hmark : (if l % 4 < 4 then (0x80 : Word) <<< ((3 - l % 4) * 8) else 0x80) =
        (0x80 : Byte).setWidth 32 <<< ((3 - l % 4) * 8) := by
      rw [if_pos (Nat.mod_lt l (by omega))]
      rfl
    rw [if_neg haligned]
    simp only [hmark, Sdram.write_same]
    rw [beByte_or _ _ (Nat.mod_lt l (by omega)) hp,
      (putMessage_bytes mem message l).2 p hp (by omega)]
    by_cases hat : p = l % 4
    · rw [if_pos hat, if_pos (by omega)]
      rfl
    · rw [if_neg hat, if_neg (by omega)]

/-! ### Bytes of the length -/

theorem beByte_ofNat (n : ℕ) {p : ℕ} (hp : p < 4) :
    beByte (BitVec.ofNat 32 n) p = (BitVec.ofNat 64 n >>> (8 * (3 - p))).setWidth 8 := by
  apply BitVec.eq_of_getLsbD_eq
  intro b hb
  have h32 : 8 * (3 - p) + b < 32 := by omega
  have h64 : 8 * (3 - p) + b < 64 := by omega
  simp only [beByte, BitVec.getLsbD_setWidth, BitVec.getLsbD_ushiftRight, BitVec.getLsbD_ofNat,
    h32, h64]

theorem highByte_eq_zero {n k : ℕ} (hn : n < 2 ^ 32) (hk : 4 ≤ k) :
    ((BitVec.ofNat 64 n >>> (8 * k)).setWidth 8 : Byte) = 0 := by
  apply BitVec.eq_of_getLsbD_eq
  intro b hb
  have hbit : n.testBit (8 * k + b) = false :=
    Nat.testBit_lt_two_pow (lt_of_lt_of_le hn (Nat.pow_le_pow_right (by omega) (by omega)))
  simp only [BitVec.getLsbD_setWidth, BitVec.getLsbD_ushiftRight, BitVec.getLsbD_ofNat, hbit,
    Bool.and_false, BitVec.ofNat_eq_ofNat, Nat.zero_testBit]

/-! ### Which lengths are padded -/

theorem pads_of_blockRange {l : ℕ} (hl : l < 2 ^ 29)
    (hrange : blockRange l = some (16 * fipsBlocks l - 1, fipsBlocks l))
    (mem : Sdram) (message : Buffer) : Pads mem message l := by
  have hfit : l / 4 + 1 < 16 * fipsBlocks l - 1 := by
    simp only [fipsBlocks]
    omega
  refine ⟨?_, ?_⟩
  · rw [padding_numberBlock hrange]
    exact if_pos hfit
  · intro i hi
    rw [padding_word hrange (by omega) mem message (by omega), paddedByte]
    by_cases hmessage : i / 4 < l / 4
    · rw [if_pos (by omega), if_pos (by omega)]
      exact putMark_bytes mem message (by omega)
    by_cases hmark : i / 4 = l / 4
    · have hword := putMark_word mem message (l := l) (Nat.mod_lt i (show 4 > 0 by omega))
      rw [show 4 * (l / 4) + i % 4 = i by omega] at hword
      rw [if_pos (by omega), hmark, hword]
      by_cases hbefore : i < l
      · rw [if_pos hbefore, if_pos hbefore]
      · rw [if_neg hbefore, if_neg hbefore, if_pos (show i < 64 * fipsBlocks l - 8 by omega)]
    rw [if_neg (show ¬ i / 4 ≤ l / 4 by omega), if_neg (show ¬ i < l by omega),
      if_neg (show i ≠ l by omega)]
    by_cases hlength : i / 4 = 16 * fipsBlocks l - 1
    · rw [if_pos hlength, if_neg (by omega), Nat.mul_comm l 8,
        beByte_ofNat _ (Nat.mod_lt i (by omega))]
      congr 3
      omega
    · rw [if_neg hlength]
      have hzero : beByte 0 (i % 4) = 0 := by simp [beByte]
      by_cases hlow : i < 64 * fipsBlocks l - 8
      · rw [if_pos hlow, hzero]
      · rw [if_neg hlow, hzero]
        exact (highByte_eq_zero (by omega) (by omega)).symm

/-- The chain leaves `NumberBlock` unassigned from 888 characters to 897, where the bound
of the fourteenth branch is already passed, and from 952 on, where no branch is left. -/
theorem padding_unassigned {l : ℕ} (hl : 888 ≤ l ∧ l ≤ 897 ∨ 952 ≤ l) (mem : Sdram)
    (message : Buffer) : (padding mem message l).2 = none := by
  rcases hl with hlate | hbeyond
  · rw [padding_numberBlock (blockRange_late hlate)]
    exact if_neg (by omega)
  · simp only [padding, blockRange_none hbeyond]

/-- Which of the lengths up to 1023 are padded as the standard says, whatever the message
and the memory. -/
theorem pads_iff (mem : Sdram) (message : Buffer) (l : ℕ) (hl : l ≤ 1023) :
    Pads mem message l ↔ l ≤ 887 ∨ 898 ≤ l ∧ l ≤ 951 := by
  constructor
  · intro hpads
    by_contra hbad
    have hnone := padding_unassigned (l := l) (by omega) mem message
    rw [hpads.1] at hnone
    cases hnone
  · intro hgood
    exact pads_of_blockRange (by omega) (blockRange_fips hgood) mem message

theorem pads_iff_100 :
    Pads (fun _ => 0xFFFFFFFF) (fun _ => 0x61) 100 ↔ 100 ≤ 887 ∨ 898 ≤ 100 ∧ 100 ≤ 951 :=
  pads_iff _ _ 100 (by omega)

theorem not_pads_888 : ¬ ∀ mem message l, l ≤ 1023 → Pads mem message l := by
  intro h
  have hpads := h (fun _ => 0) (fun _ => 0x61) 888 (by omega)
  have hnone := padding_unassigned (l := 888) (by omega) (fun _ => 0) (fun _ => 0x61)
  rw [hpads.1] at hnone
  cases hnone

end SocCrypto.Soft

import SocCrypto.Clocked
import SocCrypto.Rsa.MonModInverse1024

/-!
# Runs of single units

What the comparators, `CheckZero2048.v` and `ModPower1024.v` put out at the end of a run of
their own, for all operands.
-/

namespace SocCrypto.Rsa
open WordSerial Clocked

/-! ### Two operands, word by word -/

/-- Ports of a unit that takes a word of each operand per enabled cycle. -/
structure SerialIn where
  iEnable : Bool
  iDataX : Word
  iDataY : Word

/-- Word `k` of an operand. -/
def operandWord {N : ℕ} (x : BitVec N) (k : ℕ) : Word := x.extractLsb' (32 * k) 32

/-- A disabled cycle, then the words of both operands, least significant first. -/
def serial {N : ℕ} (dx dy : Word) (X Y : BitVec N) : ℕ → SerialIn
  | 0 => ⟨false, dx, dy⟩
  | k + 1 => ⟨true, operandWord X k, operandWord Y k⟩

theorem operandWord_toNat {N : ℕ} (x : BitVec N) (k : ℕ) :
    (operandWord x k).toNat = digit base x.toNat k := by
  rw [operandWord, BitVec.extractLsb'_toNat, Nat.shiftRight_eq_div_pow, pow_mul]
  rfl

/-! ### Comparators -/

/-- The code of an order. -/
def orderMode : Ordering → BitVec 2
  | .lt => 0b10
  | .gt => 0b01
  | .eq => 0b11

theorem orderMode_compare (x y : ℕ) :
    orderMode (compare x y) = if x < y then 0b10 else if y < x then 0b01 else 0b11 := by
  rcases lt_trichotomy x y with hlt | rfl | hgt
  · rw [if_pos hlt, compare_lt_iff_lt.mpr hlt]
    rfl
  · rw [if_neg (lt_irrefl x), if_neg (lt_irrefl x), compare_eq_iff_eq.mpr rfl]
    rfl
  · rw [if_neg hgt.asymm, if_pos hgt, compare_gt_iff_gt.mpr hgt]
    rfl

def Comparator.clock {w : ℕ} (top : BitVec w) (u : Comparator w) (i : SerialIn) : Comparator w :=
  u.next top i.iEnable i.iDataX i.iDataY

theorem Comparator.run_at {w N : ℕ} (top : BitVec w) (u : Comparator w) (dx dy : Word)
    (X Y : BitVec N) {k : ℕ} (hk : k ≤ top.toNat) :
    (run (Comparator.clock top) u (serial dx dy X Y) (k + 1)).At X.toNat Y.toNat k := by
  induction k with
  | zero => exact Comparator.at_start X.toNat Y.toNat
  | succ k ih =>
    rw [run_last]
    exact Comparator.at_next top (by omega) (ih (by omega)) _ _ (operandWord_toNat X k)
      (operandWord_toNat Y k)

/-- A comparator for `n` words says nothing before it has seen all of them, and then how the
operands are ordered. -/
theorem Comparator.run_oMode {w n : ℕ} (top : BitVec w) (htop : top.toNat = n) (u : Comparator w)
    (dx dy : Word) (X Y : BitVec (32 * n)) :
    (∀ k < n, (run (Comparator.clock top) u (serial dx dy X Y) (k + 1)).oMode top = 0) ∧
      (run (Comparator.clock top) u (serial dx dy X Y) (n + 1)).oMode top =
        orderMode (compare X.toNat Y.toNat) := by
  constructor
  · intro k hk
    exact (Comparator.run_at top u dx dy X Y (by omega)).busy top (by omega)
  · rw [orderMode_compare]
    exact (Comparator.run_at top u dx dy X Y (by omega)).verdict top htop
      (toNat_lt_base_pow X) (toNat_lt_base_pow Y)

def Compare1024.clock (u : Compare1024) (i : SerialIn) : Compare1024 :=
  Compare1024.next u i.iEnable i.iDataX i.iDataY

def Compare2048.clock (u : Compare2048) (i : SerialIn) : Compare2048 :=
  Compare2048.next u i.iEnable i.iDataX i.iDataY

/-- From any state, after a disabled cycle and all the words of the operands, both comparators
tell how the operands are ordered, and in no cycle before. -/
theorem compare_orders :
    (∀ (u : Compare2048) (dx dy : Word) (X Y : BitVec 2048),
      (∀ k < 64, Compare2048.oMode (run Compare2048.clock u (serial dx dy X Y) (k + 1)) = 0) ∧
        Compare2048.oMode (run Compare2048.clock u (serial dx dy X Y) 65) =
          orderMode (compare X.toNat Y.toNat)) ∧
    ∀ (u : Compare1024) (dx dy : Word) (X Y : BitVec 1024),
      (∀ k < 32, Compare1024.oMode (run Compare1024.clock u (serial dx dy X Y) (k + 1)) = 0) ∧
        Compare1024.oMode (run Compare1024.clock u (serial dx dy X Y) 33) =
          orderMode (compare X.toNat Y.toNat) := by
  constructor
  · exact fun u dx dy X Y => Comparator.run_oMode (n := 64) (64 : BitVec 8) (by decide) u dx dy X Y
  · exact fun u dx dy X Y => Comparator.run_oMode (n := 32) (32 : BitVec 7) (by decide) u dx dy X Y

/-! ### CheckZero2048 -/

/-- Leading zeros, in terms of the length of the number. -/
theorem toNat_clz {w : ℕ} (hw : 0 < w) (x : BitVec w) : x.clz.toNat = w - x.toNat.size := by
  by_cases hx : x = 0
  · have hclz : x.clz = BitVec.ofNat w w := BitVec.clz_eq_iff_eq_zero.mpr hx
    rw [hclz, hx, BitVec.toNat_ofNat, Nat.mod_eq_of_lt Nat.lt_two_pow_self]
    simp
  · have hlow := Nat.lt_size.mpr (BitVec.two_pow_sub_clz_le_toNat_of_ne_zero hw hx)
    have hhigh := Nat.size_le.mpr (BitVec.toNat_lt_two_pow_sub_clz (x := x))
    have hle : x.clz.toNat < w := by
      have hlt := BitVec.clz_lt_iff_ne_zero.mpr hx
      rw [BitVec.lt_def] at hlt
      exact lt_of_lt_of_le hlt (Nat.mod_le _ _)
    omega

def CheckZero2048.clock (u : CheckZero2048) (i : SerialIn) : CheckZero2048 :=
  u.next i.iEnable i.iDataX i.iDataY

theorem CheckZero2048.run_at (u : CheckZero2048) (dx dy : Word) (X Y : BitVec 2048) {k : ℕ}
    (hk : k ≤ 64) :
    (run CheckZero2048.clock u (serial dx dy X Y) (k + 1)).At X.toNat Y.toNat k := by
  induction k with
  | zero => exact CheckZero2048.at_start X.toNat Y.toNat _
  | succ k ih =>
    rw [run_last]
    exact CheckZero2048.at_next (by omega) (ih (by omega)) _ _ (operandWord_toNat X k)
      (operandWord_toNat Y k)

/-- At the cycle in which the unit is finished, the first one, its output is the difference of
the leading zeros. -/
theorem checkZero_length (u : CheckZero2048) (dx dy : Word) (X Y : BitVec 2048) :
    (∀ k < 64, (run CheckZero2048.clock u (serial dx dy X Y) (k + 1)).oFinish = false) ∧
      (run CheckZero2048.clock u (serial dx dy X Y) 65).oFinish = true ∧
      (((run CheckZero2048.clock u (serial dx dy X Y) 65).lengthOut true).toNat : ℤ) =
        ((Y.clz.toNat : ℤ) - X.clz.toNat) % 2 ^ 12 := by
  have hcount : ∀ Z : BitVec 2048, leadingZeros 32 Z.toNat 64 = Z.clz.toNat := by
    intro Z
    rw [leadingZeros_eq Z.isLt, toNat_clz (by decide)]
  have hend := CheckZero2048.run_at u dx dy X Y (le_refl 64)
  refine ⟨?_, hend.finish, ?_⟩
  · intro k hk
    rw [(CheckZero2048.run_at u dx dy X Y hk.le).finish, decide_eq_false (by omega)]
  · have hle := leadingZeros_le 32 X.toNat 64
    rw [hend.length, hcount, hcount]
    rw [hcount] at hle
    omega

/-! ### ModPower1024 -/

namespace ModPower1024

structure In where
  iEnable : Bool
  iLoad : Bool
  iX : BitVec 1024
  iTwoexp : BitVec 11

def clock (u : ModPower1024) (i : In) : ModPower1024 := u.next i.iEnable i.iLoad i.iX i.iTwoexp

/-- The inputs of the parent: disabled, loaded in the first enabled cycle, and then enabled with
whatever it has on the operand port. -/
def cutting (before : In) (X : BitVec 1024) (iTwoexp : BitVec 11) (iX : ℕ → BitVec 1024) : ℕ → In
  | 0 => { before with iEnable := false }
  | 1 => ⟨true, true, X, iTwoexp⟩
  | t + 2 => ⟨true, false, iX t, iTwoexp⟩

/-- The words up to word `n / 32` are those of `T`, that one cut to `n % 32` bits. -/
def Words (T n : ℕ) (f : Fin 32 → Word) : Prop := ∀ k, k.val ≤ n / 32 → (f k).toNat = cut T n k

theorem Masked.words {T n : ℕ} {u : ModPower1024} (h : Masked T n u) : Words T n u.regBuffX := by
  intro k hk
  unfold cut
  rcases Nat.lt_or_eq_of_le hk with hlt | heq
  · rw [if_pos hlt, h.low k hlt]
  · rw [if_neg (by omega), if_pos heq, h.top k heq]

theorem Words.masked {T n : ℕ} {u : ModPower1024} (h : Words T n u.regBuffX)
    (hcount : u.count = 2) : Masked T n u := by
  constructor
  case count => exact hcount
  case low =>
    intro k hk
    rw [h k hk.le, cut, if_pos hk]
  case top =>
    intro k hk
    rw [h k hk.le, cut, if_neg (by omega), if_pos hk]

/-- Cutting once more changes nothing. -/
theorem Words.next {T n : ℕ} {u : ModPower1024} {iTwoexp : BitVec 11} (hn : iTwoexp.toNat = n)
    (hle : n ≤ 1024) (h : Words T n u.regBuffX) (iX : BitVec 1024) :
    Words T n (u.next true false iX iTwoexp).regBuffX := by
  intro k hk
  have hb := b_toNat hn hle
  have hnow := h k hk
  show (if k.val = (b iTwoexp).toNat then u.regBuffX k &&& mask iTwoexp else u.regBuffX k).toNat = _
  rw [hb]
  split
  · next heq =>
    rw [cut, if_neg (by omega), if_pos heq] at hnow ⊢
    rw [BitVec.toNat_and, mask_toNat hn hle, Nat.and_two_pow_sub_one_eq_mod, hnow, Nat.mod_mod]
  · exact hnow

variable {before : In} {X : BitVec 1024} {iX : ℕ → BitVec 1024} {iTwoexp : BitVec 11}

theorem run_words {n : ℕ} (hn : iTwoexp.toNat = n) (hle : n ≤ 1024) (u : ModPower1024) (t : ℕ) :
    (run clock u (cutting before X iTwoexp iX) (t + 3)).count = BitVec.ofNat 2 (t + 2) ∧
      Words X.toNat n (run clock u (cutting before X iTwoexp iX) (t + 3)).regBuffX := by
  induction t with
  | zero =>
    have hmasked := masked_of_loaded (u := run clock u (cutting before X iTwoexp iX) 2) hn hle rfl
      rfl (fun _ => rfl) (iX 0)
    exact ⟨hmasked.count, hmasked.words⟩
  | succ t ih =>
    rw [run_last]
    refine ⟨?_, ih.2.next hn hle (iX (t + 1))⟩
    show (run clock u (cutting before X iTwoexp iX) (t + 3)).count + 1 = _
    rw [ih.1]
    exact (BitVec.ofNat_add (t + 2) 1).symm

/-- The unit is valid for the first time two cycles after the load, and whenever it is valid it
puts out its operand modulo `2 ^ k`. -/
theorem modPower_truncates (u : ModPower1024) (before : In) (X : BitVec 1024)
    (iX : ℕ → BitVec 1024) (k : ℕ) (hk : k ≤ 1024) :
    let i := cutting before X (BitVec.ofNat 11 k) iX
    let s := run clock u i
    (∀ t < 3, (s t).oDataValid (i t).iEnable (i t).iLoad = false) ∧
      (s 3).oDataValid (i 3).iEnable (i 3).iLoad = true ∧
      ∀ t, (s t).oDataValid (i t).iEnable (i t).iLoad = true →
        ((s t).oZ (i t).iEnable (i t).iLoad (i t).iTwoexp).toNat = X.toNat % 2 ^ k := by
  intro i s
  have hn : (BitVec.ofNat 11 k).toNat = k := by
    rw [BitVec.toNat_ofNat]
    exact Nat.mod_eq_of_lt (by omega)
  have hlow : ∀ t < 3, (s t).oDataValid (i t).iEnable (i t).iLoad = false := by
    intro t ht
    have hcases : t = 0 ∨ t = 1 ∨ t = 2 := by omega
    rcases hcases with rfl | rfl | rfl <;> rfl
  refine ⟨hlow, ?_, ?_⟩
  · have hcount : (s 3).count = 2 := (run_words hn hk u 0).1
    show (true && !false && decide ((s 3).count = 2)) = true
    rw [hcount]
    rfl
  · intro t hvalid
    rcases Nat.lt_or_ge t 3 with hlt | hge
    · rw [hlow t hlt] at hvalid
      cases hvalid
    · obtain ⟨m, rfl⟩ := Nat.exists_eq_add_of_le' hge
      have hcount : (s (m + 3)).count = 2 := by
        have hboth : (true && !false && decide ((s (m + 3)).count = 2)) = true := hvalid
        simpa using hboth
      have hwords : Words X.toNat k (s (m + 3)).regBuffX := (run_words hn hk u m).2
      have hmasked := hwords.masked hcount
      exact hmasked.oZ_toNat hn hk X.isLt

/-- For `k = 1024` the word index is outside the array and nothing is cut. -/
theorem modPower_truncates_full :
    ((run clock ⟨0, fun _ => 0⟩ (cutting ⟨false, false, 0, 0⟩ (BitVec.allOnes 1024)
      (BitVec.ofNat 11 1024) fun _ => 0) 3).oZ true false (BitVec.ofNat 11 1024)).toNat =
      (BitVec.allOnes 1024).toNat % 2 ^ 1024 :=
  (modPower_truncates ⟨0, fun _ => 0⟩ ⟨false, false, 0, 0⟩ (BitVec.allOnes 1024) (fun _ => 0) 1024
    le_rfl).2.2 3 (modPower_truncates _ _ _ _ 1024 le_rfl).2.1

end ModPower1024

end SocCrypto.Rsa

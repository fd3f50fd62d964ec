import Mathlib.Data.BitVec
import Mathlib.Tactic.NormNum
import SocCrypto.Word
import SocCrypto.WordSerial

/-!
# Word-serial units of the RSA core

`Add1024.v`, `Sub1024.v`, `Sub2048.v`, `Compare1024.v`, `Compare2048.v`,
`CheckTotalZero.v` and `CheckZero2048.v`. Every unit takes one 32-bit word of
each operand per enabled cycle, least significant first, and counts the cycles.
The `At` predicates say what a unit holds after `k` enabled cycles.
-/

namespace SocCrypto.Rsa
open WordSerial

/-- Size of a word as a number base. -/
def base : ℕ := 2 ^ 32

theorem base_pos : 0 < base := by
  unfold base
  norm_num

theorem word_lt_base (w : Word) : w.toNat < base := w.isLt

/-- `R[31:0]`. -/
def lowWord {W : ℕ} (r : BitVec W) : Word := r.setWidth 32

/-- `R[W-33:0] <= R[W-1:32]; R[W-1:W-32] <= w`. -/
def shiftIn {W : ℕ} (r : BitVec W) (w : Word) : BitVec W :=
  (r >>> 32) ||| (w.setWidth W <<< (W - 32))

theorem lowWord_toNat {W : ℕ} (r : BitVec W) : (lowWord r).toNat = r.toNat % base := by
  simp only [lowWord, BitVec.toNat_setWidth, base]

theorem shiftIn_toNat {n : ℕ} (r : BitVec (32 * (n + 1))) (w : Word) :
    (shiftIn r w).toNat = r.toNat / base + w.toNat * base ^ n := by
  have hw := w.isLt
  have hpow : (2 : ℕ) ^ (32 * (n + 1)) = 2 ^ 32 * 2 ^ (32 * n) := by
    rw [← pow_add]
    ring_nf
  have hbase : base ^ n = 2 ^ (32 * n) := by rw [base, pow_mul]
  have hsub : 32 * (n + 1) - 32 = 32 * n := by omega
  have hle : w.toNat + 1 ≤ 2 ^ 32 := hw
  have hmul := Nat.mul_le_mul_right (2 ^ (32 * n)) hle
  have hpos : 0 < 2 ^ (32 * n) := by positivity
  have hfit : w.toNat < 2 ^ (32 * (n + 1)) := by
    rw [hpow]
    nlinarith
  have hshift : w.toNat <<< (32 * n) < 2 ^ (32 * (n + 1)) := by
    rw [Nat.shiftLeft_eq, hpow]
    nlinarith
  have hdiv : r.toNat / 2 ^ 32 < 2 ^ (32 * n) := by
    refine (Nat.div_lt_iff_lt_mul (by norm_num)).mpr (lt_of_lt_of_eq r.isLt ?_)
    rw [hpow, Nat.mul_comm]
  simp only [shiftIn, BitVec.toNat_or, BitVec.toNat_ushiftRight, BitVec.toNat_shiftLeft,
    BitVec.toNat_setWidth, hsub]
  rw [Nat.mod_eq_of_lt hfit, Nat.mod_eq_of_lt hshift, Nat.shiftRight_eq_div_pow, Nat.or_comm,
    ← Nat.shiftLeft_add_eq_or_of_lt hdiv, Nat.shiftLeft_eq, hbase, Nat.add_comm, base]

/-- `R[W-1:32] <= R[W-33:0]; R[31:0] <= w`. -/
def shiftUp {W : ℕ} (r : BitVec W) (w : Word) : BitVec W := (r <<< 32) ||| w.setWidth W

/-- `R[W-1:W-32]`. -/
def topWord {W : ℕ} (r : BitVec W) : Word := (r >>> (W - 32)).setWidth 32

theorem toNat_lt_base_pow {n : ℕ} (r : BitVec (32 * n)) : r.toNat < base ^ n := by
  rw [base, ← pow_mul]
  exact r.isLt

theorem shiftUp_toNat {n : ℕ} (r : BitVec (32 * (n + 1))) (w : Word) :
    (shiftUp r w).toNat = (r.toNat * base + w.toNat) % base ^ (n + 1) := by
  have hw := w.isLt
  have hpow : base ^ (n + 1) = 2 ^ (32 * (n + 1)) := by rw [base, pow_mul]
  have hsplit : (2 : ℕ) ^ (32 * (n + 1)) = 2 ^ (32 * n) * 2 ^ 32 := by
    rw [← pow_add]
    ring_nf
  have hpos : 0 < 2 ^ (32 * n) := by positivity
  have hfit : w.toNat < 2 ^ (32 * (n + 1)) := by
    rw [hsplit]
    nlinarith
  have hdvd : (2 : ℕ) ^ 32 ∣ r.toNat <<< 32 % 2 ^ (32 * (n + 1)) := by
    refine (Nat.dvd_mod_iff ?_).mpr ?_
    · exact Dvd.intro_left _ hsplit.symm
    · rw [Nat.shiftLeft_eq]
      exact Nat.dvd_mul_left _ _
  obtain ⟨q, hq⟩ := hdvd
  simp only [shiftUp, BitVec.toNat_or, BitVec.toNat_shiftLeft, BitVec.toNat_setWidth]
  rw [Nat.mod_eq_of_lt hfit, hq, Nat.mul_comm, ← Nat.shiftLeft_eq,
    ← Nat.shiftLeft_add_eq_or_of_lt hw, Nat.shiftLeft_eq, Nat.mul_comm q, ← hq, hpow,
    Nat.shiftLeft_eq, base]
  have hlt : r.toNat * 2 ^ 32 % 2 ^ (32 * (n + 1)) + w.toNat < 2 ^ (32 * (n + 1)) := by
    have hq' : r.toNat * 2 ^ 32 % 2 ^ (32 * (n + 1)) < 2 ^ (32 * (n + 1)) :=
      Nat.mod_lt _ (by positivity)
    rw [← Nat.shiftLeft_eq, hq, hsplit] at hq' ⊢
    have hqlt : q < 2 ^ (32 * n) := by
      refine Nat.lt_of_mul_lt_mul_left (a := 2 ^ 32) ?_
      rw [Nat.mul_comm (2 ^ 32) (2 ^ (32 * n))]
      exact hq'
    have hle : q + 1 ≤ 2 ^ (32 * n) := hqlt
    nlinarith [Nat.mul_le_mul_right (2 ^ 32) hle]
  exact (Nat.mod_eq_of_lt hlt).symm.trans (Nat.mod_add_mod ..)

theorem topWord_toNat {n : ℕ} (r : BitVec (32 * (n + 1))) :
    (topWord r).toNat = r.toNat / base ^ n := by
  have hsub : 32 * (n + 1) - 32 = 32 * n := by omega
  have hlt : r.toNat / 2 ^ (32 * n) < 2 ^ 32 := by
    refine (Nat.div_lt_iff_lt_mul (by positivity)).mpr (lt_of_lt_of_eq r.isLt ?_)
    rw [← pow_add]
    ring_nf
  simp only [topWord, BitVec.toNat_setWidth, BitVec.toNat_ushiftRight, hsub]
  rw [Nat.shiftRight_eq_div_pow, Nat.mod_eq_of_lt hlt, base, pow_mul]

theorem shiftIn_1024 (r : BitVec 1024) (w : Word) :
    (shiftIn r w).toNat = r.toNat / base + w.toNat * base ^ 31 := shiftIn_toNat (n := 31) r w

theorem shiftIn_2048 (r : BitVec 2048) (w : Word) :
    (shiftIn r w).toNat = r.toNat / base + w.toNat * base ^ 63 := shiftIn_toNat (n := 63) r w

theorem shiftUp_1024 (r : BitVec 1024) (w : Word) :
    (shiftUp r w).toNat = (r.toNat * base + w.toNat) % base ^ 32 := shiftUp_toNat (n := 31) r w

theorem topWord_1024 (r : BitVec 1024) : (topWord r).toNat = r.toNat / base ^ 31 :=
  topWord_toNat (n := 31) r

theorem lt_base_1024 (r : BitVec 1024) : r.toNat < base ^ 32 := toNat_lt_base_pow (n := 32) r

theorem lt_base_2048 (r : BitVec 2048) : r.toNat < base ^ 64 := toNat_lt_base_pow (n := 64) r

/-! ### Add1024, Sub1024, Sub2048 -/

/-- Registers of the serial adder and subtractors. -/
structure SerialUnit (w : ℕ) where
  step : BitVec w
  carry : Bool
  oFinish : Bool
  deriving DecidableEq

/-- One clock of the counter, the carry and the finish flag; `last` is the step
constant of the module. -/
def SerialUnit.next {w : ℕ} (last : BitVec w) (u : SerialUnit w) (iEnable carry : Bool) :
    SerialUnit w :=
  if !iEnable then ⟨0, false, false⟩
  else ⟨if u.step = last then 0 else u.step + 1, carry, !decide (u.step < last)⟩

/-- `Sum = iX + iY + Carry`, 33 bits. -/
def sum (iX iY : Word) (carry : Bool) : BitVec 33 :=
  iX.setWidth 33 + iY.setWidth 33 + (BitVec.ofBool carry).setWidth 33

/-- `Diff = iX - iY - Carry`, 33 bits. -/
def diff (iX iY : Word) (carry : Bool) : BitVec 33 :=
  iX.setWidth 33 - iY.setWidth 33 - (BitVec.ofBool carry).setWidth 33

abbrev Add1024 := SerialUnit 7
def Add1024.oZ (u : Add1024) (iX iY : Word) : Word := (sum iX iY u.carry).setWidth 32
def Add1024.next (u : Add1024) (iEnable : Bool) (iX iY : Word) : Add1024 :=
  SerialUnit.next 30 u iEnable ((sum iX iY u.carry).getLsbD 32)

abbrev Sub1024 := SerialUnit 7
def Sub1024.oZ (u : Sub1024) (iX iY : Word) : Word := (diff iX iY u.carry).setWidth 32
def Sub1024.next (u : Sub1024) (iEnable : Bool) (iX iY : Word) : Sub1024 :=
  SerialUnit.next 30 u iEnable ((diff iX iY u.carry).getLsbD 32)

abbrev Sub2048 := SerialUnit 8
def Sub2048.oZ (u : Sub2048) (iX iY : Word) : Word := (diff iX iY u.carry).setWidth 32
def Sub2048.next (u : Sub2048) (iEnable : Bool) (iX iY : Word) : Sub2048 :=
  SerialUnit.next 62 u iEnable ((diff iX iY u.carry).getLsbD 32)

/-- After `k` enabled cycles the counter stands at `k` until it wraps with the
finish flag, and the carry is `c`. -/
def SerialUnit.At {w : ℕ} (last : BitVec w) (k : ℕ) (c : Bool) (u : SerialUnit w) : Prop :=
  u.carry = c ∧
    if k ≤ last.toNat then u.step.toNat = k ∧ u.oFinish = false
    else u.step = 0 ∧ u.oFinish = true

theorem SerialUnit.next_disabled {w : ℕ} (last : BitVec w) (u : SerialUnit w) (c : Bool) :
    SerialUnit.next last u false c = ⟨0, false, false⟩ := rfl

theorem SerialUnit.at_start {w : ℕ} (last : BitVec w) :
    SerialUnit.At last 0 false ⟨0, false, false⟩ := by
  simp [SerialUnit.At]

theorem SerialUnit.at_next {w : ℕ} {last : BitVec w} {k : ℕ} {c : Bool} {u : SerialUnit w}
    (hk : k ≤ last.toNat) (h : u.At last k c) (c' : Bool) :
    (SerialUnit.next last u true c').At last (k + 1) c' := by
  obtain ⟨-, h⟩ := h
  rw [if_pos hk] at h
  obtain ⟨hstep, -⟩ := h
  have hlast := last.isLt
  refine ⟨rfl, ?_⟩
  rcases Nat.lt_or_eq_of_le hk with hlt | heq
  · rw [if_pos (by omega)]
    have hne : u.step ≠ last := by
      rintro rfl
      omega
    refine ⟨?_, ?_⟩
    · simp only [SerialUnit.next, Bool.not_true, Bool.false_eq_true, if_false, if_neg hne]
      exact toNat_add_one hstep (by omega)
    · simp [SerialUnit.next, BitVec.lt_def, hstep, hlt]
  · rw [if_neg (by omega)]
    have hs : u.step = last := BitVec.eq_of_toNat_eq (by omega)
    refine ⟨?_, ?_⟩
    · simp [SerialUnit.next, hs]
    · simp [SerialUnit.next, hs]

theorem SerialUnit.At.finish {w : ℕ} {last : BitVec w} {k : ℕ} {c : Bool} {u : SerialUnit w}
    (h : u.At last k c) : u.oFinish = decide (last.toNat < k) := by
  obtain ⟨-, h⟩ := h
  split at h
  · rw [h.2]
    simp
    omega
  · rw [h.2]
    simp
    omega

theorem sum_toNat (x y : Word) (c : Bool) : (sum x y c).toNat = x.toNat + y.toNat + c.toNat := by
  have hx := x.isLt
  have hy := y.isLt
  have hc := c.toNat_le
  simp only [sum, BitVec.toNat_add, BitVec.toNat_setWidth, BitVec.toNat_ofBool]
  omega

theorem sum_digit (x y : Word) (c : Bool) :
    ((sum x y c).setWidth 32).toNat = (x.toNat + y.toNat + c.toNat) % base ∧
    ((sum x y c).getLsbD 32).toNat = (x.toNat + y.toNat + c.toNat) / base := by
  have hx := x.isLt
  have hy := y.isLt
  have hc := c.toNat_le
  refine ⟨?_, ?_⟩
  · rw [BitVec.toNat_setWidth, sum_toNat, base]
  · rw [BitVec.getLsbD, sum_toNat, Nat.testBit_eq_decide_div_mod_eq]
    show (decide ((x.toNat + y.toNat + c.toNat) / 2 ^ 32 % 2 = 1)).toNat = _ / 2 ^ 32
    by_cases h : 2 ^ 32 ≤ x.toNat + y.toNat + c.toNat
    · have hq : (x.toNat + y.toNat + c.toNat) / 2 ^ 32 = 1 := by omega
      rw [hq]
      rfl
    · have hq : (x.toNat + y.toNat + c.toNat) / 2 ^ 32 = 0 := by omega
      rw [hq]
      rfl

theorem diff_digit (x y : Word) (c : Bool) :
    ((diff x y c).setWidth 32).toNat + y.toNat + c.toNat =
      x.toNat + ((diff x y c).getLsbD 32).toNat * base := by
  have hx := x.isLt
  have hy := y.isLt
  have hc := c.toNat_le
  have hd : (diff x y c).toNat = (x.toNat + 2 ^ 33 - y.toNat - c.toNat) % 2 ^ 33 := by
    simp only [diff, BitVec.toNat_sub, BitVec.toNat_setWidth, BitVec.toNat_ofBool]
    omega
  rw [BitVec.getLsbD, BitVec.toNat_setWidth, hd, Nat.testBit_eq_decide_div_mod_eq]
  by_cases h : y.toNat + c.toNat ≤ x.toNat
  · have hval : (x.toNat + 2 ^ 33 - y.toNat - c.toNat) % 2 ^ 33 = x.toNat - y.toNat - c.toNat := by
      omega
    have hbit : (x.toNat - y.toNat - c.toNat) / 2 ^ 32 = 0 := by omega
    rw [hval, hbit]
    simp
    omega
  · have hval : (x.toNat + 2 ^ 33 - y.toNat - c.toNat) % 2 ^ 33 =
        x.toNat + 2 ^ 33 - y.toNat - c.toNat := by
      omega
    have hbit : (x.toNat + 2 ^ 33 - y.toNat - c.toNat) / 2 ^ 32 = 1 := by omega
    rw [hval, hbit]
    simp [base]
    omega

/-! ### Compare1024, Compare2048 -/

/-- Registers of a serial comparator. -/
structure Comparator (w : ℕ) where
  step : BitVec w
  yLessThanX : Bool
  xLessThanY : Bool
  deriving DecidableEq

/-- One clock of a comparator; `top` is the word count of the module. -/
def Comparator.next {w : ℕ} (top : BitVec w) (u : Comparator w) (iEnable : Bool)
    (iDataX iDataY : Word) : Comparator w :=
  let equal := decide (iDataX = iDataY)
  let xCompareY := decide (iDataX < iDataY)
  if !iEnable then ⟨0, false, false⟩
  else
    let step := if u.step < top then u.step + 1 else 0
    if top ≤ u.step then ⟨step, false, false⟩
    else if equal then ⟨step, u.yLessThanX, u.xLessThanY⟩
    else ⟨step, !xCompareY, xCompareY⟩

/-- `oMode`: 10 for `X < Y`, 01 for `X > Y`, 11 for equality, 00 before the last
word. -/
def Comparator.oMode {w : ℕ} (top : BitVec w) (u : Comparator w) : BitVec 2 :=
  if u.step = top then
    if u.xLessThanY then 0b10 else if u.yLessThanX then 0b01 else 0b11
  else 0b00

abbrev Compare1024 := Comparator 7
def Compare1024.next : Compare1024 → Bool → Word → Word → Compare1024 := Comparator.next 32
def Compare1024.oMode : Compare1024 → BitVec 2 := Comparator.oMode 32

abbrev Compare2048 := Comparator 8
def Compare2048.next : Compare2048 → Bool → Word → Word → Compare2048 := Comparator.next 64
def Compare2048.oMode : Compare2048 → BitVec 2 := Comparator.oMode 64

/-- After `k` enabled cycles the flags compare the low `k` words. -/
def Comparator.At {w : ℕ} (x y k : ℕ) (u : Comparator w) : Prop :=
  u.step.toNat = k ∧ Compared base x y k u.yLessThanX u.xLessThanY

theorem Comparator.next_disabled {w : ℕ} (top : BitVec w) (u : Comparator w) (x y : Word) :
    Comparator.next top u false x y = ⟨0, false, false⟩ := rfl

theorem Comparator.at_start {w : ℕ} (x y : ℕ) :
    Comparator.At x y 0 (⟨0, false, false⟩ : Comparator w) :=
  ⟨rfl, Compared.start base x y⟩

theorem Comparator.at_next {w : ℕ} (top : BitVec w) {x y k : ℕ} {u : Comparator w}
    (hk : k < top.toNat) (h : u.At x y k) (dx dy : Word)
    (hx : dx.toNat = digit base x k) (hy : dy.toNat = digit base y k) :
    (Comparator.next top u true dx dy).At x y (k + 1) := by
  obtain ⟨hstep, hcmp⟩ := h
  have htop := top.isLt
  have hlt : u.step < top := by
    rw [BitVec.lt_def, hstep]
    exact hk
  have hle : ¬ top ≤ u.step := by
    rw [BitVec.le_def, hstep]
    omega
  have hinc : (u.step + 1).toNat = k + 1 := toNat_add_one hstep (by omega)
  have hnext := hcmp.next base_pos
  rw [← hx, ← hy] at hnext
  by_cases heq : dx = dy
  · subst heq
    simp only [if_true] at hnext
    simp only [Comparator.next, hlt, hle, Bool.not_true, Bool.false_eq_true, if_false,
      decide_true, if_true]
    exact ⟨hinc, hnext⟩
  · have hne : dx.toNat ≠ dy.toNat := fun h => heq (BitVec.eq_of_toNat_eq h)
    simp only [hne, if_false] at hnext
    simp only [Comparator.next, hlt, hle, heq, Bool.not_true, Bool.false_eq_true, if_false,
      decide_false, if_true]
    exact ⟨hinc, hnext⟩

theorem Comparator.At.busy {w : ℕ} (top : BitVec w) {x y k : ℕ} {u : Comparator w}
    (hk : k < top.toNat) (h : u.At x y k) : u.oMode top = 0 := by
  have hne : u.step ≠ top := by
    rintro rfl
    have := h.1
    omega
  simp [Comparator.oMode, hne]

theorem Comparator.At.verdict {w n : ℕ} (top : BitVec w) {x y : ℕ} {u : Comparator w}
    (htop : top.toNat = n) (hx : x < base ^ n) (hy : y < base ^ n) (h : u.At x y n) :
    u.oMode top = if x < y then 0b10 else if y < x then 0b01 else 0b11 := by
  obtain ⟨hstep, hgt, hlt⟩ := h
  have hs : u.step = top := BitVec.eq_of_toNat_eq (by omega)
  rw [Nat.mod_eq_of_lt hx, Nat.mod_eq_of_lt hy] at hgt hlt
  simp only [Comparator.oMode, if_pos hs, hgt, hlt]

/-! ### CheckTotalZero, CheckZero2048 -/

/-- The tests `iData[31:n] == 1` from the top bit down. -/
def totalZeroFrom (iData : Word) : ℕ → ℕ
  | 0 => 32
  | n + 1 => if iData >>> n = 1 then 31 - n else totalZeroFrom iData n

/-- `CheckTotalZero`: leading zeros of one word. -/
def checkTotalZero (iData : Word) : BitVec 6 := BitVec.ofNat 6 (totalZeroFrom iData 32)

theorem totalZeroFrom_eq (d : Word) (n : ℕ) (hn : n ≤ 32) (hd : d.toNat < 2 ^ n) :
    totalZeroFrom d n = 32 - d.toNat.size := by
  induction n with
  | zero =>
    have hz : d.toNat = 0 := by simpa using hd
    simp [totalZeroFrom, hz]
  | succ n ih =>
    have hone : d >>> n = 1 ↔ d.toNat / 2 ^ n = 1 := by
      rw [← BitVec.toNat_inj, BitVec.toNat_ushiftRight, Nat.shiftRight_eq_div_pow]
      rfl
    simp only [totalZeroFrom, hone]
    by_cases hlow : d.toNat < 2 ^ n
    · rw [Nat.div_eq_of_lt hlow, if_neg (by omega)]
      exact ih (by omega) hlow
    · have hq : d.toNat / 2 ^ n = 1 := by
        have hpow : (2 : ℕ) ^ (n + 1) = 2 * 2 ^ n := by rw [pow_succ]; ring
        refine Nat.div_eq_of_lt_le ?_ ?_ <;> omega
      have hsize : d.toNat.size = n + 1 := by
        have h1 : d.toNat.size ≤ n + 1 := Nat.size_le.mpr hd
        have h2 : n < d.toNat.size := Nat.lt_size.mpr (by omega)
        omega
      rw [if_pos hq, hsize]
      omega

theorem checkTotalZero_toNat (d : Word) : (checkTotalZero d).toNat = 32 - d.toNat.size := by
  rw [checkTotalZero, totalZeroFrom_eq d 32 le_rfl d.isLt, BitVec.toNat_ofNat]
  exact Nat.mod_eq_of_lt (by omega)

/-- Registers of `CheckZero2048`; `oLength` is a latch. -/
structure CheckZero2048 where
  step : BitVec 8
  enableCheckTotalZero : Bool
  totalZeroX : BitVec 12
  totalZeroY : BitVec 12
  oLength : BitVec 12
  deriving DecidableEq

/-- Update of one running count. -/
def countZero (total : BitVec 12) (pre : BitVec 6) : BitVec 12 :=
  if total = 0 then pre.setWidth 12
  else if pre = 32 then total + pre.setWidth 12
  else pre.setWidth 12

def CheckZero2048.oFinish (u : CheckZero2048) : Bool := decide (u.step = 64)

/-- Settled value of the `oLength` latch in the current cycle. -/
def CheckZero2048.lengthOut (u : CheckZero2048) (iEnable : Bool) : BitVec 12 :=
  if !iEnable then 0
  else if u.step = 64 then u.totalZeroY - u.totalZeroX
  else u.oLength

def CheckZero2048.next (u : CheckZero2048) (iEnable : Bool) (iDataX iDataY : Word) :
    CheckZero2048 :=
  let oLength := u.lengthOut iEnable
  if !iEnable then ⟨0, true, 0, 0, oLength⟩
  else
    { step := if u.step < 65 then u.step + 1 else 0
      enableCheckTotalZero := if u.step = 63 then false else u.enableCheckTotalZero
      totalZeroX :=
        if u.enableCheckTotalZero then countZero u.totalZeroX (checkTotalZero iDataX)
        else u.totalZeroX
      totalZeroY :=
        if u.enableCheckTotalZero then countZero u.totalZeroY (checkTotalZero iDataY)
        else u.totalZeroY
      oLength := oLength }

/-- After `k ≤ 64` enabled cycles the counts cover the low `k` words. -/
def CheckZero2048.At (x y k : ℕ) (u : CheckZero2048) : Prop :=
  u.step.toNat = k ∧ u.enableCheckTotalZero = decide (k < 64) ∧
    u.totalZeroX.toNat = leadingZeros 32 x k ∧ u.totalZeroY.toNat = leadingZeros 32 y k

theorem CheckZero2048.at_start (x y : ℕ) (l : BitVec 12) :
    CheckZero2048.At x y 0 ⟨0, true, 0, 0, l⟩ := by
  simp [CheckZero2048.At, leadingZeros]

theorem leadingZeros_le (w x k : ℕ) : leadingZeros w x k ≤ w * k := Nat.sub_le _ _

theorem leadingZeros_eq {x : ℕ} (hx : x < 2 ^ 2048) : leadingZeros 32 x 64 = 2048 - x.size := by
  have hpow : ((2 : ℕ) ^ 32) ^ 64 = 2 ^ 2048 := by rw [← pow_mul]
  rw [leadingZeros, hpow, Nat.mod_eq_of_lt hx]

theorem countZero_toNat {total : BitVec 12} {x k : ℕ} (hk : k < 64) (d : Word)
    (ht : total.toNat = leadingZeros 32 x k) (hd : d.toNat = digit base x k) :
    (countZero total (checkTotalZero d)).toNat = leadingZeros 32 x (k + 1) := by
  have hz := checkTotalZero_toNat d
  have hle := leadingZeros_le 32 x k
  have hsize : d.toNat.size ≤ 32 := Nat.size_le.mpr d.isLt
  have hpre : ((checkTotalZero d).setWidth 12).toNat = 32 - d.toNat.size := by
    rw [BitVec.toNat_setWidth, hz, Nat.mod_eq_of_lt (by omega)]
  have h32 : checkTotalZero d = 32 ↔ d.toNat = 0 := by
    rw [← BitVec.toNat_inj, hz, ← Nat.size_eq_zero]
    have : (32 : BitVec 6).toNat = 32 := rfl
    omega
  rw [leadingZeros_succ, show digit (2 ^ 32) x k = d.toNat from hd.symm, countZero]
  by_cases hzero : d.toNat = 0
  · rw [if_pos hzero, if_pos (h32.mpr hzero)]
    have hs : d.toNat.size = 0 := by rw [hzero]; rfl
    split
    · rename_i h0
      rw [h0] at ht
      simp at ht
      omega
    · rw [BitVec.toNat_add, hpre, ht, Nat.mod_eq_of_lt (by omega)]
      omega
  · rw [if_neg hzero, if_neg (fun h => hzero (h32.mp h))]
    split <;> exact hpre

theorem CheckZero2048.at_next {x y k : ℕ} {u : CheckZero2048} (hk : k < 64) (h : u.At x y k)
    (dx dy : Word) (hx : dx.toNat = digit base x k) (hy : dy.toNat = digit base y k) :
    (u.next true dx dy).At x y (k + 1) := by
  obtain ⟨hstep, hen, htx, hty⟩ := h
  have hlt : u.step < 65 := by
    rw [BitVec.lt_def, hstep]
    exact lt_trans hk (by decide)
  have h63 : u.step = 63 ↔ k = 63 := by
    rw [← BitVec.toNat_inj, hstep]
    rfl
  rw [decide_eq_true hk] at hen
  refine ⟨?_, ?_, ?_, ?_⟩
  · simp only [CheckZero2048.next, Bool.not_true, Bool.false_eq_true, if_false, if_pos hlt]
    exact toNat_add_one hstep (by omega)
  · simp only [CheckZero2048.next, Bool.not_true, Bool.false_eq_true, if_false, h63, hen]
    split <;> simp <;> omega
  · simp only [CheckZero2048.next, Bool.not_true, Bool.false_eq_true, if_false, hen, if_true]
    exact countZero_toNat hk dx htx hx
  · simp only [CheckZero2048.next, Bool.not_true, Bool.false_eq_true, if_false, hen, if_true]
    exact countZero_toNat hk dy hty hy

theorem CheckZero2048.At.finish {x y k : ℕ} {u : CheckZero2048} (h : u.At x y k) :
    u.oFinish = decide (k = 64) := by
  have hiff : u.step = 64 ↔ k = 64 := by
    rw [← BitVec.toNat_inj, h.1]
    rfl
  simp only [CheckZero2048.oFinish, hiff]

theorem CheckZero2048.At.length {x y : ℕ} {u : CheckZero2048} (h : u.At x y 64) :
    (u.lengthOut true).toNat = (leadingZeros 32 y 64 + 2 ^ 12 - leadingZeros 32 x 64) % 2 ^ 12 := by
  have hs : u.step = 64 := BitVec.eq_of_toNat_eq h.1
  have hle := leadingZeros_le 32 x 64
  simp only [CheckZero2048.lengthOut, Bool.not_true, Bool.false_eq_true, if_false, if_pos hs]
  rw [BitVec.toNat_sub, h.2.2.1, h.2.2.2]
  congr 1
  omega

end SocCrypto.Rsa

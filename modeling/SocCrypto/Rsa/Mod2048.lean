import Mathlib.Data.Nat.Prime.Basic
import SocCrypto.Clocked
import SocCrypto.Rsa.Serial
import SocCrypto.ShiftSubtract

/-!
# The reduction engine

`Mod2048.v` with its registers `ModShiftRegX2048.v` and `ModShiftRegY2048.v`: align the
modulus with the operand, then compare, subtract where it fits, and halve the modulus until
it is back in its place.
-/

namespace SocCrypto.Rsa
open WordSerial Clocked ShiftSubtract

/-! ### The machine -/

/-- `State`, in the order 1 to 7. -/
inductive ModState where
  | initial
  | checkZero
  | shiftLeft
  | compare
  | shiftRight
  | sub
  | finish
  deriving DecidableEq

/-- The control outputs, which are latches. -/
structure ModControl where
  regXEnable : Bool
  regYEnable : Bool
  regYMode : BitVec 2
  checkZeroEnable : Bool
  compareEnable : Bool
  subEnable : Bool
  oDataValid : Bool
  regXOutputLoad : Bool
  down : Bool
  deriving DecidableEq

structure Mod2048 where
  state : ModState
  length : BitVec 11
  pos : BitVec 11
  shiftLeftFinish : Bool
  enableXEqualY : Bool
  regX : BitVec 2048
  regY : BitVec 2048
  checkZero : CheckZero2048
  compare : Compare2048
  sub : Sub2048
  latch : ModControl
  deriving DecidableEq

namespace Mod2048

structure In where
  iEnable : Bool
  iLoad : Bool
  iX : BitVec 2048
  iY : BitVec 2048

/-- `RegX_FromX`, `RegY_FromY`. -/
def x (s : Mod2048) : Word := lowWord s.regX
def y (s : Mod2048) : Word := lowWord s.regY

def compareMode (s : Mod2048) : BitVec 2 := Compare2048.oMode s.compare

/-- The settled control outputs of the current cycle. -/
def control (s : Mod2048) : ModControl :=
  match s.state with
  | .initial => ⟨false, false, 0, false, false, false, false, false, false⟩
  | .checkZero =>
    if !s.checkZero.oFinish then
      { s.latch with regXEnable := true, regYEnable := true, checkZeroEnable := true }
    else { s.latch with regXEnable := false, regYEnable := false }
  | .shiftLeft => { s.latch with regYEnable := true, regYMode := 2, checkZeroEnable := false }
  | .compare =>
    if s.compareMode = 0 then
      { s.latch with
        regXEnable := true, regYEnable := true, regYMode := 0, subEnable := false,
        compareEnable := true, down := false }
    else
      { s.latch with
        regXEnable := false, regYEnable := false, regYMode := 0, subEnable := false,
        compareEnable := true, down := false }
  | .shiftRight =>
    { s.latch with
      regXEnable := false, regYEnable := true, regYMode := 1, subEnable := false,
      compareEnable := false, down := true }
  | .sub =>
    { s.latch with
      regXEnable := true, regYEnable := true, regYMode := 0, subEnable := true,
      compareEnable := false }
  | .finish => ⟨false, false, 0, false, false, false, true, true, false⟩

def oDataValid (s : Mod2048) : Bool := s.control.oDataValid
def oZ (s : Mod2048) : BitVec 1024 := if s.control.regXOutputLoad then s.regX.setWidth 1024 else 0

/-- One clock of `ModShiftRegY2048`. -/
def shiftY (r : BitVec 2048) (iMode : BitVec 2) : BitVec 2048 :=
  if iMode = 2 then r <<< 1
  else if iMode = 1 then r >>> 1
  else if iMode = 0 then shiftIn r (lowWord r)
  else r

def next (s : Mod2048) (i : In) : Mod2048 :=
  let o := s.control
  { latch := o
    length :=
      if !i.iEnable then 0
      else if s.checkZero.oFinish then (s.checkZero.lengthOut o.checkZeroEnable).setWidth 11
      else if o.regYMode = 2 then s.length - 1
      else s.length
    pos :=
      if !i.iEnable then 0
      else if s.checkZero.oFinish then (s.checkZero.lengthOut o.checkZeroEnable).setWidth 11 + 1
      else if o.regYMode = 2 then s.pos
      else if o.down then s.pos - 1
      else s.pos
    shiftLeftFinish :=
      if o.regYMode ≠ 2 then false else if s.length = 2 then true else s.shiftLeftFinish
    enableXEqualY :=
      if !i.iEnable then false else if s.compareMode = 3 then true else s.enableXEqualY
    state :=
      if !i.iEnable then .initial
      else
        match s.state with
        | .initial => if i.iLoad then .checkZero else .initial
        | .checkZero => if s.checkZero.oFinish then .shiftLeft else .checkZero
        | .shiftLeft => if s.shiftLeftFinish then .compare else .shiftLeft
        | .compare =>
          if s.compareMode = 3 then .sub
          else if s.compareMode = 2 then .shiftRight
          else if s.compareMode = 1 then .sub
          else .compare
        | .shiftRight => if s.pos = 1 then .finish else .compare
        | .sub => if s.sub.oFinish then if s.enableXEqualY then .finish else .shiftRight else .sub
        | .finish => .initial
    regX :=
      if i.iLoad then i.iX
      else if o.regXEnable then
        shiftIn s.regX (if !o.subEnable then s.x else Sub2048.oZ s.sub s.x s.y)
      else s.regX
    regY :=
      if i.iLoad then i.iY else if o.regYEnable then shiftY s.regY o.regYMode else s.regY
    checkZero := s.checkZero.next o.checkZeroEnable s.x s.y
    compare := Compare2048.next s.compare o.compareEnable s.x s.y
    sub := Sub2048.next s.sub o.subEnable s.x s.y }

/-! ### Phases of a reduction

`InCheck`, `InShift`, `InCompare`, `InSub`, `AtHalve` and `Done` follow one reduction. `e` is
the flag that ends it after the next subtraction: it comes up when the operands are found
equal, and is up from the start when the load pulse finds the comparator in that state. -/

/-- Inputs of the cycles after the load pulse. -/
def hold (i : In) : Prop := i.iEnable = true ∧ i.iLoad = false

def quiet (s : Mod2048) (_ : In) : Prop := s.oDataValid = false

/-- Cycle `k` of the pass through `CheckZero2048`. -/
structure InCheck (e : Bool) (X Y k : ℕ) (s : Mod2048) : Prop where
  state : s.state = .checkZero
  regX : Shifted base 64 X k (X % base ^ k) s.regX.toNat
  regY : Shifted base 64 Y k (Y % base ^ k) s.regY.toNat
  counts : s.checkZero.At X Y k
  latched : 0 < k → s.latch.checkZeroEnable = true
  mode : s.latch.regYMode = 0
  noSub : s.latch.subEnable = false
  noDown : s.latch.down = false
  valid : s.latch.oDataValid = false
  equal : s.enableXEqualY = e
  compareOff : s.latch.compareEnable = false
  compare : s.compare.step = 0

/-- Shift `j` of the `J` shifts to the left. -/
structure InShift (e : Bool) (X Y J j : ℕ) (s : Mod2048) : Prop where
  state : s.state = .shiftLeft
  regX : s.regX.toNat = X
  regY : s.regY.toNat = Y * 2 ^ j % 2 ^ 2048
  length : s.length.toNat = (J - j) % 2048
  finish : s.shiftLeftFinish = decide (j + 1 = J)
  pos : s.pos.toNat = (J + 1) % 2048
  counted : s.checkZero.oFinish = false
  kept : s.latch.regXEnable = false
  valid : s.latch.oDataValid = false
  equal : s.enableXEqualY = e
  compareOff : s.latch.compareEnable = false
  compare : s.compare.step = 0

/-- What stays put after the alignment. -/
structure Aligned (s : Mod2048) : Prop where
  counted : s.checkZero.oFinish = false
  noCheck : s.latch.checkZeroEnable = false
  valid : s.latch.oDataValid = false

/-- Cycle `k` of a comparison; `p` halvings are to come. -/
structure InCompare (e : Bool) (x y p k : ℕ) (s : Mod2048) : Prop where
  state : s.state = .compare
  regX : Shifted base 64 x k (x % base ^ k) s.regX.toNat
  regY : Shifted base 64 y k (y % base ^ k) s.regY.toNat
  compare : s.compare.At x y k
  pos : s.pos.toNat = p
  aligned : s.Aligned
  equal : s.enableXEqualY = e

/-- Cycle `k` of a subtraction. -/
structure InSub (e : Bool) (x y p k out : ℕ) (s : Mod2048) : Prop where
  state : s.state = .sub
  regX : Shifted base 64 x k out s.regX.toNat
  regY : Shifted base 64 y k (y % base ^ k) s.regY.toNat
  sub : ∃ c, s.sub.At 62 k c ∧ Subbed base x y k out c.toNat
  noDown : s.latch.down = false
  pos : s.pos.toNat = p
  aligned : s.Aligned
  equal : s.enableXEqualY = e
  compare : s.compare.step = 0

/-- The modulus is about to be halved. -/
structure AtHalve (e : Bool) (x y p : ℕ) (s : Mod2048) : Prop where
  state : s.state = .shiftRight
  regX : s.regX.toNat = x
  regY : s.regY.toNat = y
  pos : s.pos.toNat = p
  aligned : s.Aligned
  equal : s.enableXEqualY = e
  compare : s.compare.step = 0

/-- The valid cycle. -/
structure Done (z : ℕ) (s : Mod2048) : Prop where
  state : s.state = .finish
  valid : s.oDataValid = true
  z : s.oZ.toNat = z % 2 ^ 1024

section
variable {e : Bool} {X Y : ℕ} {s : Mod2048} {i : In}

theorem compareMode_zero (h : s.compare.step = 0) : s.compareMode = 0 := by
  simp [compareMode, Compare2048.oMode, Comparator.oMode, h]

theorem rotate_2048 {r : BitVec 2048} {x k : ℕ} (hk : k < 64)
    (h : Shifted base 64 x k (x % base ^ k) r.toNat) :
    Shifted base 64 x (k + 1) (x % base ^ (k + 1)) (shiftIn r (lowWord r)).toNat := by
  rw [shiftIn_2048, lowWord_toNat]
  exact h.rotate base_pos hk

theorem word_of_shifted {r : BitVec 2048} {x k out : ℕ} (hk : k < 64)
    (h : Shifted base 64 x k out r.toNat) : (lowWord r).toNat = digit base x k := by
  rw [lowWord_toNat]
  exact h.low hk

theorem compare_off (u : Compare2048) (a b : Word) :
    Compare2048.next u false a b = ⟨0, false, false⟩ := rfl

theorem checkZero_off (u : CheckZero2048) (a b : Word) : (u.next false a b).oFinish = false := rfl

theorem inCheck_of_load (hs : s.state = .initial) (hequal : s.enableXEqualY = false)
    (he : i.iEnable = true) (hl : i.iLoad = true) :
    InCheck (decide (s.compareMode = 3)) i.iX.toNat i.iY.toNat 0 (s.next i) := by
  constructor
  case regX =>
    simpa [next, hl, Nat.mod_one] using Shifted.start base 64 i.iX.toNat
  case regY =>
    simpa [next, hl, Nat.mod_one] using Shifted.start base 64 i.iY.toNat
  case counts =>
    have hgoal : (s.next i).checkZero = ⟨0, true, 0, 0, s.checkZero.lengthOut false⟩ := by
      simp [next, control, hs, CheckZero2048.next]
    rw [hgoal]
    exact CheckZero2048.at_start _ _ _
  case latched => exact fun h0 => absurd h0 (lt_irrefl 0)
  case equal =>
    simp only [next, he, hequal, Bool.not_true, Bool.false_eq_true, if_false]
    by_cases hmode : s.compareMode = 3 <;> simp [hmode]
  all_goals simp [next, control, hs, he, hl, compare_off]

theorem inCheck_next {k : ℕ} (hk : k < 64) (h : InCheck e X Y k s) (hi : hold i) :
    InCheck e X Y (k + 1) (s.next i) := by
  obtain ⟨he, hl⟩ := hi
  have hmode := compareMode_zero h.compare
  have hfin : s.checkZero.oFinish = false := by
    rw [h.counts.finish]
    exact decide_eq_false (by omega)
  constructor
  case regX => simpa [next, control, h.state, hfin, hl, h.noSub, x] using rotate_2048 hk h.regX
  case regY =>
    simpa [next, control, h.state, hfin, hl, h.mode, shiftY] using rotate_2048 hk h.regY
  case counts =>
    have hnext := CheckZero2048.at_next hk h.counts s.x s.y (word_of_shifted hk h.regX)
      (word_of_shifted hk h.regY)
    simpa [next, control, h.state, hfin] using hnext
  all_goals simp [next, control, h.state, hfin, he, hmode, h.mode, h.noSub, h.noDown, h.valid,
    h.equal, h.compareOff, compare_off]

/-- Shifts to the left. The end test of the loop is for a length of 2, which a length
below 2 reaches after it has wrapped. -/
def shifts (X Y : ℕ) : ℕ :=
  ((leadingZeros 32 Y 64 + 2 ^ 12 - leadingZeros 32 X 64) % 2 ^ 12 + 2046) % 2048 + 2

theorem inShift_of_inCheck (hX : X < base ^ 64) (hY : Y < base ^ 64) (h : InCheck e X Y 64 s)
    (hi : hold i) : InShift e X Y (shifts X Y) 0 (s.next i) := by
  obtain ⟨he, hl⟩ := hi
  have hmode := compareMode_zero h.compare
  have hfin : s.checkZero.oFinish = true := by
    rw [h.counts.finish]
    rfl
  have hlatch := h.latched (by omega)
  have hlength := h.counts.length
  have hle := leadingZeros_le 32 X 64
  have hL : ((s.checkZero.lengthOut true).setWidth 11).toNat = shifts X Y % 2048 := by
    rw [BitVec.toNat_setWidth, hlength, shifts]
    omega
  constructor
  case regX =>
    simpa [next, control, h.state, hfin, hl] using h.regX.rotate_full hX
  case regY =>
    have hy := h.regY.rotate_full hY
    have hlt : Y < 2 ^ 2048 := by
      rwa [base, ← pow_mul] at hY
    have hgoal : (s.next i).regY = s.regY := by simp [next, control, h.state, hfin, hl]
    rw [hgoal, hy, pow_zero, Nat.mul_one, Nat.mod_eq_of_lt hlt]
  case length =>
    simpa [next, control, h.state, hfin, he, hlatch] using hL
  case pos =>
    have hgoal : (s.next i).pos = (s.checkZero.lengthOut true).setWidth 11 + 1 := by
      simp [next, control, h.state, hfin, he, hlatch]
    have hone : (1 : BitVec 11).toNat = 1 := rfl
    rw [hgoal, BitVec.toNat_add, hL, hone, Nat.mod_add_mod]
  case finish =>
    have hgoal : (s.next i).shiftLeftFinish = false := by
      simp [next, control, h.state, hfin, h.mode]
    rw [hgoal]
    refine (decide_eq_false ?_).symm
    rw [shifts]
    omega
  case counted =>
    have hstep : s.checkZero.step = 64 := of_decide_eq_true hfin
    simp [next, control, h.state, hlatch, CheckZero2048.next, CheckZero2048.oFinish, hstep]
  all_goals simp [next, control, h.state, hfin, he, hmode, h.valid, h.equal, h.compareOff,
    compare_off]

theorem inShift_next {J j : ℕ} (hJ : J ≤ 2049) (hj : j + 1 < J) (h : InShift e X Y J j s)
    (hi : hold i) : InShift e X Y J (j + 1) (s.next i) := by
  obtain ⟨he, hl⟩ := hi
  have hmode := compareMode_zero h.compare
  constructor
  case regY =>
    have hgoal : (s.next i).regY = s.regY <<< 1 := by simp [next, control, h.state, hl, shiftY]
    rw [hgoal, BitVec.toNat_shiftLeft, h.regY, Nat.shiftLeft_eq, Nat.mod_mul_mod, pow_one,
      pow_succ 2 j, Nat.mul_assoc]
  case length =>
    have hgoal : (s.next i).length = s.length - 1 := by
      simp [next, control, h.state, he, h.counted]
    have hone : (1 : BitVec 11).toNat = 1 := rfl
    rw [hgoal, BitVec.toNat_sub, h.length, hone]
    omega
  case finish =>
    have hold' : s.shiftLeftFinish = false := h.finish.trans (decide_eq_false (by omega))
    have htwo : s.length = 2 ↔ (J - j) % 2048 = 2 := eq_ofNat_iff h.length (by decide)
    have hgoal : (s.next i).shiftLeftFinish = if s.length = 2 then true else false := by
      simp [next, control, h.state, hold']
    rw [hgoal]
    by_cases hlast : s.length = 2
    · rw [if_pos hlast]
      refine (decide_eq_true ?_).symm
      have := htwo.mp hlast
      omega
    · rw [if_neg hlast]
      refine (decide_eq_false ?_).symm
      intro heq
      exact hlast (htwo.mpr (by omega))
  case state =>
    have hold' : s.shiftLeftFinish = false := h.finish.trans (decide_eq_false (by omega))
    simp [next, he, h.state, hold']
  all_goals simp [next, control, h.state, he, hl, hmode, h.regX, h.pos, h.counted, h.kept,
    h.valid, h.equal, h.compareOff, compare_off, checkZero_off]

theorem inCompare_of_inShift {J j : ℕ} (hj : j + 1 = J) (h : InShift e X Y J j s) (hi : hold i) :
    InCompare e X (Y * 2 ^ J % 2 ^ 2048) ((J + 1) % 2048) 0 (s.next i) := by
  obtain ⟨he, hl⟩ := hi
  have hmode := compareMode_zero h.compare
  have hfinish : s.shiftLeftFinish = true := h.finish.trans (decide_eq_true hj)
  constructor
  case regX =>
    have hgoal : (s.next i).regX.toNat = X := by
      simp [next, control, h.state, hl, h.kept, h.regX]
    rw [hgoal, pow_zero, Nat.mod_one]
    exact Shifted.start base 64 X
  case regY =>
    have hgoal : (s.next i).regY = s.regY <<< 1 := by simp [next, control, h.state, hl, shiftY]
    have hval : (s.next i).regY.toNat = Y * 2 ^ J % 2 ^ 2048 := by
      rw [hgoal, BitVec.toNat_shiftLeft, h.regY, Nat.shiftLeft_eq, Nat.mod_mul_mod, pow_one, ← hj,
        pow_succ 2 j, Nat.mul_assoc]
    rw [hval, pow_zero, Nat.mod_one]
    exact Shifted.start base 64 _
  case compare =>
    have hgoal : (s.next i).compare = ⟨0, false, false⟩ := by
      simp [next, control, h.state, h.compareOff, compare_off]
    rw [hgoal]
    exact Comparator.at_start X _
  case aligned =>
    constructor <;> simp [next, control, h.state, h.valid, checkZero_off]
  all_goals simp [next, control, h.state, he, hfinish, hmode, h.pos, h.counted, h.equal]

theorem aligned_next (hcheck : s.control.checkZeroEnable = false)
    (hvalid : s.control.oDataValid = false) (i : In) : (s.next i).Aligned := by
  constructor <;> simp [next, hcheck, hvalid, checkZero_off]

theorem inCompare_next {x y p k : ℕ} (hk : k < 64) (h : InCompare e x y p k s) (hi : hold i) :
    InCompare e x y p (k + 1) (s.next i) := by
  obtain ⟨he, hl⟩ := hi
  have hmode : s.compareMode = 0 := Comparator.At.busy (64 : BitVec 8) hk h.compare
  constructor
  case regX =>
    simpa [next, control, h.state, hmode, hl, Mod2048.x] using rotate_2048 hk h.regX
  case regY => simpa [next, control, h.state, hmode, hl, shiftY] using rotate_2048 hk h.regY
  case compare =>
    have hnext := Comparator.at_next (64 : BitVec 8) hk h.compare s.x s.y
      (word_of_shifted hk h.regX) (word_of_shifted hk h.regY)
    simpa [next, control, h.state, hmode, Compare2048.next] using hnext
  case aligned =>
    exact aligned_next (by simp [control, h.state, hmode, h.aligned.noCheck])
      (by simp [control, h.state, hmode, h.aligned.valid]) i
  all_goals simp [next, control, h.state, he, hmode, h.pos, h.equal, h.aligned.counted]

theorem compareMode_verdict {x y p : ℕ} (hx : x < base ^ 64) (hy : y < base ^ 64)
    (h : InCompare e x y p 64 s) :
    s.compareMode = if x < y then 2 else if y < x then 1 else 3 :=
  Comparator.At.verdict (64 : BitVec 8) rfl hx hy h.compare

theorem compare_wraps {x y p : ℕ} (h : InCompare e x y p 64 s) (a b : Word) :
    (Compare2048.next s.compare true a b).step = 0 := by
  have hstep : s.compare.step = 64 := BitVec.eq_of_toNat_eq h.compare.1
  simp [Compare2048.next, Comparator.next, hstep]

theorem atHalve_of_inCompare {x y p : ℕ} (hx : x < base ^ 64) (hy : y < base ^ 64) (hlt : x < y)
    (h : InCompare e x y p 64 s) (hi : hold i) : AtHalve e x y p (s.next i) := by
  obtain ⟨he, hl⟩ := hi
  have hmode : s.compareMode = 2 := by rw [compareMode_verdict hx hy h, if_pos hlt]
  constructor
  case regX => simpa [next, control, h.state, hmode, hl] using h.regX.rotate_full hx
  case regY => simpa [next, control, h.state, hmode, hl] using h.regY.rotate_full hy
  case compare => simpa [next, control, h.state, hmode] using compare_wraps h s.x s.y
  case aligned =>
    exact aligned_next (by simp [control, h.state, hmode, h.aligned.noCheck])
      (by simp [control, h.state, hmode, h.aligned.valid]) i
  all_goals simp [next, control, h.state, he, hmode, h.pos, h.equal, h.aligned.counted]

theorem inSub_of_inCompare {x y p : ℕ} (hx : x < base ^ 64) (hy : y < base ^ 64) (hle : y ≤ x)
    (h : InCompare e x y p 64 s) (hi : hold i) :
    InSub (e || decide (x = y)) x y p 0 0 (s.next i) := by
  obtain ⟨he, hl⟩ := hi
  have hmode : s.compareMode = if x = y then 3 else 1 := by
    rw [compareMode_verdict hx hy h, if_neg (by omega)]
    by_cases heq : x = y
    · rw [if_neg (by omega), if_pos heq]
    · rw [if_pos (by omega), if_neg heq]
  have hne : s.compareMode ≠ 0#2 := by
    rw [hmode]
    split <;> decide
  have hsub : s.control.subEnable = false := by simp [control, h.state, hne]
  constructor
  case regX =>
    have hval : (s.next i).regX.toNat = x := by
      simpa [next, control, h.state, hne, hl] using h.regX.rotate_full hx
    rw [hval]
    exact Shifted.start base 64 x
  case regY =>
    have hval : (s.next i).regY.toNat = y := by
      simpa [next, control, h.state, hne, hl] using h.regY.rotate_full hy
    rw [hval, pow_zero, Nat.mod_one]
    exact Shifted.start base 64 y
  case sub =>
    refine ⟨false, ?_, Subbed.start base x y⟩
    have hgoal : (s.next i).sub = ⟨0, false, false⟩ := by
      simp [next, hsub, Sub2048.next, SerialUnit.next]
    rw [hgoal]
    exact SerialUnit.at_start 62
  case compare => simpa [next, control, h.state, hne] using compare_wraps h s.x s.y
  case aligned =>
    exact aligned_next (by simp [control, h.state, hne, h.aligned.noCheck])
      (by simp [control, h.state, hne, h.aligned.valid]) i
  case state =>
    by_cases heq : x = y <;> simp [next, he, h.state, hmode, heq]
  case equal =>
    by_cases heq : x = y <;> simp [next, he, hmode, heq, h.equal]
  all_goals simp [next, control, h.state, he, hne, h.pos, h.aligned.counted]

theorem inSub_digit {x y p k out : ℕ} {c : Bool} (hk : k < 64) (h : InSub e x y p k out s)
    (hc : s.sub.carry = c) (hsub : Subbed base x y k out c.toNat) :
    Subbed base x y (k + 1) (out + (Sub2048.oZ s.sub s.x s.y).toNat * base ^ k)
      ((diff s.x s.y s.sub.carry).getLsbD 32).toNat := by
  have hd := diff_digit s.x s.y s.sub.carry
  refine hsub.next ?_
  rw [← word_of_shifted hk h.regX, ← word_of_shifted hk h.regY, ← hc]
  exact hd

theorem inSub_next {x y p k out : ℕ} (hk : k < 63) (h : InSub e x y p k out s) (hi : hold i) :
    ∃ out', InSub e x y p (k + 1) out' (s.next i) := by
  obtain ⟨he, hl⟩ := hi
  obtain ⟨c, hat, hsub⟩ := h.sub
  have hmode := compareMode_zero h.compare
  have hfin : s.sub.oFinish = false := by
    rw [hat.finish]
    exact decide_eq_false (Nat.not_lt.mpr (show k ≤ 62 by omega))
  refine ⟨out + (Sub2048.oZ s.sub s.x s.y).toNat * base ^ k, ?_⟩
  constructor
  case regX =>
    have hnext := h.regX.next base_pos (by omega) (word_lt_base (Sub2048.oZ s.sub s.x s.y))
    rw [← shiftIn_2048] at hnext
    simpa [next, control, h.state, hl] using hnext
  case regY =>
    simpa [next, control, h.state, hl, shiftY] using rotate_2048 (by omega) h.regY
  case sub =>
    refine ⟨(diff s.x s.y s.sub.carry).getLsbD 32, ?_, inSub_digit (by omega) h hat.1 hsub⟩
    have hnext := SerialUnit.at_next (show k ≤ (62 : BitVec 8).toNat from by
      show k ≤ 62
      omega) hat ((diff s.x s.y s.sub.carry).getLsbD 32)
    simpa [next, control, h.state, Sub2048.next] using hnext
  case aligned =>
    exact aligned_next (by simp [control, h.state, h.aligned.noCheck])
      (by simp [control, h.state, h.aligned.valid]) i
  all_goals simp [next, control, h.state, he, hmode, hfin, h.pos, h.noDown, h.equal,
    h.aligned.counted, compare_off]

theorem inSub_last {x y p out : ℕ} (hx : x < base ^ 64) (hy : y < base ^ 64) (hle : y ≤ x)
    (h : InSub e x y p 63 out s) (hi : hold i) :
    (s.next i).regX.toNat = x - y ∧ (s.next i).regY.toNat = y ∧ s.sub.oFinish = true := by
  obtain ⟨he, hl⟩ := hi
  obtain ⟨c, hat, hsub⟩ := h.sub
  have hfin : s.sub.oFinish = true := by
    rw [hat.finish]
    rfl
  refine ⟨?_, ?_, hfin⟩
  · have hnext := h.regX.next base_pos (by omega) (word_lt_base (Sub2048.oZ s.sub s.x s.y))
    have hdiff := inSub_digit (by omega) h hat.1 hsub
    rw [← shiftIn_2048] at hnext
    have hfull := hnext.full hx
    have hlt := hnext.1
    have hval : (s.next i).regX.toNat = out + (Sub2048.oZ s.sub s.x s.y).toNat * base ^ 63 := by
      simpa [next, control, h.state, hl] using hfull
    rw [hval]
    exact hdiff.full_of_le hx hy hle hlt
  · have hy' := rotate_2048 (show 63 < 64 by omega) h.regY
    have hfull := hy'.rotate_full hy
    simpa [next, control, h.state, hl, shiftY] using hfull

theorem atHalve_of_inSub {x y p out : ℕ} (hx : x < base ^ 64) (hy : y < base ^ 64) (hle : y ≤ x)
    (h : InSub false x y p 63 out s) (hi : hold i) : AtHalve false (x - y) y p (s.next i) := by
  obtain ⟨hregX, hregY, hfin⟩ := inSub_last hx hy hle h hi
  obtain ⟨he, hl⟩ := hi
  have hmode := compareMode_zero h.compare
  refine ⟨?_, hregX, hregY, ?_, ?_, ?_, ?_⟩
  case refine_3 =>
    exact aligned_next (by simp [control, h.state, h.aligned.noCheck])
      (by simp [control, h.state, h.aligned.valid]) i
  all_goals simp [next, control, h.state, he, hmode, hfin, h.pos, h.noDown, h.equal,
    h.aligned.counted, compare_off]

theorem done_of_finish (hs : s.state = .finish) : Done s.regX.toNat s := by
  refine ⟨hs, ?_, ?_⟩
  · simp [oDataValid, control, hs]
  · simp [oZ, control, hs]

theorem done_of_inSub {x y p out : ℕ} (hx : x < base ^ 64) (hy : y < base ^ 64) (hle : y ≤ x)
    (h : InSub true x y p 63 out s) (hi : hold i) : Done (x - y) (s.next i) := by
  obtain ⟨hregX, hregY, hfin⟩ := inSub_last hx hy hle h hi
  rw [← hregX]
  exact done_of_finish (by simp [next, hi.1, h.state, hfin, h.equal])

theorem done_of_atHalve {x y : ℕ} (h : AtHalve e x y 1 s) (hi : hold i) : Done x (s.next i) := by
  obtain ⟨he, hl⟩ := hi
  have hpos : s.pos = 1#11 := (eq_ofNat_iff h.pos (by decide)).mpr rfl
  have hregX : (s.next i).regX.toNat = x := by simp [next, control, h.state, hl, h.regX]
  rw [← hregX]
  exact done_of_finish (by simp [next, he, h.state, hpos])

theorem inCompare_of_atHalve {x y p : ℕ} (hp : 1 < p) (h : AtHalve e x y p s) (hi : hold i) :
    InCompare e x (y / 2) (p - 1) 0 (s.next i) := by
  obtain ⟨he, hl⟩ := hi
  have hmode := compareMode_zero h.compare
  have hlt := s.pos.isLt
  rw [h.pos] at hlt
  have hpos : ¬ s.pos = 1#11 := fun heq => by
    have := (eq_ofNat_iff h.pos (by decide)).mp heq
    omega
  constructor
  case regX =>
    have hval : (s.next i).regX.toNat = x := by simp [next, control, h.state, hl, h.regX]
    rw [hval, pow_zero, Nat.mod_one]
    exact Shifted.start base 64 x
  case regY =>
    have hval : (s.next i).regY.toNat = y / 2 := by
      have hgoal : (s.next i).regY = s.regY >>> 1 := by simp [next, control, h.state, hl, shiftY]
      rw [hgoal, BitVec.toNat_ushiftRight, h.regY, Nat.shiftRight_eq_div_pow, pow_one]
    rw [hval, pow_zero, Nat.mod_one]
    exact Shifted.start base 64 _
  case compare =>
    have hgoal : (s.next i).compare = ⟨0, false, false⟩ := by
      simp [next, control, h.state, compare_off]
    rw [hgoal]
    exact Comparator.at_start x _
  case pos =>
    have hgoal : (s.next i).pos = s.pos - 1 := by
      simp [next, control, h.state, he, h.aligned.counted]
    have hone : (1 : BitVec 11).toNat = 1 := rfl
    rw [hgoal, BitVec.toNat_sub, h.pos, hone]
    omega
  case aligned =>
    exact aligned_next (by simp [control, h.state, h.aligned.noCheck])
      (by simp [control, h.state, h.aligned.valid]) i
  all_goals simp [next, he, h.state, hpos, hmode, h.equal]

/-! ### The run of one reduction -/

/-- `Leads` for the reduction engine: quiet until the property holds. -/
abbrev Reaches (Q : Mod2048 → Prop) (n : ℕ) (s : Mod2048) : Prop :=
  Leads next hold quiet Q n s

theorem InCheck.quiet {k : ℕ} (h : InCheck e X Y k s) (i : In) : quiet s i := by
  show s.control.oDataValid = false
  simp only [control, h.state]
  split <;> exact h.valid

theorem InShift.quiet {J j : ℕ} (h : InShift e X Y J j s) (i : In) : Mod2048.quiet s i := by
  show s.control.oDataValid = false
  simp only [control, h.state]
  exact h.valid

theorem InCompare.quiet {x y p k : ℕ} (h : InCompare e x y p k s) (i : In) :
    Mod2048.quiet s i := by
  show s.control.oDataValid = false
  simp only [control, h.state]
  split <;> exact h.aligned.valid

theorem InSub.quiet {x y p k out : ℕ} (h : InSub e x y p k out s) (i : In) :
    Mod2048.quiet s i := by
  show s.control.oDataValid = false
  simp only [control, h.state]
  exact h.aligned.valid

theorem AtHalve.quiet {x y p : ℕ} (h : AtHalve e x y p s) (i : In) : Mod2048.quiet s i := by
  show s.control.oDataValid = false
  simp only [control, h.state]
  exact h.aligned.valid

theorem InCheck.reaches_compare (hX : X < base ^ 64) (hY : Y < base ^ 64)
    (h : InCheck e X Y 0 s) :
    Reaches (InCompare e X (Y * 2 ^ shifts X Y % 2 ^ 2048) ((shifts X Y + 1) % 2048) 0)
      (65 + shifts X Y) s := by
  obtain ⟨J, hJ⟩ : ∃ J, shifts X Y = J + 1 := ⟨shifts X Y - 1, by rw [shifts]; omega⟩
  have hle : J + 1 ≤ 2049 := by
    rw [← hJ, shifts]
    omega
  have hcheck : Reaches (InShift e X Y (shifts X Y) 0) (64 + 1) s := by
    refine Leads.seq (Leads.loop (fun k => InCheck e X Y k) 64 ?_ h) ?_
    · exact fun k hk s i h hi => ⟨h.quiet i, inCheck_next hk h hi⟩
    · exact fun s h i hi => ⟨h.quiet i, inShift_of_inCheck hX hY h hi⟩
  refine hcheck.seq fun s h => ?_
  rw [hJ] at h ⊢
  refine Leads.seq (Leads.loop (fun j => InShift e X Y (J + 1) j) J ?_ h) ?_
  · exact fun j hj s i h hi => ⟨h.quiet i, inShift_next hle (by omega) h hi⟩
  · exact fun s h i hi => ⟨h.quiet i, inCompare_of_inShift rfl h hi⟩

theorem InCompare.reaches_verdict {x y p : ℕ} (h : InCompare e x y p 0 s) :
    Reaches (InCompare e x y p 64) 64 s := by
  refine Leads.loop (fun k => InCompare e x y p k) 64 ?_ h
  exact fun k hk s i h hi => ⟨h.quiet i, inCompare_next hk h hi⟩

theorem InSub.reaches_last {x y p out : ℕ} (h : InSub e x y p 0 out s) :
    Reaches (fun s => ∃ out, InSub e x y p 63 out s) 63 s := by
  refine Leads.loop (fun k s => ∃ out, InSub e x y p k out s) 63 ?_ ⟨out, h⟩
  rintro k hk s i ⟨out, h⟩ hi
  exact ⟨h.quiet i, inSub_next hk h hi⟩

theorem InCompare.reaches_less {x y p : ℕ} (hx : x < base ^ 64) (hy : y < base ^ 64)
    (hlt : x < y) (h : InCompare e x y p 0 s) : Reaches (AtHalve e x y p) 65 s := by
  refine Leads.seq (m := 64) (n := 1) h.reaches_verdict ?_
  exact fun s h i hi => ⟨h.quiet i, atHalve_of_inCompare hx hy hlt h hi⟩

theorem InCompare.reaches_sub {x y p : ℕ} (hx : x < base ^ 64) (hy : y < base ^ 64) (hle : y ≤ x)
    (h : InCompare e x y p 0 s) :
    Reaches (fun s => ∃ out, InSub (e || decide (x = y)) x y p 63 out s) 128 s := by
  refine Leads.seq (m := 64) (n := 64) h.reaches_verdict ?_
  exact fun s h i hi => ⟨h.quiet i, (inSub_of_inCompare hx hy hle h hi).reaches_last⟩

theorem InCompare.reaches_minus {x y p : ℕ} (hx : x < base ^ 64) (hy : y < base ^ 64)
    (hlt : y < x) (h : InCompare false x y p 0 s) : Reaches (AtHalve false (x - y) y p) 129 s := by
  refine Leads.seq (m := 128) (n := 1) (h.reaches_sub hx hy (le_of_lt hlt)) ?_
  rintro s ⟨out, h⟩ i hi
  rw [decide_eq_false (by omega)] at h
  exact ⟨h.quiet i, atHalve_of_inSub hx hy (le_of_lt hlt) h hi⟩

/-- The subtraction that ends the reduction. -/
theorem InCompare.reaches_stop {x y p : ℕ} (hx : x < base ^ 64) (hy : y < base ^ 64) (hle : y ≤ x)
    (hstop : (e || decide (x = y)) = true) (h : InCompare e x y p 0 s) :
    Reaches (Done (x - y)) 129 s := by
  refine Leads.seq (m := 128) (n := 1) (h.reaches_sub hx hy hle) ?_
  rintro s ⟨out, h⟩ i hi
  rw [hstop] at h
  exact ⟨h.quiet i, done_of_inSub hx hy hle h hi⟩

/-- What the engine leaves of `x` when `k` halvings bring the modulus back to `n`. -/
def outcome (e : Bool) (n k x : ℕ) : ℕ := if e then first n k x else reduce n k x

theorem outcome_stop {n k x : ℕ} (hle : n * 2 ^ k ≤ x)
    (hstop : (e || decide (x = n * 2 ^ k)) = true) : outcome e n k x = x - n * 2 ^ k := by
  cases e
  · have heq : x = n * 2 ^ k := by simpa using hstop
    rw [outcome, if_neg Bool.false_ne_true, heq, reduce_exact, Nat.sub_self]
  · rw [outcome, if_pos rfl]
    cases k with
    | zero => rw [first, restore, pow_zero, Nat.mul_one, if_neg (by simpa using hle)]
    | succ k => rw [first, if_neg (Nat.not_lt.mpr hle)]

theorem outcome_less {n k x : ℕ} (hlt : x < n * 2 ^ (k + 1)) :
    outcome e n (k + 1) x = outcome e n k x := by
  simp only [outcome, first, reduce, restore, if_pos hlt]

theorem outcome_zero (n x : ℕ) : outcome e n 0 x = restore x n := by
  simp only [outcome, first, reduce, ite_self]

/-- The loop, with the modulus at `n * 2 ^ k`; its length depends on the numbers only. -/
theorem exists_reaches_done {n : ℕ} (k : ℕ) {x : ℕ} (hx : x < base ^ 64)
    (hn : n * 2 ^ k < base ^ 64) :
    ∃ m, ∀ s, InCompare e x (n * 2 ^ k) (k + 1) 0 s → Reaches (Done (outcome e n k x)) m s := by
  induction k generalizing e x with
  | zero =>
    have hnow : n * 2 ^ 0 = n := by simp
    rw [outcome_zero, restore]
    rw [hnow] at hn ⊢
    rcases Nat.lt_or_ge x n with hlt | hle
    · rw [if_pos hlt]
      exact ⟨65 + 1, fun s h => (h.reaches_less hx hn hlt).seq fun s h i hi =>
        ⟨h.quiet i, done_of_atHalve h hi⟩⟩
    · rw [if_neg (Nat.not_lt.mpr hle)]
      cases hstop : (e || decide (x = n))
      · obtain ⟨rfl, hne⟩ := Bool.or_eq_false_iff.mp hstop
        have hlt : n < x := lt_of_le_of_ne hle fun heq => of_decide_eq_false hne heq.symm
        exact ⟨129 + 1, fun s h => (h.reaches_minus hx hn hlt).seq fun s h i hi =>
          ⟨h.quiet i, done_of_atHalve h hi⟩⟩
      · exact ⟨129, fun s h => h.reaches_stop hx hn hle hstop⟩
  | succ k ih =>
    have hhalf : n * 2 ^ (k + 1) / 2 = n * 2 ^ k := by
      rw [pow_succ, ← Nat.mul_assoc, Nat.mul_div_cancel _ Nat.two_pos]
    have hsmall : n * 2 ^ k < base ^ 64 := by
      rw [← hhalf]
      exact lt_of_le_of_lt (Nat.div_le_self _ _) hn
    -- the halving leads into the round of the smaller multiple
    have hround : ∀ {e : Bool} {x : ℕ}, x < base ^ 64 →
        ∃ m, ∀ s, AtHalve e x (n * 2 ^ (k + 1)) (k + 1 + 1) s →
          Reaches (Done (outcome e n k x)) (m + 1) s := by
      intro e x hx
      obtain ⟨m, hm⟩ := ih (e := e) hx hsmall
      refine ⟨m, fun s h i hi => ⟨h.quiet i, hm _ ?_⟩⟩
      have hnext := inCompare_of_atHalve (by omega) h hi
      rwa [hhalf] at hnext
    rcases Nat.lt_or_ge x (n * 2 ^ (k + 1)) with hlt | hle
    · rw [outcome_less hlt]
      obtain ⟨m, hm⟩ := hround (e := e) hx
      exact ⟨_, fun s h => (h.reaches_less hx hn hlt).seq hm⟩
    · cases hstop : (e || decide (x = n * 2 ^ (k + 1)))
      · obtain ⟨rfl, hne⟩ := Bool.or_eq_false_iff.mp hstop
        have hlt : n * 2 ^ (k + 1) < x :=
          lt_of_le_of_ne hle fun heq => of_decide_eq_false hne heq.symm
        have hless : outcome false n (k + 1) x = outcome false n k (x - n * 2 ^ (k + 1)) := by
          simp only [outcome, Bool.false_eq_true, if_false, reduce, restore,
            if_neg (Nat.not_lt.mpr hle)]
        rw [hless]
        obtain ⟨m, hm⟩ := hround (e := false) (lt_of_le_of_lt (Nat.sub_le x (n * 2 ^ (k + 1))) hx)
        exact ⟨_, fun s h => (h.reaches_minus hx hn hlt).seq hm⟩
      · rw [outcome_stop hle hstop]
        exact ⟨129, fun s h => h.reaches_stop hx hn hle hstop⟩

/-- From the cycle after the load pulse to the valid cycle, with the modulus aligned. -/
theorem exists_reaches {n k : ℕ} (hX : X < base ^ 64) (hY : Y < base ^ 64)
    (haligned : Y * 2 ^ shifts X Y % 2 ^ 2048 = n * 2 ^ k) (hk : (shifts X Y + 1) % 2048 = k + 1) :
    ∃ m, ∀ s, InCheck e X Y 0 s → Reaches (Done (outcome e n k X)) m s := by
  have hpow : (2 : ℕ) ^ 2048 = base ^ 64 := by rw [base, ← pow_mul]
  have hn : n * 2 ^ k < base ^ 64 := by
    rw [← haligned, hpow]
    exact Nat.mod_lt _ (Nat.pow_pos base_pos)
  obtain ⟨m, hm⟩ := exists_reaches_done (e := e) k hX hn
  refine ⟨_, fun s h => (h.reaches_compare hX hY).seq fun s h => hm s ?_⟩
  rwa [haligned, hk] at h

/-! ### The shifts -/

/-- Two or more places: the loop makes as many shifts. -/
theorem shifts_aligned {k : ℕ} (hX : X < 2 ^ 2048) (hY : Y < 2 ^ 2048) (hpos : 0 < X)
    (hsize : X.size = Y.size + k) (hk : 2 ≤ k) : shifts X Y = k := by
  have hx := Nat.size_le.mpr hX
  have hy := Nat.size_le.mpr hY
  have hxpos := Nat.size_pos.mpr hpos
  rw [shifts, leadingZeros_eq hX, leadingZeros_eq hY]
  omega

/-- One place: the loop goes round once too often. -/
theorem shifts_one (hX : X < 2 ^ 2048) (hY : Y < 2 ^ 2048) (hsize : X.size = Y.size + 1) :
    shifts X Y = 2049 := by
  have hx := Nat.size_le.mpr hX
  have hy := Nat.size_le.mpr hY
  rw [shifts, leadingZeros_eq hX, leadingZeros_eq hY]
  omega

/-- The modulus is shifted to the top for operand zero. -/
theorem shifts_zero (hY : Y < 2 ^ 2048) (hpos : 1 < Y.size) (hle : Y.size ≤ 1024) :
    shifts 0 Y = 2048 - Y.size := by
  have hzero : leadingZeros 32 0 64 = 2048 := by rw [leadingZeros_eq (by positivity)]; rfl
  rw [shifts, hzero, leadingZeros_eq hY]
  omega

end

/-! ### The operands of the exponentiation -/

/-- `{A,1024'b0}`; `{1024'b1,1024'b0}` is that of 1. -/
def operand (A : BitVec 1024) : BitVec 2048 := A ++ 0#1024

/-- `{1024'b0,N}`. -/
def modulus (N : BitVec 1024) : BitVec 2048 := 0#1024 ++ N

theorem operand_toNat (A : BitVec 1024) : (operand A).toNat = A.toNat * 2 ^ 1024 := by
  have happ := BitVec.toNat_append A 0#1024
  rw [BitVec.toNat_ofNat, Nat.zero_mod, Nat.or_zero, Nat.shiftLeft_eq] at happ
  exact happ

theorem modulus_toNat (N : BitVec 1024) : (modulus N).toNat = N.toNat := by
  have happ := BitVec.toNat_append 0#1024 N
  rw [BitVec.toNat_ofNat, Nat.zero_mod, Nat.zero_shiftLeft, Nat.zero_or] at happ
  exact happ

/-- What the engine puts out for `X = A * 2 ^ 1024` modulo `N`, with the flag `e` up or not at
the start. -/
def result (e : Bool) (A N X : ℕ) : ℕ :=
  if A = 1 ∧ 2 ^ 1023 ≤ N then X else if e then lessLargest N X else X % N

theorem size_operand {A : ℕ} (hA : 0 < A) : (A * 2 ^ 1024).size = A.size + 1024 := by
  have hsize := size_add_mul (2 ^ 1024) A (by omega) rfl (Nat.two_pow_pos 1024)
  rwa [Nat.zero_add] at hsize

theorem result_zero {e : Bool} {N : ℕ} (h1 : 1 < N) (k : ℕ) :
    outcome e N k 0 = result e 0 N 0 := by
  have hnot : ¬ (0 = 1 ∧ 2 ^ 1023 ≤ N) := fun h => absurd h.1 Nat.zero_ne_one
  rw [outcome, first_zero, reduce_zero, result, if_neg hnot, lessLargest,
    if_pos (Nat.lt_trans Nat.zero_lt_one h1), Nat.zero_mod]

theorem exists_reaches_zero (e : Bool) {N : ℕ} (hN : N < 2 ^ 1024) (h1 : 1 < N) :
    ∃ m, ∀ s, InCheck e 0 N 0 s → Reaches (Done (result e 0 N 0)) m s := by
  have hnsize : N.size ≤ 1024 := Nat.size_le.mpr hN
  have hnpos : 1 < N.size := Nat.lt_size.mpr (by omega)
  have hY : N < 2 ^ 2048 := lt_trans hN (Nat.pow_lt_pow_right Nat.one_lt_two (by omega))
  have hshifts := shifts_zero hY hnpos hnsize
  have hfit : N * 2 ^ (2048 - N.size) < 2 ^ 2048 := mul_pow_lt (by omega)
  have hY' : N < base ^ 64 := by rwa [base, ← pow_mul]
  rw [← result_zero h1 (2048 - N.size)]
  refine exists_reaches (Nat.pow_pos base_pos) hY' ?_ ?_
  · rw [hshifts, Nat.mod_eq_of_lt hfit]
  · rw [hshifts]
    omega

/-- An operand with its top bit `k` places above that of the modulus. -/
theorem exists_reaches_pos (e : Bool) {A N X k : ℕ} (hX : X < 2 ^ 2048) (hN : N < 2 ^ 1024)
    (h1 : 1 < N) (hA : 0 < A) (hsize : X.size = A.size + 1024) (hk : A.size + 1024 = N.size + k) :
    ∃ m, ∀ s, InCheck e X N 0 s → Reaches (Done (result e A N X)) m s := by
  have hY : N < 2 ^ 2048 := lt_trans hN (Nat.pow_lt_pow_right Nat.one_lt_two (by omega))
  have hX' : X < base ^ 64 := by rwa [base, ← pow_mul]
  have hY' : N < base ^ 64 := by rwa [base, ← pow_mul]
  have hxsize : X.size ≤ 2048 := Nat.size_le.mpr hX
  have hnsize : N.size ≤ 1024 := Nat.size_le.mpr hN
  have hnpos : 1 < N.size := Nat.lt_size.mpr (by omega)
  have hapos : 0 < A.size := Nat.size_pos.mpr hA
  rcases Nat.lt_or_ge k 2 with hone | htwo
  · -- one place: `A = 1` and the top bit of `N` is up
    have hk1 : k = 1 := by omega
    subst hk1
    have hA1 : A = 1 := by
      have hlt : A < 2 ^ 1 := Nat.size_le.mp (by omega)
      omega
    have hNtop : 2 ^ 1023 ≤ N := Nat.lt_size.mp (by omega)
    have hshifts := shifts_one hX hY (hsize.trans hk)
    have hall : outcome e 0 1 X = result e A N X := by
      rw [outcome, first_by_zero, reduce_by_zero, ite_self, result, if_pos ⟨hA1, hNtop⟩]
    rw [← hall]
    refine exists_reaches hX' hY' ?_ ?_
    · rw [hshifts, pow_succ 2 2048, ← Nat.mul_assoc, Nat.mul_right_comm, Nat.mul_mod_left,
        Nat.zero_mul]
    · rw [hshifts]
  · have hxpos : 0 < X := Nat.size_pos.mp (by omega)
    have hshifts := shifts_aligned hX hY hxpos (hsize.trans hk) htwo
    have hfit : N * 2 ^ k < 2 ^ 2048 := mul_pow_lt (by omega)
    have hlt := lt_two_mul_of_size (show 0 < N by omega) (hsize.trans hk)
    have hnot : ¬ (A = 1 ∧ 2 ^ 1023 ≤ N) := by
      rintro ⟨rfl, htop⟩
      have h1023 : 1023 < N.size := Nat.lt_size.mpr htop
      have h1size : (1 : ℕ).size = 1 := Nat.size_one
      omega
    have hboth : outcome e N k X = result e A N X := by
      rw [outcome, first_eq (by omega) hlt, reduce_eq_mod hlt, result, if_neg hnot]
    rw [← hboth]
    refine exists_reaches hX' hY' ?_ ?_
    · rw [hshifts, Nat.mod_eq_of_lt hfit]
    · rw [hshifts]
      omega

theorem exists_reaches_result (e : Bool) {A N X : ℕ} (hX : X = A * 2 ^ 1024) (hA : A < 2 ^ 1024)
    (hN : N < 2 ^ 1024) (h1 : 1 < N) :
    ∃ m, ∀ s, InCheck e X N 0 s → Reaches (Done (result e A N X)) m s := by
  have hlt : X < 2 ^ 2048 := by
    have hpow : (2 : ℕ) ^ 2048 = 2 ^ 1024 * 2 ^ 1024 := by rw [← pow_add]
    rw [hX, hpow]
    exact Nat.mul_lt_mul_of_pos_right hA (Nat.two_pow_pos 1024)
  have hnsize : N.size ≤ 1024 := Nat.size_le.mpr hN
  rcases Nat.eq_zero_or_pos A with rfl | hpos
  · have hX0 : X = 0 := by rw [hX, Nat.zero_mul]
    rw [hX0]
    exact exists_reaches_zero e hN h1
  · have hsize : X.size = A.size + 1024 := by rw [hX, size_operand hpos]
    exact exists_reaches_pos e hlt hN h1 hpos hsize (k := A.size + 1024 - N.size) (by omega)

/-! ### Runs -/

/-- A load pulse with `X` and `Y`, then kept enabled. -/
structure Loads (X Y : BitVec 2048) (i : ℕ → In) : Prop where
  enable : (i 0).iEnable = true
  load : (i 0).iLoad = true
  x : (i 0).iX = X
  y : (i 0).iY = Y
  held : ∀ t, hold (i (t + 1))

/-- Whatever the other inputs, the first valid cycle puts out `X` modulo `Y`. -/
def Reduces (s : Mod2048) (X Y : BitVec 2048) : Prop :=
  ∀ i, Loads X Y i → ∃ T, (∀ t < T, (run next s i t).oDataValid = false) ∧
    (run next s i T).oDataValid = true ∧ (run next s i T).oZ.toNat = X.toNat % Y.toNat

/-- The comparator holds its verdict for equal operands: the aborted reduction was at the
last word of a comparison. -/
def StaleEqual (s : Mod2048) : Prop := s.compareMode = 3

/-- The last word of two equal operands, whether the engine is enabled in that cycle or not. -/
theorem staleEqual_of_inCompare {e : Bool} {x p : ℕ} {s : Mod2048} (hx : x < base ^ 64)
    (h : InCompare e x x p 63 s) (i : In) : StaleEqual (s.next i) := by
  have hmode : s.compareMode = 0 :=
    Comparator.At.busy (64 : BitVec 8) (show 63 < 64 by omega) h.compare
  have hlast := Comparator.at_next (64 : BitVec 8) (show 63 < 64 by omega) h.compare s.x s.y
    (word_of_shifted (by omega) h.regX) (word_of_shifted (by omega) h.regY)
  have hcompare : (s.next i).compare = Comparator.next 64 s.compare true s.x s.y := by
    simp [next, control, h.state, hmode, Compare2048.next]
  have hverdict := Comparator.At.verdict (64 : BitVec 8) rfl hx hx hlast
  rw [if_neg (lt_irrefl x), if_neg (lt_irrefl x)] at hverdict
  rw [StaleEqual, compareMode, hcompare]
  exact hverdict

theorem InCheck.reaches_word {e : Bool} {X Y k : ℕ} {s : Mod2048} (hX : X < base ^ 64)
    (hY : Y < base ^ 64) (hk : k ≤ 64) (h : InCheck e X Y 0 s) :
    Reaches (InCompare e X (Y * 2 ^ shifts X Y % 2 ^ 2048) ((shifts X Y + 1) % 2048) k)
      (65 + shifts X Y + k) s := by
  refine (h.reaches_compare hX hY).seq fun s h => ?_
  refine Leads.loop (fun k => InCompare e X (Y * 2 ^ shifts X Y % 2 ^ 2048)
    ((shifts X Y + 1) % 2048) k) k ?_ h
  exact fun j hj s i h hi => ⟨h.quiet i, inCompare_next (by omega) h hi⟩

/-- The cycle of the load pulse and the cycles up to the valid one. -/
theorem run_done {s : Mod2048} {X Y : BitVec 2048} {z m : ℕ} (hs : s.state = .initial)
    (hequal : s.enableXEqualY = false) {i : ℕ → In} (hi : Loads X Y i)
    (hm : ∀ s', InCheck (decide (s.compareMode = 3)) X.toNat Y.toNat 0 s' →
      Reaches (Done z) m s') :
    (∀ t < m + 1, (run next s i t).oDataValid = false) ∧ Done z (run next s i (m + 1)) := by
  have hload := inCheck_of_load hs hequal hi.enable hi.load
  rw [hi.x, hi.y] at hload
  refine Leads.run_cons i ?_ (hm _ hload) fun t _ => hi.held t
  show s.control.oDataValid = false
  simp [control, hs]

theorem next_low (s : Mod2048) {low : In} (hlow : low.iEnable = false) :
    (s.next low).state = .initial ∧ (s.next low).enableXEqualY = false := by
  constructor <;> simp [next, hlow]

/-- The first valid cycle is the only one that can be meant. -/
theorem reduces_of_result {s : Mod2048} {A N : BitVec 1024} (hs : s.state = .initial)
    (hequal : s.enableXEqualY = false) (h1 : 1 < N.toNat) :
    Reduces s (operand A) (modulus N) ↔
      result (decide (s.compareMode = 3)) A.toNat N.toNat (operand A).toNat % 2 ^ 1024 =
        (operand A).toNat % N.toNat := by
  obtain ⟨m, hm⟩ := exists_reaches_result (decide (s.compareMode = 3)) (operand_toNat A) A.isLt
    N.isLt h1
  have hreach : ∀ s', InCheck (decide (s.compareMode = 3)) (operand A).toNat (modulus N).toNat 0 s' →
      Reaches (Done (result (decide (s.compareMode = 3)) A.toNat N.toNat (operand A).toNat)) m s' := by
    rw [modulus_toNat]
    exact hm
  rw [Reduces, modulus_toNat]
  constructor
  · intro hall
    have hi : Loads (operand A) (modulus N) fun t => ⟨true, decide (t = 0), operand A, modulus N⟩ :=
      ⟨rfl, rfl, rfl, rfl, fun t => ⟨rfl, rfl⟩⟩
    obtain ⟨hbefore, hdone⟩ := run_done hs hequal hi hreach
    have hz := (first_iff hbefore hdone.valid).mp (hall _ hi)
    rw [hdone.z] at hz
    exact hz
  · intro hz i hi
    obtain ⟨hbefore, hdone⟩ := run_done hs hequal hi hreach
    exact (first_iff hbefore hdone.valid).mpr (hdone.z.trans hz)

theorem two_pow_mod_ne_zero {N : ℕ} (hodd : N % 2 = 1) (h1 : 1 < N) (k : ℕ) :
    2 ^ k % N ≠ 0 := by
  intro hzero
  have hco : Nat.Coprime N (2 ^ k) := by
    refine Nat.Coprime.pow_right k ?_
    exact Nat.coprime_two_right.mpr (Nat.odd_iff.mpr hodd)
  have hdvd := Nat.dvd_of_mod_eq_zero hzero
  have := Nat.Coprime.eq_one_of_dvd hco hdvd
  omega

/-- The operand 1 comes out as zero when the top bit of the modulus is up. -/
theorem result_one {e : Bool} {A N : BitVec 1024} (hodd : N.toNat % 2 = 1) (h1 : 1 < N.toNat)
    (hbad : A.toNat = 1 ∧ 2 ^ 1023 ≤ N.toNat) :
    result e A.toNat N.toNat (operand A).toNat % 2 ^ 1024 ≠ (operand A).toNat % N.toNat := by
  have hoperand : (operand A).toNat = 2 ^ 1024 := by rw [operand_toNat, hbad.1, Nat.one_mul]
  have hne := two_pow_mod_ne_zero hodd h1 1024
  rw [← hoperand] at hne
  have hfull : (operand A).toNat % 2 ^ 1024 = 0 := by rw [hoperand, Nat.mod_self]
  rw [result, if_pos hbad, hfull]
  exact fun hzero => hne hzero.symm

/-- After a cycle with `iEnable` low: the operand 1 fails for a modulus with its top bit up,
where the shift loop drives the modulus to zero; a stale verdict of the comparator ends the
reduction with the first subtraction. -/
theorem reduces_iff (s : Mod2048) (low : In) (hlow : low.iEnable = false) (A N : BitVec 1024)
    (hodd : N.toNat % 2 = 1) (h1 : 1 < N.toNat) :
    Reduces (s.next low) (operand A) (modulus N) ↔
      ¬ (A.toNat = 1 ∧ 2 ^ 1023 ≤ N.toNat) ∧
        (StaleEqual (s.next low) →
          lessLargest N.toNat (operand A).toNat % 2 ^ 1024 = (operand A).toNat % N.toNat) := by
  obtain ⟨hs, hequal⟩ := next_low s hlow
  rw [reduces_of_result hs hequal h1]
  by_cases hbad : A.toNat = 1 ∧ 2 ^ 1023 ≤ N.toNat
  · exact iff_of_false (result_one hodd h1 hbad) fun h => h.1 hbad
  · have hsmall : (operand A).toNat % N.toNat < 2 ^ 1024 :=
      lt_trans (Nat.mod_lt _ (by omega)) N.isLt
    rw [result, if_neg hbad]
    by_cases hstale : (s.next low).compareMode = 3
    · rw [if_pos (decide_eq_true hstale)]
      exact ⟨fun heq => ⟨hbad, fun _ => heq⟩, fun h => h.2 hstale⟩
    · rw [if_neg (by simpa using hstale)]
      exact iff_of_true (Nat.mod_eq_of_lt hsmall) ⟨hbad, fun h => absurd h hstale⟩

/-- All registers zero. -/
def cleared : Mod2048 where
  state := .initial
  length := 0
  pos := 0
  shiftLeftFinish := false
  enableXEqualY := false
  regX := 0
  regY := 0
  checkZero := ⟨0, true, 0, 0, 0⟩
  compare := ⟨0, false, false⟩
  sub := ⟨0, false, false⟩
  latch := ⟨false, false, 0, false, false, false, false, false, false⟩

/-- A cycle with `iEnable` low. -/
def disabled : In := ⟨false, false, 0, 0⟩

theorem reduces_five :
    Reduces (cleared.next disabled) (operand 5#1024) (modulus 3#1024) ↔
      ¬ ((5#1024).toNat = 1 ∧ 2 ^ 1023 ≤ (3#1024).toNat) ∧
        (StaleEqual (cleared.next disabled) →
          lessLargest (3#1024).toNat (operand 5#1024).toNat % 2 ^ 1024 =
            (operand 5#1024).toNat % (3#1024).toNat) :=
  reduces_iff cleared disabled rfl 5#1024 3#1024 (by decide +kernel) (by decide +kernel)

theorem not_reduces_one :
    ¬ ∀ (s : Mod2048) (low : In) (A N : BitVec 1024), low.iEnable = false →
      N.toNat % 2 = 1 → 1 < N.toNat → Reduces (s.next low) (operand A) (modulus N) := by
  intro h
  have hodd : (BitVec.allOnes 1024).toNat % 2 = 1 := by decide +kernel
  have h1 : 1 < (BitVec.allOnes 1024).toNat := by decide +kernel
  have hbad : (1#1024).toNat = 1 ∧ 2 ^ 1023 ≤ (BitVec.allOnes 1024).toNat := by decide +kernel
  obtain ⟨hs, hequal⟩ := next_low cleared (show disabled.iEnable = false from rfl)
  exact result_one hodd h1 hbad
    ((reduces_of_result hs hequal h1).mp (h cleared disabled 1#1024 _ rfl hodd h1))

end Mod2048

end SocCrypto.Rsa

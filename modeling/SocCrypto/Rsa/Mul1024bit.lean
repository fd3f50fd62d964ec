import SocCrypto.Clocked
import SocCrypto.Rsa.SignUnit

/-!
# The 1024-bit multiplier

`Mul1024bit.v` with its controller `ControlMul1024.v`. Operand-scanning product: for every word
of `X` one pass over the words of `Y` (`MulStep1`), then one cycle that pushes the carry and puts
out one product word (`MulStep2`).
-/

namespace SocCrypto.Rsa
open WordSerial Clocked

/-! ### ControlMul1024 -/

inductive MulState where
  | initial
  | abs
  | mulStep1
  | mulStep2
  | signOutput
  | finish
  deriving DecidableEq

structure ControlMul1024 where
  state : MulState
  step : BitVec 6
  step2 : BitVec 6
  times : BitVec 6
  enableSignOutput : BitVec 2
  enableMulStep2 : Bool
  deriving DecidableEq

/-- Control outputs; every state drives all of them. -/
structure ControlMul1024.Out where
  startingMul : Bool := false
  oControlMuxY : Bool := false
  oControlMuxZ : Bool := false
  oControlMuxZOutput : Bool := false
  oEnableAdder : Bool := false
  oEnableShiftRegInputX : Bool := false
  oEnableShiftRegInputY : Bool := false
  oEnableShiftRegBuffZ : Bool := false
  oEnableShiftRegOutputZ : Bool := false
  oEnableAbs : Bool := false
  oEnableSignOutput : Bool := false
  oLoadOutput : Bool := false
  oDataValid : Bool := false

def ControlMul1024.out (c : ControlMul1024) : ControlMul1024.Out :=
  match c.state with
  | .initial => {}
  | .abs =>
    { oControlMuxY := true, oEnableShiftRegInputX := true, oEnableShiftRegInputY := true,
      oEnableAbs := true }
  | .mulStep1 =>
    { startingMul := true, oEnableAdder := true, oEnableShiftRegInputY := true,
      oEnableShiftRegBuffZ := true }
  | .mulStep2 =>
    { oControlMuxY := true, oControlMuxZ := true, oEnableShiftRegInputX := true,
      oEnableShiftRegBuffZ := true, oEnableShiftRegOutputZ := true }
  | .signOutput => { oControlMuxZOutput := true, oEnableSignOutput := true }
  | .finish => { oLoadOutput := true, oDataValid := true }

def ControlMul1024.next (c : ControlMul1024) (iEnable iLoad iFinishAbsX iFinishAbsZ : Bool) :
    ControlMul1024 :=
  { times :=
      if !iEnable then 0 else if c.step = 30 then c.times + 1 else c.times
    step2 :=
      if !iEnable then 0
      else if c.times = 32 then if c.step2 = 32 then 0 else c.step2 + 1
      else c.step2
    enableSignOutput :=
      if !iEnable then 0
      else if c.times = 32 then if c.step2 = 32 then 2 else 1
      else c.enableSignOutput
    step :=
      if !c.out.startingMul then 0 else if c.step = 30 then 0 else c.step + 1
    enableMulStep2 :=
      if !c.out.startingMul then false else if c.step = 30 then true else c.enableMulStep2
    state :=
      if !iEnable then .initial
      else
        match c.state with
        | .initial => if !iLoad then .abs else .initial
        | .abs => if iFinishAbsX then .mulStep1 else .abs
        | .mulStep1 => if c.enableMulStep2 then .mulStep2 else .mulStep1
        | .mulStep2 =>
          if c.enableSignOutput = 2 then .signOutput
          else if c.enableSignOutput = 0 then .mulStep1
          else .mulStep2
        | .signOutput => if iFinishAbsZ then .finish else .signOutput
        | .finish => .initial }

/-! ### Mul1024bit -/

structure Mul1024bit where
  control : ControlMul1024
  signX : Bool
  signY : Bool
  buffRegX : BitVec 1024
  buffRegY : BitVec 1024
  buffRegZ : BitVec 1024
  buffRegOutput : BitVec 2048
  carry : Word
  invertX : Invert1024
  invertY : Invert1024
  invertZ : Invert2048
  deriving DecidableEq

namespace Mul1024bit

structure In where
  iEnable : Bool
  iLoad : Bool
  iX : BitVec 1024
  iY : BitVec 1024

def x (s : Mul1024bit) : Word := lowWord s.buffRegX
def y (s : Mul1024bit) : Word := lowWord s.buffRegY
def z (s : Mul1024bit) : Word := topWord s.buffRegZ
def preZ (s : Mul1024bit) : Word := lowWord s.buffRegOutput
def signZ (s : Mul1024bit) : Bool := s.signX || s.signY
def absX (s : Mul1024bit) : Word := (s.invertX.settle s.control.out.oEnableAbs s.signX s.x).1
def absY (s : Mul1024bit) : Word := (s.invertY.settle s.control.out.oEnableAbs s.signY s.y).1
def absZ (s : Mul1024bit) : Word :=
  (s.invertZ.settle s.control.out.oEnableSignOutput s.signZ s.preZ).1

/-- How the sign units of the operands come to rest. -/
structure Settlings where
  x : Settling
  y : Settling
  deriving DecidableEq

def settling (s : Mul1024bit) : Settlings := ⟨s.invertX.settling, s.invertY.settling⟩

/-- `Val = AbsXMultAbsY + (Z + Carry)` in 64 bits. -/
def val (s : Mul1024bit) : BitVec 64 :=
  if s.control.out.oEnableAdder then
    s.x.setWidth 64 * s.y.setWidth 64 + (s.z.setWidth 64 + s.carry.setWidth 64)
  else 0

def oDataValid (s : Mul1024bit) : Bool := s.control.out.oDataValid
def oZ (s : Mul1024bit) : BitVec 2048 := if s.control.out.oLoadOutput then s.buffRegOutput else 0

def next (s : Mul1024bit) (i : In) : Mul1024bit :=
  let o := s.control.out
  { control := s.control.next i.iEnable i.iLoad s.invertX.oFinish s.invertZ.oFinish
    signX := if !i.iEnable then false else if i.iLoad then i.iX.getLsbD 1023 else s.signX
    signY := if !i.iEnable then false else if i.iLoad then i.iY.getLsbD 1023 else s.signY
    buffRegX :=
      if i.iLoad then i.iX
      else if o.oEnableShiftRegInputX then shiftIn s.buffRegX s.absX
      else s.buffRegX
    buffRegY :=
      if i.iLoad then i.iY
      else if o.oEnableShiftRegInputY then
        shiftIn s.buffRegY (if o.oControlMuxY then s.absY else s.y)
      else s.buffRegY
    buffRegZ :=
      if o.oEnableShiftRegBuffZ then
        shiftUp s.buffRegZ (if o.oControlMuxZ then s.carry else s.val.setWidth 32)
      else 0
    buffRegOutput :=
      if !o.oLoadOutput && o.oEnableShiftRegOutputZ then
        shiftIn s.buffRegOutput (if o.oControlMuxZOutput then s.absZ else s.z)
      else s.buffRegOutput
    carry := if !o.oEnableAdder then 0 else (s.val >>> 32).setWidth 32
    invertX := s.invertX.next o.oEnableAbs s.signX s.x
    invertY := s.invertY.next o.oEnableAbs s.signY s.y
    invertZ := s.invertZ.next o.oEnableSignOutput s.signZ s.preZ }

@[simp] theorem settling_next (s : Mul1024bit) (i : In) : (s.next i).settling = s.settling := rfl

/-! ### Phases of a product

`Loaded`, `InAbs`, `InPass`, `AtCarry`, `InTail`, `InSign` and `Done` follow one
product through the controller. The counter `Times` starts at `t₀`, which is 0
unless the load pulse finds `Step` at 30. -/

/-- Inputs of the cycles after the load pulse. -/
def hold (i : In) : Prop := i.iEnable = true ∧ i.iLoad = false

def quiet (s : Mul1024bit) (_ : In) : Prop := s.oDataValid = false

/-- Reset by a cycle with `iEnable` low. -/
structure Idle (s : Mul1024bit) : Prop where
  state : s.control.state = .initial
  times : s.control.times = 0
  step2 : s.control.step2 = 0
  eso : s.control.enableSignOutput = 0

/-- Loaded with two operands and their signs. -/
structure Loaded (σ : Settlings) (sx sy : Bool) (t₀ X Y o₀ : ℕ) (s : Mul1024bit) : Prop where
  settling : s.settling = σ
  state : s.control.state = .initial
  times : s.control.times.toNat = t₀
  step : s.control.step = 0
  step2 : s.control.step2 = 0
  eso : s.control.enableSignOutput = 0
  signX : s.signX = sx
  signY : s.signY = sy
  x : s.buffRegX.toNat = X
  y : s.buffRegY.toNat = Y
  o : s.buffRegOutput.toNat = o₀

/-- Cycle `k` of the 32 cycles in which the operands pass the sign units. -/
structure InAbs (σ : Settlings) (sx sy : Bool) (t₀ X Y o₀ k : ℕ) (s : Mul1024bit) : Prop where
  state : s.control.state = .abs
  times : s.control.times.toNat = t₀
  step : s.control.step = 0
  mul2 : s.control.enableMulStep2 = false
  step2 : s.control.step2 = 0
  eso : s.control.enableSignOutput = 0
  signX : s.signX = sx
  signY : s.signY = sy
  invX : s.invertX.At σ.x sx X k
  invY : s.invertY.At σ.y sy Y k
  x : Shifted base 32 X k (inverted σ.x sx X k) s.buffRegX.toNat
  y : Shifted base 32 Y k (inverted σ.y sy Y k) s.buffRegY.toNat
  z : s.buffRegZ = 0
  carry : s.carry = 0
  o : s.buffRegOutput.toNat = o₀

/-- Cycle `j` of the pass that multiplies word `i` of `X` into `Y`; `z` is the
running value the pass started from, `out` the product words put out before. -/
structure InPass (t₀ X Y o₀ i z outO j out : ℕ) (s : Mul1024bit) : Prop where
  state : s.control.state = .mulStep1
  times : s.control.times.toNat = if j < 31 then t₀ + i else t₀ + i + 1
  step : s.control.step.toNat = if j < 31 then j else 0
  mul2 : s.control.enableMulStep2 = decide (31 ≤ j)
  step2 : s.control.step2 = 0
  eso : s.control.enableSignOutput = 0
  x : s.buffRegX.toNat = X / base ^ i
  y : Shifted base 32 Y j (Y % base ^ j) s.buffRegY.toNat
  buff : ∃ v, s.buffRegZ.toNat = rev base 32 v ∧ Shifted base 32 z j out v
  acc : MulAdded base z (digit base X i) Y j out s.carry.toNat
  o : Shifted base 64 o₀ i outO s.buffRegOutput.toNat

/-- The carry cycle after pass `i`: register and carry together hold
`S = z + X_i * Y`. -/
structure AtCarry (t₀ X Y o₀ i S outO : ℕ) (s : Mul1024bit) : Prop where
  state : s.control.state = .mulStep2
  times : s.control.times.toNat = t₀ + i + 1
  step : s.control.step.toNat = 1
  step2 : s.control.step2 = if t₀ + i + 1 = 32 then 1 else 0
  eso : s.control.enableSignOutput = if t₀ + i + 1 = 32 then 1 else 0
  x : s.buffRegX.toNat = X / base ^ i
  y : s.buffRegY.toNat = Y
  buff : ∃ R, s.buffRegZ.toNat = rev base 32 R ∧ R < base ^ 32 ∧
    R + s.carry.toNat * base ^ 32 = S
  o : Shifted base 64 o₀ i outO s.buffRegOutput.toNat

/-- After `m` of the 33 words of the last sum `S` were put out. -/
structure InTail (o₀ i S m out : ℕ) (s : Mul1024bit) : Prop where
  state : s.control.state = .mulStep2
  times : s.control.times = 32
  step : s.control.step = 0
  step2 : s.control.step2.toNat = if m < 32 then m + 1 else 0
  eso : s.control.enableSignOutput = if m < 32 then 1 else 2
  carry : s.carry = 0
  buff : s.buffRegZ.toNat = rev base 32 (S / base ^ m)
  inv : s.invertZ.step = 0
  o : Shifted base 64 o₀ (i + m) out s.buffRegOutput.toNat

/-- Cycle `k` of the 64 cycles the sign unit of the product is given. -/
structure InSign (Z k : ℕ) (s : Mul1024bit) : Prop where
  state : s.control.state = .signOutput
  inv : s.invertZ.step.toNat = k
  o : s.buffRegOutput.toNat = Z

/-- The valid cycle. -/
structure Done (Z : ℕ) (s : Mul1024bit) : Prop where
  valid : s.oDataValid = true
  z : s.oZ.toNat = Z

theorem idle_of_disabled (s : Mul1024bit) (i : In) (hi : i.iEnable = false) : (s.next i).Idle := by
  constructor <;> simp [next, ControlMul1024.next, hi]

theorem topBit (v : BitVec 1024) : v.getLsbD 1023 = decide (2 ^ 1023 ≤ v.toNat) := by
  have hlt := v.isLt
  rw [BitVec.getLsbD, Nat.testBit_eq_decide_div_mod_eq]
  refine decide_eq_decide.mpr ?_
  generalize v.toNat = n at hlt
  omega

theorem loaded_of_load {s : Mul1024bit} {i : In} (hs : s.Idle) (he : i.iEnable = true)
    (hl : i.iLoad = true) :
    Loaded s.settling (decide (2 ^ 1023 ≤ i.iX.toNat)) (decide (2 ^ 1023 ≤ i.iY.toNat))
      (if s.control.step = 30 then 1 else 0) i.iX.toNat i.iY.toNat s.buffRegOutput.toNat
      (s.next i) := by
  have hout : s.control.out = {} := by simp [ControlMul1024.out, hs.state]
  have htimes : ¬ s.control.times = 32#6 := by simp [hs.times]
  constructor
  case settling => exact settling_next s i
  case times =>
    simp only [next, ControlMul1024.next, he, hs.times, Bool.not_true, Bool.false_eq_true, if_false]
    split <;> rfl
  case signX =>
    simp only [next, he, hl, topBit, Bool.not_true, Bool.false_eq_true, if_false, if_true]
  case signY =>
    simp only [next, he, hl, topBit, Bool.not_true, Bool.false_eq_true, if_false, if_true]
  all_goals simp [next, ControlMul1024.next, he, hl, hs.state, htimes, hs.step2, hs.eso, hout]

theorem lowWord_digit {r : BitVec 1024} {x k out : ℕ} (hk : k < 32)
    (h : Shifted base 32 x k out r.toNat) : (lowWord r).toNat = digit base x k := by
  rw [lowWord_toNat]
  exact h.low hk

theorem inAbs_of_loaded {σ : Settlings} {sx sy : Bool} {t₀ X Y o₀ : ℕ} {s : Mul1024bit} {i : In}
    (ht : t₀ < 32) (h : Loaded σ sx sy t₀ X Y o₀ s) (hi : hold i) : InAbs σ sx sy t₀ X Y o₀ 0 (s.next i) := by
  obtain ⟨he, hl⟩ := hi
  have hout : s.control.out = {} := by simp [ControlMul1024.out, h.state]
  have htimes : s.control.times = 32#6 ↔ t₀ = 32 := eq_ofNat_iff h.times (by decide)
  have hne : ¬ t₀ = 32 := by omega
  constructor
  case x => simpa [next, hout, hl, h.x, inverted] using Shifted.start base 32 X
  case y => simpa [next, hout, hl, h.y, inverted] using Shifted.start base 32 Y
  case invX =>
    have hword : (Mul1024bit.x s).toNat = digit base X 0 := by
      rw [Mul1024bit.x, lowWord_toNat, h.x, digit, pow_zero, Nat.div_one]
    have hstart := Inverter.at_start (u := s.invertX) (s := s.signX) sx X hword
    rw [show s.invertX.settling = σ.x from congrArg Settlings.x h.settling] at hstart
    simpa [next, hout, Invert1024.next] using hstart
  case invY =>
    have hword : (Mul1024bit.y s).toNat = digit base Y 0 := by
      rw [Mul1024bit.y, lowWord_toNat, h.y, digit, pow_zero, Nat.div_one]
    have hstart := Inverter.at_start (u := s.invertY) (s := s.signY) sy Y hword
    rw [show s.invertY.settling = σ.y from congrArg Settlings.y h.settling] at hstart
    simpa [next, hout, Invert1024.next] using hstart
  all_goals simp [next, ControlMul1024.next, he, hl, h.state, h.step, h.step2, h.eso, htimes, hne,
    hout, h.signX, h.signY, h.times, h.o]

theorem rotate_1024 {r : BitVec 1024} {x k : ℕ} (hk : k < 32)
    (h : Shifted base 32 x k (x % base ^ k) r.toNat) :
    Shifted base 32 x (k + 1) (x % base ^ (k + 1)) (shiftIn r (lowWord r)).toNat := by
  rw [shiftIn_1024, lowWord_toNat]
  exact h.rotate base_pos hk

/-- One word of an operand through its sign unit and back into its register. -/
theorem shiftIn_inverted {σ : Settling} {sign : Bool} {r : BitVec 1024} {v k : ℕ} {u : Inverter}
    (hk : k < 32) (hu : u.At σ sign v k) (h : Shifted base 32 v k (inverted σ sign v k) r.toNat) :
    Shifted base 32 v (k + 1) (inverted σ sign v (k + 1))
      (shiftIn r (u.settle true sign (lowWord r)).1).toNat := by
  rw [shiftIn_1024, (hu.settle (lowWord_digit hk h)).1]
  exact h.next base_pos hk (invertDigit_lt σ sign v k)

theorem inAbs_next {σ : Settlings} {sx sy : Bool} {t₀ X Y o₀ k : ℕ} {s : Mul1024bit} {i : In}
    (ht : t₀ < 32) (hk : k < 31) (h : InAbs σ sx sy t₀ X Y o₀ k s) (hi : hold i) :
    InAbs σ sx sy t₀ X Y o₀ (k + 1) (s.next i) := by
  obtain ⟨he, hl⟩ := hi
  have htimes : s.control.times = 32#6 ↔ t₀ = 32 := eq_ofNat_iff h.times (by decide)
  have hne : ¬ t₀ = 32 := by omega
  have hfin : s.invertX.step = 31#7 ↔ k = 31 := eq_ofNat_iff h.invX.step (by decide)
  have hk31 : ¬ k = 31 := by omega
  constructor
  case invX =>
    simpa [next, ControlMul1024.out, h.state, h.signX, Mul1024bit.x] using
      h.invX.next (by omega) (lowWord_digit (by omega) h.x)
  case invY =>
    simpa [next, ControlMul1024.out, h.state, h.signY, Mul1024bit.y] using
      h.invY.next (by omega) (lowWord_digit (by omega) h.y)
  case x =>
    simpa [next, ControlMul1024.out, h.state, hl, absX, h.signX, Mul1024bit.x] using
      shiftIn_inverted (by omega) h.invX h.x
  case y =>
    simpa [next, ControlMul1024.out, h.state, hl, absY, h.signY, Mul1024bit.y] using
      shiftIn_inverted (by omega) h.invY h.y
  all_goals simp [next, ControlMul1024.next, ControlMul1024.out, he, hl, h.state, h.step, h.step2,
    h.eso, htimes, hne, h.signX, h.signY, Invert1024.oFinish, hfin, hk31, h.times, h.o]

theorem inPass_of_inAbs {σ : Settlings} {sx sy : Bool} {t₀ X Y o₀ : ℕ} {s : Mul1024bit} {i : In}
    (ht : t₀ < 32) (hX : X < base ^ 32) (hY : Y < base ^ 32)
    (h : InAbs σ sx sy t₀ X Y o₀ 31 s) (hi : hold i) :
    InPass t₀ (inverted σ.x sx X 32) (inverted σ.y sy Y 32) o₀ 0 0 0 0 0 (s.next i) := by
  obtain ⟨he, hl⟩ := hi
  have htimes : s.control.times = 32#6 ↔ t₀ = 32 := eq_ofNat_iff h.times (by decide)
  have hne : ¬ t₀ = 32 := by omega
  have hfin : s.invertX.step = 31#7 := (eq_ofNat_iff h.invX.step (by decide)).mpr rfl
  have hxr := (shiftIn_inverted (by omega) h.invX h.x).full hX
  have hyr := (shiftIn_inverted (by omega) h.invY h.y).full hY
  constructor
  case x =>
    simpa [next, ControlMul1024.out, h.state, hl, absX, h.signX, Mul1024bit.x] using hxr
  case y =>
    have hgoal : ((s.next i).buffRegY).toNat = inverted σ.y sy Y 32 := by
      simpa [next, ControlMul1024.out, h.state, hl, absY, h.signY, Mul1024bit.y] using hyr
    rw [hgoal, pow_zero, Nat.mod_one]
    exact Shifted.start base 32 _
  case buff =>
    refine ⟨0, ?_, ?_⟩
    · simp [next, ControlMul1024.out, h.state]
    · exact Shifted.start base 32 0
  case acc =>
    have hc : (s.next i).carry.toNat = 0 := by
      simp [next, ControlMul1024.out, h.state]
    rw [hc]
    exact MulAdded.start base 0 _ _
  case o =>
    have ho : ((s.next i).buffRegOutput).toNat = o₀ := by
      simp [next, ControlMul1024.out, h.state, h.o]
    rw [ho]
    exact Shifted.start base 64 o₀
  all_goals simp [next, ControlMul1024.next, ControlMul1024.out, he, hl, h.state, h.step, h.step2,
    h.eso, htimes, hne, Invert1024.oFinish, hfin, h.times]

theorem val_toNat {s : Mul1024bit} (hst : s.control.state = .mulStep1) :
    s.val.toNat = s.x.toNat * s.y.toNat + (s.z.toNat + s.carry.toNat) := by
  have hx := s.x.isLt
  have hy := s.y.isLt
  have hz := s.z.isLt
  have hc := s.carry.isLt
  have hmul : s.x.toNat * s.y.toNat ≤ (2 ^ 32 - 1) * (2 ^ 32 - 1) :=
    Nat.mul_le_mul (by omega) (by omega)
  have hen : s.control.out.oEnableAdder = true := by simp [ControlMul1024.out, hst]
  simp only [val, hen, if_true, BitVec.toNat_add, BitVec.toNat_mul, BitVec.toNat_setWidth]
  rw [Nat.mod_eq_of_lt (show s.x.toNat < 2 ^ 64 by omega),
    Nat.mod_eq_of_lt (show s.y.toNat < 2 ^ 64 by omega),
    Nat.mod_eq_of_lt (show s.z.toNat < 2 ^ 64 by omega),
    Nat.mod_eq_of_lt (show s.carry.toNat < 2 ^ 64 by omega),
    Nat.mod_eq_of_lt (show s.x.toNat * s.y.toNat < 2 ^ 64 by omega),
    Nat.mod_eq_of_lt (show s.z.toNat + s.carry.toNat < 2 ^ 64 by omega),
    Nat.mod_eq_of_lt (show _ < 2 ^ 64 by omega)]

/-- The top word of a reversed register is the low digit of the number. -/
theorem topWord_rev {r : BitVec 1024} {v : ℕ} (hr : r.toNat = rev base 32 v) :
    (topWord r).toNat = v % base := by
  rw [topWord_1024, hr]
  exact rev_top base_pos 31 v

theorem shiftUp_rev {r : BitVec 1024} {v : ℕ} (hv : v < base ^ 32) (hr : r.toNat = rev base 32 v)
    (w : Word) : (shiftUp r w).toNat = rev base 32 (v / base + w.toNat * base ^ 31) := by
  rw [shiftUp_1024, hr]
  exact rev_push base_pos 31 v w.toNat hv (word_lt_base w)

theorem Shifted.lt {n x k out r : ℕ} (hx : x < base ^ n) (hk : k ≤ n)
    (h : Shifted base n x k out r) : r < base ^ n := by
  obtain ⟨hout, rfl⟩ := h
  have hpow : base ^ k * base ^ (n - k) = base ^ n := by rw [← pow_add, Nat.add_sub_cancel' hk]
  have hlow : x / base ^ k < base ^ (n - k) := by
    rw [Nat.div_lt_iff_lt_mul (Nat.pow_pos base_pos), Nat.mul_comm, hpow]
    exact hx
  have hle : out + 1 ≤ base ^ k := hout
  have hmul := Nat.mul_le_mul_right (base ^ (n - k)) hle
  nlinarith

theorem inPass_digit {t₀ X Y o₀ i z outO j out : ℕ} {s : Mul1024bit} (hj : j < 32)
    (h : InPass t₀ X Y o₀ i z outO j out s) :
    s.val.toNat = digit base z j + digit base X i * digit base Y j + s.carry.toNat := by
  obtain ⟨v, hv, hsh⟩ := h.buff
  have hx : s.x.toNat = digit base X i := by
    rw [Mul1024bit.x, lowWord_toNat, h.x]
    rfl
  have hy : s.y.toNat = digit base Y j := by
    rw [Mul1024bit.y, lowWord_toNat]
    exact h.y.low hj
  have hz : s.z.toNat = digit base z j := by
    rw [Mul1024bit.z, topWord_rev hv]
    exact hsh.low hj
  rw [val_toNat h.state, hx, hy, hz]
  ring

theorem inPass_acc {t₀ X Y o₀ i z outO j out : ℕ} {s : Mul1024bit} (hj : j < 32)
    (h : InPass t₀ X Y o₀ i z outO j out s) :
    MulAdded base z (digit base X i) Y (j + 1) (out + s.val.toNat % base * base ^ j)
      ((s.val >>> 32).setWidth 32).toNat := by
  have hdig := inPass_digit hj h
  have hacc := h.acc.next
  rw [← hdig] at hacc
  have hlt : s.val.toNat / base < base := by
    rw [hdig]
    exact mulAdd_carry_lt (digit_lt base_pos _ _) (digit_lt base_pos _ _) (digit_lt base_pos _ _)
      (word_lt_base s.carry)
  have hc : ((s.val >>> 32).setWidth 32).toNat = s.val.toNat / base := by
    rw [BitVec.toNat_setWidth, BitVec.toNat_ushiftRight, Nat.shiftRight_eq_div_pow]
    exact Nat.mod_eq_of_lt hlt
  rw [hc]
  exact hacc

theorem inPass_buff {t₀ X Y o₀ i z outO j out : ℕ} {s : Mul1024bit} (hz : z < base ^ 32)
    (hj : j < 32) (h : InPass t₀ X Y o₀ i z outO j out s) :
    ∃ v, (shiftUp s.buffRegZ (s.val.setWidth 32)).toNat = rev base 32 v ∧
      Shifted base 32 z (j + 1) (out + s.val.toNat % base * base ^ j) v := by
  obtain ⟨v, hv, hsh⟩ := h.buff
  have hw : (s.val.setWidth 32).toNat = s.val.toNat % base := BitVec.toNat_setWidth ..
  refine ⟨v / base + s.val.toNat % base * base ^ 31, ?_, ?_⟩
  · rw [shiftUp_rev (Shifted.lt hz (by omega) hsh) hv, hw]
  · exact hsh.next base_pos hj (Nat.mod_lt _ base_pos)

theorem inPass_next {t₀ X Y o₀ i z outO j out : ℕ} {s : Mul1024bit} {a : In} (hz : z < base ^ 32)
    (ht : t₀ + i < 32) (hj : j < 31) (h : InPass t₀ X Y o₀ i z outO j out s) (ha : hold a) :
    ∃ out', InPass t₀ X Y o₀ i z outO (j + 1) out' (s.next a) := by
  obtain ⟨he, hl⟩ := ha
  have hsh := h.times
  have hstep := h.step
  rw [if_pos hj] at hsh hstep
  have htimes : s.control.times = 32#6 ↔ t₀ + i = 32 := eq_ofNat_iff hsh (by decide)
  have hne : ¬ t₀ + i = 32 := by omega
  have h30 : s.control.step = 30#6 ↔ j = 30 := eq_ofNat_iff hstep (by decide)
  refine ⟨out + s.val.toNat % base * base ^ j, ?_⟩
  constructor
  case times =>
    simp only [next, ControlMul1024.next, he, h30, BitVec.ofNat_eq_ofNat, Bool.not_true,
      Bool.false_eq_true, if_false]
    by_cases hlast : j = 30
    · rw [if_pos hlast, if_neg (by omega)]
      exact toNat_add_one hsh (by omega)
    · rw [if_neg hlast, if_pos (by omega)]
      exact hsh
  case step =>
    simp only [next, ControlMul1024.next, ControlMul1024.out, h.state, h30,
      BitVec.ofNat_eq_ofNat, Bool.not_true, Bool.false_eq_true, if_false]
    by_cases hlast : j = 30
    · rw [if_pos hlast, if_neg (by omega)]
      rfl
    · rw [if_neg hlast, if_pos (by omega)]
      exact toNat_add_one hstep (by omega)
  case mul2 =>
    have hmul2 := h.mul2
    rw [decide_eq_false (by omega)] at hmul2
    simp only [next, ControlMul1024.next, ControlMul1024.out, h.state, h30, hmul2,
      BitVec.ofNat_eq_ofNat, Bool.not_true,
      Bool.false_eq_true, if_false]
    by_cases hlast : j = 30
    · rw [if_pos hlast, decide_eq_true (by omega)]
    · rw [if_neg hlast, decide_eq_false (by omega)]
  case y =>
    simpa [next, ControlMul1024.out, h.state, hl, Mul1024bit.y] using rotate_1024 (by omega) h.y
  case buff =>
    simpa [next, ControlMul1024.out, h.state] using inPass_buff hz (by omega) h
  case acc =>
    simpa [next, ControlMul1024.out, h.state] using inPass_acc (by omega) h
  case o =>
    simpa [next, ControlMul1024.out, h.state] using h.o
  case state =>
    have hmul2 := h.mul2
    rw [decide_eq_false (by omega)] at hmul2
    simp [next, ControlMul1024.next, he, h.state, hmul2]
  all_goals simp [next, ControlMul1024.next, ControlMul1024.out, he, hl, h.state, h.step2, h.eso,
    htimes, hne, h.x]

theorem atCarry_of_inPass {t₀ X Y o₀ i z outO out : ℕ} {s : Mul1024bit} {a : In}
    (hz : z < base ^ 32) (hY : Y < base ^ 32) (h : InPass t₀ X Y o₀ i z outO 31 out s) (ha : hold a) :
    AtCarry t₀ X Y o₀ i (z + digit base X i * Y) outO (s.next a) := by
  obtain ⟨he, hl⟩ := ha
  have hsh := h.times
  have hstep := h.step
  have hmul2 := h.mul2
  simp only [lt_irrefl, if_false, le_refl, decide_true] at hsh hstep hmul2
  have htimes : s.control.times = 32#6 ↔ t₀ + i + 1 = 32 := eq_ofNat_iff hsh (by decide)
  have hstep0 : s.control.step = 0 := BitVec.eq_of_toNat_eq hstep
  constructor
  case step2 =>
    simp only [next, ControlMul1024.next, he, h.step2, BitVec.ofNat_eq_ofNat, htimes,
      Bool.not_true, Bool.false_eq_true, if_false]
    rfl
  case eso =>
    simp only [next, ControlMul1024.next, he, h.step2, h.eso, BitVec.ofNat_eq_ofNat, htimes,
      Bool.not_true, Bool.false_eq_true, if_false]
    rfl
  case y =>
    have hyr := (rotate_1024 (by omega) h.y).rotate_full hY
    simpa [next, ControlMul1024.out, h.state, hl, Mul1024bit.y] using hyr
  case buff =>
    obtain ⟨v, hv, hsh'⟩ := inPass_buff hz (by omega) h
    have hacc := inPass_acc (by omega) h
    unfold MulAdded at hacc
    rw [Nat.mod_eq_of_lt hz, Nat.mod_eq_of_lt hY] at hacc
    refine ⟨v, ?_, Shifted.lt hz le_rfl hsh', ?_⟩
    · simpa [next, ControlMul1024.out, h.state] using hv
    · rw [← hacc, hsh'.full hz]
      simp [next, ControlMul1024.out, h.state]
  case o =>
    simpa [next, ControlMul1024.out, h.state] using h.o
  all_goals simp [next, ControlMul1024.next, ControlMul1024.out, he, hl, h.state, hsh, hstep0,
    hmul2, h.x]

/-- What the product register takes in during the carry cycle and the tail. -/
theorem shiftIn_output {r : BitVec 2048} {b : BitVec 1024} {o₀ k out v : ℕ} (hk : k < 64)
    (hb : b.toNat = rev base 32 v) (h : Shifted base 64 o₀ k out r.toNat) :
    Shifted base 64 o₀ (k + 1) (out + v % base * base ^ k) (shiftIn r (topWord b)).toNat := by
  rw [shiftIn_2048, topWord_rev hb]
  exact h.next base_pos hk (Nat.mod_lt _ base_pos)

/-- The register after a push is the next quotient of the sum. -/
theorem push_quotient (R c : ℕ) : (R + c * base ^ 32) / base = R / base + c * base ^ 31 := by
  rw [show c * base ^ 32 = c * base ^ 31 * base by rw [mul_assoc, ← pow_succ],
    Nat.add_mul_div_right _ _ base_pos]

theorem push_low (R c : ℕ) : (R + c * base ^ 32) % base = R % base := by
  rw [show c * base ^ 32 = c * base ^ 31 * base by rw [mul_assoc, ← pow_succ],
    Nat.add_mul_mod_self_right]

theorem carryCycle_o {t₀ X Y o₀ i S outO : ℕ} {s : Mul1024bit} {a : In} (hi : i < 64)
    (h : AtCarry t₀ X Y o₀ i S outO s) :
    Shifted base 64 o₀ (i + 1) (outO + S % base * base ^ i) (s.next a).buffRegOutput.toNat := by
  obtain ⟨R, hR, -, hS⟩ := h.buff
  have hnext := shiftIn_output hi hR h.o
  rw [← hS, push_low]
  simpa [next, ControlMul1024.out, h.state, Mul1024bit.z] using hnext

theorem carryCycle_buff {t₀ X Y o₀ i S outO : ℕ} {s : Mul1024bit} {a : In}
    (h : AtCarry t₀ X Y o₀ i S outO s) :
    (s.next a).buffRegZ.toNat = rev base 32 (S / base) := by
  obtain ⟨R, hR, hlt, hS⟩ := h.buff
  have hnext := shiftUp_rev hlt hR s.carry
  rw [← hS, push_quotient]
  simpa [next, ControlMul1024.out, h.state] using hnext

/-- Between two passes: one more product word is out, and the next word of `X`
is at the bottom of its register. -/
theorem inPass_of_atCarry {t₀ X Y o₀ i S outO : ℕ} {s : Mul1024bit} {a : In} (ht : t₀ + i < 31)
    (h : AtCarry t₀ X Y o₀ i S outO s) (ha : hold a) :
    InPass t₀ X Y o₀ (i + 1) (S / base) (outO + S % base * base ^ i) 0 0 (s.next a) := by
  obtain ⟨he, hl⟩ := ha
  have htimes : s.control.times = 32#6 ↔ t₀ + i + 1 = 32 := eq_ofNat_iff h.times (by decide)
  have hne : ¬ t₀ + i + 1 = 32 := by omega
  have hstep2 := h.step2
  have heso := h.eso
  rw [if_neg hne] at hstep2 heso
  have h30 : s.control.step = 30#6 ↔ 1 = 30 := eq_ofNat_iff h.step (by decide)
  constructor
  case times =>
    simp [next, ControlMul1024.next, he, h30, h.times]
    omega
  case x =>
    have hx : s.absX = 0 := by
      simp [absX, Inverter.settle, ControlMul1024.out, h.state]
    have hshift : ((s.next a).buffRegX).toNat = s.buffRegX.toNat / base := by
      simp [next, ControlMul1024.out, h.state, hl, hx, shiftIn_1024]
    rw [hshift, h.x, Nat.div_div_eq_div_mul, pow_succ]
  case y =>
    have hy : ((s.next a).buffRegY).toNat = Y := by
      simp [next, ControlMul1024.out, h.state, hl, h.y]
    rw [hy, pow_zero, Nat.mod_one]
    exact Shifted.start base 32 Y
  case buff =>
    exact ⟨S / base, carryCycle_buff h, Shifted.start base 32 (S / base)⟩
  case acc =>
    have hc : (s.next a).carry.toNat = 0 := by
      simp [next, ControlMul1024.out, h.state]
    rw [hc]
    exact MulAdded.start base (S / base) _ Y
  case o => exact carryCycle_o (by omega) h
  all_goals simp [next, ControlMul1024.next, ControlMul1024.out, he, hl, h.state, hstep2, heso,
    htimes, hne]

theorem inTail_of_atCarry {t₀ X Y o₀ i S outO : ℕ} {s : Mul1024bit} {a : In} (ht : t₀ + i = 31)
    (h : AtCarry t₀ X Y o₀ i S outO s) (ha : hold a) :
    InTail o₀ i S 1 (outO + S % base * base ^ i) (s.next a) := by
  obtain ⟨he, hl⟩ := ha
  have htimes : s.control.times = 32#6 := (eq_ofNat_iff h.times (by decide)).mpr (by omega)
  have hstep2 := h.step2
  have heso := h.eso
  rw [if_pos (by omega)] at hstep2 heso
  have h30 : s.control.step = 30#6 ↔ 1 = 30 := eq_ofNat_iff h.step (by decide)
  constructor
  case buff =>
    rw [pow_one]
    exact carryCycle_buff h
  case o => exact carryCycle_o (by omega) h
  all_goals simp [next, ControlMul1024.next, ControlMul1024.out, he, h.state, hstep2, heso,
    htimes, h30, Invert2048.next, Inverter.next]

theorem div_pow_lt {S m : ℕ} (hS : S < base ^ 33) (hm : 1 ≤ m) : S / base ^ m < base ^ 32 := by
  rw [Nat.div_lt_iff_lt_mul (Nat.pow_pos base_pos), ← pow_add]
  exact lt_of_lt_of_le hS (Nat.pow_le_pow_right base_pos (by omega))

theorem inTail_o {o₀ i S m out : ℕ} {s : Mul1024bit} {a : In} (hm : i + m < 64)
    (h : InTail o₀ i S m out s) :
    Shifted base 64 o₀ (i + m + 1) (out + digit base S m * base ^ (i + m))
      (s.next a).buffRegOutput.toNat := by
  have hnext := shiftIn_output hm h.buff h.o
  simpa [next, ControlMul1024.out, h.state, Mul1024bit.z, digit] using hnext

theorem inTail_next {o₀ i S m out : ℕ} {s : Mul1024bit} {a : In} (hS : S < base ^ 33)
    (hi : i < 32) (h1 : 1 ≤ m) (hm : m < 32) (h : InTail o₀ i S m out s) (ha : hold a) :
    InTail o₀ i S (m + 1) (out + digit base S m * base ^ (i + m)) (s.next a) := by
  obtain ⟨he, hl⟩ := ha
  have hstep2 := h.step2
  have heso := h.eso
  rw [if_pos hm] at hstep2 heso
  have h32 : s.control.step2 = 32#6 ↔ m + 1 = 32 := eq_ofNat_iff hstep2 (by decide)
  constructor
  case step2 =>
    simp only [next, ControlMul1024.next, he, h.times, BitVec.ofNat_eq_ofNat, h32, Bool.not_true,
      Bool.false_eq_true, if_false, if_true]
    by_cases hlast : m + 1 = 32
    · rw [if_pos hlast, if_neg (by omega)]
      rfl
    · rw [if_neg hlast, if_pos (by omega)]
      exact toNat_add_one hstep2 (by omega)
  case eso =>
    simp only [next, ControlMul1024.next, he, h.times, BitVec.ofNat_eq_ofNat, h32, Bool.not_true,
      Bool.false_eq_true, if_false, if_true]
    by_cases hlast : m + 1 = 32
    · rw [if_pos hlast, if_neg (by omega)]
    · rw [if_neg hlast, if_pos (by omega)]
  case buff =>
    have hnext := shiftUp_rev (div_pow_lt hS h1) h.buff s.carry
    rw [h.carry, Nat.div_div_eq_div_mul, ← pow_succ] at hnext
    simpa [next, ControlMul1024.out, h.state, h.carry] using hnext
  case o => exact inTail_o (by omega) h
  all_goals simp [next, ControlMul1024.next, ControlMul1024.out, he, h.state, h.step, h.times,
    heso, Invert2048.next, Inverter.next]

theorem inSign_of_inTail {o₀ i S out : ℕ} {s : Mul1024bit} {a : In} (hi : i < 32)
    (h : InTail o₀ i S 32 out s) (ha : hold a) :
    InSign (o₀ / base ^ (i + 33) + (out + digit base S 32 * base ^ (i + 32)) * base ^ (31 - i)) 0
      (s.next a) := by
  obtain ⟨he, hl⟩ := ha
  have heso := h.eso
  rw [if_neg (by omega)] at heso
  constructor
  case o =>
    rw [(inTail_o (by omega) h).2, show 64 - (i + 32 + 1) = 31 - i by omega]
  all_goals simp [next, ControlMul1024.next, ControlMul1024.out, he, h.state, heso,
    Invert2048.next, Inverter.next]

theorem inSign_next {Z k : ℕ} {s : Mul1024bit} {a : In} (hk : k < 63) (h : InSign Z k s)
    (ha : hold a) : InSign Z (k + 1) (s.next a) := by
  obtain ⟨he, hl⟩ := ha
  have h63 : s.invertZ.step = 63#7 ↔ k = 63 := eq_ofNat_iff h.inv (by decide)
  have hne : ¬ k = 63 := by omega
  have hlt : s.invertZ.step < 64 := by
    rw [BitVec.lt_def, h.inv]
    exact lt_trans hk (by decide)
  constructor
  case inv =>
    simp only [next, ControlMul1024.out, h.state, Invert2048.next, Inverter.next, hlt,
      Bool.not_true, Bool.false_eq_true, if_false, if_true]
    exact toNat_add_one h.inv (by omega)
  all_goals simp [next, ControlMul1024.next, ControlMul1024.out, he, h.state, h.o, h63, hne,
    Invert2048.oFinish]

theorem done_of_inSign {Z : ℕ} {s : Mul1024bit} {a : In} (h : InSign Z 63 s) (ha : hold a) :
    Done Z (s.next a) := by
  obtain ⟨he, hl⟩ := ha
  have h63 : s.invertZ.step = 63#7 := (eq_ofNat_iff h.inv (by decide)).mpr rfl
  constructor
  · simp [oDataValid, next, ControlMul1024.next, ControlMul1024.out, he, h.state, h63,
      Invert2048.oFinish]
  · simp [oZ, next, ControlMul1024.next, ControlMul1024.out, he, h.state, h63, h.o,
      Invert2048.oFinish]

theorem Done.state {Z : ℕ} {s : Mul1024bit} (h : Done Z s) : s.control.state = .finish := by
  have hvalid := h.valid
  unfold oDataValid ControlMul1024.out at hvalid
  cases hs : s.control.state <;> simp_all

/-! ### The run of one product -/

theorem quiet_of_state {s : Mul1024bit} (h : s.control.state ≠ .finish) (a : In) : quiet s a := by
  unfold quiet oDataValid ControlMul1024.out
  cases hs : s.control.state <;> simp_all

/-- `Leads` for the multiplier: quiet until the property holds. -/
abbrev Reaches (Q : Mul1024bit → Prop) (n : ℕ) (s : Mul1024bit) : Prop :=
  Leads next hold quiet Q n s

theorem InSign.reaches {Z : ℕ} {s : Mul1024bit} (h : InSign Z 0 s) : Reaches (Done Z) 64 s := by
  refine Leads.seq (m := 63) (n := 1) (Leads.loop (fun k => InSign Z k) 63 ?_ h) ?_
  · intro k hk s a h ha
    exact ⟨quiet_of_state (by simp [h.state]) a, inSign_next hk h ha⟩
  · intro s h a ha
    exact ⟨quiet_of_state (by simp [h.state]) a, done_of_inSign h ha⟩

/-- The words put out in the tail spell the last sum. -/
theorem InTail.reaches {o₀ i S out : ℕ} {s : Mul1024bit} (hS : S < base ^ 33) (hi : i < 32)
    (h : InTail o₀ i S 1 (out + S % base * base ^ i) s) :
    Reaches (Done (o₀ / base ^ (i + 33) + (out + S * base ^ i) * base ^ (31 - i))) 96 s := by
  have hstart : out + S % base * base ^ i = out + S % base ^ 1 * base ^ i := by rw [pow_one]
  rw [hstart] at h
  have hsucc : ∀ m, out + S % base ^ m * base ^ i + digit base S m * base ^ (i + m) =
      out + S % base ^ (m + 1) * base ^ i := by
    intro m
    rw [mod_pow_succ, pow_add]
    ring
  refine Leads.seq (m := 31) (n := 65)
    (Leads.loop (fun k => InTail o₀ i S (k + 1) (out + S % base ^ (k + 1) * base ^ i)) 31 ?_ h) ?_
  · intro k hk s a h ha
    refine ⟨quiet_of_state (by simp [h.state]) a, ?_⟩
    rw [← hsucc]
    exact inTail_next hS hi (by omega) (by omega) h ha
  · intro s h a ha
    have hsign := inSign_of_inTail hi h ha
    rw [hsucc, Nat.mod_eq_of_lt hS] at hsign
    exact ⟨quiet_of_state (by simp [h.state]) a, hsign.reaches⟩

theorem InPass.reaches_carry {t₀ X Y o₀ i z outO : ℕ} {s : Mul1024bit} (hz : z < base ^ 32)
    (hY : Y < base ^ 32) (ht : t₀ + i < 32) (h : InPass t₀ X Y o₀ i z outO 0 0 s) :
    Reaches (AtCarry t₀ X Y o₀ i (z + digit base X i * Y) outO) 32 s := by
  refine Leads.seq (m := 31) (n := 1)
    (Leads.loop (fun j s => ∃ out, InPass t₀ X Y o₀ i z outO j out s) 31 ?_ ⟨0, h⟩) ?_
  · rintro j hj s a ⟨out, h⟩ ha
    exact ⟨quiet_of_state (by simp [h.state]) a, inPass_next hz ht hj h ha⟩
  · rintro s ⟨out, h⟩ a ha
    exact ⟨quiet_of_state (by simp [h.state]) a, atCarry_of_inPass hz hY h ha⟩

/-- The sum of a pass fits the register and the carry. -/
theorem passSum_lt {X Y i z : ℕ} (hz : z < base ^ 32) (hY : Y < base ^ 32) :
    z + digit base X i * Y < base ^ 33 := by
  have hd := digit_lt base_pos X i
  have hle : digit base X i + 1 ≤ base := hd
  have hmul := Nat.mul_le_mul_right Y hle
  have hmulY := Nat.mul_le_mul_left base (show Y + 1 ≤ base ^ 32 from hY)
  rw [show base ^ 33 = base * base ^ 32 by rw [← pow_succ']]
  nlinarith [Nat.mul_le_mul (show 1 ≤ base from base_pos) (show Y + 1 ≤ base ^ 32 from hY)]

/-- What is put out before the pass and the running value make up the product
of the words used so far. -/
theorem partialProduct_next {X Y i z outO : ℕ}
    (h : outO + z * base ^ i = X % base ^ i * Y) :
    outO + (z + digit base X i * Y) * base ^ i = X % base ^ (i + 1) * Y := by
  rw [mod_pow_succ]
  calc outO + (z + digit base X i * Y) * base ^ i
      = outO + z * base ^ i + digit base X i * base ^ i * Y := by ring
    _ = (X % base ^ i + digit base X i * base ^ i) * Y := by rw [h]; ring

/-- Product put out by a run that starts with `Times` at `t₀`. -/
def product (t₀ X Y o₀ : ℕ) : ℕ :=
  o₀ / base ^ (64 - t₀) + X % base ^ (32 - t₀) * Y * base ^ t₀

theorem product_zero {X Y o₀ : ℕ} (hX : X < base ^ 32) (ho : o₀ < base ^ 64) :
    product 0 X Y o₀ = X * Y := by
  simp [product, Nat.div_eq_of_lt ho, Nat.mod_eq_of_lt hX]

/-- The remaining passes; induction on their number. -/
theorem InPass.reaches {t₀ X Y o₀ : ℕ} (hY : Y < base ^ 32) (ht : t₀ < 32) (r : ℕ) :
    ∀ {i z outO : ℕ} {s : Mul1024bit}, t₀ + i + r = 31 → z < base ^ 32 →
      outO + z * base ^ i = X % base ^ i * Y → InPass t₀ X Y o₀ i z outO 0 0 s →
      Reaches (Done (product t₀ X Y o₀)) (33 * r + 129) s := by
  induction r with
  | zero =>
    intro i z outO s hr hz hinv h
    have hS := passSum_lt (X := X) (i := i) hz hY
    refine Leads.seq (m := 32) (n := 97) (h.reaches_carry hz hY (by omega)) ?_
    intro s h a ha
    refine ⟨quiet_of_state (by simp [h.state]) a, ?_⟩
    have htail := (inTail_of_atCarry (by omega) h ha).reaches hS (by omega)
    rw [partialProduct_next hinv, show i + 33 = 64 - t₀ by omega, show 31 - i = t₀ by omega,
      show i + 1 = 32 - t₀ by omega] at htail
    exact htail
  | succ r ih =>
    intro i z outO s hr hz hinv h
    have hS := passSum_lt (X := X) (i := i) hz hY
    have hsplit : 33 * (r + 1) + 129 = 32 + ((33 * r + 129) + 1) := by omega
    rw [hsplit]
    refine Leads.seq (h.reaches_carry hz hY (by omega)) ?_
    intro s h a ha
    refine ⟨quiet_of_state (by simp [h.state]) a, ?_⟩
    have hz' : (z + digit base X i * Y) / base < base ^ 32 := by
      have := div_pow_lt (m := 1) hS le_rfl
      rwa [pow_one] at this
    refine ih (by omega) hz' ?_ (inPass_of_atCarry (by omega) h ha)
    have hnext := partialProduct_next hinv
    have hdiv := Nat.div_add_mod (z + digit base X i * Y) base
    calc outO + (z + digit base X i * Y) % base * base ^ i +
          (z + digit base X i * Y) / base * base ^ (i + 1)
        = outO + (base * ((z + digit base X i * Y) / base) +
            (z + digit base X i * Y) % base) * base ^ i := by rw [pow_succ]; ring
      _ = X % base ^ (i + 1) * Y := by rw [hdiv, hnext]

/-- A loaded multiplier reaches its first pass with what the sign units make of the operands. -/
theorem Loaded.reaches_pass {σ : Settlings} {sx sy : Bool} {t₀ X Y o₀ : ℕ} {s : Mul1024bit}
    (ht : t₀ < 32) (hX : X < base ^ 32) (hY : Y < base ^ 32) (h : Loaded σ sx sy t₀ X Y o₀ s) :
    Reaches (InPass t₀ (inverted σ.x sx X 32) (inverted σ.y sy Y 32) o₀ 0 0 0 0 0) 33 s := by
  refine Leads.seq (m := 1) (n := 32) (R := InAbs σ sx sy t₀ X Y o₀ 0) ?_ ?_
  · intro a ha
    exact ⟨quiet_of_state (by simp [h.state]) a, inAbs_of_loaded ht h ha⟩
  · intro s h
    refine Leads.seq (m := 31) (n := 1)
      (Leads.loop (fun k => InAbs σ sx sy t₀ X Y o₀ k) 31 ?_ h) ?_
    · intro k hk s a h ha
      exact ⟨quiet_of_state (by simp [h.state]) a, inAbs_next ht hk h ha⟩
    · intro s h a ha
      exact ⟨quiet_of_state (by simp [h.state]) a, inPass_of_inAbs ht hX hY h ha⟩

theorem Loaded.reaches {σ : Settlings} {sx sy : Bool} {t₀ X Y o₀ : ℕ} {s : Mul1024bit}
    (ht : t₀ < 32) (hX : X < base ^ 32) (hY : Y < base ^ 32) (h : Loaded σ sx sy t₀ X Y o₀ s) :
    Reaches (Done (product t₀ (inverted σ.x sx X 32) (inverted σ.y sy Y 32) o₀))
      (33 * (31 - t₀) + 162) s := by
  have hsplit : 33 * (31 - t₀) + 162 = 33 + (33 * (31 - t₀) + 129) := by omega
  rw [hsplit]
  refine (h.reaches_pass ht hX hY).seq ?_
  intro s h
  refine InPass.reaches (inverted_lt σ.y sy Y 32) ht (31 - t₀) (by omega)
    (Nat.pow_pos base_pos) ?_ h
  simp [Nat.mod_one]

theorem Loaded.reaches_word {σ : Settlings} {sx sy : Bool} {t₀ X Y o₀ j : ℕ} {s : Mul1024bit}
    (ht : t₀ < 32) (hX : X < base ^ 32) (hY : Y < base ^ 32) (hj : j ≤ 31)
    (h : Loaded σ sx sy t₀ X Y o₀ s) :
    Reaches (fun s => ∃ out,
      InPass t₀ (inverted σ.x sx X 32) (inverted σ.y sy Y 32) o₀ 0 0 0 j out s) (33 + j) s := by
  refine (h.reaches_pass ht hX hY).seq ?_
  intro s h
  refine Leads.loop (fun j s => ∃ out,
    InPass t₀ (inverted σ.x sx X 32) (inverted σ.y sy Y 32) o₀ 0 0 0 j out s) j ?_ ⟨0, h⟩
  rintro k hk s a ⟨out, h⟩ ha
  exact ⟨quiet_of_state (by simp [h.state]) a,
    inPass_next (Nat.pow_pos base_pos) (by omega) (by omega) h ha⟩

/-! ### Unsigned operands -/

/-- Smaller factors give the same product only if nothing changed. -/
theorem mul_eq_mul_of_le {a b x y : ℕ} (ha : a ≤ x) (hb : b ≤ y) :
    a * b = x * y ↔ x * y = 0 ∨ a = x ∧ b = y := by
  constructor
  · intro heq
    rcases Nat.eq_zero_or_pos (x * y) with hzero | hpos
    · exact Or.inl hzero
    · have hx : 0 < x := Nat.pos_of_mul_pos_right hpos
      have hy : 0 < y := Nat.pos_of_mul_pos_left hpos
      rcases Nat.lt_or_eq_of_le ha with hlt | rfl
      · have h1 : a * b ≤ a * y := Nat.mul_le_mul_left a hb
        have h2 : a * y < x * y := Nat.mul_lt_mul_of_pos_right hlt hy
        omega
      · exact Or.inr ⟨rfl, Nat.eq_of_mul_eq_mul_left hx heq⟩
  · rintro (hzero | ⟨rfl, rfl⟩)
    · rcases Nat.mul_eq_zero.mp hzero with rfl | rfl
      · rw [Nat.le_zero.mp ha, Nat.zero_mul, Nat.zero_mul]
      · rw [Nat.le_zero.mp hb, Nat.mul_zero, Nat.mul_zero]
    · rfl

/-- The sign unit gives the operand back. -/
def Kept (σ : Settling) (v : ℕ) : Prop := v < 2 ^ 1023 ∨ Symmetric σ v

theorem product_eq_iff {σ : Settlings} {X Y o₀ : ℕ} (hX : X < base ^ 32) (hY : Y < base ^ 32)
    (ho : o₀ < base ^ 64) :
    product 0 (magnitude σ.x X) (magnitude σ.y Y) o₀ = X * Y ↔
      X * Y = 0 ∨ Kept σ.x X ∧ Kept σ.y Y := by
  rw [product_zero (magnitude_lt σ.x X) ho, mul_eq_mul_of_le (magnitude_le hX) (magnitude_le hY),
    magnitude_eq_iff hX, magnitude_eq_iff hY]
  rfl

/-- A load pulse with `X` and `Y`, then kept enabled. -/
structure Loads (X Y : BitVec 1024) (i : ℕ → In) : Prop where
  enable : (i 0).iEnable = true
  load : (i 0).iLoad = true
  x : (i 0).iX = X
  y : (i 0).iY = Y
  held : ∀ t, hold (i (t + 1))

/-- Whatever the other inputs, the first valid cycle puts out `X * Y`. -/
def Multiplies (s : Mul1024bit) (X Y : BitVec 1024) : Prop :=
  ∀ i, Loads X Y i → ∃ T, (∀ t < T, (run next s i t).oDataValid = false) ∧
    (run next s i T).oDataValid = true ∧ (run next s i T).oZ.toNat = X.toNat * Y.toNat

/-- `Step` was left at its last count: the aborted multiplication was at the end of a pass. -/
def StaleStep (s : Mul1024bit) : Prop := s.control.step = 30

instance (s : Mul1024bit) : Decidable (StaleStep s) :=
  inferInstanceAs (Decidable (s.control.step = 30))

/-- Passes counted before the multiplication starts. -/
def counted (stale : Bool) : ℕ := if stale then 1 else 0

/-- The number put out for the operands `X` and `Y`. -/
def value (σ : Settlings) (stale : Bool) (X Y o₀ : ℕ) : ℕ :=
  product (counted stale) (magnitude σ.x X) (magnitude σ.y Y) o₀

theorem Idle.reaches_value {s : Mul1024bit} {i : In} {stale : Bool} {X Y o₀ : ℕ} (hs : s.Idle)
    (he : i.iEnable = true) (hl : i.iLoad = true) (hX : i.iX.toNat = X) (hY : i.iY.toNat = Y)
    (hstale : decide (StaleStep s) = stale) (ho : s.buffRegOutput.toNat = o₀) :
    Reaches (Done (value s.settling stale X Y o₀)) (33 * (31 - counted stale) + 162)
      (s.next i) := by
  have hloaded := loaded_of_load hs he hl
  have hstart : (if s.control.step = 30 then 1 else 0) = counted stale := by
    rw [← hstale]
    by_cases h30 : s.control.step = 30#6 <;> simp [StaleStep, counted, h30]
  rw [hstart, ho, hX, hY] at hloaded
  have hlt : counted stale < 32 := by cases stale <;> decide
  rw [value, magnitude, magnitude]
  exact hloaded.reaches hlt (hX ▸ lt_base_1024 i.iX) (hY ▸ lt_base_1024 i.iY)

/-- One count from the end of a pass: `Step` moves on even with `iEnable` low. -/
def LeavesStale (s : Mul1024bit) : Prop := s.control.state = .mulStep1 ∧ s.control.step = 29

instance (s : Mul1024bit) : Decidable (LeavesStale s) :=
  inferInstanceAs (Decidable (s.control.state = .mulStep1 ∧ s.control.step = 29))

theorem staleStep_next (s : Mul1024bit) (i : In) : StaleStep (s.next i) ↔ LeavesStale s := by
  have hstep : (s.next i).control.step =
      if s.control.state = .mulStep1 then if s.control.step = 30 then 0 else s.control.step + 1
      else 0 := by
    cases hs : s.control.state <;> simp [next, ControlMul1024.next, ControlMul1024.out, hs]
  rw [StaleStep, hstep, LeavesStale]
  generalize s.control.step = k
  by_cases hs : s.control.state = .mulStep1
  · simp only [hs, if_true, true_and]
    revert k
    decide
  · simp [hs]

theorem value_fresh {σ : Settlings} {X Y o₀ : ℕ} (ho : o₀ < base ^ 64) :
    value σ false X Y o₀ = magnitude σ.x X * magnitude σ.y Y :=
  product_zero (magnitude_lt σ.x X) ho

/-- The number a machine will put out that is loaded after one cycle with `iEnable` low. -/
def nextValue (s : Mul1024bit) (X Y : ℕ) : ℕ :=
  value s.settling (decide s.LeavesStale) X Y s.buffRegOutput.toNat

theorem nextValue_fresh {s : Mul1024bit} (hs : ¬ s.LeavesStale) (X Y : ℕ) :
    s.nextValue X Y = magnitude s.settling.x X * magnitude s.settling.y Y := by
  rw [nextValue, decide_eq_false hs, value_fresh (lt_base_2048 _)]

theorem value_next (s : Mul1024bit) (i : In) (X Y : ℕ) :
    value s.settling (decide (StaleStep (s.next i))) X Y (s.next i).buffRegOutput.toNat =
      s.nextValue X Y := by
  by_cases hs : s.LeavesStale
  · have hkept : (s.next i).buffRegOutput = s.buffRegOutput := by
      simp [next, ControlMul1024.out, hs.1]
    rw [nextValue, decide_eq_true hs, decide_eq_true ((staleStep_next s i).mpr hs), hkept]
  · have hfresh : ¬ StaleStep (s.next i) := fun h => hs ((staleStep_next s i).mp h)
    rw [nextValue_fresh hs, decide_eq_false hfresh, value_fresh (lt_base_2048 _)]

theorem nextValue_of_lt (s : Mul1024bit) {X Y : ℕ} (hX : X < 2 ^ 1023) (hY : Y < 2 ^ 1023) :
    s.nextValue X Y =
      if s.LeavesStale then s.buffRegOutput.toNat / base ^ 63 + X % base ^ 31 * Y * base
      else X * Y := by
  split
  · rename_i hs
    rw [nextValue, decide_eq_true hs, value, magnitude_of_lt hX, magnitude_of_lt hY, product]
    show _ + X % base ^ 31 * Y * base ^ 1 = _
    rw [pow_one]
    rfl
  · rename_i hs
    rw [nextValue_fresh hs, magnitude_of_lt hX, magnitude_of_lt hY]

/-- The first valid cycle is the only one that can be meant. -/
theorem multiplies_of_idle {s : Mul1024bit} (hs : s.Idle) (X Y : BitVec 1024) :
    Multiplies s X Y ↔
      value s.settling (decide (StaleStep s)) X.toNat Y.toNat s.buffRegOutput.toNat =
        X.toNat * Y.toNat := by
  have hrun : ∀ i, Loads X Y i → ∃ m, (∀ t < m, (run next s i t).oDataValid = false) ∧
      Done (value s.settling (decide (StaleStep s)) X.toNat Y.toNat s.buffRegOutput.toNat)
        (run next s i m) := by
    intro i hi
    have hquiet : quiet s (i 0) := quiet_of_state (by simp [hs.state]) (i 0)
    have hreach := hs.reaches_value hi.enable hi.load (congrArg BitVec.toNat hi.x)
      (congrArg BitVec.toNat hi.y) rfl rfl
    exact ⟨_, Leads.run_cons i hquiet hreach fun t _ => hi.held t⟩
  constructor
  · intro hall
    have hi : Loads X Y fun t => ⟨true, decide (t = 0), X, Y⟩ :=
      ⟨rfl, rfl, rfl, rfl, fun t => ⟨rfl, rfl⟩⟩
    obtain ⟨m, hbefore, hdone⟩ := hrun _ hi
    have hz := (first_iff hbefore hdone.valid).mp (hall _ hi)
    rw [hdone.z] at hz
    exact hz
  · intro hz i hi
    obtain ⟨m, hbefore, hdone⟩ := hrun i hi
    exact (first_iff hbefore hdone.valid).mpr (hdone.z.trans hz)

/-- After a cycle with `iEnable` low: the top bit of an operand is taken for a sign, and the
product is not given it back; a stale `Step` costs the first pass. -/
theorem multiplies_iff (s : Mul1024bit) (low : In) (hlow : low.iEnable = false)
    (X Y : BitVec 1024) :
    Multiplies (s.next low) X Y ↔
      if StaleStep (s.next low) then
        product 1 (magnitude s.settling.x X.toNat) (magnitude s.settling.y Y.toNat)
            (s.next low).buffRegOutput.toNat =
          X.toNat * Y.toNat
      else X.toNat * Y.toNat = 0 ∨ Kept s.settling.x X.toNat ∧ Kept s.settling.y Y.toNat := by
  rw [multiplies_of_idle (idle_of_disabled s low hlow)]
  split
  · rename_i hstale
    rw [decide_eq_true hstale]
    rfl
  · rename_i hstale
    rw [decide_eq_false hstale]
    exact product_eq_iff (lt_base_1024 X) (lt_base_1024 Y) (lt_base_2048 _)

/-- All registers zero. -/
def atRest (σ : Settlings) : Mul1024bit where
  control := ⟨.initial, 0, 0, 0, 0, false⟩
  signX := false
  signY := false
  buffRegX := 0
  buffRegY := 0
  buffRegZ := 0
  buffRegOutput := 0
  carry := 0
  invertX := .cleared σ.x
  invertY := .cleared σ.y
  invertZ := .cleared .tempFirst

def cleared : Mul1024bit := atRest ⟨.tempFirst, .tempFirst⟩

/-- A cycle with `iEnable` low. -/
def disabled : In := ⟨false, false, 0, 0⟩

theorem multiplies_three :
    Multiplies (cleared.next disabled) 3#1024 5#1024 ↔
      if StaleStep (cleared.next disabled) then
        product 1 (magnitude cleared.settling.x (3#1024).toNat)
            (magnitude cleared.settling.y (5#1024).toNat) (cleared.next disabled).buffRegOutput.toNat =
          (3#1024).toNat * (5#1024).toNat
      else (3#1024).toNat * (5#1024).toNat = 0 ∨
        Kept cleared.settling.x (3#1024).toNat ∧ Kept cleared.settling.y (5#1024).toNat :=
  multiplies_iff cleared disabled rfl 3#1024 5#1024

/-- The operand `2 ^ 1024 - 1` counts as minus one, however the sign units come to rest. -/
theorem not_kept_allOnes (σ : Settling) : ¬ Kept σ (BitVec.allOnes 1024).toNat := by
  rintro (hlt | ⟨f, hf, -, -, hrest⟩)
  · exact absurd hlt (by decide +kernel)
  · exact absurd (hrest 31 le_rfl hf) (by decide +kernel)

theorem not_multiplies_allOnes :
    ¬ ∃ σ : Settlings, ∀ (s : Mul1024bit) (low : In) (X Y : BitVec 1024), s.settling = σ →
      low.iEnable = false → Multiplies (s.next low) X Y := by
  rintro ⟨σ, h⟩
  have hidle := idle_of_disabled (atRest σ) disabled rfl
  have heq := (multiplies_of_idle hidle _ _).mp
    (h (atRest σ) disabled (BitVec.allOnes 1024) 1#1024 rfl rfl)
  have hfresh : decide (StaleStep ((atRest σ).next disabled)) = false := rfl
  rw [hfresh] at heq
  have hcond := (product_eq_iff (lt_base_1024 _) (lt_base_1024 _) (lt_base_2048 _)).mp heq
  rcases hcond with hzero | ⟨hkept, -⟩
  · exact absurd hzero (by decide +kernel)
  · exact not_kept_allOnes _ hkept

end Mul1024bit

end SocCrypto.Rsa

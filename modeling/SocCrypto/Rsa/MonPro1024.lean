import SocCrypto.Montgomery
import SocCrypto.Rsa.Mul1024bit

/-!
# The Montgomery multiplier

`MonPro1024.v`: the full product of `X` and `Y` from `Mul1024bit`, then 32 rounds that add the
multiple of `N` clearing the lowest word, carry into the upper half and shift both halves by
one word, and at the end a comparison with `N` and a subtraction where it is due.
-/

namespace SocCrypto.Rsa
open WordSerial Clocked ShiftSubtract

/-! ### The machine -/

/-- `State`, in the order 0 to 8. -/
inductive MonProState where
  | initial
  | mul
  | m
  | mulM
  | addCarry
  | shiftT
  | compare
  | sub
  | temp
  deriving DecidableEq

/-- The control outputs, which are latches. -/
structure MonProControl where
  val1Enable : Bool
  val1EnableCarry : Bool
  regTEnable : Bool
  regTMuxT : BitVec 2
  regT1Enable : Bool
  regT1MuxT : BitVec 2
  regNEnable : Bool
  mulEnable : Bool
  mulLoad : Bool
  mEnable : Bool
  addEnable : Bool
  compareEnable : Bool
  subEnable : Bool
  oDataValid : Bool
  deriving DecidableEq

structure MonPro1024 where
  state : MonProState
  compareCount : BitVec 6
  x : BitVec 1024
  y : BitVec 1024
  n : BitVec 1024
  n0 : BitVec 1024
  t : BitVec 1024
  t1 : BitVec 1024
  mul : Mul1024bit
  mulCount : BitVec 2
  m : Word
  val1Count : BitVec 6
  carry : Word
  add : Add1024
  addCount : Bool
  compare : Compare1024
  sub : Sub1024
  latch : MonProControl
  deriving DecidableEq

namespace MonPro1024

structure In where
  iEnable : Bool
  iLoad : Bool
  iX : BitVec 1024
  iY : BitVec 1024
  iN : BitVec 1024
  iN0 : BitVec 1024

def fromT (s : MonPro1024) : Word := lowWord s.t
def fromT1 (s : MonPro1024) : Word := lowWord s.t1
def fromN (s : MonPro1024) : Word := lowWord s.n
def fromN0 (s : MonPro1024) : Word := lowWord s.n0

def compareMode (s : MonPro1024) : BitVec 2 := Compare1024.oMode s.compare

/-- The settled control outputs of the current cycle. -/
def control (s : MonPro1024) : MonProControl :=
  match s.state with
  | .initial =>
    { s.latch with
      val1Enable := false, regTEnable := false, regTMuxT := 0, val1EnableCarry := false,
      mulEnable := false, mulLoad := false, oDataValid := false, regNEnable := false,
      regT1MuxT := 0, addEnable := false, compareEnable := false, subEnable := false }
  | .mul => { s.latch with mulEnable := true, mulLoad := true, addEnable := false }
  | .m =>
    { s.latch with
      regTEnable := false, mulEnable := false, mulLoad := false, mEnable := true,
      addEnable := false, regT1Enable := false, regT1MuxT := 0, val1EnableCarry := false }
  | .mulM =>
    { s.latch with
      mEnable := false, val1Enable := true, regTEnable := true, regTMuxT := 1,
      val1EnableCarry := true, regNEnable := true, addEnable := false }
  | .addCarry =>
    { s.latch with
      regNEnable := false, val1Enable := false, regTEnable := false, regTMuxT := 0,
      addEnable := true, regT1Enable := true, regT1MuxT := 1 }
  | .shiftT =>
    { s.latch with
      regNEnable := false, val1Enable := false, addEnable := false, regT1Enable := true,
      regT1MuxT := 2, regTEnable := true, regTMuxT := 2 }
  | .compare =>
    if s.compareMode = 0 then
      { s.latch with
        compareEnable := true, val1Enable := false, regTEnable := true, regTMuxT := 0,
        regNEnable := true, regT1MuxT := 0 }
    else
      { s.latch with
        compareEnable := true, val1Enable := false, regTEnable := false, regTMuxT := 0,
        regNEnable := false, regT1MuxT := 0 }
  | .sub =>
    { s.latch with
      subEnable := true, compareEnable := false, regTEnable := true, regNEnable := true,
      regT1MuxT := 0, regTMuxT := 3 }
  | .temp =>
    { s.latch with
      val1Enable := false, regTEnable := false, regTMuxT := 0, val1EnableCarry := false,
      mulEnable := false, mulLoad := false, oDataValid := true, regNEnable := false,
      regT1MuxT := 0, addEnable := false, compareEnable := false, subEnable := false }

def oDataValid (s : MonPro1024) : Bool := s.control.oDataValid
def oZ (s : MonPro1024) : BitVec 1024 := if s.oDataValid then s.t else 0

/-- Ports of the multiplier. -/
def mulIn (s : MonPro1024) : Mul1024bit.In where
  iEnable := s.control.mulEnable
  iLoad := if s.mulCount ≠ 0 then s.control.mulLoad else false
  iX := s.x
  iY := s.y

/-- `Val1 = FromT + M * FromN + Carry` in 64 bits. -/
def val1 (s : MonPro1024) : BitVec 64 :=
  s.fromT.setWidth 64 + s.m.setWidth 64 * s.fromN.setWidth 64 + s.carry.setWidth 64

def addY (s : MonPro1024) : Word := if s.addCount then s.carry else 0

def toT (s : MonPro1024) : Word :=
  if s.control.regTMuxT = 1 then s.val1.setWidth 32
  else if s.control.regTMuxT = 0 then s.fromT
  else if s.control.regTMuxT = 3 then Sub1024.oZ s.sub s.fromT s.fromN
  else s.fromT1

def toT1 (s : MonPro1024) : Word :=
  if s.control.regT1MuxT = 1 then Add1024.oZ s.add s.fromT1 s.addY
  else if s.control.regT1MuxT = 0 then s.fromT1
  else 0

def next (s : MonPro1024) (i : In) : MonPro1024 :=
  let o := s.control
  { latch := o
    x := if i.iLoad then i.iX else s.x
    y := if i.iLoad then i.iY else s.y
    n := if i.iLoad then i.iN else if o.regNEnable then shiftIn s.n s.fromN else s.n
    n0 := if i.iLoad then i.iN0 else s.n0
    t :=
      if s.mul.oDataValid then s.mul.oZ.setWidth 1024
      else if o.regTEnable then shiftIn s.t s.toT
      else s.t
    t1 :=
      if s.mul.oDataValid then (s.mul.oZ >>> 1024).setWidth 1024
      else if o.regT1Enable then shiftIn s.t1 s.toT1
      else s.t1
    mul := s.mul.next s.mulIn
    mulCount := if !o.mulLoad then 1 else if s.mulCount ≠ 0 then 0 else s.mulCount
    m := if o.mEnable then s.fromT * s.fromN0 else s.m
    val1Count :=
      if !o.val1Enable then 0 else if s.val1Count < 31 then s.val1Count + 1 else 0
    carry := if o.val1EnableCarry then (s.val1 >>> 32).setWidth 32 else 0
    addCount := if !o.addEnable then true else if s.addCount then false else s.addCount
    add := Add1024.next s.add o.addEnable s.fromT1 s.addY
    compare := Compare1024.next s.compare o.compareEnable s.fromT s.fromN
    sub := Sub1024.next s.sub o.subEnable s.fromT s.fromN
    compareCount :=
      if !i.iEnable then 0
      else if s.state = .shiftT then if s.compareCount < 34 then s.compareCount + 1 else 0
      else s.compareCount
    state :=
      if !i.iEnable then .initial
      else
        match s.state with
        | .initial => if i.iLoad then .mul else .initial
        | .mul => if s.mul.oDataValid then .m else .mul
        | .m => if s.compareCount = 32 then .compare else .mulM
        | .mulM => if s.val1Count = 31 then .addCarry else .mulM
        | .addCarry => if s.add.oFinish then .shiftT else .addCarry
        | .shiftT => .m
        | .compare =>
          if s.compareMode = 3 then .sub
          else if s.compareMode = 1 then .sub
          else if s.compareMode = 2 then .temp
          else .compare
        | .sub => if s.sub.oFinish then .temp else .sub
        | .temp => .initial }

/-! ### Phases of a product

`AtMul`, `AtM`, `InMulM`, `InAdd`, `AtShift`, `InCompare`, `InSub` and `Done` follow one
product. `t` is the value of both halves together, `N₀` the constant whose low word finds
the multiples of `N`. -/

/-- Inputs of the cycles after the load pulse. -/
def hold (i : In) : Prop := i.iEnable = true ∧ i.iLoad = false

def quiet (s : MonPro1024) (_ : In) : Prop := s.oDataValid = false

/-- The comparator and the subtractor wait for the end of the rounds. -/
structure Parked (s : MonPro1024) : Prop where
  compareOff : s.latch.compareEnable = false
  compare : s.compare = ⟨0, false, false⟩
  subOff : s.latch.subEnable = false
  sub : s.sub = ⟨0, false, false⟩
  valid : s.latch.oDataValid = false

/-- The multiplier is off. -/
structure Spent (s : MonPro1024) : Prop where
  off : s.latch.mulEnable = false
  noProduct : s.mul.oDataValid = false

/-- Waiting for the multiplier; `c` is 1 in the cycle of its load pulse. -/
structure AtMul (N N₀ : ℕ) (c : BitVec 2) (s : MonPro1024) : Prop where
  state : s.state = .mul
  regN : s.n.toNat = N
  regN0 : s.n0.toNat = N₀
  count : s.mulCount = c
  rounds : s.compareCount = 0
  val1Off : s.latch.val1Enable = false
  nOff : s.latch.regNEnable = false
  parked : s.Parked

/-- At the start of round `k`. -/
structure AtM (N N₀ k t : ℕ) (s : MonPro1024) : Prop where
  state : s.state = .m
  regT : s.t.toNat + s.t1.toNat * base ^ 32 = t
  regN : s.n.toNat = N
  regN0 : s.n0.toNat = N₀
  rounds : s.compareCount.toNat = k
  val1Off : s.latch.val1Enable = false
  nOff : s.latch.regNEnable = false
  noProduct : s.mul.oDataValid = false
  parked : s.Parked

/-- Cycle `j` of the pass that adds `q * N` to the lower half `lo`. -/
structure InMulM (N N₀ k q lo hi j out : ℕ) (s : MonPro1024) : Prop where
  state : s.state = .mulM
  regM : s.m.toNat = q
  val1Count : s.val1Count.toNat = j
  regT : Shifted base 32 lo j out s.t.toNat
  acc : MulAdded base lo q N j out s.carry.toNat
  regT1 : s.t1.toNat = hi
  t1Off : s.latch.regT1Enable = false
  regN : Shifted base 32 N j (N % base ^ j) s.n.toNat
  regN0 : s.n0.toNat = N₀
  rounds : s.compareCount.toNat = k
  add : s.add = ⟨0, false, false⟩
  addCount : s.addCount = true
  spent : s.Spent
  parked : s.Parked

/-- Cycle `j` of the pass that adds the carry word `c` to the upper half `hi`. -/
structure InAdd (N N₀ k lo hi c j out : ℕ) (s : MonPro1024) : Prop where
  state : s.state = .addCarry
  regT : s.t.toNat = lo
  regT1 : Shifted base 32 hi j out s.t1.toNat
  add : ∃ b, s.add.At 30 j b ∧ Added base hi c j out b.toNat
  addY : s.addY.toNat = digit base c j
  addCount : 0 < j → s.addCount = false
  regN : s.n.toNat = N
  regN0 : s.n0.toNat = N₀
  rounds : s.compareCount.toNat = k
  spent : s.Spent
  parked : s.Parked

/-- The word shift that ends a round. -/
structure AtShift (N N₀ k lo hi : ℕ) (s : MonPro1024) : Prop where
  state : s.state = .shiftT
  regT : s.t.toNat = lo
  regT1 : s.t1.toNat = hi
  regN : s.n.toNat = N
  regN0 : s.n0.toNat = N₀
  rounds : s.compareCount.toNat = k
  spent : s.Spent
  parked : s.Parked

/-- Cycle `k` of the comparison of the lower half with `N`. -/
structure InCompare (N t k : ℕ) (s : MonPro1024) : Prop where
  state : s.state = .compare
  regT : Shifted base 32 t k (t % base ^ k) s.t.toNat
  regN : Shifted base 32 N k (N % base ^ k) s.n.toNat
  compare : s.compare.At t N k
  subOff : s.latch.subEnable = false
  sub : s.sub = ⟨0, false, false⟩
  valid : s.latch.oDataValid = false
  spent : s.Spent

/-- Cycle `k` of the last subtraction. -/
structure InSub (N t k out : ℕ) (s : MonPro1024) : Prop where
  state : s.state = .sub
  regT : Shifted base 32 t k out s.t.toNat
  regN : Shifted base 32 N k (N % base ^ k) s.n.toNat
  sub : ∃ c, s.sub.At 30 k c ∧ Subbed base t N k out c.toNat
  valid : s.latch.oDataValid = false
  spent : s.Spent

/-- The valid cycle. -/
structure Done (z : ℕ) (s : MonPro1024) : Prop where
  state : s.state = .temp
  valid : s.oDataValid = true
  z : s.oZ.toNat = z

section
variable {N N₀ k t : ℕ} {s : MonPro1024} {i : In}

theorem parked_next (hcompare : s.control.compareEnable = false)
    (hsub : s.control.subEnable = false) (hvalid : s.control.oDataValid = false) (i : In) :
    (s.next i).Parked := by
  constructor <;> simp [next, hcompare, hsub, hvalid, Compare1024.next, Comparator.next,
    Sub1024.next, SerialUnit.next]

/-- The multiplier has no product to give in the cycle after a cycle it was disabled in. -/
theorem noProduct_of_disabled {c : Mul1024bit} {a : Mul1024bit.In} (ha : a.iEnable = false) :
    (c.next a).oDataValid = false := by
  simp [Mul1024bit.oDataValid, ControlMul1024.out, (Mul1024bit.idle_of_disabled c a ha).state]

theorem spent_next (h : s.control.mulEnable = false) (i : In) : (s.next i).Spent := by
  constructor
  · exact h
  · exact noProduct_of_disabled (by simp [mulIn, h])

/-! #### The product -/

theorem atMul_of_load (hs : s.state = .initial) (hcount : s.compareCount = 0)
    (he : i.iEnable = true) (hl : i.iLoad = true) :
    AtMul i.iN.toNat i.iN0.toNat 1 (s.next i) ∧ (s.next i).mul = s.mul.next s.mulIn ∧
      s.mulIn.iEnable = false := by
  refine ⟨?_, rfl, ?_⟩
  · constructor
    case parked =>
      refine parked_next ?_ ?_ ?_ i <;> simp [control, hs]
    all_goals simp [next, control, hs, hcount, he, hl]
  · simp [mulIn, control, hs]

theorem atMul_next {c : BitVec 2} (h : AtMul N N₀ c s)
    (hquiet : s.mul.oDataValid = false) (hi : hold i) : AtMul N N₀ 0 (s.next i) := by
  obtain ⟨he, hl⟩ := hi
  constructor
  case parked =>
    refine parked_next ?_ ?_ ?_ i <;>
      simp [control, h.state, h.parked.compareOff, h.parked.subOff, h.parked.valid]
  case count =>
    by_cases hzero : s.mulCount = 0#2
    · simp [next, control, h.state, hzero]
    · simp [next, control, h.state, hzero]
  all_goals simp [next, control, h.state, he, hl, hquiet, h.regN, h.regN0, h.rounds, h.val1Off, h.nOff]

theorem halves (z : BitVec 2048) :
    (z.setWidth 1024).toNat + ((z >>> 1024).setWidth 1024).toNat * base ^ 32 = z.toNat := by
  have hlt := z.isLt
  have hpow : base ^ 32 = 2 ^ 1024 := by rw [base, ← pow_mul]
  have hhigh : z.toNat / 2 ^ 1024 < 2 ^ 1024 := by
    refine (Nat.div_lt_iff_lt_mul (Nat.two_pow_pos 1024)).mpr ?_
    rw [← pow_add]
    exact hlt
  rw [BitVec.toNat_setWidth, BitVec.toNat_setWidth, BitVec.toNat_ushiftRight,
    Nat.shiftRight_eq_div_pow, Nat.mod_eq_of_lt hhigh, hpow, Nat.mul_comm]
  exact Nat.mod_add_div ..

theorem atM_of_atMul {z : ℕ} (h : AtMul N N₀ 0 s) (hz : Mul1024bit.Done z s.mul) (hi : hold i) :
    AtM N N₀ 0 z (s.next i) := by
  obtain ⟨he, hl⟩ := hi
  constructor
  case regT => simpa [next, hz.valid, hz.z] using halves s.mul.oZ
  case noProduct =>
    have hfinish := hz.state
    show (s.mul.next s.mulIn).oDataValid = false
    have hnext : (s.mul.next s.mulIn).control.state = .initial := by
      simp [Mul1024bit.next, ControlMul1024.next, hfinish]
    simp [Mul1024bit.oDataValid, ControlMul1024.out, hnext]
  case parked =>
    refine parked_next ?_ ?_ ?_ i <;>
      simp [control, h.state, h.parked.compareOff, h.parked.subOff, h.parked.valid]
  all_goals simp [next, control, h.state, he, hl, hz.valid, h.regN, h.regN0, h.rounds, h.val1Off, h.nOff]

/-! #### The rounds -/

/-- The value of both halves after one round. -/
def round (N N₀ t : ℕ) : ℕ := (t + Montgomery.quotient base N₀ t * N) % base ^ 64 / base

theorem halves_of_value {lo hi : BitVec 1024} (h : lo.toNat + hi.toNat * base ^ 32 = t) :
    lo.toNat = t % base ^ 32 ∧ hi.toNat = t / base ^ 32 := by
  have hlo := lt_base_1024 lo
  have hpos : 0 < base ^ 32 := Nat.pow_pos base_pos
  rw [← h]
  refine ⟨?_, ?_⟩
  · rw [Nat.add_mul_mod_self_right, Nat.mod_eq_of_lt hlo]
  · rw [Nat.add_mul_div_right _ _ hpos, Nat.div_eq_of_lt hlo, Nat.zero_add]

theorem quotient_toNat {lo n0 : BitVec 1024} (hlo : lo.toNat = t % base ^ 32)
    (hn0 : n0.toNat = N₀) : (lowWord lo * lowWord n0).toNat = Montgomery.quotient base N₀ t := by
  have hmod : t % base ^ 32 % base = t % base :=
    Nat.mod_mod_of_dvd t (dvd_pow_self base (by decide))
  rw [BitVec.toNat_mul, lowWord_toNat, lowWord_toNat, hlo, hn0, hmod]
  exact (Nat.mul_mod ..).symm

theorem inMulM_of_atM (hk : k ≠ 32) (h : AtM N N₀ k t s) (hi : hold i) :
    InMulM N N₀ k (Montgomery.quotient base N₀ t) (t % base ^ 32) (t / base ^ 32) 0 0
      (s.next i) := by
  obtain ⟨he, hl⟩ := hi
  obtain ⟨hlo, hhi⟩ := halves_of_value h.regT
  have hrounds : s.compareCount = 32#6 ↔ k = 32 := eq_ofNat_iff h.rounds (by decide)
  constructor
  case regM =>
    simpa [next, control, h.state, fromT, fromN0] using quotient_toNat hlo h.regN0
  case regT =>
    have hval : (s.next i).t.toNat = t % base ^ 32 := by
      simpa [next, control, h.state, h.noProduct] using hlo
    rw [hval]
    exact Shifted.start base 32 _
  case acc =>
    have hcarry : (s.next i).carry.toNat = 0 := by simp [next, control, h.state]
    rw [hcarry]
    exact MulAdded.start base _ _ N
  case regN =>
    have hval : (s.next i).n.toNat = N := by
      simp [next, control, h.state, h.nOff, hl, h.regN]
    rw [hval, pow_zero, Nat.mod_one]
    exact Shifted.start base 32 N
  case spent => exact spent_next (by simp [control, h.state]) i
  case parked =>
    refine parked_next ?_ ?_ ?_ i <;>
      simp [control, h.state, h.parked.compareOff, h.parked.subOff, h.parked.valid]
  all_goals simp [next, control, h.state, he, hl, hrounds, hk, h.noProduct, h.val1Off, hhi,
    h.regN0, h.rounds, Add1024.next, SerialUnit.next]

theorem val1_toNat (s : MonPro1024) :
    s.val1.toNat = s.fromT.toNat + s.m.toNat * s.fromN.toNat + s.carry.toNat := by
  have ht := s.fromT.isLt
  have hm := s.m.isLt
  have hn := s.fromN.isLt
  have hc := s.carry.isLt
  have hmul : s.m.toNat * s.fromN.toNat ≤ (2 ^ 32 - 1) * (2 ^ 32 - 1) :=
    Nat.mul_le_mul (by omega) (by omega)
  simp only [val1, BitVec.toNat_add, BitVec.toNat_mul, BitVec.toNat_setWidth]
  rw [Nat.mod_eq_of_lt (show s.fromT.toNat < 2 ^ 64 by omega),
    Nat.mod_eq_of_lt (show s.m.toNat < 2 ^ 64 by omega),
    Nat.mod_eq_of_lt (show s.fromN.toNat < 2 ^ 64 by omega),
    Nat.mod_eq_of_lt (show s.carry.toNat < 2 ^ 64 by omega),
    Nat.mod_eq_of_lt (show s.m.toNat * s.fromN.toNat < 2 ^ 64 by omega),
    Nat.mod_eq_of_lt (show s.fromT.toNat + s.m.toNat * s.fromN.toNat < 2 ^ 64 by omega),
    Nat.mod_eq_of_lt (show _ < 2 ^ 64 by omega)]

variable {q lo hi j out : ℕ}

theorem inMulM_digit (hj : j < 32) (h : InMulM N N₀ k q lo hi j out s) :
    s.val1.toNat = digit base lo j + q * digit base N j + s.carry.toNat := by
  rw [val1_toNat, fromT, fromN, Mul1024bit.lowWord_digit hj h.regT,
    Mul1024bit.lowWord_digit hj h.regN, h.regM]

theorem inMulM_acc (hj : j < 32) (h : InMulM N N₀ k q lo hi j out s) :
    MulAdded base lo q N (j + 1) (out + (s.val1.setWidth 32).toNat * base ^ j)
      ((s.val1 >>> 32).setWidth 32).toNat := by
  have hdig := inMulM_digit hj h
  have hacc := h.acc.next
  rw [← hdig] at hacc
  have hq : q < base := h.regM ▸ word_lt_base s.m
  have hlt : s.val1.toNat / base < base := by
    rw [hdig]
    exact mulAdd_carry_lt (digit_lt base_pos _ _) hq (digit_lt base_pos _ _)
      (word_lt_base s.carry)
  have hc : ((s.val1 >>> 32).setWidth 32).toNat = s.val1.toNat / base := by
    rw [BitVec.toNat_setWidth, BitVec.toNat_ushiftRight, Nat.shiftRight_eq_div_pow]
    exact Nat.mod_eq_of_lt hlt
  have hw : (s.val1.setWidth 32).toNat = s.val1.toNat % base := BitVec.toNat_setWidth ..
  rw [hc, hw]
  exact hacc

theorem inMulM_regT (hj : j < 32) (h : InMulM N N₀ k q lo hi j out s) :
    Shifted base 32 lo (j + 1) (out + (s.val1.setWidth 32).toNat * base ^ j)
      (s.next i).t.toNat := by
  have hnext := h.regT.next base_pos hj (word_lt_base (s.val1.setWidth 32))
  rw [← shiftIn_1024] at hnext
  simpa [next, control, h.state, h.spent.noProduct, toT] using hnext

theorem inMulM_next (hj : j < 31) (h : InMulM N N₀ k q lo hi j out s) (ha : hold i) :
    ∃ out', InMulM N N₀ k q lo hi (j + 1) out' (s.next i) := by
  obtain ⟨he, hl⟩ := ha
  have hlast : s.val1Count = 31#6 ↔ j = 31 := eq_ofNat_iff h.val1Count (by decide)
  have hne : ¬ j = 31 := by omega
  have hlt : s.val1Count < 31 := by
    rw [BitVec.lt_def, h.val1Count]
    exact hj
  refine ⟨out + (s.val1.setWidth 32).toNat * base ^ j, ?_⟩
  constructor
  case val1Count =>
    simp only [next, control, h.state, hlt, Bool.not_true, Bool.false_eq_true, if_false, if_true]
    exact toNat_add_one h.val1Count (by omega)
  case regT => exact inMulM_regT (by omega) h
  case acc =>
    simpa [next, control, h.state] using inMulM_acc (by omega) h
  case regN =>
    simpa [next, control, h.state, hl, fromN] using Mul1024bit.rotate_1024 (by omega) h.regN
  case spent => exact spent_next (by simp [control, h.state, h.spent.off]) i
  case parked =>
    refine parked_next ?_ ?_ ?_ i <;>
      simp [control, h.state, h.parked.compareOff, h.parked.subOff, h.parked.valid]
  all_goals simp [next, control, h.state, he, hl, hlast, hne, h.spent.noProduct, h.t1Off, h.regM, h.regT1,
    h.regN0, h.rounds, Add1024.next, SerialUnit.next]

/-- The last word of the pass: the sum is in the register and the carry word. -/
theorem inAdd_of_inMulM (hlo : lo < base ^ 32) (hN : N < base ^ 32)
    (h : InMulM N N₀ k q lo hi 31 out s) (ha : hold i) :
    ∃ lo' c, lo' < base ^ 32 ∧ c < base ∧ lo' + c * base ^ 32 = lo + q * N ∧
      InAdd N N₀ k lo' hi c 0 0 (s.next i) := by
  obtain ⟨he, hl⟩ := ha
  have hlast : s.val1Count = 31#6 := (eq_ofNat_iff h.val1Count (by decide)).mpr rfl
  have hregT := inMulM_regT (i := i) (by decide) h
  have hacc := inMulM_acc (by decide) h
  have hregN := (Mul1024bit.rotate_1024 (by decide) h.regN).rotate_full hN
  unfold MulAdded at hacc
  rw [Nat.mod_eq_of_lt hlo, Nat.mod_eq_of_lt hN] at hacc
  refine ⟨_, _, hregT.1, word_lt_base _, hacc, ?_⟩
  constructor
  case regT => exact hregT.full hlo
  case regT1 =>
    have hval : (s.next i).t1.toNat = hi := by
      simpa [next, control, h.state, h.spent.noProduct, h.t1Off] using h.regT1
    rw [hval]
    exact Shifted.start base 32 hi
  case add =>
    refine ⟨false, ?_, Added.start base hi _⟩
    have hval : (s.next i).add = ⟨0, false, false⟩ := by
      simp [next, control, h.state, Add1024.next, SerialUnit.next]
    rw [hval]
    exact SerialUnit.at_start 30
  case addY =>
    have hcount : (s.next i).addCount = true := by simp [next, control, h.state]
    have hcarry : (s.next i).carry = (s.val1 >>> 32).setWidth 32 := by
      simp [next, control, h.state]
    rw [addY, hcount, hcarry, if_pos rfl, digit, pow_zero, Nat.div_one]
    exact (Nat.mod_eq_of_lt (word_lt_base _)).symm
  case regN =>
    simpa [next, control, h.state, hl, fromN] using hregN
  case spent => exact spent_next (by simp [control, h.state, h.spent.off]) i
  case parked =>
    refine parked_next ?_ ?_ ?_ i <;>
      simp [control, h.state, h.parked.compareOff, h.parked.subOff, h.parked.valid]
  all_goals simp [next, control, h.state, he, hl, hlast, h.regN0, h.rounds]

variable {c : ℕ}

theorem inAdd_digit {b : Bool} (hj : j < 32) (h : InAdd N N₀ k lo hi c j out s)
    (hb : s.add.carry = b) (hadd : Added base hi c j out b.toNat) :
    Added base hi c (j + 1) (out + (Add1024.oZ s.add s.fromT1 s.addY).toNat * base ^ j)
      ((sum s.fromT1 s.addY s.add.carry).getLsbD 32).toNat := by
  obtain ⟨hz, hcarry⟩ := sum_digit s.fromT1 s.addY s.add.carry
  have hnext := hadd.next
  have hx : s.fromT1.toNat = digit base hi j := Mul1024bit.lowWord_digit hj h.regT1
  rw [← hx, ← h.addY, ← hb, ← hcarry, ← hz] at hnext
  exact hnext

theorem inAdd_regT1 (hj : j < 32) (h : InAdd N N₀ k lo hi c j out s) :
    Shifted base 32 hi (j + 1) (out + (Add1024.oZ s.add s.fromT1 s.addY).toNat * base ^ j)
      (s.next i).t1.toNat := by
  have hnext := h.regT1.next base_pos hj (word_lt_base (Add1024.oZ s.add s.fromT1 s.addY))
  rw [← shiftIn_1024] at hnext
  simpa [next, control, h.state, h.spent.noProduct, toT1] using hnext

theorem inAdd_next (hc : c < base) (hj : j < 31) (h : InAdd N N₀ k lo hi c j out s) (ha : hold i) :
    ∃ out', InAdd N N₀ k lo hi c (j + 1) out' (s.next i) := by
  obtain ⟨he, hl⟩ := ha
  obtain ⟨b, hat, hadd⟩ := h.add
  have hfin : s.add.oFinish = false := by
    rw [hat.finish]
    exact decide_eq_false (Nat.not_lt.mpr (show j ≤ 30 by omega))
  have hcount : (s.next i).addCount = false := by
    by_cases hfirst : s.addCount = true <;> simp [next, control, h.state, hfirst]
  refine ⟨out + (Add1024.oZ s.add s.fromT1 s.addY).toNat * base ^ j, ?_⟩
  constructor
  case regT1 => exact inAdd_regT1 (by omega) h
  case add =>
    refine ⟨(sum s.fromT1 s.addY s.add.carry).getLsbD 32, ?_, inAdd_digit (by omega) h hat.1 hadd⟩
    have hnext := SerialUnit.at_next (show j ≤ (30 : BitVec 7).toNat from by
      show j ≤ 30
      omega) hat ((sum s.fromT1 s.addY s.add.carry).getLsbD 32)
    simpa [next, control, h.state, Add1024.next] using hnext
  case addY =>
    have hzero : c / base ^ (j + 1) = 0 :=
      Nat.div_eq_of_lt (lt_of_lt_of_le hc (Nat.le_self_pow (by omega) base))
    rw [addY, hcount, digit, hzero]
    rfl
  case addCount => exact fun _ => hcount
  case spent => exact spent_next (by simp [control, h.state, h.spent.off]) i
  case parked =>
    refine parked_next ?_ ?_ ?_ i <;>
      simp [control, h.state, h.parked.compareOff, h.parked.subOff, h.parked.valid]
  all_goals simp [next, control, h.state, he, hl, hfin, h.spent.noProduct, h.regT, h.regN,
    h.regN0, h.rounds]

/-- The last word of the upper half; a carry out of it is lost. -/
theorem atShift_of_inAdd (hhi : hi < base ^ 32) (hc : c < base)
    (h : InAdd N N₀ k lo hi c 31 out s) (ha : hold i) :
    AtShift N N₀ k lo ((hi + c) % base ^ 32) (s.next i) := by
  obtain ⟨he, hl⟩ := ha
  obtain ⟨b, hat, hadd⟩ := h.add
  have hfin : s.add.oFinish = true := by
    rw [hat.finish]
    rfl
  constructor
  case regT1 =>
    have hregT1 := inAdd_regT1 (i := i) (by decide) h
    have hsum := inAdd_digit (by decide) h hat.1 hadd
    have hcR : c < base ^ 32 := lt_of_lt_of_le hc (Nat.le_self_pow (by decide) base)
    unfold Added at hsum
    rw [Nat.mod_eq_of_lt hhi, Nat.mod_eq_of_lt hcR] at hsum
    rw [hregT1.full hhi, ← hsum, Nat.add_mul_mod_self_right]
    exact (Nat.mod_eq_of_lt hregT1.1).symm
  case spent => exact spent_next (by simp [control, h.state, h.spent.off]) i
  case parked =>
    refine parked_next ?_ ?_ ?_ i <;>
      simp [control, h.state, h.parked.compareOff, h.parked.subOff, h.parked.valid]
  all_goals simp [next, control, h.state, he, hl, hfin, h.spent.noProduct, h.regT, h.regN,
    h.regN0, h.rounds]

theorem atM_of_atShift (hk : k < 32) (h : AtShift N N₀ k lo hi s) (ha : hold i) :
    AtM N N₀ (k + 1) ((lo + hi * base ^ 32) / base) (s.next i) := by
  obtain ⟨he, hl⟩ := ha
  have hlt : s.compareCount < 34 := by
    rw [BitVec.lt_def, h.rounds]
    exact lt_trans hk (by decide)
  constructor
  case regT =>
    have hT : (s.next i).t = shiftIn s.t s.fromT1 := by
      simp [next, control, h.state, h.spent.noProduct, toT]
    have hT1 : (s.next i).t1 = shiftIn s.t1 0 := by
      simp [next, control, h.state, h.spent.noProduct, toT1]
    have hpow : base ^ 32 = base ^ 31 * base := pow_succ base 31
    have hsplit := Nat.mod_add_div hi base
    rw [hT, hT1, shiftIn_1024, shiftIn_1024, h.regT, h.regT1, fromT1, lowWord_toNat, h.regT1, hpow,
      ← Nat.mul_assoc hi, Nat.add_mul_div_right _ _ base_pos]
    calc lo / base + hi % base * base ^ 31 + (hi / base + (0#32).toNat * base ^ 31) *
          (base ^ 31 * base)
        = lo / base + (hi % base + base * (hi / base)) * base ^ 31 := by
          rw [BitVec.toNat_ofNat]
          ring
      _ = lo / base + hi * base ^ 31 := by rw [hsplit]
  case rounds =>
    simp only [next, h.state, he, hlt, Bool.not_true, Bool.false_eq_true, if_false, if_true]
    exact toNat_add_one h.rounds (by omega)
  case noProduct =>
    exact noProduct_of_disabled (by simp [mulIn, control, h.state, h.spent.off])
  case parked =>
    refine parked_next ?_ ?_ ?_ i <;>
      simp [control, h.state, h.parked.compareOff, h.parked.subOff, h.parked.valid]
  all_goals simp [next, control, h.state, he, hl, h.regN, h.regN0]

/-- The value a round leaves behind. -/
theorem round_eq {c' : ℕ} (hlo : lo < base ^ 32)
    (hsum : lo + c' * base ^ 32 = t % base ^ 32 + Montgomery.quotient base N₀ t * N) :
    (lo + (t / base ^ 32 + c') % base ^ 32 * base ^ 32) / base = round N N₀ t := by
  have hpow : base ^ 64 = base ^ 32 * base ^ 32 := by rw [← pow_add]
  have htotal : t + Montgomery.quotient base N₀ t * N =
      lo + (t / base ^ 32 + c') * base ^ 32 := by
    have hsplit := Nat.mod_add_div t (base ^ 32)
    calc t + Montgomery.quotient base N₀ t * N
        = t % base ^ 32 + base ^ 32 * (t / base ^ 32) + Montgomery.quotient base N₀ t * N := by
          rw [hsplit]
      _ = lo + c' * base ^ 32 + t / base ^ 32 * base ^ 32 := by
          rw [hsum]
          ring
      _ = lo + (t / base ^ 32 + c') * base ^ 32 := by ring
  have hdiv : (lo + (t / base ^ 32 + c') * base ^ 32) / base ^ 32 = t / base ^ 32 + c' := by
    rw [Nat.add_mul_div_right _ _ (Nat.pow_pos base_pos), Nat.div_eq_of_lt hlo, Nat.zero_add]
  have hmod : (lo + (t / base ^ 32 + c') * base ^ 32) % base ^ 32 = lo := by
    rw [Nat.add_mul_mod_self_right, Nat.mod_eq_of_lt hlo]
  rw [round, htotal, hpow, Nat.mod_mul, hdiv, hmod, Nat.mul_comm (base ^ 32)]

/-! #### The last subtraction -/

theorem inCompare_of_atM (h : AtM N N₀ 32 t s) (ha : hold i) :
    InCompare N (t % base ^ 32) 0 (s.next i) := by
  obtain ⟨he, hl⟩ := ha
  obtain ⟨hlo, -⟩ := halves_of_value h.regT
  have hrounds : s.compareCount = 32#6 := (eq_ofNat_iff h.rounds (by decide)).mpr rfl
  have hparked : (s.next i).Parked := by
    refine parked_next ?_ ?_ ?_ i <;>
      simp [control, h.state, h.parked.compareOff, h.parked.subOff, h.parked.valid]
  constructor
  case regT =>
    have hval : (s.next i).t.toNat = t % base ^ 32 := by
      simpa [next, control, h.state, h.noProduct] using hlo
    rw [hval, pow_zero, Nat.mod_one]
    exact Shifted.start base 32 _
  case regN =>
    have hval : (s.next i).n.toNat = N := by
      simp [next, control, h.state, h.nOff, hl, h.regN]
    rw [hval, pow_zero, Nat.mod_one]
    exact Shifted.start base 32 N
  case compare =>
    rw [hparked.compare]
    exact Comparator.at_start _ N
  case state => simp [next, he, h.state, hrounds]
  case subOff => exact hparked.subOff
  case sub => exact hparked.sub
  case valid => exact hparked.valid
  case spent => exact spent_next (by simp [control, h.state]) i

theorem sub_off (u : Sub1024) (a b : Word) : Sub1024.next u false a b = ⟨0, false, false⟩ := rfl

theorem inCompare_next (hk : k < 32) (h : InCompare N t k s) (ha : hold i) :
    InCompare N t (k + 1) (s.next i) := by
  obtain ⟨he, hl⟩ := ha
  have hmode : s.compareMode = 0 := Comparator.At.busy (32 : BitVec 7) hk h.compare
  constructor
  case regT =>
    simpa [next, control, h.state, hmode, h.spent.noProduct, toT, fromT] using
      Mul1024bit.rotate_1024 hk h.regT
  case regN =>
    simpa [next, control, h.state, hmode, hl, fromN] using Mul1024bit.rotate_1024 hk h.regN
  case compare =>
    have hnext := Comparator.at_next (32 : BitVec 7) hk h.compare s.fromT s.fromN
      (Mul1024bit.lowWord_digit hk h.regT) (Mul1024bit.lowWord_digit hk h.regN)
    simpa [next, control, h.state, hmode, Compare1024.next] using hnext
  case spent => exact spent_next (by simp [control, h.state, hmode, h.spent.off]) i
  all_goals simp [next, control, h.state, he, hmode, h.subOff, h.valid, sub_off]

theorem compareMode_verdict (ht : t < base ^ 32) (hN : N < base ^ 32) (h : InCompare N t 32 s) :
    s.compareMode = if t < N then 2 else if N < t then 1 else 3 :=
  Comparator.At.verdict (32 : BitVec 7) rfl ht hN h.compare

theorem done_of_temp (hs : s.state = .temp) : Done s.t.toNat s := by
  refine ⟨hs, ?_, ?_⟩
  · simp [oDataValid, control, hs]
  · simp [oZ, oDataValid, control, hs]

theorem done_of_inCompare (ht : t < base ^ 32) (hN : N < base ^ 32) (hlt : t < N)
    (h : InCompare N t 32 s) (ha : hold i) : Done t (s.next i) := by
  obtain ⟨he, hl⟩ := ha
  have hmode : s.compareMode = 2 := by rw [compareMode_verdict ht hN h, if_pos hlt]
  have hregT : (s.next i).t.toNat = t := by
    simpa [next, control, h.state, hmode, h.spent.noProduct] using h.regT.rotate_full ht
  rw [← hregT]
  exact done_of_temp (by simp [next, he, h.state, hmode])

theorem inSub_of_inCompare (ht : t < base ^ 32) (hN : N < base ^ 32) (hle : N ≤ t)
    (h : InCompare N t 32 s) (ha : hold i) : InSub N t 0 0 (s.next i) := by
  obtain ⟨he, hl⟩ := ha
  have hmode : s.compareMode = 1 ∨ s.compareMode = 3 := by
    rw [compareMode_verdict ht hN h, if_neg (by omega)]
    split
    · exact Or.inl rfl
    · exact Or.inr rfl
  have hne : s.compareMode ≠ 0#2 := by rcases hmode with h1 | h3 <;> simp [*]
  constructor
  case state => rcases hmode with h1 | h3 <;> simp [next, h.state, *]
  case regT =>
    have hval : (s.next i).t.toNat = t := by
      simpa [next, control, h.state, hne, h.spent.noProduct] using h.regT.rotate_full ht
    rw [hval]
    exact Shifted.start base 32 t
  case regN =>
    have hval : (s.next i).n.toNat = N := by
      simpa [next, control, h.state, hne, hl] using h.regN.rotate_full hN
    rw [hval, pow_zero, Nat.mod_one]
    exact Shifted.start base 32 N
  case sub =>
    refine ⟨false, ?_, Subbed.start base t N⟩
    have hval : (s.next i).sub = ⟨0, false, false⟩ := by
      simp [next, control, h.state, hne, h.subOff, sub_off]
    rw [hval]
    exact SerialUnit.at_start 30
  case spent => exact spent_next (by simp [control, h.state, hne, h.spent.off]) i
  case valid => simp [next, control, h.state, hne, h.valid]

theorem inSub_digit {b : Bool} (hk : k < 32) (h : InSub N t k out s) (hb : s.sub.carry = b)
    (hsub : Subbed base t N k out b.toNat) :
    Subbed base t N (k + 1) (out + (Sub1024.oZ s.sub s.fromT s.fromN).toNat * base ^ k)
      ((diff s.fromT s.fromN s.sub.carry).getLsbD 32).toNat := by
  have hd := diff_digit s.fromT s.fromN s.sub.carry
  refine hsub.next ?_
  rw [← Mul1024bit.lowWord_digit hk h.regT, ← Mul1024bit.lowWord_digit hk h.regN, ← hb]
  exact hd

theorem inSub_regT (hk : k < 32) (h : InSub N t k out s) :
    Shifted base 32 t (k + 1) (out + (Sub1024.oZ s.sub s.fromT s.fromN).toNat * base ^ k)
      (s.next i).t.toNat := by
  have hnext := h.regT.next base_pos hk (word_lt_base (Sub1024.oZ s.sub s.fromT s.fromN))
  rw [← shiftIn_1024] at hnext
  simpa [next, control, h.state, h.spent.noProduct, toT] using hnext

theorem inSub_next (hk : k < 31) (h : InSub N t k out s) (ha : hold i) :
    ∃ out', InSub N t (k + 1) out' (s.next i) := by
  obtain ⟨he, hl⟩ := ha
  obtain ⟨b, hat, hsub⟩ := h.sub
  have hfin : s.sub.oFinish = false := by
    rw [hat.finish]
    exact decide_eq_false (Nat.not_lt.mpr (show k ≤ 30 by omega))
  refine ⟨out + (Sub1024.oZ s.sub s.fromT s.fromN).toNat * base ^ k, ?_⟩
  constructor
  case regT => exact inSub_regT (by omega) h
  case regN =>
    simpa [next, control, h.state, hl, fromN] using Mul1024bit.rotate_1024 (by omega) h.regN
  case sub =>
    refine ⟨(diff s.fromT s.fromN s.sub.carry).getLsbD 32, ?_,
      inSub_digit (by omega) h hat.1 hsub⟩
    have hnext := SerialUnit.at_next (show k ≤ (30 : BitVec 7).toNat from by
      show k ≤ 30
      omega) hat ((diff s.fromT s.fromN s.sub.carry).getLsbD 32)
    simpa [next, control, h.state, Sub1024.next] using hnext
  case spent => exact spent_next (by simp [control, h.state, h.spent.off]) i
  all_goals simp [next, control, h.state, he, hfin, h.valid]

theorem done_of_inSub (ht : t < base ^ 32) (hN : N < base ^ 32) (hle : N ≤ t)
    (h : InSub N t 31 out s) (ha : hold i) : Done (t - N) (s.next i) := by
  obtain ⟨he, hl⟩ := ha
  obtain ⟨b, hat, hsub⟩ := h.sub
  have hfin : s.sub.oFinish = true := by
    rw [hat.finish]
    rfl
  have hregT := inSub_regT (i := i) (by decide) h
  have hdiff := inSub_digit (by decide) h hat.1 hsub
  have hval : (s.next i).t.toNat = t - N := by
    rw [hregT.full ht]
    exact hdiff.full_of_le ht hN hle hregT.1
  rw [← hval]
  exact done_of_temp (by simp [next, he, h.state, hfin])

end

/-! ### The run of one product -/

theorem quiet_of_latch {s : MonPro1024} (hs : s.state ≠ .temp) (hvalid : s.latch.oDataValid = false)
    (i : In) : quiet s i := by
  unfold quiet oDataValid control
  cases hstate : s.state
  case compare => simp only []; split <;> exact hvalid
  all_goals simp_all

/-- `Leads` for the machine: quiet until the property holds. -/
abbrev Reaches (Q : MonPro1024 → Prop) (n : ℕ) (s : MonPro1024) : Prop :=
  Leads next hold quiet Q n s

/-- Both halves after `k` rounds. -/
def afterRounds (N N₀ : ℕ) : ℕ → ℕ → ℕ
  | 0, t => t
  | k + 1, t => round N N₀ (afterRounds N N₀ k t)

/-- What the machine makes of the value `t` of the multiplier. -/
def result (N N₀ t : ℕ) : ℕ := restore (afterRounds N N₀ 32 t % base ^ 32) N

section
variable {N N₀ k t q lo hi c : ℕ} {s : MonPro1024}

theorem InMulM.reaches_add (hlo : lo < base ^ 32) (hN : N < base ^ 32)
    (h : InMulM N N₀ k q lo hi 0 0 s) :
    Reaches (fun s => ∃ lo' c, lo' < base ^ 32 ∧ c < base ∧ lo' + c * base ^ 32 = lo + q * N ∧
      InAdd N N₀ k lo' hi c 0 0 s) 32 s := by
  refine Leads.seq (m := 31) (n := 1)
    (Leads.loop (fun j s => ∃ out, InMulM N N₀ k q lo hi j out s) 31 ?_ ⟨0, h⟩) ?_
  · rintro j hj s a ⟨out, h⟩ ha
    exact ⟨quiet_of_latch (by simp [h.state]) h.parked.valid a, inMulM_next hj h ha⟩
  · rintro s ⟨out, h⟩ a ha
    exact ⟨quiet_of_latch (by simp [h.state]) h.parked.valid a, inAdd_of_inMulM hlo hN h ha⟩

theorem InAdd.reaches_shift (hhi : hi < base ^ 32) (hc : c < base)
    (h : InAdd N N₀ k lo hi c 0 0 s) :
    Reaches (AtShift N N₀ k lo ((hi + c) % base ^ 32)) 32 s := by
  refine Leads.seq (m := 31) (n := 1)
    (Leads.loop (fun j s => ∃ out, InAdd N N₀ k lo hi c j out s) 31 ?_ ⟨0, h⟩) ?_
  · rintro j hj s a ⟨out, h⟩ ha
    exact ⟨quiet_of_latch (by simp [h.state]) h.parked.valid a, inAdd_next hc hj h ha⟩
  · rintro s ⟨out, h⟩ a ha
    exact ⟨quiet_of_latch (by simp [h.state]) h.parked.valid a, atShift_of_inAdd hhi hc h ha⟩

theorem AtM.reaches_round (hk : k < 32) (hN : N < base ^ 32) (h : AtM N N₀ k t s) :
    Reaches (AtM N N₀ (k + 1) (round N N₀ t)) 66 s := by
  have hhi : t / base ^ 32 < base ^ 32 := by
    rw [← (halves_of_value h.regT).2]
    exact lt_base_1024 s.t1
  have hlo : t % base ^ 32 < base ^ 32 := Nat.mod_lt _ (Nat.pow_pos base_pos)
  refine Leads.seq (m := 1) (n := 65)
    (R := InMulM N N₀ k (Montgomery.quotient base N₀ t) (t % base ^ 32) (t / base ^ 32) 0 0) ?_ ?_
  · intro a ha
    exact ⟨quiet_of_latch (by simp [h.state]) h.parked.valid a, inMulM_of_atM (by omega) h ha⟩
  · intro s h
    refine Leads.seq (m := 32) (n := 33) (h.reaches_add hlo hN) ?_
    rintro s ⟨lo', c, hlo', hc, hsum, h⟩
    refine Leads.seq (m := 32) (n := 1) (h.reaches_shift hhi hc) ?_
    intro s h a ha
    rw [← round_eq hlo' hsum]
    exact ⟨quiet_of_latch (by simp [h.state]) h.parked.valid a, atM_of_atShift hk h ha⟩

theorem AtM.reaches_rounds (hN : N < base ^ 32) (h : AtM N N₀ 0 t s) :
    Reaches (AtM N N₀ 32 (afterRounds N N₀ 32 t)) (32 * 66) s :=
  Leads.iterate (fun k => AtM N N₀ k (afterRounds N N₀ k t)) 32 66
    (fun _ hk _ h => h.reaches_round hk hN) h

theorem InCompare.reaches_verdict (h : InCompare N t 0 s) : Reaches (InCompare N t 32) 32 s := by
  refine Leads.loop (fun k => InCompare N t k) 32 ?_ h
  intro k hk s a h ha
  exact ⟨quiet_of_latch (by simp [h.state]) h.valid a, inCompare_next hk h ha⟩

theorem InSub.reaches_done (ht : t < base ^ 32) (hN : N < base ^ 32) (hle : N ≤ t)
    (h : InSub N t 0 0 s) : Reaches (Done (t - N)) 32 s := by
  refine Leads.seq (m := 31) (n := 1)
    (Leads.loop (fun k s => ∃ out, InSub N t k out s) 31 ?_ ⟨0, h⟩) ?_
  · rintro k hk s a ⟨out, h⟩ ha
    exact ⟨quiet_of_latch (by simp [h.state]) h.valid a, inSub_next hk h ha⟩
  · rintro s ⟨out, h⟩ a ha
    exact ⟨quiet_of_latch (by simp [h.state]) h.valid a, done_of_inSub ht hN hle h ha⟩

/-- The cycles of the comparison, and of the subtraction where it is due. -/
def lastCycles (N t : ℕ) : ℕ := if t < N then 33 else 65

theorem InCompare.reaches_done (ht : t < base ^ 32) (hN : N < base ^ 32)
    (h : InCompare N t 0 s) : Reaches (Done (restore t N)) (lastCycles N t) s := by
  rw [restore, lastCycles]
  split
  · rename_i hlt
    refine Leads.seq (m := 32) (n := 1) h.reaches_verdict ?_
    intro s h a ha
    exact ⟨quiet_of_latch (by simp [h.state]) h.valid a, done_of_inCompare ht hN hlt h ha⟩
  · rename_i hge
    refine Leads.seq (m := 32) (n := 33) h.reaches_verdict ?_
    intro s h a ha
    exact ⟨quiet_of_latch (by simp [h.state]) h.valid a,
      (inSub_of_inCompare ht hN (by omega) h ha).reaches_done ht hN (by omega)⟩

/-- The cycles of the rounds and what follows them. -/
def reduceCycles (N N₀ t : ℕ) : ℕ :=
  32 * 66 + (lastCycles N (afterRounds N N₀ 32 t % base ^ 32) + 1)

theorem AtM.reaches_done (hN : N < base ^ 32) (h : AtM N N₀ 0 t s) :
    Reaches (Done (result N N₀ t)) (reduceCycles N N₀ t) s := by
  refine (h.reaches_rounds hN).seq ?_
  intro s h a ha
  exact ⟨quiet_of_latch (by simp [h.state]) h.parked.valid a,
    (inCompare_of_atM h ha).reaches_done (Nat.mod_lt _ (Nat.pow_pos base_pos)) hN⟩

theorem AtMul.reaches_mul {Q : Mul1024bit → Prop} {n : ℕ} (h : AtMul N N₀ 0 s)
    (hmul : Mul1024bit.Reaches Q n s.mul) :
    Reaches (fun s => AtMul N N₀ 0 s ∧ Q s.mul) n s := by
  refine Leads.wait MonPro1024.mul (fun s _ => s.mulIn) (AtMul N N₀ 0) ?_ ?_ h hmul
  · intro s i h hi
    constructor <;> simp [mulIn, control, h.state, h.count]
  · intro s i h hi hquiet
    exact ⟨quiet_of_latch (by simp [h.state]) h.parked.valid i, atMul_next h hquiet hi, rfl⟩

theorem AtMul.reaches_done {z n : ℕ} (hN : N < base ^ 32) (h : AtMul N N₀ 1 s)
    (hidle : s.mul.Idle)
    (hmul : Mul1024bit.Reaches (Mul1024bit.Done z) n (s.mul.next s.mulIn)) :
    Reaches (Done (result N N₀ z)) (n + (reduceCycles N N₀ z + 1) + 1) s := by
  have hquiet : s.mul.oDataValid = false :=
    Mul1024bit.quiet_of_state (by simp [hidle.state]) s.mulIn
  refine Leads.cons ?_
  intro i hi
  refine ⟨quiet_of_latch (by simp [h.state]) h.parked.valid i, ?_⟩
  refine ((atMul_next h hquiet hi).reaches_mul hmul).seq ?_
  rintro s ⟨h, hz⟩
  refine Leads.cons ?_
  intro a ha
  exact ⟨quiet_of_latch (by simp [h.state]) h.parked.valid a, (atM_of_atMul h hz ha).reaches_done hN⟩

/-- Reset by a cycle with `iEnable` low. -/
structure Ready (s : MonPro1024) : Prop where
  state : s.state = .initial
  compareCount : s.compareCount = 0

theorem ready_of_disabled (s : MonPro1024) {i : In} (hi : i.iEnable = false) :
    (s.next i).Ready := by
  constructor <;> simp [next, hi]

/-- Cycles after the load pulse, for the product `z`. -/
def cycles (stale : Bool) (N N₀ z : ℕ) : ℕ :=
  33 * (31 - Mul1024bit.counted stale) + 162 + (reduceCycles N N₀ z + 1) + 1

theorem Ready.reaches_done {i : In} {X Y : ℕ} (hs : s.Ready) (he : i.iEnable = true)
    (hl : i.iLoad = true) (hX : i.iX.toNat = X) (hY : i.iY.toNat = Y) (hN : i.iN.toNat = N)
    (hN₀ : i.iN0.toNat = N₀) :
    Reaches (Done (result N N₀ (s.mul.nextValue X Y)))
      (cycles (decide s.mul.LeavesStale) N N₀ (s.mul.nextValue X Y)) (s.next i) := by
  obtain ⟨hmul, heq, hoff⟩ := atMul_of_load hs.state hs.compareCount he hl
  rw [hN, hN₀] at hmul
  have hidle : (s.next i).mul.Idle := by
    rw [heq]
    exact Mul1024bit.idle_of_disabled s.mul s.mulIn hoff
  have hx : (s.next i).mulIn.iX.toNat = X := by
    rw [← hX]
    simp [mulIn, next, hl]
  have hy : (s.next i).mulIn.iY.toNat = Y := by
    rw [← hY]
    simp [mulIn, next, hl]
  have hstale : decide (Mul1024bit.StaleStep (s.next i).mul) = decide s.mul.LeavesStale := by
    rw [heq]
    exact decide_eq_decide.mpr (Mul1024bit.staleStep_next s.mul s.mulIn)
  have hvalue := hidle.reaches_value (by simp [mulIn, control, hmul.state])
    (by simp [mulIn, control, hmul.state, hmul.count]) hx hy rfl rfl
  have hsame : Mul1024bit.value (s.next i).mul.settling
      (decide (Mul1024bit.StaleStep (s.next i).mul)) X Y (s.next i).mul.buffRegOutput.toNat =
        s.mul.nextValue X Y := by
    rw [heq]
    exact Mul1024bit.value_next s.mul s.mulIn X Y
  rw [hsame, hstale] at hvalue
  exact hmul.reaches_done (hN ▸ lt_base_1024 i.iN) hidle hvalue

end

/-! ### The number put out -/

section
variable {N N₀ P : ℕ}

/-- Without a carry out of the upper half the rounds are those of Montgomery's reduction. -/
theorem afterRounds_eq (hn : (N * N₀ + 1) % base = 0) (hpos : 0 < N)
    (hfit : P + base ^ 32 * N ≤ base ^ 64) {k : ℕ} (hk : k ≤ 32) :
    afterRounds N N₀ k P = Montgomery.reduce base N N₀ k P := by
  induction k with
  | zero => rfl
  | succ k ih =>
    have hlt := Montgomery.add_quotient_lt base_pos hn hpos k P
    have hpow := Nat.mul_le_mul_right N (Nat.pow_le_pow_right base_pos hk)
    rw [afterRounds, ih (by omega), round, Nat.mod_eq_of_lt (by omega), Montgomery.reduce,
      Montgomery.step]

/-- What the reduction does with `P`, in whole multiples of the word range. -/
theorem result_lt_max {c : ℕ} (hn : (N * N₀ + 1) % base = 0) (hpos : 0 < N)
    (hfit : c + N ≤ base ^ 32) (hP : P ≤ base ^ 32 * c) :
    result N N₀ P < max c N ∧ result N N₀ P * base ^ 32 ≡ P [MOD N] := by
  have hsq : base ^ 64 = base ^ 32 * base ^ 32 := by rw [← pow_add]
  have hall : P + base ^ 32 * N ≤ base ^ 64 := by
    have hmul := Nat.mul_le_mul_left (base ^ 32) hfit
    rw [Nat.mul_add] at hmul
    rw [hsq]
    exact le_trans (Nat.add_le_add_right hP _) hmul
  have hlt := Montgomery.reduce_lt_add base_pos hn hpos hP
  rw [result, afterRounds_eq hn hpos hall le_rfl, Nat.mod_eq_of_lt (lt_of_lt_of_le hlt hfit)]
  exact ⟨restore_lt_max hlt, ((Montgomery.restore_modEq _ N).mul_right _).trans
    (Montgomery.reduce_modEq base_pos hn 32 P)⟩

theorem result_spec (hn : (N * N₀ + 1) % base = 0) (h2 : 2 * N ≤ base ^ 32)
    (hP : P < base ^ 32 * N) :
    result N N₀ P < N ∧ result N N₀ P * base ^ 32 ≡ P [MOD N] := by
  have hpos : 0 < N := Nat.pos_of_mul_pos_left (lt_of_le_of_lt (Nat.zero_le P) hP)
  have hmax := result_lt_max hn hpos (by omega) hP.le
  rwa [max_self] at hmax

theorem result_eq_product {x y : ℕ} (hn : (N * N₀ + 1) % base = 0) (h2 : 2 * N ≤ base ^ 32)
    (hx : x < N) (hy : y < N) :
    result N N₀ (x * y) = Montgomery.product base N N₀ 32 x y := by
  have hpos : 0 < N := by omega
  have hP : x * y < base ^ 32 * N := by
    calc x * y < N * N := Nat.mul_lt_mul'' hx hy
      _ ≤ base ^ 32 * N := Nat.mul_le_mul_right N (by omega)
  have hfit : x * y + base ^ 32 * N ≤ base ^ 64 := by
    calc x * y + base ^ 32 * N ≤ base ^ 32 * N + base ^ 32 * N := Nat.add_le_add_right hP.le _
      _ = base ^ 32 * (2 * N) := by ring
      _ ≤ base ^ 32 * base ^ 32 := Nat.mul_le_mul_left _ h2
      _ = base ^ 64 := by rw [← pow_add]
  have hlt := Montgomery.reduce_lt base_pos hn hpos hP
  rw [result, afterRounds_eq hn hpos hfit le_rfl, Nat.mod_eq_of_lt (lt_of_lt_of_le hlt h2)]
  rfl

theorem afterRounds_zero (N N₀ k : ℕ) : afterRounds N N₀ k 0 = 0 := by
  induction k with
  | zero => rfl
  | succ k ih => simp [afterRounds, ih, round, Montgomery.quotient]

theorem result_zero (N N₀ : ℕ) : result N N₀ 0 = 0 := by
  rw [result, afterRounds_zero, Nat.zero_mod, restore_zero_left]

theorem two_mul_le (hN : N < 2 ^ 1023) : 2 * N ≤ base ^ 32 := by
  have hpow : base ^ 32 = 2 * 2 ^ 1023 := by rw [base, ← pow_mul, ← pow_succ']
  rw [hpow]
  exact Nat.mul_le_mul_left 2 hN.le

/-- The product without its first pass. -/
theorem stale_lt {X Y o₀ : ℕ} (hY : Y < N) (ho : o₀ < base ^ 64) :
    o₀ / base ^ 63 + X % base ^ 31 * Y * base < base ^ 32 * N := by
  have hword : o₀ / base ^ 63 < base := by
    rw [Nat.div_lt_iff_lt_mul (Nat.pow_pos base_pos), ← pow_succ']
    exact ho
  have hlow : X % base ^ 31 + 1 ≤ base ^ 31 := Nat.mod_lt _ (Nat.pow_pos base_pos)
  have hmul : (X % base ^ 31 + 1) * N ≤ base ^ 31 * N := Nat.mul_le_mul_right N hlow
  have hstep : X % base ^ 31 * Y + 1 ≤ base ^ 31 * N := by
    have hle := Nat.mul_le_mul_left (X % base ^ 31) hY.le
    linarith
  have hscale := Nat.mul_le_mul_right base hstep
  rw [pow_succ base 31]
  linarith

end

/-- A load pulse with `X`, `Y`, `N` and `N0`, then kept enabled. -/
structure Loads (X Y N N0 : BitVec 1024) (i : ℕ → In) : Prop where
  enable : (i 0).iEnable = true
  load : (i 0).iLoad = true
  x : (i 0).iX = X
  y : (i 0).iY = Y
  n : (i 0).iN = N
  n0 : (i 0).iN0 = N0
  held : ∀ t, hold (i (t + 1))

/-- Whatever the other inputs, the first valid cycle puts out the Montgomery product. -/
def GivesProduct (s : MonPro1024) (X Y N N0 : BitVec 1024) : Prop :=
  ∀ i, Loads X Y N N0 i → ∃ T, (∀ t < T, (run next s i t).oDataValid = false) ∧
    (run next s i T).oDataValid = true ∧ (run next s i T).oZ.toNat < N.toNat ∧
      (run next s i T).oZ.toNat * 2 ^ 1024 % N.toNat = X.toNat * Y.toNat % N.toNat

theorem givesProduct_of_ready {s : MonPro1024} (hs : s.Ready) (X Y N N0 : BitVec 1024) :
    GivesProduct s X Y N N0 ↔
      result N.toNat N0.toNat (s.mul.nextValue X.toNat Y.toNat) < N.toNat ∧
        result N.toNat N0.toNat (s.mul.nextValue X.toNat Y.toNat) * 2 ^ 1024 % N.toNat =
          X.toNat * Y.toNat % N.toNat := by
  have hrun : ∀ i, Loads X Y N N0 i → ∃ m, (∀ t < m, (run next s i t).oDataValid = false) ∧
      Done (result N.toNat N0.toNat (s.mul.nextValue X.toNat Y.toNat)) (run next s i m) := by
    intro i hi
    have hquiet : quiet s (i 0) := by simp [quiet, oDataValid, control, hs.state]
    have hreach := hs.reaches_done hi.enable hi.load (congrArg BitVec.toNat hi.x)
      (congrArg BitVec.toNat hi.y) (congrArg BitVec.toNat hi.n) (congrArg BitVec.toNat hi.n0)
    exact ⟨_, Leads.run_cons i hquiet hreach fun t _ => hi.held t⟩
  constructor
  · intro hall
    have hi : Loads X Y N N0 fun t => ⟨true, decide (t = 0), X, Y, N, N0⟩ :=
      ⟨rfl, rfl, rfl, rfl, rfl, rfl, fun t => ⟨rfl, rfl⟩⟩
    obtain ⟨m, hbefore, hdone⟩ := hrun _ hi
    have hz := (first_iff hbefore hdone.valid).mp (hall _ hi)
    rw [hdone.z] at hz
    exact hz
  · intro hz i hi
    obtain ⟨m, hbefore, hdone⟩ := hrun i hi
    refine (first_iff hbefore hdone.valid).mpr ?_
    rw [hdone.z]
    exact hz

/-- The reduction of whatever the multiplier puts out. -/
theorem givesProduct_of_lt {s : MonPro1024} (hs : s.Ready) {X Y N N0 : BitVec 1024}
    (hN : N.toNat < 2 ^ 1023) (hN0 : (N.toNat * N0.toNat + 1) % 2 ^ 32 = 0)
    (hvalue : s.mul.nextValue X.toNat Y.toNat < base ^ 32 * N.toNat) :
    GivesProduct s X Y N N0 ↔
      s.mul.nextValue X.toNat Y.toNat % N.toNat = X.toNat * Y.toNat % N.toNat := by
  have hpow : base ^ 32 = 2 ^ 1024 := by rw [base, ← pow_mul]
  obtain ⟨hlt, hmod⟩ := result_spec hN0 (two_mul_le hN) hvalue
  rw [hpow] at hmod
  have hmod' : result N.toNat N0.toNat (s.mul.nextValue X.toNat Y.toNat) * 2 ^ 1024 % N.toNat =
      s.mul.nextValue X.toNat Y.toNat % N.toNat := hmod
  rw [givesProduct_of_ready hs, hmod']
  exact ⟨fun h => h.2, fun h => ⟨hlt, h⟩⟩

/-- After a cycle with `iEnable` low: the product is Montgomery's unless the aborted
multiplication left the step counter of the multiplier at its end. -/
theorem givesProduct_iff (s : MonPro1024) (low : In) (hlow : low.iEnable = false)
    (X Y N N0 : BitVec 1024) (hN : N.toNat < 2 ^ 1023) (hX : X.toNat < N.toNat)
    (hY : Y.toNat < N.toNat) (hN0 : (N.toNat * N0.toNat + 1) % 2 ^ 32 = 0) :
    GivesProduct (s.next low) X Y N N0 ↔
      ((s.next low).mul.LeavesStale →
        ((s.next low).mul.buffRegOutput.toNat / base ^ 63 +
            X.toNat % base ^ 31 * Y.toNat * base) % N.toNat = X.toNat * Y.toNat % N.toNat) := by
  have hready := ready_of_disabled s hlow
  have hvalue := (s.next low).mul.nextValue_of_lt (lt_trans hX hN) (lt_trans hY hN)
  by_cases hs : (s.next low).mul.LeavesStale
  · rw [if_pos hs] at hvalue
    rw [givesProduct_of_lt hready hN hN0 (hvalue ▸ stale_lt hY (lt_base_2048 _)), hvalue]
    exact ⟨fun h _ => h, fun h => h hs⟩
  · rw [if_neg hs] at hvalue
    have hlt : X.toNat * Y.toNat < base ^ 32 * N.toNat := by
      refine Nat.mul_lt_mul'' (lt_base_1024 X) hY
    rw [givesProduct_of_lt hready hN hN0 (hvalue ▸ hlt), hvalue]
    exact iff_of_true rfl fun h => absurd h hs

/-- All registers zero. -/
def cleared : MonPro1024 where
  state := .initial
  compareCount := 0
  x := 0
  y := 0
  n := 0
  n0 := 0
  t := 0
  t1 := 0
  mul := Mul1024bit.cleared
  mulCount := 0
  m := 0
  val1Count := 0
  carry := 0
  add := ⟨0, false, false⟩
  addCount := false
  compare := ⟨0, false, false⟩
  sub := ⟨0, false, false⟩
  latch :=
    ⟨false, false, false, 0, false, 0, false, false, false, false, false, false, false, false⟩

/-- A cycle with `iEnable` low. -/
def disabled : In := ⟨false, false, 0, 0, 0, 0⟩

theorem givesProduct_seven :
    GivesProduct (cleared.next disabled) 1#1024 1#1024 7#1024 1227133513#1024 ↔
      ((cleared.next disabled).mul.LeavesStale →
        ((cleared.next disabled).mul.buffRegOutput.toNat / base ^ 63 +
            (1#1024).toNat % base ^ 31 * (1#1024).toNat * base) % (7#1024).toNat =
          (1#1024).toNat * (1#1024).toNat % (7#1024).toNat) :=
  givesProduct_iff cleared disabled rfl 1#1024 1#1024 7#1024 1227133513#1024
    (by decide +kernel) (by decide +kernel) (by decide +kernel) (by decide +kernel)

/-- A load pulse with the operands 1 and 1, and `iEnable` low in cycle 63. -/
def aborting : ℕ → In :=
  fun t => ⟨decide (t ≠ 63), decide (t = 0), 1#1024, 1#1024, 7#1024, 1227133513#1024⟩

/-- The low cycle meets the first pass of the multiplication at word 28. -/
theorem aborting_run : (run next cleared aborting (63 + 1)).mul.LeavesStale ∧
    (run next cleared aborting (63 + 1)).mul.buffRegOutput.toNat = 0 := by
  obtain ⟨hmul, heq, hoff⟩ := atMul_of_load (s := cleared) (i := aborting 0) rfl rfl rfl rfl
  have hidle : (cleared.next (aborting 0)).mul.Idle := by
    rw [heq]
    exact Mul1024bit.idle_of_disabled _ _ hoff
  have hstep : ¬ (cleared.next (aborting 0)).mul.control.step = 30 := by decide +kernel
  have hout : (cleared.next (aborting 0)).mul.buffRegOutput.toNat = 0 := by decide +kernel
  have hloaded := Mul1024bit.loaded_of_load (i := (cleared.next (aborting 0)).mulIn) hidle
    (by simp [mulIn, control, hmul.state]) (by simp [mulIn, control, hmul.state, hmul.count])
  rw [if_neg hstep, hout] at hloaded
  have hword := hloaded.reaches_word (j := 28) (by decide) (lt_base_1024 _) (lt_base_1024 _)
    (by decide)
  have hquiet : (cleared.next (aborting 0)).mul.oDataValid = false :=
    Mul1024bit.quiet_of_state (by simp [hidle.state]) (cleared.next (aborting 0)).mulIn
  have hreach : Reaches (fun s => ∃ N N₀ X Y out, AtMul N N₀ 0 s ∧
      Mul1024bit.InPass 0 X Y 0 0 0 0 28 out s.mul) (61 + 1) (cleared.next (aborting 0)) := by
    refine Leads.cons ?_
    intro i hi
    refine ⟨quiet_of_latch (by simp [hmul.state]) hmul.parked.valid i, ?_⟩
    refine ((atMul_next hmul hquiet hi).reaches_mul hword).mono ?_
    rintro s ⟨hs, out, hpass⟩
    exact ⟨_, _, _, _, out, hs, hpass⟩
  have hheld : ∀ t < 61 + 1, hold (aborting (t + 1)) := by
    intro t ht
    exact ⟨decide_eq_true (by omega), rfl⟩
  have hidleCycle : quiet cleared (aborting 0) := rfl
  obtain ⟨-, N, N₀, X, Y, out, hat, hpass⟩ := Leads.run_cons aborting hidleCycle hreach hheld
  have hin : Mul1024bit.hold (run next cleared aborting 63).mulIn := by
    constructor <;> simp [mulIn, control, hat.state, hat.count]
  obtain ⟨out', hnext⟩ :=
    Mul1024bit.inPass_next (Nat.pow_pos base_pos) (by decide) (by decide) hpass hin
  have hrun : (run next cleared aborting (63 + 1)).mul =
      (run next cleared aborting 63).mul.next (run next cleared aborting 63).mulIn := rfl
  rw [hrun]
  refine ⟨⟨hnext.state, BitVec.eq_of_toNat_eq hnext.step⟩, ?_⟩
  rw [hnext.o.2, Nat.zero_div, Nat.zero_mul]

/-- Loaded again right after the abort, the machine loses the first pass: modulo 7 the product
of 1 and 1 is not 4. -/
theorem not_givesProduct_aborted :
    ¬ ∀ (i : ℕ → In) (t : ℕ) (X Y N N0 : BitVec 1024), (i t).iEnable = false →
      N.toNat < 2 ^ 1023 → N.toNat % 2 = 1 → X.toNat < N.toNat → Y.toNat < N.toNat →
        (N.toNat * N0.toNat + 1) % 2 ^ 32 = 0 →
          GivesProduct (run next cleared i (t + 1)) X Y N N0 := by
  intro h
  have hgives := h aborting 63 1#1024 1#1024 7#1024 1227133513#1024 rfl (by decide +kernel)
    (by decide +kernel) (by decide +kernel) (by decide +kernel) (by decide +kernel)
  obtain ⟨hstale, hout⟩ := aborting_run
  have hready : (run next cleared aborting (63 + 1)).Ready := ready_of_disabled _ rfl
  have hN : (7#1024).toNat < 2 ^ 1023 := by decide +kernel
  have h1 : (1#1024).toNat < (7#1024).toNat := by decide +kernel
  have hvalue := (run next cleared aborting (63 + 1)).mul.nextValue_of_lt (lt_trans h1 hN)
    (lt_trans h1 hN)
  rw [if_pos hstale, hout] at hvalue
  have hpos : 0 < base ^ 64 := Nat.pow_pos base_pos
  have hlt := stale_lt (X := (1#1024).toNat) h1 hpos
  rw [← hvalue] at hlt
  have hmod := (givesProduct_of_lt hready hN (by decide +kernel) hlt).mp hgives
  rw [hvalue] at hmod
  exact absurd hmod (by decide +kernel)

end MonPro1024

end SocCrypto.Rsa

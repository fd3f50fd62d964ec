import SocCrypto.Montgomery
import SocCrypto.Rsa.Mul1024bit

/-!
# The inverse modulo a power of two

`MonModInverse1024.v` with its truncation unit `ModPower1024.v`: from the inverse of an odd
number modulo 2 to the one modulo `2 ^ iLength`, one bit per pass. A pass multiplies, cuts the
product down to the next power of two, compares it with the power before and adds that power
where the product is the larger.
-/

namespace SocCrypto.Rsa
open WordSerial Clocked

/-! ### ModPower1024 -/

structure ModPower1024 where
  count : BitVec 2
  regBuffX : Fin 32 → Word

namespace ModPower1024

/-- `b = iTwoexp >> 5`. -/
def b (iTwoexp : BitVec 11) : BitVec 6 := (iTwoexp >>> 5).setWidth 6

/-- `r = iTwoexp - (b << 5)`. -/
def r (iTwoexp : BitVec 11) : BitVec 11 := iTwoexp - ((b iTwoexp).setWidth 11 <<< 5)

/-- `temp_1 = (1 << r) - 1`. -/
def mask (iTwoexp : BitVec 11) : Word := 1#32 <<< (r iTwoexp).toNat - 1

/-- Word `k` of a 1024-bit number. -/
def word (x : BitVec 1024) (k : ℕ) : Word := (x >>> (32 * k)).setWidth 32

def oDataValid (u : ModPower1024) (iEnable iLoad : Bool) : Bool :=
  iEnable && !iLoad && decide (u.count = 2)

/-- The number with the given words, 32 of them. -/
def pack (f : ℕ → Word) : ℕ → ℕ
  | 0 => 0
  | k + 1 => pack f k + (f k).toNat * base ^ k

def oZ (u : ModPower1024) (iEnable iLoad : Bool) (iTwoexp : BitVec 11) : BitVec 1024 :=
  if u.oDataValid iEnable iLoad then
    BitVec.ofNat 1024 (pack (fun k =>
      if h : k < 32 then if k ≤ (b iTwoexp).toNat then u.regBuffX ⟨k, h⟩ else 0 else 0) 32)
  else 0

/-- A write to word 32 or above has no effect. -/
def next (u : ModPower1024) (iEnable iLoad : Bool) (iX : BitVec 1024) (iTwoexp : BitVec 11) :
    ModPower1024 :=
  { count := if !iEnable then 0 else u.count + 1
    regBuffX :=
      if iLoad then fun k => word iX k
      else if iEnable then fun k =>
        if k.val = (b iTwoexp).toNat then u.regBuffX k &&& mask iTwoexp else u.regBuffX k
      else u.regBuffX }

section
variable {T n k : ℕ}

theorem word_toNat (x : BitVec 1024) (k : ℕ) : (word x k).toNat = digit base x.toNat k := by
  rw [word, BitVec.toNat_setWidth, BitVec.toNat_ushiftRight, Nat.shiftRight_eq_div_pow, pow_mul]
  rfl

theorem b_toNat {iTwoexp : BitVec 11} (hn : iTwoexp.toNat = n) (hle : n ≤ 1024) :
    (b iTwoexp).toNat = n / 32 := by
  rw [b, BitVec.toNat_setWidth, BitVec.toNat_ushiftRight, Nat.shiftRight_eq_div_pow, hn]
  omega

theorem r_toNat {iTwoexp : BitVec 11} (hn : iTwoexp.toNat = n) (hle : n ≤ 1024) :
    (r iTwoexp).toNat = n % 32 := by
  rw [r, BitVec.toNat_sub, BitVec.toNat_shiftLeft, BitVec.toNat_setWidth, b_toNat hn hle, hn,
    Nat.shiftLeft_eq]
  omega

theorem mask_toNat {iTwoexp : BitVec 11} (hn : iTwoexp.toNat = n) (hle : n ≤ 1024) :
    (mask iTwoexp).toNat = 2 ^ (n % 32) - 1 := by
  have hlt : 2 ^ (n % 32) < 2 ^ 32 := Nat.pow_lt_pow_right (by decide) (Nat.mod_lt n (by decide))
  have hpos : 0 < 2 ^ (n % 32) := Nat.two_pow_pos _
  rw [mask, BitVec.toNat_sub, BitVec.toNat_shiftLeft, r_toNat hn hle, Nat.shiftLeft_eq]
  show (2 ^ 32 - 1 + 1 * 2 ^ (n % 32) % 2 ^ 32) % 2 ^ 32 = 2 ^ (n % 32) - 1
  generalize 2 ^ (n % 32) = p at *
  omega

/-- Words below word `n / 32`, that word cut to `n % 32` bits, nothing above. -/
def cut (T n k : ℕ) : ℕ :=
  if k < n / 32 then digit base T k
  else if k = n / 32 then digit base T k % 2 ^ (n % 32)
  else 0

theorem pack_cut {f : ℕ → Word} (hf : ∀ j < k, (f j).toNat = cut T n j) :
    pack f k = if k ≤ n / 32 then T % base ^ k else T % 2 ^ n := by
  induction k with
  | zero => simp [pack, Nat.mod_one]
  | succ k ih =>
    have hlow := ih fun j hj => hf j (by omega)
    have hword := hf k (by omega)
    rw [pack, hlow, hword, cut]
    rcases Nat.lt_trichotomy k (n / 32) with hlt | heq | hgt
    · rw [if_pos hlt.le, if_pos hlt, if_pos (by omega), mod_pow_succ]
    · have hsplit : 2 ^ n = base ^ k * 2 ^ (n % 32) := by
        rw [base, ← pow_mul, ← pow_add, heq, Nat.div_add_mod]
      have hdvd : 2 ^ (n % 32) ∣ base :=
        Nat.pow_dvd_pow 2 (Nat.mod_lt n (by decide)).le
      rw [if_pos heq.le, if_neg (by omega), if_pos heq, if_neg (by omega), hsplit, Nat.mod_mul,
        digit, Nat.mod_mod_of_dvd _ hdvd, Nat.mul_comm]
    · rw [if_neg (by omega), if_neg (by omega), if_neg (by omega), if_neg (by omega), Nat.zero_mul,
        Nat.add_zero]

/-- Registers after the load and one cut. -/
structure Masked (T n : ℕ) (u : ModPower1024) : Prop where
  count : u.count = 2
  low : ∀ k, k.val < n / 32 → (u.regBuffX k).toNat = digit base T k
  top : ∀ k, k.val = n / 32 → (u.regBuffX k).toNat = digit base T k % 2 ^ (n % 32)

theorem Masked.oZ_toNat {u : ModPower1024} {iTwoexp : BitVec 11} (hn : iTwoexp.toNat = n)
    (hle : n ≤ 1024) (hT : T < 2 ^ 1024) (h : Masked T n u) :
    (u.oZ true false iTwoexp).toNat = T % 2 ^ n := by
  have hvalid : u.oDataValid true false = true := by simp [oDataValid, h.count]
  have hb := b_toNat hn hle
  have hsmall : T % 2 ^ n < 2 ^ 1024 := lt_of_le_of_lt (Nat.mod_le T _) hT
  have hwords : ∀ k < 32, (if hk : k < 32 then if k ≤ (b iTwoexp).toNat then u.regBuffX ⟨k, hk⟩
      else 0 else 0 : Word).toNat = cut T n k := by
    intro k hk
    rw [dif_pos hk, hb, cut]
    rcases Nat.lt_trichotomy k (n / 32) with hlt | heq | hgt
    · rw [if_pos hlt.le, if_pos hlt, h.low ⟨k, hk⟩ hlt]
    · rw [if_pos heq.le, if_neg (by omega), if_pos heq, h.top ⟨k, hk⟩ heq]
    · rw [if_neg (by omega), if_neg (by omega), if_neg (by omega)]
      rfl
  have hpack := pack_cut hwords
  rw [oZ, if_pos hvalid, BitVec.toNat_ofNat, hpack]
  by_cases hfull : 32 ≤ n / 32
  · have hn1024 : n = 1024 := by omega
    have hbase : base ^ 32 = 2 ^ 1024 := by rw [base, ← pow_mul]
    rw [if_pos hfull, hn1024, hbase, Nat.mod_mod]
  · rw [if_neg hfull, Nat.mod_eq_of_lt hsmall]

theorem masked_of_loaded {u : ModPower1024} {x : BitVec 1024} {iTwoexp : BitVec 11}
    (hn : iTwoexp.toNat = n) (hle : n ≤ 1024) (hT : x.toNat = T) (hcount : u.count = 1)
    (hreg : ∀ k, u.regBuffX k = word x k) (iX : BitVec 1024) :
    Masked T n (u.next true false iX iTwoexp) := by
  have hb := b_toNat hn hle
  constructor
  case count => simp [next, hcount]
  case low =>
    intro k hk
    have hne : ¬ k.val = n / 32 := by omega
    simp [next, hreg, hb, hne, word_toNat, hT]
  case top =>
    intro k hk
    have hand : (word x k &&& mask iTwoexp).toNat = digit base T k % 2 ^ (n % 32) := by
      rw [BitVec.toNat_and, word_toNat, mask_toNat hn hle, hT, Nat.and_two_pow_sub_one_eq_mod]
    rw [← hand, ← hreg]
    simp [next, hb, hk]

end

end ModPower1024

/-! ### The machine -/

/-- `State`, in the order 0 to 6. -/
inductive MonModInverseState where
  | initial
  | mul
  | modPower2
  | shiftLeftTwoPow2
  | compare
  | add
  | finish
  deriving DecidableEq

/-- The control outputs, which are latches. -/
structure MonModInverseControl where
  controlMuxRegY : Bool
  regYEnable : Bool
  regYOutputLoad : Bool
  twopowiEnable : Bool
  twopowiMode : BitVec 2
  modPower2Enable : Bool
  modPower2Load : Bool
  regTemp1Enable : Bool
  mulEnable : Bool
  mulLoad : Bool
  compareEnable : Bool
  addEnable : Bool
  oDataValid : Bool
  down : Bool
  deriving DecidableEq

structure MonModInverse1024 where
  state : MonModInverseState
  i : BitVec 11
  down1Count : Bool
  x : BitVec 1024
  regY : BitVec 1024
  twopowi : BitVec 1024
  modPower2Count : Bool
  modPower2 : ModPower1024
  regTemp1 : BitVec 1024
  mulCount : BitVec 2
  mul : Mul1024bit
  temp : BitVec 1024
  compare : Compare1024
  add : Add1024
  latch : MonModInverseControl

namespace MonModInverse1024

structure In where
  iEnable : Bool
  iLoad : Bool
  iX : BitVec 1024
  iLength : BitVec 11

def fromY (s : MonModInverse1024) : Word := lowWord s.regY
def fromTwopowi (s : MonModInverse1024) : Word := lowWord s.twopowi
def fromTemp1 (s : MonModInverse1024) : Word := lowWord s.regTemp1

def compareMode (s : MonModInverse1024) : BitVec 2 := Compare1024.oMode s.compare

/-- The settled control outputs of the current cycle. -/
def control (s : MonModInverse1024) : MonModInverseControl :=
  match s.state with
  | .initial =>
    ⟨false, false, false, false, 0, false, false, false, false, false, false, false, false, false⟩
  | .mul =>
    { s.latch with
      twopowiEnable := false, twopowiMode := 0, controlMuxRegY := false, regYEnable := false,
      regYOutputLoad := true, regTemp1Enable := false, mulEnable := true, mulLoad := true,
      compareEnable := false, addEnable := false, down := false }
  | .modPower2 =>
    { s.latch with
      twopowiEnable := false, twopowiMode := 0, regYOutputLoad := false,
      modPower2Enable := true, modPower2Load := true, mulEnable := false, mulLoad := false }
  | .shiftLeftTwoPow2 =>
    { s.latch with
      twopowiEnable := true, twopowiMode := 2, modPower2Enable := false, modPower2Load := false }
  | .compare =>
    if s.compareMode = 0 then
      { s.latch with
        twopowiEnable := true, twopowiMode := 1, regTemp1Enable := true, compareEnable := true,
        down := true }
    else { s.latch with twopowiEnable := false, regTemp1Enable := false }
  | .add =>
    { s.latch with
      addEnable := true, controlMuxRegY := true, regYEnable := true, regYOutputLoad := false,
      twopowiEnable := true, twopowiMode := 1, regTemp1Enable := false, compareEnable := false,
      down := false }
  | .finish =>
    ⟨false, false, true, false, 0, false, false, false, false, false, false, false, true, false⟩

/-- `Y`, zero unless its output is loaded. -/
def y (s : MonModInverse1024) : BitVec 1024 := if s.control.regYOutputLoad then s.regY else 0

def oDataValid (s : MonModInverse1024) : Bool := s.control.oDataValid
def oZ (s : MonModInverse1024) : BitVec 1024 := if s.oDataValid then s.y else 0

def modPower2Load1 (s : MonModInverse1024) : Bool :=
  if s.modPower2Count then s.control.modPower2Load else false

def modPower2DataValid (s : MonModInverse1024) : Bool :=
  s.modPower2.oDataValid s.control.modPower2Enable s.modPower2Load1

/-- Ports of the multiplier. -/
def mulIn (s : MonModInverse1024) : Mul1024bit.In where
  iEnable := s.control.mulEnable
  iLoad := if s.mulCount ≠ 0 then s.control.mulLoad else false
  iX := s.x
  iY := s.y

def toY (s : MonModInverse1024) : Word :=
  if s.control.controlMuxRegY then Add1024.oZ s.add s.fromY s.fromTwopowi else s.fromY

def down1 (s : MonModInverse1024) : Bool := if s.down1Count then s.control.down else false

def next (s : MonModInverse1024) (i : In) : MonModInverse1024 :=
  let o := s.control
  { latch := o
    x := if !i.iEnable then i.iX else if i.iLoad then i.iX else s.x
    regY :=
      if !i.iEnable then 1 else if o.regYEnable then shiftIn s.regY s.toY else s.regY
    twopowi :=
      if !i.iEnable then 1
      else if o.twopowiEnable then
        if o.twopowiMode = 2 then s.twopowi <<< 1
        else if o.twopowiMode = 1 then shiftIn s.twopowi s.fromTwopowi
        else s.twopowi
      else s.twopowi
    modPower2Count :=
      if !o.modPower2Load then true else if s.modPower2Count then false else s.modPower2Count
    modPower2 := s.modPower2.next o.modPower2Enable s.modPower2Load1 s.temp s.i
    regTemp1 :=
      if s.modPower2DataValid then s.modPower2.oZ o.modPower2Enable s.modPower2Load1 s.i
      else if o.regTemp1Enable then shiftIn s.regTemp1 0
      else s.regTemp1
    mulCount := if !o.mulLoad then 1 else if s.mulCount ≠ 0 then 0 else s.mulCount
    mul := s.mul.next s.mulIn
    temp :=
      if !i.iEnable then 0 else if s.mul.oDataValid then s.mul.oZ.setWidth 1024 else s.temp
    compare := Compare1024.next s.compare o.compareEnable s.fromTemp1 s.fromTwopowi
    add := Add1024.next s.add o.addEnable s.fromY s.fromTwopowi
    down1Count := if !o.down then true else if s.down1Count then false else s.down1Count
    i := if i.iLoad then 2 else if s.down1 then s.i + 1 else s.i
    state :=
      if !i.iEnable then .initial
      else
        match s.state with
        | .initial => if i.iLoad then .mul else .initial
        | .mul =>
          if s.mul.oDataValid then .modPower2
          else if s.i = i.iLength + 1 then .finish
          else .mul
        | .modPower2 => if s.modPower2DataValid then .shiftLeftTwoPow2 else .modPower2
        | .shiftLeftTwoPow2 => .compare
        | .compare =>
          if s.compareMode = 3 then .mul
          else if s.compareMode = 2 then .mul
          else if s.compareMode = 1 then .add
          else .compare
        | .add => if s.add.oFinish then .mul else .add
        | .finish => .initial }

/-! ### Phases of a pass

`AtMul`, `InMul`, `AtMod`, `AtShift`, `InCompare`, `InAdd` and `Done` follow the pass for
exponent `i`: `RegBuffY` holds `y`, `Twopowi` starts at `2 ^ (i - 2)`. -/

/-- Inputs of the cycles after the load pulse. -/
def hold (a : In) : Prop := a.iEnable = true ∧ a.iLoad = false ∧ a.iLength = 1024

def quiet (s : MonModInverse1024) (_ : In) : Prop := s.oDataValid = false

/-- The truncation unit waits for a product. -/
structure ModOff (s : MonModInverse1024) : Prop where
  enable : s.latch.modPower2Enable = false
  load : s.latch.modPower2Load = false
  loadCount : s.modPower2Count = true
  count : s.modPower2.count = 0

/-- The comparator and the adder wait, and `i` has not been counted up. -/
structure Parked (s : MonModInverse1024) : Prop where
  compareOff : s.latch.compareEnable = false
  compare : s.compare = ⟨0, false, false⟩
  addOff : s.latch.addEnable = false
  add : s.add = ⟨0, false, false⟩
  down : s.latch.down = false
  downCount : s.down1Count = true

/-- The multiplier is off and ready for the next pass. -/
structure Spent (s : MonModInverse1024) : Prop where
  off : s.latch.mulEnable = false
  noLoad : s.latch.mulLoad = false
  count : s.mulCount = 1
  idle : s.mul.Idle
  fresh : ¬ s.mul.StaleStep

/-- What no cycle of a pass changes. -/
structure Frame (N i : ℕ) (s : MonModInverse1024) : Prop where
  x : s.x.toNat = N
  i : s.i.toNat = i
  valid : s.latch.oDataValid = false

/-- First cycle of a multiplication; `stale` when the multiplier's step counter is not reset. -/
structure AtMul (stale : Bool) (N i y : ℕ) (s : MonModInverse1024) : Prop where
  state : s.state = .mul
  frame : s.Frame N i
  regY : s.regY.toNat = y
  twopowi : s.twopowi.toNat = 2 ^ (i - 2)
  count : s.mulCount = 1
  idle : s.mul.Idle
  stale : decide s.mul.StaleStep = stale
  modOff : s.ModOff

/-- Waiting for the multiplier. -/
structure InMul (N i y : ℕ) (s : MonModInverse1024) : Prop where
  state : s.state = .mul
  frame : s.Frame N i
  regY : s.regY.toNat = y
  twopowi : s.twopowi.toNat = 2 ^ (i - 2)
  count : s.mulCount = 0
  modOff : s.ModOff
  parked : s.Parked

/-- Cycle `p` of the truncation of `T`. -/
structure AtMod (N i y T p : ℕ) (s : MonModInverse1024) : Prop where
  state : s.state = .modPower2
  frame : s.Frame N i
  regY : s.regY.toNat = y
  yOff : s.latch.regYEnable = false
  tempOff : s.latch.regTemp1Enable = false
  twopowi : s.twopowi.toNat = 2 ^ (i - 2)
  parked : s.Parked
  mul : s.mul.control.state = .initial
  temp : s.temp.toNat = T
  loadCount : s.modPower2Count = decide (p = 0)
  count : s.modPower2.count.toNat = p
  words : p = 1 → ∀ k, s.modPower2.regBuffX k = ModPower1024.word s.temp k
  masked : p = 2 → s.modPower2.Masked T i

/-- The cut product `v` is in `RegTemp1`. -/
structure AtShift (N i y v : ℕ) (s : MonModInverse1024) : Prop where
  state : s.state = .shiftLeftTwoPow2
  frame : s.Frame N i
  regY : s.regY.toNat = y
  yOff : s.latch.regYEnable = false
  twopowi : s.twopowi.toNat = 2 ^ (i - 2)
  parked : s.Parked
  spent : s.Spent
  regTemp1 : s.regTemp1.toNat = v
  tempOff : s.latch.regTemp1Enable = false

/-- Cycle `k` of the comparison of `v` with `2 ^ (i - 1)`. -/
structure InCompare (N i y v k : ℕ) (s : MonModInverse1024) : Prop where
  state : s.state = .compare
  frame : s.Frame N (if k = 0 then i else i + 1)
  regY : s.regY.toNat = y
  yOff : s.latch.regYEnable = false
  twopowi : Shifted base 32 (2 ^ (i - 1)) k (2 ^ (i - 1) % base ^ k) s.twopowi.toNat
  regTemp1 : Shifted base 32 v k 0 s.regTemp1.toNat
  compare : s.compare.At v (2 ^ (i - 1)) k
  addOff : s.latch.addEnable = false
  add : s.add = ⟨0, false, false⟩
  down : s.latch.down = decide (0 < k)
  downCount : s.down1Count = decide (k = 0)
  spent : s.Spent
  modOff : s.ModOff

/-- Cycle `k` of the addition of `2 ^ (i - 1)`. -/
structure InAdd (N i y k out : ℕ) (s : MonModInverse1024) : Prop where
  state : s.state = .add
  frame : s.Frame N (i + 1)
  regY : Shifted base 32 y k out s.regY.toNat
  twopowi : Shifted base 32 (2 ^ (i - 1)) k (2 ^ (i - 1) % base ^ k) s.twopowi.toNat
  add : ∃ c, s.add.At 30 k c ∧ Added base y (2 ^ (i - 1)) k out c.toNat
  spent : s.Spent
  modOff : s.ModOff

/-- The valid cycle. -/
structure Done (z : ℕ) (s : MonModInverse1024) : Prop where
  state : s.state = .finish
  valid : s.oDataValid = true
  z : s.oZ.toNat = z

section
variable {stale : Bool} {N i y : ℕ} {s : MonModInverse1024} {a : In}

theorem modOff_next (henable : s.control.modPower2Enable = false)
    (hload : s.control.modPower2Load = false) (a : In) : (s.next a).ModOff := by
  constructor <;> simp [next, henable, hload, ModPower1024.next]

theorem parked_next (hcompare : s.control.compareEnable = false)
    (hadd : s.control.addEnable = false) (hdown : s.control.down = false) (a : In) :
    (s.next a).Parked := by
  constructor <;> simp [next, hcompare, hadd, hdown, Compare1024.next, Comparator.next,
    Add1024.next, SerialUnit.next]

theorem spent_next (henable : s.control.mulEnable = false) (hload : s.control.mulLoad = false)
    (hmul : s.mul.control.state = .initial) (a : In) : (s.next a).Spent := by
  have hoff : s.mulIn.iEnable = false := henable
  constructor
  case idle => exact Mul1024bit.idle_of_disabled s.mul s.mulIn hoff
  case fresh =>
    intro hstale
    have hleaves := (Mul1024bit.staleStep_next s.mul s.mulIn).mp hstale
    rw [Mul1024bit.LeavesStale, hmul] at hleaves
    cases hleaves.1
  all_goals simp [next, henable, hload]

theorem noProduct_of_initial {c : Mul1024bit} (hc : c.control.state = .initial) :
    c.oDataValid = false := by
  simp [Mul1024bit.oDataValid, ControlMul1024.out, hc]

/-- With the truncation unit off nothing is taken from it. -/
theorem modPower2DataValid_off (h : s.control.modPower2Enable = false) :
    s.modPower2DataValid = false := by
  simp [modPower2DataValid, ModPower1024.oDataValid, h]

theorem frame_next (h : s.Frame N i) (hvalid : s.control.oDataValid = false)
    (hdown : s.down1 = false) (ha : hold a) : (s.next a).Frame N i := by
  obtain ⟨he, hl, -⟩ := ha
  constructor <;> simp [next, he, hl, hdown, hvalid, h.x, h.i]

theorem down1_parked (h : s.control.down = false) : s.down1 = false := by
  simp [down1, h]

/-- `Next_State_Finish` in the passes. -/
theorem not_last (h : s.Frame N i) (hi : i ≤ 1024) (ha : hold a) :
    ¬ s.i = a.iLength + 1#11 := by
  rw [ha.2.2]
  intro heq
  have hlast := (eq_ofNat_iff (n := 1025) h.i (by decide)).mp heq
  omega

/-! #### The product and its truncation -/

theorem inMul_of_atMul (hi : i ≤ 1024) (h : AtMul stale N i y s) (ha : hold a) :
    InMul N i y (s.next a) := by
  have hnoProduct := noProduct_of_initial h.idle.state
  have hlast := not_last h.frame hi ha
  constructor
  case frame =>
    exact frame_next h.frame (by simp [control, h.state, h.frame.valid])
      (down1_parked (by simp [control, h.state])) ha
  case modOff =>
    exact modOff_next (by simp [control, h.state, h.modOff.enable])
      (by simp [control, h.state, h.modOff.load]) a
  case parked =>
    refine parked_next ?_ ?_ ?_ a <;> simp [control, h.state]
  all_goals simp [next, control, h.state, ha.1, h.count, hnoProduct, hlast, h.regY, h.twopowi]

theorem inMul_next (hi : i ≤ 1024) (h : InMul N i y s) (hquiet : s.mul.oDataValid = false)
    (ha : hold a) : InMul N i y (s.next a) := by
  have hlast := not_last h.frame hi ha
  constructor
  case frame =>
    exact frame_next h.frame (by simp [control, h.state, h.frame.valid])
      (down1_parked (by simp [control, h.state])) ha
  case modOff =>
    exact modOff_next (by simp [control, h.state, h.modOff.enable])
      (by simp [control, h.state, h.modOff.load]) a
  case parked =>
    refine parked_next ?_ ?_ ?_ a <;> simp [control, h.state]
  all_goals simp [next, control, h.state, ha.1, h.count, hquiet, hlast, h.regY, h.twopowi]

theorem atMod_of_inMul {z : ℕ} (h : InMul N i y s) (hz : Mul1024bit.Done z s.mul) (ha : hold a) :
    AtMod N i y (z % 2 ^ 1024) 0 (s.next a) := by
  constructor
  case frame =>
    exact frame_next h.frame (by simp [control, h.state, h.frame.valid])
      (down1_parked (by simp [control, h.state])) ha
  case parked =>
    refine parked_next ?_ ?_ ?_ a <;> simp [control, h.state]
  case mul =>
    have hfinish : s.mul.control.state = .finish := hz.state
    simp [next, Mul1024bit.next, ControlMul1024.next, hfinish]
  case temp => simp [next, ha.1, hz.valid, hz.z]
  case words => exact fun h => absurd h (by decide)
  case masked => exact fun h => absurd h (by decide)
  case count => simp [next, control, h.state, h.modOff.enable, ModPower1024.next]
  all_goals simp [next, control, h.state, ha.1, hz.valid, h.regY, h.twopowi, h.modOff.load]

theorem atMod_load {T : ℕ} (h : AtMod N i y T 0 s) (ha : hold a) :
    AtMod N i y T 1 (s.next a) := by
  have hcount : s.modPower2.count = 0 := BitVec.eq_of_toNat_eq h.count
  have hload := h.loadCount
  rw [decide_eq_true rfl] at hload
  have hnoProduct := noProduct_of_initial h.mul
  have hbusy : s.modPower2DataValid = false := by
    simp [modPower2DataValid, ModPower1024.oDataValid, hcount]
  constructor
  case frame =>
    exact frame_next h.frame (by simp [control, h.state, h.frame.valid])
      (down1_parked (by simp [control, h.state, h.parked.down])) ha
  case parked =>
    refine parked_next ?_ ?_ ?_ a <;>
      simp [control, h.state, h.parked.compareOff, h.parked.addOff, h.parked.down]
  case mul =>
    exact (Mul1024bit.idle_of_disabled s.mul s.mulIn (by simp [mulIn, control, h.state])).state
  case words =>
    intro _ k
    simp [next, ha.1, hnoProduct, modPower2Load1, control, h.state, hload, ModPower1024.next]
  case masked => exact fun h => absurd h (by decide)
  all_goals simp [next, control, h.state, ha.1, hbusy, hnoProduct, hload, hcount, h.regY, h.yOff,
    h.tempOff, h.twopowi, h.temp, ModPower1024.next]

theorem atMod_cut {T : ℕ} (hi : i ≤ 1024) (h : AtMod N i y T 1 s) (ha : hold a) :
    AtMod N i y T 2 (s.next a) := by
  have hcount : s.modPower2.count = 1 := BitVec.eq_of_toNat_eq h.count
  have hload := h.loadCount
  rw [decide_eq_false (by decide)] at hload
  have hnoProduct := noProduct_of_initial h.mul
  have hbusy : s.modPower2DataValid = false := by
    simp [modPower2DataValid, ModPower1024.oDataValid, hcount]
  constructor
  case frame =>
    exact frame_next h.frame (by simp [control, h.state, h.frame.valid])
      (down1_parked (by simp [control, h.state, h.parked.down])) ha
  case parked =>
    refine parked_next ?_ ?_ ?_ a <;>
      simp [control, h.state, h.parked.compareOff, h.parked.addOff, h.parked.down]
  case mul =>
    exact (Mul1024bit.idle_of_disabled s.mul s.mulIn (by simp [mulIn, control, h.state])).state
  case words => exact fun h => absurd h (by decide)
  case masked =>
    intro _
    have hmasked := ModPower1024.masked_of_loaded h.frame.i hi h.temp hcount (h.words rfl) s.temp
    simpa [next, control, h.state, modPower2Load1, hload] using hmasked
  all_goals simp [next, control, h.state, ha.1, hbusy, hnoProduct, hload, hcount, h.regY, h.yOff,
    h.tempOff, h.twopowi, h.temp, ModPower1024.next]

theorem atShift_of_atMod {T : ℕ} (hi : i ≤ 1024) (hT : T < 2 ^ 1024) (h : AtMod N i y T 2 s)
    (ha : hold a) : AtShift N i y (T % 2 ^ i) (s.next a) := by
  have hcount : s.modPower2.count = 2 := BitVec.eq_of_toNat_eq h.count
  have hload := h.loadCount
  rw [decide_eq_false (by decide)] at hload
  have hvalid : s.modPower2DataValid = true := by
    simp [modPower2DataValid, ModPower1024.oDataValid, control, h.state, modPower2Load1, hload,
      hcount]
  constructor
  case frame =>
    exact frame_next h.frame (by simp [control, h.state, h.frame.valid])
      (down1_parked (by simp [control, h.state, h.parked.down])) ha
  case parked =>
    refine parked_next ?_ ?_ ?_ a <;>
      simp [control, h.state, h.parked.compareOff, h.parked.addOff, h.parked.down]
  case spent =>
    exact spent_next (by simp [control, h.state]) (by simp [control, h.state]) h.mul a
  case regTemp1 =>
    have hcut := (h.masked rfl).oZ_toNat h.frame.i hi hT
    simpa [next, hvalid, control, h.state, modPower2Load1, hload] using hcut
  all_goals simp [next, control, h.state, ha.1, hvalid, h.regY, h.yOff, h.twopowi, h.tempOff]

/-! #### Comparison and addition -/

theorem two_pow_lt (hi : i ≤ 1024) (h2 : 2 ≤ i) : 2 * 2 ^ (i - 2) = 2 ^ (i - 1) ∧
    2 ^ (i - 1) < 2 ^ 1024 := by
  refine ⟨?_, Nat.pow_lt_pow_right (by decide) (by omega)⟩
  rw [← pow_succ']
  congr 1
  omega

theorem inCompare_of_atShift {v : ℕ} (hi : i ≤ 1024) (h2 : 2 ≤ i) (h : AtShift N i y v s)
    (ha : hold a) : InCompare N i y v 0 (s.next a) := by
  obtain ⟨hdouble, hlt⟩ := two_pow_lt hi h2
  have hparked : (s.next a).Parked := by
    refine parked_next ?_ ?_ ?_ a <;>
      simp [control, h.state, h.parked.compareOff, h.parked.addOff, h.parked.down]
  constructor
  case frame =>
    exact frame_next h.frame (by simp [control, h.state, h.frame.valid])
      (down1_parked (by simp [control, h.state, h.parked.down])) ha
  case twopowi =>
    have hval : (s.next a).twopowi.toNat = 2 ^ (i - 1) := by
      have hshift : (s.next a).twopowi = s.twopowi <<< 1 := by simp [next, control, h.state, ha.1]
      rw [hshift, BitVec.toNat_shiftLeft, h.twopowi, Nat.shiftLeft_eq, pow_one, Nat.mul_comm,
        hdouble]
      exact Nat.mod_eq_of_lt hlt
    rw [hval, pow_zero, Nat.mod_one]
    exact Shifted.start base 32 _
  case regTemp1 =>
    have hval : (s.next a).regTemp1.toNat = v := by
      simp [next, modPower2DataValid_off, control, h.state, h.tempOff, h.regTemp1]
    rw [hval]
    exact Shifted.start base 32 v
  case compare =>
    rw [hparked.compare]
    exact Comparator.at_start v _
  case spent =>
    exact spent_next (by simp [control, h.state, h.spent.off])
      (by simp [control, h.state, h.spent.noLoad]) h.spent.idle.state a
  case modOff => exact modOff_next (by simp [control, h.state]) (by simp [control, h.state]) a
  case addOff => exact hparked.addOff
  case add => exact hparked.add
  case down => exact hparked.down
  case downCount => exact hparked.downCount
  all_goals simp [next, control, h.state, ha.1, h.regY, h.yOff]

variable {v k : ℕ}

theorem inCompare_next (hk : k < 32) (hi : i ≤ 1024) (h : InCompare N i y v k s) (ha : hold a) :
    InCompare N i y v (k + 1) (s.next a) := by
  obtain ⟨he, hl, -⟩ := ha
  have hmode : s.compareMode = 0 := Comparator.At.busy (32 : BitVec 7) hk h.compare
  constructor
  case frame =>
    obtain ⟨hx, hi', hvalid⟩ := h.frame
    rw [if_neg (Nat.succ_ne_zero k)]
    constructor
    case i =>
      by_cases hfirst : k = 0
      · rw [if_pos hfirst] at hi'
        simp only [next, hl, down1, h.downCount, control, h.state, hmode, hfirst, decide_true,
          Bool.false_eq_true, if_false, if_true]
        exact toNat_add_one hi' (by omega)
      · rw [if_neg hfirst] at hi'
        simpa [next, hl, down1, h.downCount, hfirst] using hi'
    all_goals simp [next, he, hl, control, h.state, hmode, hvalid, hx]
  case twopowi =>
    simpa [next, he, control, h.state, hmode, fromTwopowi] using Mul1024bit.rotate_1024 hk h.twopowi
  case regTemp1 =>
    have hnext := h.regTemp1.next base_pos hk (word_lt_base 0)
    rw [← shiftIn_1024] at hnext
    simpa [next, modPower2DataValid_off, control, h.state, hmode, h.modOff.enable] using hnext
  case compare =>
    have hnext := Comparator.at_next (32 : BitVec 7) hk h.compare s.fromTemp1 s.fromTwopowi
      (Mul1024bit.lowWord_digit hk h.regTemp1) (Mul1024bit.lowWord_digit hk h.twopowi)
    simpa [next, control, h.state, hmode, Compare1024.next] using hnext
  case downCount => simp [next, control, h.state, hmode, h.downCount]
  case spent =>
    exact spent_next (by simp [control, h.state, hmode, h.spent.off])
      (by simp [control, h.state, hmode, h.spent.noLoad]) h.spent.idle.state a
  case modOff =>
    exact modOff_next (by simp [control, h.state, hmode, h.modOff.enable])
      (by simp [control, h.state, hmode, h.modOff.load]) a
  all_goals simp [next, control, h.state, he, hmode, h.regY, h.yOff, h.addOff, Add1024.next,
    SerialUnit.next]

theorem compareMode_verdict (hv : v < base ^ 32) (hw : 2 ^ (i - 1) < base ^ 32)
    (h : InCompare N i y v 32 s) :
    s.compareMode = if v < 2 ^ (i - 1) then 2 else if 2 ^ (i - 1) < v then 1 else 3 :=
  Comparator.At.verdict (32 : BitVec 7) rfl hv hw h.compare

/-- In the verdict cycle `i` has its new value already. -/
theorem frame_of_verdict (hne : s.compareMode ≠ 0#2) (h : InCompare N i y v 32 s) (ha : hold a) :
    (s.next a).Frame N (i + 1) := by
  refine frame_next h.frame (by simp [control, h.state, hne, h.frame.valid]) ?_ ha
  simp [down1, h.downCount]

theorem atMul_of_inCompare (hv : v < base ^ 32) (hw : 2 ^ (i - 1) < base ^ 32)
    (hle : v ≤ 2 ^ (i - 1)) (h : InCompare N i y v 32 s) (ha : hold a) :
    AtMul false N (i + 1) y (s.next a) := by
  have hmode : s.compareMode = 2 ∨ s.compareMode = 3 := by
    rw [compareMode_verdict hv hw h]
    split
    · exact Or.inl rfl
    · rw [if_neg (by omega)]
      exact Or.inr rfl
  have hne : s.compareMode ≠ 0#2 := by rcases hmode with h2 | h3 <;> simp [*]
  have hstate : (s.next a).state = .mul := by
    rcases hmode with h2 | h3 <;> simp [next, h.state, ha.1, *]
  have hspent : (s.next a).Spent :=
    spent_next (by simp [control, h.state, hne, h.spent.off])
      (by simp [control, h.state, hne, h.spent.noLoad]) h.spent.idle.state a
  constructor
  case state => exact hstate
  case frame => exact frame_of_verdict hne h ha
  case twopowi =>
    have hrotated := h.twopowi.rotate_full hw
    simpa [next, ha.1, control, h.state, hne] using hrotated
  case count => exact hspent.count
  case idle => exact hspent.idle
  case stale => exact decide_eq_false hspent.fresh
  case modOff =>
    exact modOff_next (by simp [control, h.state, hne, h.modOff.enable])
      (by simp [control, h.state, hne, h.modOff.load]) a
  case regY => simp [next, ha.1, control, h.state, hne, h.regY, h.yOff]

theorem inAdd_of_inCompare (hv : v < base ^ 32) (hw : 2 ^ (i - 1) < base ^ 32)
    (hlt : 2 ^ (i - 1) < v) (h : InCompare N i y v 32 s) (ha : hold a) :
    InAdd N i y 0 0 (s.next a) := by
  have hmode : s.compareMode = 1 := by
    rw [compareMode_verdict hv hw h, if_neg (by omega), if_pos hlt]
  constructor
  case frame => exact frame_of_verdict (by simp [hmode]) h ha
  case regY =>
    have hval : (s.next a).regY.toNat = y := by
      simp [next, ha.1, control, h.state, hmode, h.regY, h.yOff]
    rw [hval]
    exact Shifted.start base 32 y
  case twopowi =>
    have hval : (s.next a).twopowi.toNat = 2 ^ (i - 1) := by
      simpa [next, ha.1, control, h.state, hmode] using h.twopowi.rotate_full hw
    rw [hval, pow_zero, Nat.mod_one]
    exact Shifted.start base 32 _
  case add =>
    refine ⟨false, ?_, Added.start base y _⟩
    have hval : (s.next a).add = ⟨0, false, false⟩ := by
      simp [next, control, h.state, hmode, h.addOff, Add1024.next, SerialUnit.next]
    rw [hval]
    exact SerialUnit.at_start 30
  case spent =>
    exact spent_next (by simp [control, h.state, hmode, h.spent.off])
      (by simp [control, h.state, hmode, h.spent.noLoad]) h.spent.idle.state a
  case modOff =>
    exact modOff_next (by simp [control, h.state, hmode, h.modOff.enable])
      (by simp [control, h.state, hmode, h.modOff.load]) a
  case state => simp [next, h.state, ha.1, hmode]

variable {out : ℕ}

theorem inAdd_digit {c : Bool} (hk : k < 32) (h : InAdd N i y k out s) (hc : s.add.carry = c)
    (hadd : Added base y (2 ^ (i - 1)) k out c.toNat) :
    Added base y (2 ^ (i - 1)) (k + 1)
      (out + (Add1024.oZ s.add s.fromY s.fromTwopowi).toNat * base ^ k)
      ((sum s.fromY s.fromTwopowi s.add.carry).getLsbD 32).toNat := by
  obtain ⟨hz, hcarry⟩ := sum_digit s.fromY s.fromTwopowi s.add.carry
  have hnext := hadd.next
  have hx : s.fromY.toNat = digit base y k := Mul1024bit.lowWord_digit hk h.regY
  have hw : s.fromTwopowi.toNat = digit base (2 ^ (i - 1)) k :=
    Mul1024bit.lowWord_digit hk h.twopowi
  rw [← hx, ← hw, ← hc, ← hcarry, ← hz] at hnext
  exact hnext

theorem inAdd_regY (hk : k < 32) (h : InAdd N i y k out s) (ha : hold a) :
    Shifted base 32 y (k + 1) (out + (Add1024.oZ s.add s.fromY s.fromTwopowi).toNat * base ^ k)
      (s.next a).regY.toNat := by
  have hnext := h.regY.next base_pos hk (word_lt_base (Add1024.oZ s.add s.fromY s.fromTwopowi))
  rw [← shiftIn_1024] at hnext
  simpa [next, ha.1, control, h.state, toY] using hnext

theorem inAdd_frame (h : InAdd N i y k out s) (ha : hold a) : (s.next a).Frame N (i + 1) :=
  frame_next h.frame (by simp [control, h.state, h.frame.valid])
    (down1_parked (by simp [control, h.state])) ha

theorem inAdd_next (hk : k < 31) (h : InAdd N i y k out s) (ha : hold a) :
    ∃ out', InAdd N i y (k + 1) out' (s.next a) := by
  obtain ⟨c, hat, hadd⟩ := h.add
  have hfin : s.add.oFinish = false := by
    rw [hat.finish]
    exact decide_eq_false (Nat.not_lt.mpr (show k ≤ 30 by omega))
  refine ⟨out + (Add1024.oZ s.add s.fromY s.fromTwopowi).toNat * base ^ k, ?_⟩
  constructor
  case frame => exact inAdd_frame h ha
  case regY => exact inAdd_regY (by omega) h ha
  case twopowi =>
    simpa [next, ha.1, control, h.state, fromTwopowi] using
      Mul1024bit.rotate_1024 (by omega) h.twopowi
  case add =>
    refine ⟨(sum s.fromY s.fromTwopowi s.add.carry).getLsbD 32, ?_,
      inAdd_digit (by omega) h hat.1 hadd⟩
    have hnext := SerialUnit.at_next (show k ≤ (30 : BitVec 7).toNat from by
      show k ≤ 30
      omega) hat ((sum s.fromY s.fromTwopowi s.add.carry).getLsbD 32)
    simpa [next, control, h.state, Add1024.next] using hnext
  case spent =>
    exact spent_next (by simp [control, h.state, h.spent.off])
      (by simp [control, h.state, h.spent.noLoad]) h.spent.idle.state a
  case modOff =>
    exact modOff_next (by simp [control, h.state, h.modOff.enable])
      (by simp [control, h.state, h.modOff.load]) a
  case state => simp [next, h.state, ha.1, hfin]

theorem atMul_of_inAdd (hsum : y + 2 ^ (i - 1) < base ^ 32) (h : InAdd N i y 31 out s)
    (ha : hold a) : AtMul false N (i + 1) (y + 2 ^ (i - 1)) (s.next a) := by
  obtain ⟨c, hat, hadd⟩ := h.add
  have hfin : s.add.oFinish = true := by
    rw [hat.finish]
    rfl
  have hspent : (s.next a).Spent :=
    spent_next (by simp [control, h.state, h.spent.off])
      (by simp [control, h.state, h.spent.noLoad]) h.spent.idle.state a
  constructor
  case frame => exact inAdd_frame h ha
  case regY =>
    rw [(inAdd_regY (by decide) h ha).full (lt_of_le_of_lt (Nat.le_add_right y _) hsum)]
    exact (inAdd_digit (by decide) h hat.1 hadd).full_of_lt hsum
  case twopowi =>
    have hrotated := (Mul1024bit.rotate_1024 (by decide) h.twopowi).rotate_full
      (lt_of_le_of_lt (Nat.le_add_left _ y) hsum)
    simpa [next, ha.1, control, h.state, fromTwopowi] using hrotated
  case count => exact hspent.count
  case idle => exact hspent.idle
  case stale => exact decide_eq_false hspent.fresh
  case modOff =>
    exact modOff_next (by simp [control, h.state, h.modOff.enable])
      (by simp [control, h.state, h.modOff.load]) a
  case state => simp [next, h.state, ha.1, hfin]

theorem done_of_atMul (h : AtMul stale N 1025 y s) (ha : hold a) : Done y (s.next a) := by
  have hnoProduct := noProduct_of_initial h.idle.state
  have hlast : s.i = a.iLength + 1 := by
    rw [ha.2.2]
    exact BitVec.eq_of_toNat_eq h.frame.i
  have hstate : (s.next a).state = .finish := by
    simp [next, h.state, ha.1, hnoProduct, hlast]
  have hregY : (s.next a).regY.toNat = y := by
    simp [next, ha.1, control, h.state, h.regY]
  refine ⟨hstate, ?_, ?_⟩
  · simp [oDataValid, control, hstate]
  · simp [oZ, oDataValid, MonModInverse1024.y, control, hstate, hregY]

end

/-! ### The run of all passes -/

theorem quiet_of_latch {s : MonModInverse1024} (hs : s.state ≠ .finish)
    (hvalid : s.latch.oDataValid = false) (a : In) : quiet s a := by
  unfold quiet oDataValid control
  cases hstate : s.state
  case compare => simp only []; split <;> exact hvalid
  all_goals simp_all

/-- `Leads` for the machine: quiet until the property holds. -/
abbrev Reaches (Q : MonModInverse1024 → Prop) (n : ℕ) (s : MonModInverse1024) : Prop :=
  Leads next hold quiet Q n s

/-- What a pass makes of `y` when the multiplier puts out `z`. -/
def nextY (i y z : ℕ) : ℕ := if 2 ^ (i - 1) < z % 2 ^ i then y + 2 ^ (i - 1) else y

/-- Cycles of the comparison, and of the addition where it is due. -/
def compareCycles (i z : ℕ) : ℕ := if 2 ^ (i - 1) < z % 2 ^ i then 65 else 33

section
variable {stale : Bool} {N i y v z n : ℕ} {s : MonModInverse1024}

theorem InMul.reaches_mul {Q : Mul1024bit → Prop} (hi : i ≤ 1024) (h : InMul N i y s)
    (hmul : Mul1024bit.Reaches Q n s.mul) :
    Reaches (fun s => InMul N i y s ∧ Q s.mul) n s := by
  refine Leads.wait MonModInverse1024.mul (fun s _ => s.mulIn) (InMul N i y) ?_ ?_ h hmul
  · intro s a h ha
    constructor <;> simp [mulIn, control, h.state, h.count]
  · intro s a h ha hquiet
    exact ⟨quiet_of_latch (by simp [h.state]) h.frame.valid a, inMul_next hi h hquiet ha, rfl⟩

theorem AtMod.reaches_shift {T : ℕ} (hi : i ≤ 1024) (hT : T < 2 ^ 1024) (h : AtMod N i y T 0 s) :
    Reaches (AtShift N i y (T % 2 ^ i)) 3 s := by
  intro a ha
  refine ⟨quiet_of_latch (by simp [h.state]) h.frame.valid a, ?_⟩
  have h1 := atMod_load h ha
  intro a ha
  refine ⟨quiet_of_latch (by simp [h1.state]) h1.frame.valid a, ?_⟩
  have h2 := atMod_cut hi h1 ha
  intro a ha
  exact ⟨quiet_of_latch (by simp [h2.state]) h2.frame.valid a, atShift_of_atMod hi hT h2 ha⟩

theorem InCompare.reaches_verdict (hi : i ≤ 1024) (h : InCompare N i y v 0 s) :
    Reaches (InCompare N i y v 32) 32 s := by
  refine Leads.loop (fun k => InCompare N i y v k) 32 ?_ h
  intro k hk s a h ha
  exact ⟨quiet_of_latch (by simp [h.state]) h.frame.valid a, inCompare_next hk hi h ha⟩

theorem InAdd.reaches_mul (hsum : y + 2 ^ (i - 1) < base ^ 32) (h : InAdd N i y 0 0 s) :
    Reaches (AtMul false N (i + 1) (y + 2 ^ (i - 1))) 32 s := by
  refine Leads.seq (m := 31) (n := 1)
    (Leads.loop (fun k s => ∃ out, InAdd N i y k out s) 31 ?_ ⟨0, h⟩) ?_
  · rintro k hk s a ⟨out, h⟩ ha
    exact ⟨quiet_of_latch (by simp [h.state]) h.frame.valid a, inAdd_next hk h ha⟩
  · rintro s ⟨out, h⟩ a ha
    exact ⟨quiet_of_latch (by simp [h.state]) h.frame.valid a, atMul_of_inAdd hsum h ha⟩

theorem InCompare.reaches_mul (hi : i ≤ 1024) (h2 : 2 ≤ i) (hy : y < 2 ^ (i - 1))
    (h : InCompare N i y (z % 2 ^ i) 0 s) :
    Reaches (AtMul false N (i + 1) (nextY i y z)) (compareCycles i z) s := by
  have hpow : base ^ 32 = 2 ^ 1024 := by rw [base, ← pow_mul]
  obtain ⟨-, hw⟩ := two_pow_lt hi h2
  have hsplit : 2 ^ i = 2 ^ (i - 1) + 2 ^ (i - 1) := by
    rw [← Nat.mul_two, ← pow_succ, Nat.sub_add_cancel (by omega)]
  have hle : 2 ^ i ≤ 2 ^ 1024 := Nat.pow_le_pow_right (by decide) hi
  have hv : z % 2 ^ i < base ^ 32 := by
    rw [hpow]
    exact lt_of_lt_of_le (Nat.mod_lt z (Nat.two_pow_pos i)) hle
  have hsum : y + 2 ^ (i - 1) < base ^ 32 := by
    rw [hpow]
    exact lt_of_lt_of_le (by omega) hle
  rw [← hpow] at hw
  rw [nextY, compareCycles]
  split
  · rename_i hlt
    refine Leads.seq (m := 32) (n := 33) (h.reaches_verdict hi) ?_
    intro s h a ha
    exact ⟨quiet_of_latch (by simp [h.state]) h.frame.valid a,
      (inAdd_of_inCompare hv hw hlt h ha).reaches_mul hsum⟩
  · rename_i hge
    refine Leads.seq (m := 32) (n := 1) (h.reaches_verdict hi) ?_
    intro s h a ha
    exact ⟨quiet_of_latch (by simp [h.state]) h.frame.valid a,
      atMul_of_inCompare hv hw (Nat.not_lt.mp hge) h ha⟩

theorem AtMod.reaches_mul (hi : i ≤ 1024) (h2 : 2 ≤ i) (hy : y < 2 ^ (i - 1))
    (h : AtMod N i y (z % 2 ^ 1024) 0 s) :
    Reaches (AtMul false N (i + 1) (nextY i y z)) (3 + (compareCycles i z + 1)) s := by
  have hcut : z % 2 ^ 1024 % 2 ^ i = z % 2 ^ i := Nat.mod_mod_of_dvd z (Nat.pow_dvd_pow 2 hi)
  have hshift := h.reaches_shift hi (Nat.mod_lt z (Nat.two_pow_pos 1024))
  rw [hcut] at hshift
  refine hshift.seq ?_
  intro s h a ha
  exact ⟨quiet_of_latch (by simp [h.state]) h.frame.valid a,
    (inCompare_of_atShift hi h2 h ha).reaches_mul hi h2 hy⟩

/-- Cycles of a pass. -/
def passCycles (stale : Bool) (i z : ℕ) : ℕ :=
  33 * (31 - Mul1024bit.counted stale) + 162 + (3 + (compareCycles i z + 1) + 1) + 1

theorem AtMul.reaches_mul (hi : i ≤ 1024) (h2 : 2 ≤ i) (hy : y < 2 ^ (i - 1))
    (hz : Mul1024bit.value s.mul.settling stale N y s.mul.buffRegOutput.toNat = z)
    (h : AtMul stale N i y s) :
    Reaches (AtMul false N (i + 1) (nextY i y z)) (passCycles stale i z) s := by
  have hX : s.mulIn.iX.toNat = N := h.frame.x
  have hY : s.mulIn.iY.toNat = y := by
    simp [mulIn, MonModInverse1024.y, control, h.state, h.regY]
  have hmul := h.idle.reaches_value (i := s.mulIn) (by simp [mulIn, control, h.state])
    (by simp [mulIn, control, h.state, h.count]) hX hY h.stale rfl
  rw [hz] at hmul
  refine Leads.cons ?_
  intro a ha
  refine ⟨quiet_of_latch (by simp [h.state]) h.frame.valid a, ?_⟩
  refine ((inMul_of_atMul hi h ha).reaches_mul hi hmul).seq ?_
  rintro s ⟨h, hdone⟩
  refine Leads.cons ?_
  intro a ha
  exact ⟨quiet_of_latch (by simp [h.state]) h.frame.valid a,
    (atMod_of_inMul h hdone ha).reaches_mul hi h2 hy⟩

end

/-- A pass with the right product lifts the inverse by one bit. -/
theorem nextY_eq_lift (N j y : ℕ) : nextY (j + 1) y (N * y) = Montgomery.lift N j y := rfl

/-- The remaining passes; induction on their number. -/
theorem exists_reaches_done {N : ℕ} (hN : N < 2 ^ 1023) (r : ℕ) :
    ∀ {j y : ℕ}, 1 ≤ j → j + r = 1024 → y < 2 ^ j →
      ∃ m, ∀ s, AtMul false N (j + 1) y s → Reaches (Done (Montgomery.lifts N j r y)) m s := by
  induction r with
  | zero =>
    intro j y _ hj _
    refine ⟨1, fun s h a ha => ⟨quiet_of_latch (by simp [h.state]) h.frame.valid a, ?_⟩⟩
    have hlast : j + 1 = 1025 := by omega
    rw [hlast] at h
    exact done_of_atMul h ha
  | succ r ih =>
    intro j y hj hsum hy
    obtain ⟨m, hm⟩ := ih (j := j + 1) (by omega) (by omega) (Montgomery.lift_lt (a := N) hy)
    refine ⟨passCycles false (j + 1) (N * y) + m, fun s h => ?_⟩
    have hsmall : y < 2 ^ 1023 :=
      lt_of_lt_of_le hy (Nat.pow_le_pow_right (by decide) (by omega))
    have hz : Mul1024bit.value s.mul.settling false N y s.mul.buffRegOutput.toNat = N * y := by
      rw [Mul1024bit.value_fresh (lt_base_2048 _), magnitude_of_lt hN,
        magnitude_of_lt hsmall]
    have hpass := h.reaches_mul (by omega) (by omega) hy hz
    rw [nextY_eq_lift] at hpass
    exact hpass.seq hm

/-! ### The number put out -/

/-- Reset by a cycle with `iEnable` low. -/
structure Ready (s : MonModInverse1024) : Prop where
  state : s.state = .initial
  regY : s.regY = 1
  twopowi : s.twopowi = 1

theorem ready_of_disabled (s : MonModInverse1024) {a : In} (ha : a.iEnable = false) :
    (s.next a).Ready := by
  constructor <;> simp [next, ha]

/-- What the passes make of the number `z` from the first multiplication. -/
def result (N z : ℕ) : ℕ := Montgomery.lifts N 2 1022 (nextY 2 1 z)

theorem nextY_first_lt (z : ℕ) : nextY 2 1 z < 2 ^ 2 := by
  rw [nextY]
  split <;> decide

theorem result_lt (N z : ℕ) : result N z < 2 ^ 1024 :=
  Montgomery.lifts_lt 1022 (nextY_first_lt z)

section
variable {N z : ℕ} {s : MonModInverse1024} {a : In}

theorem atMul_of_load (hs : s.Ready) (he : a.iEnable = true) (hl : a.iLoad = true)
    (hX : a.iX.toNat = N) : AtMul (decide s.mul.LeavesStale) N 2 1 (s.next a) := by
  have hoff : s.mulIn.iEnable = false := by simp [mulIn, control, hs.state]
  constructor
  case frame => constructor <;> simp [next, he, hl, control, hs.state, hX]
  case idle => exact Mul1024bit.idle_of_disabled s.mul s.mulIn hoff
  case stale => exact decide_eq_decide.mpr (Mul1024bit.staleStep_next s.mul s.mulIn)
  case modOff =>
    exact modOff_next (by simp [control, hs.state]) (by simp [control, hs.state]) a
  all_goals simp [next, control, hs.state, he, hl, hs.regY, hs.twopowi]

theorem exists_reaches_result (hN : N < 2 ^ 1023) (stale : Bool) (z : ℕ) :
    ∃ m, ∀ (s : MonModInverse1024) (a : In), s.Ready → a.iEnable = true → a.iLoad = true →
      a.iX.toNat = N → decide s.mul.LeavesStale = stale → s.mul.nextValue N 1 = z →
        Reaches (Done (result N z)) m (s.next a) := by
  obtain ⟨m, hm⟩ := exists_reaches_done hN 1022 (j := 2) (by decide) rfl (nextY_first_lt z)
  refine ⟨passCycles stale 2 z + m, ?_⟩
  intro s a hs he hl hX hstale hz
  have hload := atMul_of_load hs he hl hX
  have hvalue : Mul1024bit.value (s.next a).mul.settling stale N 1
      (s.next a).mul.buffRegOutput.toNat = z := by
    have hnext := Mul1024bit.value_next s.mul s.mulIn N 1
    rw [← hstale, ← hz, ← hnext, decide_eq_decide.mpr (Mul1024bit.staleStep_next s.mul s.mulIn)]
    rfl
  rw [hstale] at hload
  exact (hload.reaches_mul (by decide) le_rfl (by decide) hvalue).seq hm

/-- The first pass decides which product the inverse ends with. -/
theorem mul_result_mod (hodd : N % 2 = 1) (z : ℕ) :
    N * result N z % 2 ^ 1024 = 1 ↔ (z % 4 = 3 ↔ N % 4 = 3) := by
  have hfirst : N * nextY 2 1 z % 2 ^ 2 = if z % 4 = 3 then N * 3 % 4 else N % 4 := by
    have hcond : 2 ^ (2 - 1) < z % 2 ^ 2 ↔ z % 4 = 3 := by
      show 2 < z % 4 ↔ _
      omega
    rw [nextY]
    simp only [hcond]
    split
    · rfl
    · rw [Nat.mul_one]
      rfl
  have hpos : 0 < N * nextY 2 1 z % 2 ^ 2 := by
    rw [hfirst]
    split <;> omega
  rw [result, Montgomery.mul_lifts_mod hodd hpos 1022 rfl, hfirst]
  split <;> omega

end

/-- A load pulse with `N` and the length 1024, then kept enabled. -/
structure Loads (N : BitVec 1024) (i : ℕ → In) : Prop where
  enable : (i 0).iEnable = true
  load : (i 0).iLoad = true
  x : (i 0).iX = N
  held : ∀ t, hold (i (t + 1))

/-- Whatever the other inputs, the first valid cycle puts out the inverse of `N`. -/
def GivesInverse (s : MonModInverse1024) (N : BitVec 1024) : Prop :=
  ∀ i, Loads N i → ∃ T, (∀ t < T, (run next s i t).oDataValid = false) ∧
    (run next s i T).oDataValid = true ∧ N.toNat * (run next s i T).oZ.toNat % 2 ^ 1024 = 1

theorem givesInverse_of_ready {s : MonModInverse1024} (hs : s.Ready) {N : BitVec 1024}
    (hodd : N.toNat % 2 = 1) (hN : N.toNat < 2 ^ 1023) :
    GivesInverse s N ↔ (s.mul.nextValue N.toNat 1 % 4 = 3 ↔ N.toNat % 4 = 3) := by
  obtain ⟨m, hm⟩ := exists_reaches_result hN (decide s.mul.LeavesStale)
    (s.mul.nextValue N.toNat 1)
  have hrun : ∀ i, Loads N i → (∀ t < m + 1, (run next s i t).oDataValid = false) ∧
      Done (result N.toNat (s.mul.nextValue N.toNat 1)) (run next s i (m + 1)) := by
    intro i hi
    have hquiet : quiet s (i 0) := by simp [quiet, oDataValid, control, hs.state]
    exact Leads.run_cons i hquiet
      (hm s (i 0) hs hi.enable hi.load (congrArg BitVec.toNat hi.x) rfl rfl) fun t _ => hi.held t
  rw [← mul_result_mod hodd]
  constructor
  · intro hall
    have hi : Loads N fun t => ⟨true, decide (t = 0), N, 1024⟩ :=
      ⟨rfl, rfl, rfl, fun t => ⟨rfl, rfl, rfl⟩⟩
    obtain ⟨hbefore, hdone⟩ := hrun _ hi
    have hz := (first_iff hbefore hdone.valid).mp (hall _ hi)
    rw [hdone.z] at hz
    exact hz
  · intro hz i hi
    obtain ⟨hbefore, hdone⟩ := hrun i hi
    refine (first_iff hbefore hdone.valid).mpr ?_
    rw [hdone.z]
    exact hz

/-- The first product modulo 4 is that of a stale pass when the multiplier starts in its last
step. -/
theorem nextValue_mod_four (c : Mul1024bit) {N : ℕ} (hN : N < 2 ^ 1023) :
    (c.nextValue N 1 % 4 = 3 ↔ N % 4 = 3) ↔
      (c.LeavesStale → (c.buffRegOutput.toNat / base ^ 63 % 4 = 3 ↔ N % 4 = 3)) := by
  have hvalue := c.nextValue_of_lt hN (show 1 < 2 ^ 1023 from Nat.one_lt_two_pow (by decide))
  rw [hvalue]
  by_cases hs : c.LeavesStale
  · have hlow4 : (c.buffRegOutput.toNat / base ^ 63 + N % base ^ 31 * 1 * base) % 4 =
        c.buffRegOutput.toNat / base ^ 63 % 4 := by
      have hbase : base = 4 * 2 ^ 30 := by rw [base]; rfl
      generalize c.buffRegOutput.toNat / base ^ 63 = w
      generalize N % base ^ 31 * 1 = q
      rw [hbase]
      omega
    rw [if_pos hs, hlow4]
    exact ⟨fun h _ => h, fun h => h hs⟩
  · rw [if_neg hs, Nat.mul_one]
    exact iff_of_true Iff.rfl fun h => absurd h hs

/-- After a cycle with `iEnable` low: the inverse comes out unless the aborted multiplication
left the step counter of the multiplier at its end, and then by chance. -/
theorem givesInverse_iff (s : MonModInverse1024) (low : In) (hlow : low.iEnable = false)
    (N : BitVec 1024) (hodd : N.toNat % 2 = 1) (hN : N.toNat < 2 ^ 1023) :
    GivesInverse (s.next low) N ↔
      ((s.next low).mul.LeavesStale →
        ((s.next low).mul.buffRegOutput.toNat / base ^ 63 % 4 = 3 ↔ N.toNat % 4 = 3)) := by
  rw [givesInverse_of_ready (ready_of_disabled s hlow) hodd hN, nextValue_mod_four _ hN]

/-- All registers zero. -/
def cleared : MonModInverse1024 where
  state := .initial
  i := 0
  down1Count := false
  x := 0
  regY := 0
  twopowi := 0
  modPower2Count := false
  modPower2 := ⟨0, fun _ => 0⟩
  regTemp1 := 0
  mulCount := 0
  mul := Mul1024bit.cleared
  temp := 0
  compare := ⟨0, false, false⟩
  add := ⟨0, false, false⟩
  latch :=
    ⟨false, false, false, false, 0, false, false, false, false, false, false, false, false, false⟩

/-- A cycle with `iEnable` low. -/
def disabled : In := ⟨false, false, 0, 1024⟩

theorem givesInverse_five :
    GivesInverse (cleared.next disabled) 5#1024 ↔
      ((cleared.next disabled).mul.LeavesStale →
        ((cleared.next disabled).mul.buffRegOutput.toNat / base ^ 63 % 4 = 3 ↔
          (5#1024).toNat % 4 = 3)) :=
  givesInverse_iff cleared disabled rfl 5#1024 (by decide +kernel) (by decide +kernel)

/-- From reset, a load pulse with 7 after a cycle with `iEnable` low, and `iEnable` low again
in cycle 64. -/
def aborting : ℕ → In :=
  fun t => ⟨decide (t ≠ 0 ∧ t ≠ 64), decide (t = 1), 7#1024, 1024⟩

/-- The low cycle meets the first pass of the multiplication at word 28. -/
theorem aborting_run : (run next cleared aborting (64 + 1)).mul.LeavesStale ∧
    (run next cleared aborting (64 + 1)).mul.buffRegOutput.toNat = 0 := by
  have hready : (cleared.next (aborting 0)).Ready := ready_of_disabled cleared rfl
  have hat := atMul_of_load (a := aborting 1) hready rfl rfl rfl
  have hstep : ¬ ((cleared.next (aborting 0)).next (aborting 1)).mul.control.step = 30 := by
    decide +kernel
  have hout : ((cleared.next (aborting 0)).next (aborting 1)).mul.buffRegOutput.toNat = 0 := by
    decide +kernel
  generalize hs : (cleared.next (aborting 0)).next (aborting 1) = s at hat hstep hout
  have hloaded := Mul1024bit.loaded_of_load (i := s.mulIn) hat.idle
    (by simp [mulIn, control, hat.state]) (by simp [mulIn, control, hat.state, hat.count])
  rw [if_neg hstep, hout] at hloaded
  have hword := hloaded.reaches_word (j := 28) (by decide) (lt_base_1024 _) (lt_base_1024 _)
    (by decide)
  have hreach : Reaches (fun s => ∃ N y X Y out, InMul N 2 y s ∧
      Mul1024bit.InPass 0 X Y 0 0 0 0 28 out s.mul) (61 + 1) s := by
    refine Leads.cons ?_
    intro a ha
    refine ⟨quiet_of_latch (by simp [hat.state]) hat.frame.valid a, ?_⟩
    refine ((inMul_of_atMul (by decide) hat ha).reaches_mul (by decide) hword).mono ?_
    rintro s ⟨hs, out, hpass⟩
    exact ⟨_, _, _, _, out, hs, hpass⟩
  have hheld : ∀ t < 61 + 1, hold (aborting (2 + t)) := by
    intro t ht
    exact ⟨decide_eq_true (by omega), decide_eq_false (by omega), rfl⟩
  obtain ⟨-, N, y, X, Y, out, hmul, hpass⟩ := Leads.run hreach (fun t => aborting (2 + t)) hheld
  have hrun : run next cleared aborting 64 = run next s (fun t => aborting (2 + t)) 62 := by
    rw [← hs]
    exact run_add next cleared aborting 2 62
  rw [← hrun] at hmul hpass
  have hin : Mul1024bit.hold (run next cleared aborting 64).mulIn := by
    constructor <;> simp [mulIn, control, hmul.state, hmul.count]
  obtain ⟨out', hnext⟩ :=
    Mul1024bit.inPass_next (Nat.pow_pos base_pos) (by decide) (by decide) hpass hin
  have hlast : (run next cleared aborting (64 + 1)).mul =
      (run next cleared aborting 64).mul.next (run next cleared aborting 64).mulIn := rfl
  rw [hlast]
  refine ⟨⟨hnext.state, BitVec.eq_of_toNat_eq hnext.step⟩, ?_⟩
  rw [hnext.o.2, Nat.zero_div, Nat.zero_mul]

/-- Loaded again right after the abort, the machine does not invert 7. -/
theorem not_givesInverse_aborted :
    ¬ ∀ (i : ℕ → In) (t : ℕ) (N : BitVec 1024), (i t).iEnable = false → N.toNat % 2 = 1 →
      N.toNat < 2 ^ 1023 → GivesInverse (run next cleared i (t + 1)) N := by
  intro h
  have hodd : (7#1024).toNat % 2 = 1 := by decide +kernel
  have hN : (7#1024).toNat < 2 ^ 1023 := by decide +kernel
  have hgives := h aborting 64 7#1024 rfl hodd hN
  obtain ⟨hstale, hout⟩ := aborting_run
  have hready : (run next cleared aborting (64 + 1)).Ready := ready_of_disabled _ rfl
  have hvalue := (run next cleared aborting (64 + 1)).mul.nextValue_of_lt hN
    (show 1 < 2 ^ 1023 from Nat.one_lt_two_pow (by decide))
  rw [if_pos hstale, hout] at hvalue
  have hmod := (givesInverse_of_ready hready hodd hN).mp hgives
  rw [hvalue] at hmod
  exact absurd hmod (by decide +kernel)

end MonModInverse1024

end SocCrypto.Rsa

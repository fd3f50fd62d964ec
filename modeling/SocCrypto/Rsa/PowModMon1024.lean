import SocCrypto.Rsa.Mod2048
import SocCrypto.Rsa.MonModInverse1024
import SocCrypto.Rsa.MonPro1024

/-!
# The exponentiation core

`PowModMon1024.v`: two reductions and an inverse run side by side (`State_Mode`), a
subtraction negates the inverse, the leading zeros of the exponent are skipped, and from then
on every bit costs one Montgomery product, or two. A product by one takes the result out of
Montgomery form.
-/

namespace SocCrypto.Rsa
open WordSerial Clocked

/-! ### The machine -/

/-- `State`, in the order 0 to 9. -/
inductive PowState where
  | initial
  | mode
  | sub
  | getBit
  | monPro1
  | delay
  | monPro2
  | shiftLeftOne
  | monPro3
  | finish
  deriving DecidableEq

/-- The control outputs, which are latches. -/
structure PowControl where
  mod2048Enable1 : Bool
  mod2048Load1 : Bool
  mod2048Enable2 : Bool
  mod2048Load2 : Bool
  monModInverseEnable : Bool
  monModInverseLoad : Bool
  regN0Enable : Bool
  subEnable : Bool
  regBEnable : Bool
  getBitEnable : Bool
  monProEnable : Bool
  monProLoad : Bool
  down1 : Bool
  oDataValid : Bool
  deriving DecidableEq

structure PowModMon1024 where
  state : PowState
  a : BitVec 1024
  b : BitVec 1024
  n : BitVec 1024
  n0 : BitVec 2048
  z1 : BitVec 1024
  mod1 : Mod2048
  mod1Count : Bool
  mod1Count1 : Bool
  mod2 : Mod2048
  mod2Count : Bool
  mod2Count1 : Bool
  monModInverse : MonModInverse1024
  monModInverseCount : Bool
  monModInverseCount1 : Bool
  sub : Sub2048
  subCount : BitVec 6
  i : BitVec 11
  monPro : MonPro1024
  monProCount : Bool
  mod2048_1 : Bool
  mod2048_2 : Bool
  monModInverse_1 : Bool
  latch : PowControl

namespace PowModMon1024

structure In where
  iEnable : Bool
  iLoad : Bool
  iA : BitVec 1024
  iB : BitVec 1024
  iN : BitVec 1024

def fromB (s : PowModMon1024) : Bool := s.b.getLsbD 1023

/-- The settled control outputs of the current cycle. -/
def control (s : PowModMon1024) : PowControl :=
  match s.state with
  | .initial =>
    ⟨false, false, false, false, false, false, false, false, false, false, false, false, false,
      false⟩
  | .mode =>
    { s.latch with
      mod2048Enable1 := true, mod2048Load1 := true, mod2048Enable2 := true,
      mod2048Load2 := true, monModInverseEnable := true, monModInverseLoad := true }
  | .sub =>
    { s.latch with
      mod2048Enable1 := false, mod2048Load1 := false, mod2048Enable2 := false,
      mod2048Load2 := false, monModInverseEnable := false, monModInverseLoad := false,
      regN0Enable := true, subEnable := true }
  | .getBit =>
    -- `GetBit_Dis` is low until `GetBit_Enable` is up, and then the top bit of `B`
    if s.latch.getBitEnable && s.fromB then { s.latch with regBEnable := false }
    else
      { s.latch with
        regN0Enable := false, subEnable := false, regBEnable := !s.fromB, getBitEnable := true }
  | .monPro1 =>
    { s.latch with
      regBEnable := false, getBitEnable := false, monProEnable := true, monProLoad := true,
      down1 := false }
  | .delay =>
    { s.latch with
      mod2048Enable1 := false, mod2048Load1 := false, mod2048Enable2 := false,
      mod2048Load2 := false, monModInverseEnable := false, monModInverseLoad := false,
      regN0Enable := false, subEnable := false, regBEnable := false, getBitEnable := false,
      monProEnable := false, monProLoad := false }
  | .monPro2 => { s.latch with monProEnable := true, monProLoad := true }
  | .shiftLeftOne =>
    { s.latch with
      monProEnable := false, monProLoad := false, down1 := true, regBEnable := true }
  | .monPro3 =>
    { s.latch with
      monProEnable := true, monProLoad := true, down1 := false, regBEnable := false }
  | .finish =>
    ⟨false, false, false, false, false, false, false, false, false, false, false, false, false,
      true⟩

def oDataValid (s : PowModMon1024) : Bool := s.control.oDataValid
def oZ (s : PowModMon1024) : BitVec 1024 := if s.oDataValid then s.z1 else 0

def getBitDis (s : PowModMon1024) : Bool := if s.control.getBitEnable then s.fromB else false
def down (s : PowModMon1024) : Bool := if s.control.getBitEnable then !s.fromB else false

/-- Ports of the first reduction, of `A * 2 ^ 1024`. -/
def mod1In (s : PowModMon1024) : Mod2048.In where
  iEnable := if s.mod1Count1 then false else s.control.mod2048Enable1
  iLoad := if s.mod1Count then s.control.mod2048Load1 else false
  iX := s.a ++ 0#1024
  iY := 0#1024 ++ s.n

/-- Ports of the second reduction, of `2 ^ 1024`. -/
def mod2In (s : PowModMon1024) : Mod2048.In where
  iEnable := if s.mod2Count1 then false else s.control.mod2048Enable2
  iLoad := if s.mod2Count then s.control.mod2048Load2 else false
  iX := 1#1024 ++ 0#1024
  iY := 0#1024 ++ s.n

def monModInverseIn (s : PowModMon1024) : MonModInverse1024.In where
  iEnable := if s.monModInverseCount1 then false else s.control.monModInverseEnable
  iLoad := if s.monModInverseCount then s.control.monModInverseLoad else false
  iX := s.n
  iLength := 1024

def monProIn (s : PowModMon1024) : MonPro1024.In where
  iEnable := s.control.monProEnable
  iLoad := if s.monProCount then s.control.monProLoad else false
  iX := s.z1
  iY := if s.state = .monPro1 then s.z1 else if s.state = .monPro3 then 1#1024 else s.a
  iN := s.n
  iN0 := s.n0.setWidth 1024

def fromR (s : PowModMon1024) : Word := if s.subCount = 32 then 1 else 0
def fromN0 (s : PowModMon1024) : Word := lowWord s.n0

/-- The counter and flag logic of one engine: `Count`, `Count1` and the flag of `State_Mode`. -/
def count (load c : Bool) : Bool := if !load then true else if c then false else c
def count1 (iEnable valid c : Bool) : Bool := if !iEnable then false else if valid then true else c
def flag (iEnable mode valid c : Bool) : Bool :=
  if !iEnable then false else if !mode then false else if valid then true else c

def next (s : PowModMon1024) (i : In) : PowModMon1024 :=
  let o := s.control
  let mode := decide (s.state = .mode)
  { latch := o
    a := if i.iLoad then i.iA else if s.mod1.oDataValid then s.mod1.oZ else s.a
    b := if i.iLoad then i.iB else if o.regBEnable then s.b <<< 1 else s.b
    n := if i.iLoad then i.iN else s.n
    n0 :=
      if s.monModInverse.oDataValid then s.monModInverse.oZ.setWidth 2048
      else if o.regN0Enable then shiftIn s.n0 (Sub2048.oZ s.sub s.fromR s.fromN0)
      else s.n0
    z1 :=
      if s.mod2.oDataValid then s.mod2.oZ
      else if s.monPro.oDataValid then s.monPro.oZ
      else s.z1
    mod1 := s.mod1.next s.mod1In
    mod1Count := count o.mod2048Load1 s.mod1Count
    mod1Count1 := count1 i.iEnable s.mod1.oDataValid s.mod1Count1
    mod2 := s.mod2.next s.mod2In
    mod2Count := count o.mod2048Load2 s.mod2Count
    mod2Count1 := count1 i.iEnable s.mod2.oDataValid s.mod2Count1
    monModInverse := s.monModInverse.next s.monModInverseIn
    monModInverseCount := count o.monModInverseLoad s.monModInverseCount
    monModInverseCount1 := count1 i.iEnable s.monModInverse.oDataValid s.monModInverseCount1
    sub := Sub2048.next s.sub o.subEnable s.fromR s.fromN0
    subCount := if !o.subEnable then 0 else s.subCount + 1
    i := if !i.iEnable then 1024 else if s.down || o.down1 then s.i - 1 else s.i
    monPro := s.monPro.next s.monProIn
    monProCount := count o.monProLoad s.monProCount
    mod2048_1 := flag i.iEnable mode s.mod1.oDataValid s.mod2048_1
    mod2048_2 := flag i.iEnable mode s.mod2.oDataValid s.mod2048_2
    monModInverse_1 := flag i.iEnable mode s.monModInverse.oDataValid s.monModInverse_1
    state :=
      if !i.iEnable then .initial
      else
        match s.state with
        | .initial => if i.iLoad then .mode else .initial
        | .mode => if s.mod2048_1 && s.mod2048_2 && s.monModInverse_1 then .sub else .mode
        | .sub => if s.sub.oFinish then .getBit else .sub
        | .getBit => if s.getBitDis then .monPro1 else .getBit
        | .monPro1 =>
          if s.monPro.oDataValid then if s.fromB then .delay else .shiftLeftOne else .monPro1
        | .delay => .monPro2
        | .monPro2 => if s.monPro.oDataValid then .shiftLeftOne else .monPro2
        | .shiftLeftOne => if s.i = 1 then .monPro3 else .monPro1
        | .monPro3 => if s.monPro.oDataValid then .finish else .monPro3
        | .finish => .initial }

/-- How the sign units of the products come to rest. -/
def settling (s : PowModMon1024) : Mul1024bit.Settlings := s.monPro.mul.settling

@[simp] theorem settling_next (s : PowModMon1024) (i : In) : (s.next i).settling = s.settling := rfl

/-! ### Phases of an exponentiation

`Loaded`, `InMode`, `InSub`, `InGetBit`, `AtProduct`, `InProduct`, `AtDelay`, `AtShift` and
`Done` follow one exponentiation. From `InMode` on the control outputs of every state are known,
and the phases state them. -/

/-- Inputs of the cycles after the load pulse. -/
def hold (a : In) : Prop := a.iEnable = true ∧ a.iLoad = false

def quiet (s : PowModMon1024) (_ : In) : Prop := s.oDataValid = false

/-- Every control output low. -/
def off : PowControl :=
  ⟨false, false, false, false, false, false, false, false, false, false, false, false, false, false⟩

def engaged : PowControl :=
  { off with
    mod2048Enable1 := true, mod2048Load1 := true, mod2048Enable2 := true,
    mod2048Load2 := true, monModInverseEnable := true, monModInverseLoad := true }

def subtracting : PowControl := { off with regN0Enable := true, subEnable := true }

def scanning (bit : Bool) : PowControl := { off with regBEnable := !bit, getBitEnable := true }

def multiplying : PowControl := { off with monProEnable := true, monProLoad := true }

def shifting : PowControl := { off with down1 := true, regBEnable := true }

/-- The Montgomery multiplier waits with nothing left over from an earlier product. -/
structure Rested (c : MonPro1024) : Prop where
  ready : c.Ready
  mul : c.mul.control.state = .initial

/-- One engine in cycle `k` after its load pulse, valid in cycle `m`: its `Count`, `Count1` and
flag, and what holds of the register that takes its result. -/
structure Engine (timed : Prop) (m k : ℕ) (c c1 f : Bool) (result : Prop) : Prop where
  timed : timed
  count : c = false
  count1 : c1 = decide (m < k)
  flag : f = decide (m < k)
  result : m < k → result

/-- Cycle `k` of a reduction that leaves `z`. -/
abbrev Reducing (z m k : ℕ) (c : Mod2048) : Prop :=
  Timed Mod2048.next Mod2048.hold Mod2048.quiet (Mod2048.Done z) (fun c => c.state = .initial) m k c

/-- Cycle `k` of an inversion with the result `z`. -/
abbrev Inverting (z m k : ℕ) (c : MonModInverse1024) : Prop :=
  Timed MonModInverse1024.next MonModInverse1024.hold MonModInverse1024.quiet
    (MonModInverse1024.Done z) (fun c => c.state = .initial) m k c

/-- The operands and the bit counter after the load pulse. -/
structure Operands (B N : ℕ) (s : PowModMon1024) : Prop where
  b : s.b.toNat = B
  n : s.n.toNat = N
  i : s.i = 1024

/-- Reset by a cycle with `iEnable` low. -/
structure Primed (s : PowModMon1024) : Prop where
  state : s.state = .initial
  mod1Count1 : s.mod1Count1 = false
  mod2Count1 : s.mod2Count1 = false
  inverseCount1 : s.monModInverseCount1 = false
  i : s.i = 1024

/-- No engine has its valid cycle. -/
structure NoneValid (s : PowModMon1024) : Prop where
  mod1 : s.mod1.oDataValid = false
  mod2 : s.mod2.oDataValid = false
  inverse : s.monModInverse.oDataValid = false

/-- First cycle of `State_Mode`, that of the load pulses of the engines. -/
structure Loaded (A B N : ℕ) (s : PowModMon1024) : Prop where
  state : s.state = .mode
  latch : s.latch = off
  operands : s.Operands B N
  a : s.a.toNat = A
  mod1 : s.mod1.state = .initial
  mod1Equal : s.mod1.enableXEqualY = false
  mod1Count : s.mod1Count = true
  mod1Count1 : s.mod1Count1 = false
  mod1Flag : s.mod2048_1 = false
  mod2 : s.mod2.state = .initial
  mod2Equal : s.mod2.enableXEqualY = false
  mod2Count : s.mod2Count = true
  mod2Count1 : s.mod2Count1 = false
  mod2Flag : s.mod2048_2 = false
  inverse : s.monModInverse.Ready
  inverseCount : s.monModInverseCount = true
  inverseCount1 : s.monModInverseCount1 = false
  inverseFlag : s.monModInverse_1 = false
  monPro : s.monPro.state = .initial

/-- Cycle `k` of `State_Mode` after the load pulses of the engines. -/
structure InMode (B N z₁ m₁ z₂ m₂ z₃ m₃ k : ℕ) (s : PowModMon1024) : Prop where
  state : s.state = .mode
  control : s.control = engaged
  operands : s.Operands B N
  mod1 : Engine (Reducing z₁ m₁ k s.mod1) m₁ k s.mod1Count s.mod1Count1 s.mod2048_1
    (s.a.toNat = z₁ % 2 ^ 1024)
  mod2 : Engine (Reducing z₂ m₂ k s.mod2) m₂ k s.mod2Count s.mod2Count1 s.mod2048_2
    (s.z1.toNat = z₂ % 2 ^ 1024)
  inverse : Engine (Inverting z₃ m₃ k s.monModInverse) m₃ k s.monModInverseCount
    s.monModInverseCount1 s.monModInverse_1 (s.n0.toNat = z₃)
  sub : s.sub = ⟨0, false, false⟩
  subCount : s.subCount = 0
  monPro : Rested s.monPro

/-- The engines have ended. -/
structure Ended (a N : ℕ) (s : PowModMon1024) : Prop where
  a : s.a.toNat = a
  n : s.n.toNat = N
  mod1 : s.mod1.state = .initial
  mod1Count1 : s.mod1Count1 = true
  mod2 : s.mod2.state = .initial
  mod2Count1 : s.mod2Count1 = true
  inverse : s.monModInverse.state = .initial
  inverseCount1 : s.monModInverseCount1 = true

/-- Cycle `k` of the subtraction of `y` from `2 ^ 1024`. -/
structure InSub (B N a z y k out : ℕ) (s : PowModMon1024) : Prop where
  state : s.state = .sub
  control : s.control = subtracting
  ended : s.Ended a N
  b : s.b.toNat = B
  i : s.i = 1024
  z1 : s.z1.toNat = z
  regN0 : Shifted base 64 y k out s.n0.toNat
  subCount : s.subCount.toNat = k
  sub : ∃ c, s.sub.At 62 k c ∧ Subbed base (base ^ 32) y k out c.toNat
  monPro : Rested s.monPro

/-- Between the subtraction and the end, with `r` bits of the exponent to come. -/
structure Frame (σ : Mul1024bit.Settlings) (B N a N₀ r : ℕ) (s : PowModMon1024) : Prop where
  le : r ≤ 1024
  settling : s.settling = σ
  ended : s.Ended a N
  n0 : (s.n0.setWidth 1024).toNat = N₀
  b : s.b.toNat = B % 2 ^ r * 2 ^ (1024 - r)
  i : s.i.toNat = r

/-- The leading bits are skipped. -/
structure InGetBit (σ : Mul1024bit.Settlings) (B N a N₀ r z : ℕ) (s : PowModMon1024) : Prop where
  state : s.state = .getBit
  control : s.control = scanning s.fromB
  frame : s.Frame σ B N a N₀ r
  z1 : s.z1.toNat = z
  monPro : Rested s.monPro

/-- First cycle of a product in state `st`. -/
structure AtProduct (st : PowState) (σ : Mul1024bit.Settlings) (B N a N₀ r z : ℕ)
    (s : PowModMon1024) : Prop where
  state : s.state = st
  control : s.control = multiplying
  frame : s.Frame σ B N a N₀ r
  z1 : s.z1.toNat = z
  count : s.monProCount = true
  monPro : Rested s.monPro

/-- Waiting for a product in state `st`. -/
structure InProduct (st : PowState) (σ : Mul1024bit.Settlings) (B N a N₀ r : ℕ)
    (s : PowModMon1024) : Prop where
  state : s.state = st
  control : s.control = multiplying
  frame : s.Frame σ B N a N₀ r
  count : s.monProCount = false

/-- The cycle between a square and a product by `A`. -/
structure AtDelay (σ : Mul1024bit.Settlings) (B N a N₀ r z : ℕ) (s : PowModMon1024) : Prop where
  state : s.state = .delay
  control : s.control = off
  frame : s.Frame σ B N a N₀ r
  z1 : s.z1.toNat = z
  monPro : s.monPro.state = .initial

/-- The cycle that ends a bit of the exponent. -/
structure AtShift (σ : Mul1024bit.Settlings) (B N a N₀ r z : ℕ) (s : PowModMon1024) : Prop where
  state : s.state = .shiftLeftOne
  control : s.control = shifting
  frame : s.Frame σ B N a N₀ r
  z1 : s.z1.toNat = z
  monPro : s.monPro.state = .initial

/-- The valid cycle. -/
structure Done (z : ℕ) (s : PowModMon1024) : Prop where
  valid : s.oDataValid = true
  z : s.oZ.toNat = z

/-! #### The engines -/

/-- An engine is valid in its last cycle only. -/
theorem Engine.next {timed timed' result result' : Prop} {m k : ℕ} {c c1 f valid : Bool}
    (h : Engine timed m k c c1 f result) (hvalid : valid = decide (k = m)) (htimed : timed')
    (hnew : k = m → result') (hold : m < k → result → result') :
    Engine timed' m (k + 1) (PowModMon1024.count true c) (PowModMon1024.count1 true valid c1)
      (PowModMon1024.flag true true valid f) result' := by
  have hstep : (if decide (k = m) = true then true else decide (m < k)) = decide (m < k + 1) := by
    by_cases heq : k = m
    · simp [heq]
    · rw [if_neg (by simpa using heq)]
      exact decide_eq_decide.mpr (by omega)
  constructor
  case timed => exact htimed
  case count => simp [PowModMon1024.count, h.count]
  case count1 => simpa [PowModMon1024.count1, hvalid, h.count1] using hstep
  case flag => simpa [PowModMon1024.flag, hvalid, h.flag] using hstep
  case result =>
    intro hk
    rcases Nat.lt_or_eq_of_le (Nat.lt_succ_iff.mp hk) with hlt | heq
    · exact hold hlt (h.result hlt)
    · exact hnew heq.symm

theorem Reducing.valid {z m k : ℕ} {c : Mod2048} {a : Mod2048.In} (h : Reducing z m k c)
    (ha : k < m → Mod2048.hold a) : c.oDataValid = decide (k = m) := by
  rcases Nat.lt_trichotomy k m with hlt | rfl | hgt
  · rw [decide_eq_false (by omega)]
    exact h.before hlt (ha hlt)
  · rw [decide_eq_true rfl]
    exact h.done.valid
  · rw [decide_eq_false (by omega)]
    simp [Mod2048.oDataValid, Mod2048.control, h.ended hgt]

theorem Inverting.valid {z m k : ℕ} {c : MonModInverse1024} {a : MonModInverse1024.In}
    (h : Inverting z m k c) (ha : k < m → MonModInverse1024.hold a) :
    c.oDataValid = decide (k = m) := by
  rcases Nat.lt_trichotomy k m with hlt | rfl | hgt
  · rw [decide_eq_false (by omega)]
    exact h.before hlt (ha hlt)
  · rw [decide_eq_true rfl]
    exact h.done.valid
  · rw [decide_eq_false (by omega)]
    simp [MonModInverse1024.oDataValid, MonModInverse1024.control, h.ended hgt]

section
variable {σ : Mul1024bit.Settlings} {B N a N₀ r z z₁ m₁ z₂ m₂ z₃ m₃ k : ℕ}
  {s : PowModMon1024} {i : In}

theorem mod1In_hold (h : InMode B N z₁ m₁ z₂ m₂ z₃ m₃ k s) (hk : k < m₁) :
    Mod2048.hold s.mod1In := by
  have hbusy : ¬ m₁ < k := by omega
  constructor <;> simp [mod1In, h.control, engaged, h.mod1.count, h.mod1.count1, hbusy]

theorem mod2In_hold (h : InMode B N z₁ m₁ z₂ m₂ z₃ m₃ k s) (hk : k < m₂) :
    Mod2048.hold s.mod2In := by
  have hbusy : ¬ m₂ < k := by omega
  constructor <;> simp [mod2In, h.control, engaged, h.mod2.count, h.mod2.count1, hbusy]

theorem monModInverseIn_hold (h : InMode B N z₁ m₁ z₂ m₂ z₃ m₃ k s) (hk : k < m₃) :
    MonModInverse1024.hold s.monModInverseIn := by
  have hbusy : ¬ m₃ < k := by omega
  refine ⟨?_, ?_, rfl⟩ <;>
    simp [monModInverseIn, h.control, engaged, h.inverse.count, h.inverse.count1, hbusy]

theorem inMode_mod1 (h : InMode B N z₁ m₁ z₂ m₂ z₃ m₃ k s) (hi : hold i) :
    Engine (Reducing z₁ m₁ (k + 1) (s.next i).mod1) m₁ (k + 1) (s.next i).mod1Count
      (s.next i).mod1Count1 (s.next i).mod2048_1 ((s.next i).a.toNat = z₁ % 2 ^ 1024) := by
  have hvalid := Reducing.valid h.mod1.timed (mod1In_hold h)
  have htimed := h.mod1.timed.next (mod1In_hold h)
    (fun hd => by simp [Mod2048.next, hd.state])
    (fun hs => by simp [Mod2048.next, hs, mod1In, h.mod1.count])
  have hnew : k = m₁ → (s.next i).a.toNat = z₁ % 2 ^ 1024 := by
    rintro rfl
    simp [next, hi.2, hvalid, h.mod1.timed.done.z]
  have hkept : m₁ < k → s.a.toNat = z₁ % 2 ^ 1024 → (s.next i).a.toNat = z₁ % 2 ^ 1024 := by
    intro hk hold
    simp [next, hi.2, hvalid, Nat.ne_of_gt hk, hold]
  have hnext := h.mod1.next hvalid htimed hnew hkept
  simpa [next, hi.1, h.control, h.state, engaged] using hnext

theorem inMode_mod2 (h : InMode B N z₁ m₁ z₂ m₂ z₃ m₃ k s) (hi : hold i) :
    Engine (Reducing z₂ m₂ (k + 1) (s.next i).mod2) m₂ (k + 1) (s.next i).mod2Count
      (s.next i).mod2Count1 (s.next i).mod2048_2 ((s.next i).z1.toNat = z₂ % 2 ^ 1024) := by
  have hvalid := Reducing.valid h.mod2.timed (mod2In_hold h)
  have hquiet : s.monPro.oDataValid = false := by
    simp [MonPro1024.oDataValid, MonPro1024.control, h.monPro.ready.state]
  have htimed := h.mod2.timed.next (mod2In_hold h)
    (fun hd => by simp [Mod2048.next, hd.state])
    (fun hs => by simp [Mod2048.next, hs, mod2In, h.mod2.count])
  have hnew : k = m₂ → (s.next i).z1.toNat = z₂ % 2 ^ 1024 := by
    rintro rfl
    simp [next, hvalid, h.mod2.timed.done.z]
  have hkept : m₂ < k → s.z1.toNat = z₂ % 2 ^ 1024 → (s.next i).z1.toNat = z₂ % 2 ^ 1024 := by
    intro hk hold
    simp [next, hvalid, hquiet, Nat.ne_of_gt hk, hold]
  have hnext := h.mod2.next hvalid htimed hnew hkept
  simpa [next, hi.1, h.control, h.state, engaged] using hnext

theorem inMode_inverse (h : InMode B N z₁ m₁ z₂ m₂ z₃ m₃ k s) (hi : hold i) :
    Engine (Inverting z₃ m₃ (k + 1) (s.next i).monModInverse) m₃ (k + 1)
      (s.next i).monModInverseCount (s.next i).monModInverseCount1 (s.next i).monModInverse_1
      ((s.next i).n0.toNat = z₃) := by
  have hvalid := Inverting.valid h.inverse.timed (monModInverseIn_hold h)
  have htimed := h.inverse.timed.next (monModInverseIn_hold h)
    (fun hd => by simp [MonModInverse1024.next, hd.state])
    (fun hs => by simp [MonModInverse1024.next, hs, monModInverseIn, h.inverse.count])
  have hnew : k = m₃ → (s.next i).n0.toNat = z₃ := by
    rintro rfl
    have hz := h.inverse.timed.done.z
    have hlt : z₃ < 2 ^ 2048 := by
      rw [← hz]
      exact lt_trans s.monModInverse.oZ.isLt (Nat.pow_lt_pow_right Nat.one_lt_two (by omega))
    have hgoal : (s.next i).n0 = s.monModInverse.oZ.setWidth 2048 := by simp [next, hvalid]
    rw [hgoal, BitVec.toNat_setWidth, hz, Nat.mod_eq_of_lt hlt]
  have hkept : m₃ < k → s.n0.toNat = z₃ → (s.next i).n0.toNat = z₃ := by
    intro hk hold
    simp [next, hvalid, h.control, engaged, off, Nat.ne_of_gt hk, hold]
  have hnext := h.inverse.next hvalid htimed hnew hkept
  simpa [next, hi.1, h.control, h.state, engaged] using hnext

/-- The multiplier stays at rest while it is disabled. -/
theorem Rested.next {c : MonPro1024} {a : MonPro1024.In} (h : c.state = .initial)
    (ha : a.iEnable = false) : Rested (c.next a) := by
  refine ⟨MonPro1024.ready_of_disabled c ha, ?_⟩
  have hoff : c.mulIn.iEnable = false := by simp [MonPro1024.mulIn, MonPro1024.control, h]
  exact (Mul1024bit.idle_of_disabled c.mul c.mulIn hoff).state

theorem control_mode (hs : s.state = .mode) (hl : s.latch = off ∨ s.latch = engaged) :
    s.control = engaged := by
  rcases hl with hl | hl <;> simp [control, hs, hl, engaged, off]

/-! #### The load pulse -/

theorem primed_of_low (s : PowModMon1024) {low : In} (hlow : low.iEnable = false) :
    (s.next low).Primed := by
  constructor <;> simp [next, hlow, count1]

theorem noneValid_of_initial (hs : s.state = .initial) (i : In) : (s.next i).NoneValid := by
  have hoff : s.control = off := by simp [control, hs, off]
  have hmod1 : (s.mod1.next s.mod1In).state = .initial := by
    simp [Mod2048.next, mod1In, hoff, off]
  have hmod2 : (s.mod2.next s.mod2In).state = .initial := by
    simp [Mod2048.next, mod2In, hoff, off]
  have hinverse : (s.monModInverse.next s.monModInverseIn).state = .initial := by
    simp [MonModInverse1024.next, monModInverseIn, hoff, off]
  constructor
  · simp [next, Mod2048.oDataValid, Mod2048.control, hmod1]
  · simp [next, Mod2048.oDataValid, Mod2048.control, hmod2]
  · simp [next, MonModInverse1024.oDataValid, MonModInverse1024.control, hinverse]

theorem primed_next (h : s.Primed) (hv : s.NoneValid) (hi : hold i) : (s.next i).Primed := by
  have hoff : s.control = off := by simp [control, h.state, off]
  constructor
  case state => simp [next, hi.1, hi.2, h.state]
  case i => simp [next, hi.1, hoff, off, down, h.i]
  all_goals simp [next, hi.1, count1, hv.mod1, hv.mod2, hv.inverse, h.mod1Count1, h.mod2Count1,
    h.inverseCount1]

theorem loaded_of_load (h : s.Primed) (hv : s.NoneValid) (he : i.iEnable = true)
    (hl : i.iLoad = true) : Loaded i.iA.toNat i.iB.toNat i.iN.toNat (s.next i) := by
  have hoff : s.control = off := by simp [control, h.state, off]
  have hlow1 : s.mod1In.iEnable = false := by simp [mod1In, hoff, off]
  have hlow2 : s.mod2In.iEnable = false := by simp [mod2In, hoff, off]
  have hmod1 := Mod2048.next_low s.mod1 hlow1
  have hmod2 := Mod2048.next_low s.mod2 hlow2
  constructor
  case state => simp [next, he, hl, h.state]
  case latch => exact hoff
  case operands =>
    constructor
    case b => simp [next, hl]
    case n => simp [next, hl]
    case i => simp [next, he, hoff, off, down, h.i]
  case a => simp [next, hl]
  case mod1 => exact hmod1.1
  case mod1Equal => exact hmod1.2
  case mod2 => exact hmod2.1
  case mod2Equal => exact hmod2.2
  case inverse =>
    exact MonModInverse1024.ready_of_disabled s.monModInverse
      (by simp [monModInverseIn, hoff, off])
  case monPro =>
    exact (MonPro1024.ready_of_disabled s.monPro (i := s.monProIn)
      (by simp [monProIn, hoff, off])).state
  all_goals simp [next, he, hoff, off, count, count1, flag, h.state, hv.mod1, hv.mod2, hv.inverse,
    h.mod1Count1, h.mod2Count1, h.inverseCount1]

theorem Engine.start {timed result : Prop} {m : ℕ} {c c1 f : Bool} (htimed : timed)
    (hc : c = false) (hc1 : c1 = false) (hf : f = false) : Engine timed m 0 c c1 f result where
  timed := htimed
  count := hc
  count1 := hc1
  flag := hf
  result := fun h => absurd h (Nat.not_lt_zero m)

/-- What the first reduction is going to leave, with a stale verdict of its comparator or not. -/
def firstResult (A N : ℕ) (s : PowModMon1024) : ℕ :=
  Mod2048.result (decide (s.mod1.compareMode = 3)) A N (A * 2 ^ 1024)

def secondResult (N : ℕ) (s : PowModMon1024) : ℕ :=
  Mod2048.result (decide (s.mod2.compareMode = 3)) 1 N (1 * 2 ^ 1024)

def inverseResult (N : ℕ) (s : PowModMon1024) : ℕ :=
  MonModInverse1024.result N (s.monModInverse.mul.nextValue N 1)

theorem exists_reducing {c : Mod2048} {b : Mod2048.In} {X : ℕ} (hs : c.state = .initial)
    (hequal : c.enableXEqualY = false) (he : b.iEnable = true) (hl : b.iLoad = true)
    (hX : b.iX.toNat = X * 2 ^ 1024) (hY : b.iY.toNat = N) (hlt : X < 2 ^ 1024)
    (hN : N < 2 ^ 1024) (h1 : 1 < N) :
    ∃ m, Reducing (Mod2048.result (decide (c.compareMode = 3)) X N (X * 2 ^ 1024)) m 0
      (c.next b) := by
  have hcheck := Mod2048.inCheck_of_load hs hequal he hl
  rw [hX, hY] at hcheck
  obtain ⟨m, hm⟩ :=
    Mod2048.exists_reaches_result (decide (c.compareMode = 3)) (X := X * 2 ^ 1024) rfl hlt hN h1
  exact ⟨m, Timed.start (hm _ hcheck)⟩

theorem exists_inMode (h1 : 1 < N) (hN : N < 2 ^ 1023) (h : Loaded a B N s) (hi : hold i) :
    ∃ m₁ m₂ m₃, InMode B N (firstResult a N s) m₁ (secondResult N s) m₂ (inverseResult N s) m₃ 0
      (s.next i) := by
  have hon : s.control = engaged := control_mode h.state (Or.inl h.latch)
  have hN' : N < 2 ^ 1024 := lt_trans hN (Nat.pow_lt_pow_right Nat.one_lt_two (by omega))
  have hY : (0#1024 ++ s.n).toNat = N := (Mod2048.modulus_toNat s.n).trans h.operands.n
  have hA : a < 2 ^ 1024 := by
    rw [← h.a]
    exact s.a.isLt
  have hX1 : s.mod1In.iX.toNat = a * 2 ^ 1024 := by
    rw [← h.a]
    exact Mod2048.operand_toNat s.a
  have hX2 : s.mod2In.iX.toNat = 1 * 2 ^ 1024 := by
    have hone : (1#1024).toNat = 1 := by simp
    rw [← hone]
    exact Mod2048.operand_toNat 1#1024
  obtain ⟨m₁, hm₁⟩ := exists_reducing h.mod1 h.mod1Equal
    (by simp [mod1In, hon, engaged, h.mod1Count1]) (by simp [mod1In, hon, engaged, h.mod1Count])
    hX1 hY hA hN' h1
  obtain ⟨m₂, hm₂⟩ := exists_reducing h.mod2 h.mod2Equal
    (by simp [mod2In, hon, engaged, h.mod2Count1]) (by simp [mod2In, hon, engaged, h.mod2Count])
    hX2 hY (Nat.one_lt_two_pow (by decide)) hN' h1
  obtain ⟨m₃, hm₃⟩ := MonModInverse1024.exists_reaches_result hN
    (decide s.monModInverse.mul.LeavesStale) (s.monModInverse.mul.nextValue N 1)
  have hinverse := hm₃ s.monModInverse s.monModInverseIn h.inverse
    (by simp [monModInverseIn, hon, engaged, h.inverseCount1])
    (by simp [monModInverseIn, hon, engaged, h.inverseCount]) h.operands.n rfl rfl
  have hvalid1 : s.mod1.oDataValid = false := by
    simp [Mod2048.oDataValid, Mod2048.control, h.mod1]
  have hvalid2 : s.mod2.oDataValid = false := by
    simp [Mod2048.oDataValid, Mod2048.control, h.mod2]
  have hvalid3 : s.monModInverse.oDataValid = false := by
    simp [MonModInverse1024.oDataValid, MonModInverse1024.control, h.inverse.state]
  have hstate : (s.next i).state = .mode := by
    simp [next, hi.1, h.state, h.mod1Flag]
  refine ⟨m₁, m₂, m₃, ?_⟩
  constructor
  case state => exact hstate
  case control => exact control_mode hstate (Or.inr hon)
  case operands =>
    constructor
    case b => simp [next, hi.2, hon, engaged, off, h.operands.b]
    case n => simp [next, hi.2, h.operands.n]
    case i => simp [next, hi.1, hon, engaged, off, down, h.operands.i]
  case mod1 =>
    refine Engine.start hm₁ ?_ ?_ ?_
    · simp [next, hon, engaged, count, h.mod1Count]
    · simp [next, hi.1, count1, hvalid1, h.mod1Count1]
    · simp [next, hi.1, flag, hvalid1, h.mod1Flag]
  case mod2 =>
    refine Engine.start hm₂ ?_ ?_ ?_
    · simp [next, hon, engaged, count, h.mod2Count]
    · simp [next, hi.1, count1, hvalid2, h.mod2Count1]
    · simp [next, hi.1, flag, hvalid2, h.mod2Flag]
  case inverse =>
    refine Engine.start (Timed.start hinverse) ?_ ?_ ?_
    · simp [next, hon, engaged, count, h.inverseCount]
    · simp [next, hi.1, count1, hvalid3, h.inverseCount1]
    · simp [next, hi.1, flag, hvalid3, h.inverseFlag]
  case sub => simp [next, hon, engaged, off, Sub2048.next, SerialUnit.next_disabled]
  case subCount => simp [next, hon, engaged, off]
  case monPro => exact Rested.next h.monPro (by simp [monProIn, hon, engaged, off])

/-! #### Waiting for the engines -/

theorem inMode_next (hbusy : k ≤ m₁ ∨ k ≤ m₂ ∨ k ≤ m₃)
    (h : InMode B N z₁ m₁ z₂ m₂ z₃ m₃ k s) (hi : hold i) :
    InMode B N z₁ m₁ z₂ m₂ z₃ m₃ (k + 1) (s.next i) := by
  have hstate : (s.next i).state = .mode := by
    have hflags : (s.mod2048_1 && s.mod2048_2 && s.monModInverse_1) = false := by
      rw [h.mod1.flag, h.mod2.flag, h.inverse.flag]
      simp
      omega
    simp [next, hi.1, h.state, hflags]
  constructor
  case state => exact hstate
  case control => exact control_mode hstate (Or.inr h.control)
  case operands =>
    constructor
    case b => simp [next, hi.2, h.control, engaged, off, h.operands.b]
    case n => simp [next, hi.2, h.operands.n]
    case i => simp [next, hi.1, h.control, engaged, off, down, h.operands.i]
  case mod1 => exact inMode_mod1 h hi
  case mod2 => exact inMode_mod2 h hi
  case inverse => exact inMode_inverse h hi
  case sub => simp [next, h.control, engaged, off, Sub2048.next, SerialUnit.next_disabled]
  case subCount => simp [next, h.control, engaged, off]
  case monPro =>
    exact Rested.next h.monPro.ready.state (by simp [monProIn, h.control, engaged, off])

theorem ended_of_inMode (h : InMode B N z₁ m₁ z₂ m₂ z₃ m₃ k s) (h₁ : m₁ < k) (h₂ : m₂ < k)
    (h₃ : m₃ < k) : Ended (z₁ % 2 ^ 1024) N s where
  a := h.mod1.result h₁
  n := h.operands.n
  mod1 := h.mod1.timed.ended h₁
  mod1Count1 := by rw [h.mod1.count1, decide_eq_true h₁]
  mod2 := h.mod2.timed.ended h₂
  mod2Count1 := by rw [h.mod2.count1, decide_eq_true h₂]
  inverse := h.inverse.timed.ended h₃
  inverseCount1 := by rw [h.inverse.count1, decide_eq_true h₃]

theorem Ended.noneValid (h : s.Ended a N) : s.NoneValid where
  mod1 := by simp [Mod2048.oDataValid, Mod2048.control, h.mod1]
  mod2 := by simp [Mod2048.oDataValid, Mod2048.control, h.mod2]
  inverse := by simp [MonModInverse1024.oDataValid, MonModInverse1024.control, h.inverse]

theorem ended_next (h : s.Ended a N) (hi : hold i) : (s.next i).Ended a N := by
  have hv := h.noneValid
  constructor
  case a => simp [next, hi.2, hv.mod1, h.a]
  case n => simp [next, hi.2, h.n]
  case mod1 => simp [next, Mod2048.next, mod1In, h.mod1Count1]
  case mod2 => simp [next, Mod2048.next, mod2In, h.mod2Count1]
  case inverse => simp [next, MonModInverse1024.next, monModInverseIn, h.inverseCount1]
  case mod1Count1 => simp [next, count1, hi.1, hv.mod1, h.mod1Count1]
  case mod2Count1 => simp [next, count1, hi.1, hv.mod2, h.mod2Count1]
  case inverseCount1 => simp [next, count1, hi.1, hv.inverse, h.inverseCount1]

theorem Rested.quiet {c : MonPro1024} (h : c.state = .initial) : c.oDataValid = false := by
  simp [MonPro1024.oDataValid, MonPro1024.control, h]

/-! #### The subtraction -/

theorem control_sub (hs : s.state = .sub) (hl : s.latch = engaged ∨ s.latch = subtracting) :
    s.control = subtracting := by
  rcases hl with hl | hl <;> simp [control, hs, hl, engaged, subtracting, off]

theorem inSub_of_inMode (h : InMode B N z₁ m₁ z₂ m₂ z₃ m₃ k s) (h₁ : m₁ < k) (h₂ : m₂ < k)
    (h₃ : m₃ < k) (hi : hold i) :
    InSub B N (z₁ % 2 ^ 1024) (z₂ % 2 ^ 1024) z₃ 0 0 (s.next i) := by
  have hended := ended_of_inMode h h₁ h₂ h₃
  have hv := hended.noneValid
  have hquiet := Rested.quiet h.monPro.ready.state
  have hstate : (s.next i).state = .sub := by
    simp [next, hi.1, h.state, h.mod1.flag, h.mod2.flag, h.inverse.flag, h₁, h₂, h₃]
  constructor
  case state => exact hstate
  case control => exact control_sub hstate (Or.inl h.control)
  case ended => exact ended_next hended hi
  case b => simp [next, hi.2, h.control, engaged, off, h.operands.b]
  case i => simp [next, hi.1, h.control, engaged, off, down, h.operands.i]
  case z1 => simp [next, hv.mod2, hquiet, h.mod2.result h₂]
  case regN0 =>
    have hn0 : (s.next i).n0.toNat = z₃ := by
      simp [next, hv.inverse, h.control, engaged, off, h.inverse.result h₃]
    rw [hn0]
    exact Shifted.start base 64 z₃
  case subCount => simp [next, h.control, engaged, off]
  case sub =>
    refine ⟨false, ?_, Subbed.start base (base ^ 32) z₃⟩
    have hsub : (s.next i).sub = ⟨0, false, false⟩ := by
      simp [next, h.control, engaged, off, Sub2048.next, SerialUnit.next_disabled]
    rw [hsub]
    exact SerialUnit.at_start 62
  case monPro => exact Rested.next h.monPro.ready.state (by simp [monProIn, h.control, engaged, off])

theorem fromR_toNat (h : s.subCount.toNat = k) :
    s.fromR.toNat = digit base (base ^ 32) k := by
  have h32 : s.subCount = 32 ↔ k = 32 := eq_ofNat_iff h (by decide)
  have hbase : 1 < base := Nat.one_lt_two_pow (by decide)
  rw [digit_pow hbase, fromR]
  by_cases hk32 : k = 32
  · rw [if_pos hk32, if_pos (h32.mpr hk32)]
    rfl
  · rw [if_neg hk32, if_neg fun heq => hk32 (h32.mp heq)]
    rfl

theorem inSub_digit {y k out : ℕ} {c : Bool} (hk : k < 64) (h : InSub B N a z y k out s)
    (hc : s.sub.carry = c) (hsub : Subbed base (base ^ 32) y k out c.toNat) :
    Subbed base (base ^ 32) y (k + 1)
      (out + (Sub2048.oZ s.sub s.fromR s.fromN0).toNat * base ^ k)
      ((diff s.fromR s.fromN0 s.sub.carry).getLsbD 32).toNat := by
  have hd := diff_digit s.fromR s.fromN0 s.sub.carry
  have hlow : s.fromN0.toNat = digit base y k := by
    rw [fromN0, lowWord_toNat]
    exact h.regN0.low hk
  refine hsub.next ?_
  rw [← hlow, ← fromR_toNat h.subCount, ← hc]
  exact hd

theorem inSub_regN0 {y k out : ℕ} (hk : k < 64) (h : InSub B N a z y k out s) (i : In) :
    Shifted base 64 y (k + 1) (out + (Sub2048.oZ s.sub s.fromR s.fromN0).toNat * base ^ k)
      (s.next i).n0.toNat := by
  have hnext := h.regN0.next base_pos hk (word_lt_base (Sub2048.oZ s.sub s.fromR s.fromN0))
  rw [← shiftIn_2048] at hnext
  simpa [next, h.ended.noneValid.inverse, h.control, subtracting] using hnext

theorem inSub_next {y k out : ℕ} (hk : k < 63) (h : InSub B N a z y k out s) (hi : hold i) :
    ∃ out', InSub B N a z y (k + 1) out' (s.next i) := by
  obtain ⟨c, hat, hsub⟩ := h.sub
  have hquiet := Rested.quiet h.monPro.ready.state
  have hfin : s.sub.oFinish = false := by
    rw [hat.finish]
    exact decide_eq_false (Nat.not_lt.mpr (show k ≤ 62 by omega))
  have hstate : (s.next i).state = .sub := by simp [next, hi.1, h.state, hfin]
  refine ⟨out + (Sub2048.oZ s.sub s.fromR s.fromN0).toNat * base ^ k, ?_⟩
  constructor
  case state => exact hstate
  case control => exact control_sub hstate (Or.inr h.control)
  case ended => exact ended_next h.ended hi
  case b => simp [next, hi.2, h.control, subtracting, off, h.b]
  case i => simp [next, hi.1, h.control, subtracting, off, down, h.i]
  case z1 => simp [next, h.ended.noneValid.mod2, hquiet, h.z1]
  case regN0 => exact inSub_regN0 (by omega) h i
  case subCount =>
    have hgoal : (s.next i).subCount = s.subCount + 1 := by simp [next, h.control, subtracting]
    rw [hgoal]
    exact toNat_add_one h.subCount (by omega)
  case sub =>
    refine ⟨(diff s.fromR s.fromN0 s.sub.carry).getLsbD 32, ?_, inSub_digit (by omega) h hat.1 hsub⟩
    have hnext := SerialUnit.at_next (show k ≤ (62 : BitVec 8).toNat from by
      show k ≤ 62
      omega) hat ((diff s.fromR s.fromN0 s.sub.carry).getLsbD 32)
    simpa [next, h.control, subtracting, Sub2048.next] using hnext
  case monPro =>
    exact Rested.next h.monPro.ready.state (by simp [monProIn, h.control, subtracting, off])

/-! #### The exponent -/

theorem fromB_eq (h : s.Frame σ B N a N₀ r) (hr : 0 < r) : s.fromB = B.testBit (r - 1) := by
  have hle := h.le
  have hidx : 1023 - (1024 - r) = r - 1 := by omega
  rw [fromB, BitVec.getLsbD, h.b, Nat.testBit_mul_two_pow, hidx, Nat.testBit_mod_two_pow,
    decide_eq_true (by omega), decide_eq_true (by omega), Bool.true_and, Bool.true_and]

theorem frame_hold (h : s.Frame σ B N a N₀ r) (hn0 : s.control.regN0Enable = false)
    (hb : s.control.regBEnable = false) (hdown : (s.down || s.control.down1) = false)
    (hi : hold i) : (s.next i).Frame σ B N a N₀ r := by
  constructor
  case le => exact h.le
  case settling => exact h.settling
  case ended => exact ended_next h.ended hi
  case n0 => simp [next, h.ended.noneValid.inverse, hn0, h.n0]
  case b => simp [next, hi.2, hb, h.b]
  case i => simp [next, hi.1, hdown, h.i]

theorem frame_shift (h : s.Frame σ B N a N₀ (r + 1)) (hn0 : s.control.regN0Enable = false)
    (hb : s.control.regBEnable = true) (hdown : (s.down || s.control.down1) = true)
    (hi : hold i) : (s.next i).Frame σ B N a N₀ r := by
  have hle := h.le
  constructor
  case le => omega
  case settling => exact h.settling
  case ended => exact ended_next h.ended hi
  case n0 => simp [next, h.ended.noneValid.inverse, hn0, h.n0]
  case b =>
    have hgoal : (s.next i).b = s.b <<< 1 := by simp [next, hi.2, hb]
    have hsplit : 2 ^ 1024 = 2 ^ r * 2 ^ (1024 - r) := by
      rw [← pow_add, Nat.add_sub_cancel' (by omega)]
    have hpow : 2 ^ (1024 - (r + 1)) * 2 ^ 1 = 2 ^ (1024 - r) := by
      rw [← pow_add, show 1024 - (r + 1) + 1 = 1024 - r by omega]
    have hdvd : 2 ^ r ∣ 2 ^ (r + 1) := Nat.pow_dvd_pow 2 (by omega)
    rw [hgoal, BitVec.toNat_shiftLeft, h.b, Nat.shiftLeft_eq, Nat.mul_assoc, hpow, hsplit,
      Nat.mul_mod_mul_right, Nat.mod_mod_of_dvd _ hdvd]
  case i =>
    have hgoal : (s.next i).i = s.i - 1 := by
      simp only [next, hi.1, hdown, Bool.not_true, Bool.false_eq_true, if_false, if_true]
    have hone : (1 : BitVec 11).toNat = 1 := rfl
    rw [hgoal, BitVec.toNat_sub, h.i, hone]
    omega

theorem control_getBit (hs : s.state = .getBit)
    (hl : s.latch = subtracting ∨ s.latch = scanning false) : s.control = scanning s.fromB := by
  rcases hl with hl | hl
  · simp [control, hs, hl, subtracting, scanning, off]
  · cases hb : s.fromB <;> simp [control, hs, hl, hb, scanning, off]

/-- What is left in `N0` for the multiplier. -/
def negated (y : ℕ) : ℕ := (base ^ 32 - y) % 2 ^ 1024

theorem inGetBit_of_inSub {y out : ℕ} (hy : y < base ^ 32) (h : InSub B N a z y 63 out s)
    (hi : hold i) : InGetBit s.settling B N a (negated y) 1024 z (s.next i) := by
  obtain ⟨c, hat, hsub⟩ := h.sub
  have hquiet := Rested.quiet h.monPro.ready.state
  have hfin : s.sub.oFinish = true := by
    rw [hat.finish]
    rfl
  have hstate : (s.next i).state = .getBit := by simp [next, hi.1, h.state, hfin]
  have hpow : base ^ 32 < base ^ 64 :=
    Nat.pow_lt_pow_right (Nat.one_lt_two_pow (by decide)) (by decide)
  constructor
  case state => exact hstate
  case control => exact control_getBit hstate (Or.inl h.control)
  case frame =>
    constructor
    case le => exact le_rfl
    case settling => rfl
    case ended => exact ended_next h.ended hi
    case n0 =>
      have hshift := inSub_regN0 (by decide) h i
      have hfull := hshift.full (lt_trans hy hpow)
      have hdiff := (inSub_digit (by decide) h hat.1 hsub).full_of_le hpow (lt_trans hy hpow) hy.le
        hshift.1
      rw [BitVec.toNat_setWidth, hfull, hdiff, negated]
    case b =>
      have hb : (s.next i).b = s.b := by simp [next, hi.2, h.control, subtracting, off]
      have hlt : B < 2 ^ 1024 := by
        rw [← h.b]
        exact s.b.isLt
      rw [hb, h.b, Nat.sub_self, pow_zero, Nat.mul_one, Nat.mod_eq_of_lt hlt]
    case i => simp [next, hi.1, h.control, subtracting, off, down, h.i]
  case z1 => simp [next, h.ended.noneValid.mod2, hquiet, h.z1]
  case monPro =>
    exact Rested.next h.monPro.ready.state (by simp [monProIn, h.control, subtracting, off])

/-- A leading zero is skipped. -/
theorem inGetBit_next (h : InGetBit σ B N a N₀ (r + 1) z s) (hbit : B.testBit r = false)
    (hi : hold i) : InGetBit σ B N a N₀ r z (s.next i) := by
  have hb : s.fromB = false := (fromB_eq h.frame (Nat.succ_pos r)).trans hbit
  have hcontrol : s.control = scanning false := h.control.trans (congrArg scanning hb)
  have hquiet := Rested.quiet h.monPro.ready.state
  have hstate : (s.next i).state = .getBit := by
    simp [next, hi.1, h.state, getBitDis, hb]
  constructor
  case state => exact hstate
  case control => exact control_getBit hstate (Or.inr hcontrol)
  case frame =>
    exact frame_shift h.frame (by simp [hcontrol, scanning, off]) (by simp [hcontrol, scanning])
      (by simp [down, hcontrol, scanning, hb]) hi
  case z1 => simp [next, h.frame.ended.noneValid.mod2, hquiet, h.z1]
  case monPro =>
    exact Rested.next h.monPro.ready.state (by simp [monProIn, hcontrol, scanning, off])

/-! #### The products -/

theorem control_monPro1 (hs : s.state = .monPro1)
    (hl : s.latch = scanning true ∨ s.latch = shifting ∨ s.latch = multiplying) :
    s.control = multiplying := by
  rcases hl with hl | hl | hl <;> simp [control, hs, hl, scanning, shifting, multiplying, off]

theorem control_monPro2 (hs : s.state = .monPro2)
    (hl : s.latch = off ∨ s.latch = multiplying) : s.control = multiplying := by
  rcases hl with hl | hl <;> simp [control, hs, hl, multiplying, off]

theorem control_monPro3 (hs : s.state = .monPro3)
    (hl : s.latch = shifting ∨ s.latch = multiplying) : s.control = multiplying := by
  rcases hl with hl | hl <;> simp [control, hs, hl, shifting, multiplying, off]

/-- The states that wait for a product. -/
def Multiplies (st : PowState) : Prop := st = .monPro1 ∨ st = .monPro2 ∨ st = .monPro3

/-- The second operand of the product in state `st`. -/
def factor (st : PowState) (a z : ℕ) : ℕ :=
  if st = .monPro1 then z else if st = .monPro3 then 1 else a

/-- The first bit that is one. -/
theorem atProduct_of_inGetBit (h : InGetBit σ B N a N₀ (r + 1) z s) (hbit : B.testBit r = true)
    (hi : hold i) : AtProduct .monPro1 σ B N a N₀ (r + 1) z (s.next i) := by
  have hb : s.fromB = true := (fromB_eq h.frame (Nat.succ_pos r)).trans hbit
  have hcontrol : s.control = scanning true := h.control.trans (congrArg scanning hb)
  have hquiet := Rested.quiet h.monPro.ready.state
  have hstate : (s.next i).state = .monPro1 := by
    simp [next, hi.1, h.state, getBitDis, hb, hcontrol, scanning]
  constructor
  case state => exact hstate
  case control => exact control_monPro1 hstate (Or.inl hcontrol)
  case frame =>
    exact frame_hold h.frame (by simp [hcontrol, scanning, off]) (by simp [hcontrol, scanning])
      (by simp [down, hcontrol, scanning, off, hb]) hi
  case z1 => simp [next, h.frame.ended.noneValid.mod2, hquiet, h.z1]
  case count => simp [next, hcontrol, scanning, off, count]
  case monPro =>
    exact Rested.next h.monPro.ready.state (by simp [monProIn, hcontrol, scanning, off])

theorem control_product {st : PowState} (hst : Multiplies st) (hs : s.state = st)
    (hl : s.latch = multiplying) : s.control = multiplying := by
  rcases hst with rfl | rfl | rfl
  · exact control_monPro1 hs (Or.inr (Or.inr hl))
  · exact control_monPro2 hs (Or.inr hl)
  · exact control_monPro3 hs (Or.inr hl)

theorem state_product {st : PowState} (hst : Multiplies st) (hs : s.state = st)
    (hquiet : s.monPro.oDataValid = false) (hi : hold i) : (s.next i).state = st := by
  rcases hst with rfl | rfl | rfl <;> simp [next, hi.1, hs, hquiet]

theorem frame_product (h : s.Frame σ B N a N₀ r) (hcontrol : s.control = multiplying)
    (hi : hold i) : (s.next i).Frame σ B N a N₀ r :=
  frame_hold h (by simp [hcontrol, multiplying, off]) (by simp [hcontrol, multiplying, off])
    (by simp [down, hcontrol, multiplying, off]) hi

theorem inProduct_of_atProduct {st : PowState} (hst : Multiplies st)
    (h : AtProduct st σ B N a N₀ r z s) (hi : hold i) : InProduct st σ B N a N₀ r (s.next i) := by
  have hstate := state_product hst h.state (Rested.quiet h.monPro.ready.state) hi
  constructor
  case state => exact hstate
  case control => exact control_product hst hstate h.control
  case frame => exact frame_product h.frame h.control hi
  case count => simp [next, h.control, multiplying, count, h.count]

theorem inProduct_next {st : PowState} (hst : Multiplies st) (h : InProduct st σ B N a N₀ r s)
    (hquiet : s.monPro.oDataValid = false) (hi : hold i) :
    InProduct st σ B N a N₀ r (s.next i) := by
  have hstate := state_product hst h.state hquiet hi
  constructor
  case state => exact hstate
  case control => exact control_product hst hstate h.control
  case frame => exact frame_product h.frame h.control hi
  case count => simp [next, h.control, multiplying, count, h.count]

theorem control_delay (hs : s.state = .delay) (hl : s.latch = multiplying) : s.control = off := by
  simp [control, hs, hl, multiplying, off]

theorem control_shiftLeftOne (hs : s.state = .shiftLeftOne) (hl : s.latch = multiplying) :
    s.control = shifting := by
  simp [control, hs, hl, multiplying, shifting, off]

section
variable {st : PowState} {v : ℕ}

theorem z1_of_product (h : InProduct st σ B N a N₀ r s) (hv : MonPro1024.Done v s.monPro)
    (i : In) : (s.next i).z1.toNat = v := by
  simp [next, h.frame.ended.noneValid.mod2, hv.valid, hv.z]

theorem monPro_of_product (hv : MonPro1024.Done v s.monPro) (i : In) :
    (s.next i).monPro.state = .initial := by
  simp [next, MonPro1024.next, hv.state]

theorem atDelay_of_inProduct (h : InProduct .monPro1 σ B N a N₀ (r + 1) s)
    (hv : MonPro1024.Done v s.monPro) (hbit : B.testBit r = true) (hi : hold i) :
    AtDelay σ B N a N₀ (r + 1) v (s.next i) := by
  have hb : s.fromB = true := (fromB_eq h.frame (Nat.succ_pos r)).trans hbit
  have hstate : (s.next i).state = .delay := by simp [next, hi.1, h.state, hv.valid, hb]
  constructor
  case state => exact hstate
  case control => exact control_delay hstate h.control
  case frame => exact frame_product h.frame h.control hi
  case z1 => exact z1_of_product h hv i
  case monPro => exact monPro_of_product hv i

theorem atShift_of_inProduct (hst : st = .monPro1 ∧ B.testBit r = false ∨ st = .monPro2)
    (h : InProduct st σ B N a N₀ (r + 1) s) (hv : MonPro1024.Done v s.monPro) (hi : hold i) :
    AtShift σ B N a N₀ (r + 1) v (s.next i) := by
  have hstate : (s.next i).state = .shiftLeftOne := by
    rcases hst with ⟨rfl, hbit⟩ | rfl
    · have hb : s.fromB = false := (fromB_eq h.frame (Nat.succ_pos r)).trans hbit
      simp [next, hi.1, h.state, hv.valid, hb]
    · simp [next, hi.1, h.state, hv.valid]
  constructor
  case state => exact hstate
  case control => exact control_shiftLeftOne hstate h.control
  case frame => exact frame_product h.frame h.control hi
  case z1 => exact z1_of_product h hv i
  case monPro => exact monPro_of_product hv i

theorem done_of_inProduct (h : InProduct .monPro3 σ B N a N₀ r s)
    (hv : MonPro1024.Done v s.monPro) (hi : hold i) : Done v (s.next i) := by
  have hstate : (s.next i).state = .finish := by simp [next, hi.1, h.state, hv.valid]
  have hvalid : (s.next i).oDataValid = true := by simp [oDataValid, control, hstate]
  refine ⟨hvalid, ?_⟩
  rw [oZ, if_pos hvalid]
  exact z1_of_product h hv i

theorem atProduct_of_atDelay (h : AtDelay σ B N a N₀ r z s) (hi : hold i) :
    AtProduct .monPro2 σ B N a N₀ r z (s.next i) := by
  have hquiet := Rested.quiet h.monPro
  have hstate : (s.next i).state = .monPro2 := by simp [next, hi.1, h.state]
  constructor
  case state => exact hstate
  case control => exact control_monPro2 hstate (Or.inl h.control)
  case frame =>
    exact frame_hold h.frame (by simp [h.control, off]) (by simp [h.control, off])
      (by simp [down, h.control, off]) hi
  case z1 => simp [next, h.frame.ended.noneValid.mod2, hquiet, h.z1]
  case count => simp [next, h.control, off, count]
  case monPro => exact Rested.next h.monPro (by simp [monProIn, h.control, off])

/-- The state after a bit of the exponent. -/
def afterBit (r : ℕ) : PowState := if r = 0 then .monPro3 else .monPro1

theorem atProduct_of_atShift (h : AtShift σ B N a N₀ (r + 1) z s) (hi : hold i) :
    AtProduct (afterBit r) σ B N a N₀ r z (s.next i) := by
  have hquiet := Rested.quiet h.monPro
  have hone : s.i = 1 ↔ r = 0 :=
    (eq_ofNat_iff (n := 1) h.frame.i (by decide)).trans (by omega)
  have hstate : (s.next i).state = afterBit r := by
    rw [afterBit]
    by_cases hr : r = 0
    · rw [if_pos hr]
      simp [next, hi.1, h.state, hone.mpr hr]
    · rw [if_neg hr]
      have hi1 : ¬ s.i = 1#11 := fun heq => hr (hone.mp heq)
      simp [next, hi.1, h.state, hi1]
  constructor
  case state => exact hstate
  case control =>
    by_cases hr : r = 0
    · rw [afterBit, if_pos hr] at hstate
      exact control_monPro3 hstate (Or.inl h.control)
    · rw [afterBit, if_neg hr] at hstate
      exact control_monPro1 hstate (Or.inr (Or.inl h.control))
  case frame =>
    exact frame_shift h.frame (by simp [h.control, shifting, off]) (by simp [h.control, shifting])
      (by simp [h.control, shifting]) hi
  case z1 => simp [next, h.frame.ended.noneValid.mod2, hquiet, h.z1]
  case count => simp [next, h.control, shifting, off, count]
  case monPro => exact Rested.next h.monPro (by simp [monProIn, h.control, shifting, off])

end

end

end PowModMon1024

end SocCrypto.Rsa

import Mathlib.Tactic.FinCases
import SocCrypto.Aes.BlockRun

/-!
# What the key expansion leaves in the key RAMs

Like the datapath the expansion has a control part that runs by itself: 96 cycles
from a key load back to idle. Beside it `Expanding` follows the round key under
way and the RAM words written so far: round keys in order in the one RAM, and the
keys of the inverse cipher, one cycle later, in the other.
-/

namespace SocCrypto.Aes
open AesFunction (Block column row0 row1 row2 row3 layers roundKey inverseRoundKey nextKey rcon
  invMixColumn)

/-! ### Words of a port -/

/-- Word `j` of a block. -/
def lane (b : Block) (j : Fin 4) : Word :=
  match j with
  | 0 => b.w1
  | 1 => b.w2
  | 2 => b.w3
  | 3 => b.w4

theorem lane_ext {a b : Block} (h : ∀ j, lane a j = lane b j) : a = b :=
  Block.ext (h 0) (h 1) (h 2) (h 3)

namespace RamPort

def write (p : RamPort) (j : Fin 4) : Bool :=
  match j with
  | 0 => p.write1
  | 1 => p.write2
  | 2 => p.write3
  | 3 => p.write4

/-- The port writes word `j` of entry `r`. -/
def hits (p : RamPort) (r : BitVec 4) (j : Fin 4) : Bool := p.write j && p.addr == r

/-- What the port writes is what `k` has there. -/
def Carries (p : RamPort) (k : BitVec 4 → Block) : Prop :=
  ∀ r j, p.hits r j = true → lane p.data j = lane (k r) j

end RamPort

theorem lane_store (mem : BitVec 4 → Block) (p : RamPort) (r : BitVec 4) (j : Fin 4) :
    lane (KeyRam.store mem p r) j = if p.hits r j then lane p.data j else lane (mem r) j := by
  by_cases hr : r = p.addr
  · fin_cases j <;> simp [lane, KeyRam.store, RamPort.hits, RamPort.write, hr]
  · have hr' : ¬ p.addr = r := fun h => hr h.symm
    simp [KeyRam.store, RamPort.hits, hr, hr']

/-! ### Control -/

namespace Makekey

/-- The control registers of the expansion; `KC` and `BC` are 4 once loaded. -/
structure Control where
  ramControlSel : Bool
  first : FirstState
  fsmWrite : Bool
  lastKeyValid : Bool
  main : MainState
  sboxReset : Bool
  sboxIDataValid : Bool
  writeIStart : Bool
  writeICount : BitVec 7
  sboxODataValid : Bool
  rconpointer : BitVec 5
  toRam : MakekeyWriteToRam
  deriving DecidableEq

namespace Control

def idle : Control :=
  ⟨false, .idle, false, false, .idle, false, false, false, 0, false, 0, ⟨false, 0, 0⟩⟩

def next (c : Control) (iKeyLoad : Bool) : Control where
  ramControlSel := if c.lastKeyValid || c.sboxReset then !c.ramControlSel else c.ramControlSel
  first :=
    match c.first with
    | .idle => if iKeyLoad then .write else .idle
    | .write => .hold
    | .hold => .done
    | .done => .idle
  fsmWrite :=
    match c.first with
    | .idle => c.fsmWrite
    | .write => true
    | .hold => false
    | .done => false
  lastKeyValid :=
    match c.first with
    | .idle => false
    | .write => c.lastKeyValid
    | .hold => c.lastKeyValid
    | .done => true
  main :=
    match c.main with
    | .idle => if !iKeyLoad && c.lastKeyValid then .sbox else .idle
    | .sbox => if c.sboxODataValid then .start else .sbox
    | .start => .write
    | .write => if c.toRam.oDone then if c.writeICount < 40 then .again else .done else .write
    | .again => .sbox
    | .done => .idle
  sboxReset :=
    match c.main with
    | .idle => false
    | .done => true
    | _ => c.sboxReset
  sboxIDataValid :=
    match c.main with
    | .idle => if !iKeyLoad && c.lastKeyValid then true else c.sboxIDataValid
    | .sbox => false
    | .again => true
    | _ => c.sboxIDataValid
  writeIStart :=
    match c.main with
    | .start => true
    | .write => false
    | _ => c.writeIStart
  writeICount :=
    match c.main with
    | .start => c.writeICount + 4
    | .done => 0
    | _ => c.writeICount
  sboxODataValid := !c.sboxReset && c.sboxIDataValid
  rconpointer :=
    if c.sboxReset then 0 else if c.sboxIDataValid then c.rconpointer + 1 else c.rconpointer
  toRam := c.toRam.next c.writeIStart c.writeICount

/-- Control `a` cycles after a key load into an idle expansion. -/
def age : ℕ → Control
  | 0 => idle
  | a + 1 => (age a).next (a == 0)

end Control

namespace Control

/-- The control writes word `j` of encryption entry `r`. -/
def hitsKe (c : Control) (r : BitVec 4) (j : Fin 4) : Bool :=
  if c.ramControlSel then c.toRam.write && c.toRam.tRemain == BitVec.ofNat 2 j && c.toRam.tDivide == r
  else c.fsmWrite && c.first != .done && r == 0

/-- The same for the decryption entries, one cycle before the write. -/
def hitsKd (c : Control) (r : BitVec 4) (j : Fin 4) : Bool :=
  if c.ramControlSel then
    c.toRam.write && c.toRam.tRemain == BitVec.ofNat 2 j && round - c.toRam.tDivide == r
  else c.fsmWrite && c.first != .done && r == round

end Control

def control (s : Makekey) : Control where
  ramControlSel := s.ramControlSel
  first := s.first.state
  fsmWrite := s.first.fsmWrite
  lastKeyValid := s.first.oLastKeyDataValid
  main := s.main.state
  sboxReset := s.main.sboxReset
  sboxIDataValid := s.main.sboxIDataValid
  writeIStart := s.main.writeIStart
  writeICount := s.main.writeICount
  sboxODataValid := s.main.sbox.oDataValid
  rconpointer := s.main.sbox.rconpointer
  toRam := s.main.toRam

theorem control_first (f : FirstRoundKey) (c : Control) (hstate : c.first = f.state)
    (hwrite : c.fsmWrite = f.fsmWrite) (hlast : c.lastKeyValid = f.oLastKeyDataValid)
    (iKeyLoad : Bool) (iKeyData : Block) :
    (f.next round iKeyLoad iKeyData).state = (c.next iKeyLoad).first ∧
      (f.next round iKeyLoad iKeyData).fsmWrite = (c.next iKeyLoad).fsmWrite ∧
      (f.next round iKeyLoad iKeyData).oLastKeyDataValid = (c.next iKeyLoad).lastKeyValid := by
  cases hs : f.state <;> cases iKeyLoad <;>
    simp [FirstRoundKey.next, Control.next, hstate, hwrite, hlast, hs]

theorem sbox_next (b : SboxKey) (reset valid : Bool) (d o : Word) :
    (b.next (!reset) valid d o).oDataValid = (!reset && valid) ∧
      (b.next (!reset) valid d o).rconpointer =
        if reset then 0 else if valid then b.rconpointer + 1 else b.rconpointer := by
  cases reset <;> cases valid <;> simp [SboxKey.next, SboxKey.reset]

/-- The control registers run by themselves. -/
theorem control_next {s : Makekey} (h : s.main.state = .idle ∨ (s.KC = 4 ∧ s.BC = 4))
    (iParamLoad iKeyLoad : Bool) (iKeyData : Block) :
    (s.next iParamLoad iKeyLoad iKeyData).control = s.control.next iKeyLoad := by
  obtain ⟨hstate, hwrite, hlast⟩ :=
    control_first s.first s.control rfl rfl rfl iKeyLoad iKeyData
  have hcount : MainRoundKey.roundKeyCountMinusKC round 4#4 4#4 = 40#7 := by decide
  have hsbox := sbox_next s.main.sbox s.main.sboxReset s.main.sboxIDataValid s.main.sboxIData
    s.main.sboxIOriginData
  have hKC : s.main.state ≠ .idle → s.KC = 4 ∧ s.BC = 4 := by
    intro hne
    exact h.resolve_left hne
  simp only [control, next, hstate, hwrite, hlast]
  cases hs : s.main.state with
  | idle =>
    cases iKeyLoad <;> cases s.first.oLastKeyDataValid <;>
      simp [MainRoundKey.next, Control.next, hs, hsbox, MainRoundKey.oDone]
  | sbox =>
    cases hv : s.main.sbox.oDataValid <;>
      simp [MainRoundKey.next, Control.next, hs, hv, hsbox, MainRoundKey.oDone]
  | start =>
    obtain ⟨hkc, hbc⟩ := hKC (by simp [hs])
    simp [MainRoundKey.next, Control.next, hs, hsbox, MainRoundKey.oDone, hkc]
  | write =>
    obtain ⟨hkc, hbc⟩ := hKC (by simp [hs])
    cases hd : s.main.toRam.oDone <;>
      simp [MainRoundKey.next, Control.next, hs, hsbox, MainRoundKey.oDone, hd, hkc, hbc,
        hcount]
  | again => simp [MainRoundKey.next, Control.next, hs, hsbox, MainRoundKey.oDone]
  | done => simp [MainRoundKey.next, Control.next, hs, hsbox, MainRoundKey.oDone]

/-! ### Rounds of the expansion -/

/-- Round key held `a` cycles after the load. -/
def roundAt (a : ℕ) : ℕ := min 10 ((a + 2) / 9)

theorem toNat_roundAt (a : ℕ) : (BitVec.ofNat 4 (roundAt a)).toNat = roundAt a := by
  have hle : roundAt a ≤ 10 := Nat.min_le_left _ _
  rw [BitVec.toNat_ofNat, Nat.mod_eq_of_lt (by omega)]

namespace Control

/-- What the control says of the round under way. -/
structure AtRound (c c' : Control) (r r' : ℕ) : Prop where
  feed : c.sboxIDataValid = true →
    c.sboxReset = false ∧ c.rconpointer = BitVec.ofNat 5 r ∧ r < 10 ∧ r' = r
  advance : r' = if c.main = .sbox ∧ c.sboxODataValid = true then r + 1 else r
  first : c.main = .idle → c.lastKeyValid = true → r = 0
  write : c.ramControlSel = true → c.toRam.write = true →
    c.toRam.tDivide = BitVec.ofNat 4 r ∧ c.toRam.j = c.toRam.tRemain.setWidth 3

instance (c c' : Control) (r r' : ℕ) : Decidable (AtRound c c' r r') :=
  decidable_of_iff
    ((c.sboxIDataValid = true →
        c.sboxReset = false ∧ c.rconpointer = BitVec.ofNat 5 r ∧ r < 10 ∧ r' = r) ∧
      (r' = if c.main = .sbox ∧ c.sboxODataValid = true then r + 1 else r) ∧
      (c.main = .idle → c.lastKeyValid = true → r = 0) ∧
      (c.ramControlSel = true → c.toRam.write = true →
        c.toRam.tDivide = BitVec.ofNat 4 r ∧ c.toRam.j = c.toRam.tRemain.setWidth 3))
    ⟨fun ⟨h1, h2, h3, h4⟩ => ⟨h1, h2, h3, h4⟩, fun ⟨h1, h2, h3, h4⟩ => ⟨h1, h2, h3, h4⟩⟩

theorem atRound : ∀ a < 96, AtRound (age a) (age (a + 1)) (roundAt a) (roundAt (a + 1)) := by
  decide +kernel

end Control

/-! ### Ports -/

theorem port_hits (t : MakekeyWriteToRam) (addr : BitVec 4) (key : Block) (r : BitVec 4)
    (j : Fin 4) :
    (t.port addr key).hits r j = (t.write && t.tRemain == BitVec.ofNat 2 j && addr == r) := by
  fin_cases j <;> rfl

theorem first_hits (f : FirstRoundKey) (addr : BitVec 4) (r : BitVec 4) (j : Fin 4) :
    RamPort.hits ⟨addr, f.oRAMWrite, f.oRAMWrite, f.oRAMWrite, f.oRAMWrite, f.key⟩ r j =
      (f.oRAMWrite && addr == r) := by
  fin_cases j <;> rfl

/-- The addresses of the first round are set when it writes. -/
def FirstAddr (f : FirstRoundKey) : Prop :=
  f.fsmWrite = true → f.oRAMKeAddr = 0 ∧ f.oRAMKdAddr = round

theorem FirstAddr.next {f : FirstRoundKey} (h : FirstAddr f) (iKeyLoad : Bool)
    (iKeyData : Block) : FirstAddr (f.next round iKeyLoad iKeyData) := by
  cases hs : f.state <;> cases iKeyLoad <;> simp_all [FirstAddr, FirstRoundKey.next]

theorem oRAMKe_hits {s : Makekey} (h : FirstAddr s.first) (r : BitVec 4) (j : Fin 4) :
    s.oRAMKe.hits r j = s.control.hitsKe r j := by
  show (if s.ramControlSel then s.main.oRAMKe else s.first.oRAMKe).hits r j =
    if s.ramControlSel then _ else _
  cases s.ramControlSel
  · simp only [Bool.false_eq_true, if_false, FirstRoundKey.oRAMKe, first_hits]
    cases hw : s.first.fsmWrite
    · simp [FirstRoundKey.oRAMWrite, control, hw]
    · rw [(h hw).1]
      simp [FirstRoundKey.oRAMWrite, control, hw, Bool.beq_comm (a := r)]
  · exact port_hits _ _ _ r j

theorem inverseIRAMKd_hits {s : Makekey} (h : FirstAddr s.first) (r : BitVec 4) (j : Fin 4) :
    s.inverseIRAMKd.hits r j = s.control.hitsKd r j := by
  show (if s.ramControlSel then s.main.oRAMKd round else s.first.oRAMKd).hits r j =
    if s.ramControlSel then _ else _
  cases s.ramControlSel
  · simp only [Bool.false_eq_true, if_false, FirstRoundKey.oRAMKd, first_hits]
    cases hw : s.first.fsmWrite
    · simp [FirstRoundKey.oRAMWrite, control, hw]
    · rw [(h hw).2]
      simp [FirstRoundKey.oRAMWrite, control, hw, Bool.beq_comm (a := r)]
  · exact port_hits _ _ _ r j

/-- The word written in the main rounds is the one of its RAM. -/
theorem port_carries {t : MakekeyWriteToRam} {addr : BitVec 4} {key : Block}
    {k : BitVec 4 → Block} (hj : t.write = true → t.j = t.tRemain.setWidth 3)
    (hk : t.write = true → k addr = key) : (t.port addr key).Carries k := by
  intro r j hit
  rw [port_hits, Bool.and_eq_true, Bool.and_eq_true, beq_iff_eq, beq_iff_eq] at hit
  obtain ⟨⟨hwrite, hremain⟩, rfl⟩ := hit
  have hj' := hj hwrite
  rw [hremain] at hj'
  rw [hk hwrite]
  fin_cases j <;> simp [MakekeyWriteToRam.port, MakekeyWriteToRam.data, lane, hj']

theorem first_carries {f : FirstRoundKey} {addr : BitVec 4} {k : BitVec 4 → Block}
    (hk : f.oRAMWrite = true → k addr = f.key) :
    RamPort.Carries ⟨addr, f.oRAMWrite, f.oRAMWrite, f.oRAMWrite, f.oRAMWrite, f.key⟩ k := by
  intro r j hit
  rw [first_hits, Bool.and_eq_true, beq_iff_eq] at hit
  obtain ⟨hwrite, rfl⟩ := hit
  rw [hk hwrite]

/-- Keys of the encryption entries, and of the decryption entries before the column mix. -/
def encryptionKeys (K : Block) (r : BitVec 4) : Block := roundKey K r.toNat
def reversedKeys (K : Block) (r : BitVec 4) : Block := roundKey K (10 - r.toNat)
def decryptionKeys (K : Block) (r : BitVec 4) : Block := inverseRoundKey K r.toNat

theorem decryptionKeys_eq (K : Block) (r : BitVec 4) :
    decryptionKeys K r =
      if r == 0 || r == round then reversedKeys K r else (reversedKeys K r).map invMixColumn := by
  have hzero : r = 0 ↔ r.toNat = 0 := by
    rw [← BitVec.toNat_inj]
    rfl
  have hround : r = round ↔ r.toNat = 10 := by
    rw [← BitVec.toNat_inj]
    rfl
  simp only [Bool.or_eq_true, beq_iff_eq, hzero, hround]
  rfl

/-- The inverse column mix on the way to the decryption RAM. -/
theorem inverse_carries {K : Block} {p : RamPort} (h : p.Carries (reversedKeys K))
    (v : InverseMixColumnRound) : ((v.next p).oRAMKd round).Carries (decryptionKeys K) := by
  intro r j hit
  have hit' : p.hits r j = true := hit
  have hdata := h r j hit'
  rw [RamPort.hits, Bool.and_eq_true, beq_iff_eq] at hit'
  obtain ⟨hwrite, rfl⟩ := hit'
  rw [decryptionKeys_eq]
  show lane (if p.addr == 0 || p.addr == round then p.data else _) j = _
  split
  · exact hdata
  · fin_cases j <;>
      simp_all [InverseMixColumnRound.next, RamPort.write, lane, Block.map,
        InverseMixColumnRound.sum, InverseMixColumnRound.lookupU, smU_invMix]

/-! ### The expansion of a key -/

/-- The expansion of key `K`, `a` cycles after its load, with the two RAMs. -/
structure Expanding (K : Block) (a : ℕ) (s : Makekey) (ke kd : BitVec 4 → Block) : Prop where
  lengths : s.KC = 4 ∧ s.BC = 4
  control : s.control = Control.age a
  firstKey : s.first.key = K
  firstAddr : FirstAddr s.first
  key : s.main.key = roundKey K (roundAt a)
  sboxIn : s.main.sboxIDataValid = true →
    s.main.sboxIData = (roundKey K (roundAt a)).w4 ∧
      s.main.sboxIOriginData = (roundKey K (roundAt a)).w1
  sboxOut : s.main.sbox.oDataValid = true →
    s.main.sbox.oData = (roundKey K (roundAt a + 1)).w1
  kdHits : ∀ r j, s.oRAMKd.hits r j = (Control.age (a - 1)).hitsKd r j
  kdCarries : s.oRAMKd.Carries (decryptionKeys K)
  keFilled : ∀ r j, (∃ b < a, (Control.age b).hitsKe r j = true) →
    lane (ke r) j = lane (encryptionKeys K r) j
  kdFilled : ∀ r j, (∃ b, b + 1 < a ∧ (Control.age b).hitsKd r j = true) →
    lane (kd r) j = lane (decryptionKeys K r) j

/-- Substituted and rotated last word, round constant and first word: the first word
of the next round key. -/
theorem sbox_oData {b : SboxKey} {k : Block} {r : ℕ} (hr : r < 10)
    (hp : b.rconpointer = BitVec.ofNat 5 r) :
    (b.next true true k.w4 k.w1).oData = (nextKey k r).w1 := by
  simp only [SboxKey.next, SboxKey.oData, hp, smRcon_eq r hr, smS_eq, nextKey,
    AesFunction.mapRows, AesFunction.rotWord, AesFunction.row0_column, AesFunction.row1_column,
    AesFunction.row2_column, AesFunction.row3_column, AesFunction.column_xor, Bool.not_true,
    Bool.false_eq_true, if_false, if_true]
  rw [BitVec.xor_comm]
  simp

namespace Expanding

variable {K : Block} {a : ℕ} {s : Makekey} {ke kd : BitVec 4 → Block}
  {iParamLoad iKeyLoad : Bool} {iKeyData : Block}

theorem mainControl (h : Expanding K a s ke kd) :
    s.main.state = (Control.age a).main ∧ s.main.sboxIDataValid = (Control.age a).sboxIDataValid ∧
      s.main.sbox.oDataValid = (Control.age a).sboxODataValid ∧
      s.main.sbox.rconpointer = (Control.age a).rconpointer ∧
      s.main.sboxReset = (Control.age a).sboxReset ∧
      s.ramControlSel = (Control.age a).ramControlSel ∧
      s.main.toRam = (Control.age a).toRam ∧
      s.first.oLastKeyDataValid = (Control.age a).lastKeyValid := by
  rw [← h.control]
  exact ⟨rfl, rfl, rfl, rfl, rfl, rfl, rfl, rfl⟩

theorem keCarries (h : Expanding K a s ke kd) (ha : a < 96) :
    s.oRAMKe.Carries (encryptionKeys K) := by
  have hround := Control.atRound a ha
  obtain ⟨-, -, -, -, -, hsel, htoRam, -⟩ := h.mainControl
  rw [oRAMKe]
  split
  · next hs =>
    refine port_carries (fun hw => ?_) (fun hw => ?_)
    · rw [htoRam] at hw ⊢
      exact (hround.write (hsel ▸ hs) hw).2
    · rw [htoRam] at hw ⊢
      rw [(hround.write (hsel ▸ hs) hw).1, h.key, encryptionKeys, toNat_roundAt]
  · refine first_carries fun hw => ?_
    rw [FirstRoundKey.oRAMWrite, Bool.and_eq_true] at hw
    rw [(h.firstAddr hw.1).1, h.firstKey]
    rfl

theorem reversedCarries (h : Expanding K a s ke kd) (ha : a < 96) :
    s.inverseIRAMKd.Carries (reversedKeys K) := by
  have hround := Control.atRound a ha
  obtain ⟨-, -, -, -, -, hsel, htoRam, -⟩ := h.mainControl
  rw [inverseIRAMKd]
  split
  · next hs =>
    refine port_carries (fun hw => ?_) (fun hw => ?_)
    · rw [htoRam] at hw ⊢
      exact (hround.write (hsel ▸ hs) hw).2
    · rw [htoRam] at hw ⊢
      have hle : roundAt a ≤ 10 := Nat.min_le_left _ _
      have hsub : 10 - (round - BitVec.ofNat 4 (roundAt a)).toNat = roundAt a := by
        have hten : round.toNat = 10 := rfl
        rw [BitVec.toNat_sub_of_le, toNat_roundAt, hten]
        · omega
        · rw [BitVec.le_def, toNat_roundAt, hten]
          exact hle
      rw [(hround.write (hsel ▸ hs) hw).1, h.key, reversedKeys, hsub]
  · refine first_carries fun hw => ?_
    rw [FirstRoundKey.oRAMWrite, Bool.and_eq_true] at hw
    rw [(h.firstAddr hw.1).2, h.firstKey]
    rfl

theorem nextKey_eq (k : Block) (r : ℕ) :
    nextKey k r =
      { w1 := (nextKey k r).w1
        w2 := k.w2 ^^^ (nextKey k r).w1
        w3 := k.w3 ^^^ k.w2 ^^^ (nextKey k r).w1
        w4 := k.w4 ^^^ k.w3 ^^^ k.w2 ^^^ (nextKey k r).w1 } := by
  simp only [BitVec.xor_assoc]
  rfl

theorem key_next (h : Expanding K a s ke kd) (ha : a < 96)
    (hload : iKeyLoad = true → a < 4 ∧ iKeyData = K) :
    (s.main.next s.KC s.BC round iKeyLoad iKeyData s.first.oLastKeyDataValid
      s.first.oLastKeyData).key = roundKey K (roundAt (a + 1)) := by
  have hadvance := (Control.atRound a ha).advance
  obtain ⟨hmain, -, hovalid, -⟩ := h.mainControl
  rw [← hmain, ← hovalid] at hadvance
  cases hs : s.main.state with
  | idle =>
    rw [hadvance, if_neg (by simp [hs])]
    cases hl : iKeyLoad
    · cases s.first.oLastKeyDataValid <;> simp [MainRoundKey.next, hs, h.key]
    · obtain ⟨hlt, hdata⟩ := hload hl
      have hzero : roundAt a = 0 := by
        simp only [roundAt]
        omega
      simp [MainRoundKey.next, hs, hdata, hzero, roundKey]
  | sbox =>
    cases hv : s.main.sbox.oDataValid
    · rw [hadvance, if_neg (by simp [hv])]
      simp [MainRoundKey.next, hs, hv, h.key]
    · rw [hadvance, if_pos ⟨hs, hv⟩, roundKey, nextKey_eq]
      have hout := h.sboxOut hv
      rw [roundKey] at hout
      simp [MainRoundKey.next, hs, hv, h.key, hout]
  | write =>
    rw [hadvance, if_neg (by simp [hs])]
    cases hd : s.main.toRam.oDone <;> simp [MainRoundKey.next, hs, hd, h.key]
  | _ =>
    rw [hadvance, if_neg (by simp [hs])]
    simp [MainRoundKey.next, hs, h.key]

theorem sboxIn_next (h : Expanding K a s ke kd) (ha : a < 96) :
    let m := s.main.next s.KC s.BC round iKeyLoad iKeyData s.first.oLastKeyDataValid
      s.first.oLastKeyData
    m.sboxIDataValid = true →
      m.sboxIData = (roundKey K (roundAt (a + 1))).w4 ∧
        m.sboxIOriginData = (roundKey K (roundAt (a + 1))).w1 := by
  intro m hvalid'
  have hround := Control.atRound a ha
  have hadvance := hround.advance
  obtain ⟨hmain, -, hovalid, -, -, -, -, hlast⟩ := h.mainControl
  have hfirst := hround.first
  rw [← hmain, ← hovalid] at hadvance
  rw [← hmain, ← hlast] at hfirst
  have hin := h.sboxIn
  cases hs : s.main.state with
  | idle =>
    rw [hadvance, if_neg (by simp [hs])]
    cases hl : iKeyLoad <;> cases hv : s.first.oLastKeyDataValid <;>
      simp only [m, MainRoundKey.next, hs, hl, hv, Bool.false_eq_true, if_false, if_true] at hvalid' ⊢
    · exact hin hvalid'
    · rw [h.key, FirstRoundKey.oLastKeyData, h.firstKey, hfirst hs hv]
      exact ⟨rfl, rfl⟩
    · exact hin hvalid'
    · exact hin hvalid'
  | sbox =>
    cases hv : s.main.sbox.oDataValid <;> simp [m, MainRoundKey.next, hs, hv] at hvalid'
  | again =>
    rw [hadvance, if_neg (by simp [hs])]
    simp [m, MainRoundKey.next, hs, h.key]
  | write =>
    rw [hadvance, if_neg (by simp [hs])]
    cases hd : s.main.toRam.oDone <;> simp only [m, MainRoundKey.next, hs, hd, Bool.false_eq_true,
      if_false, if_true] at hvalid' ⊢ <;> exact hin hvalid'
  | _ =>
    rw [hadvance, if_neg (by simp [hs])]
    simp only [m, MainRoundKey.next, hs] at hvalid' ⊢
    exact hin hvalid'

theorem sbox_eq (m : MainRoundKey) (iKC iBC iRound : BitVec 4) (load : Bool) (data : Block)
    (valid : Bool) (last : Word) :
    (m.next iKC iBC iRound load data valid last).sbox =
      m.sbox.next (!m.sboxReset) m.sboxIDataValid m.sboxIData m.sboxIOriginData := by
  simp only [MainRoundKey.next]
  split <;> (try split) <;> (try split) <;> rfl

theorem sboxOut_next (h : Expanding K a s ke kd) (ha : a < 96) :
    let b := s.main.sbox.next (!s.main.sboxReset) s.main.sboxIDataValid s.main.sboxIData
      s.main.sboxIOriginData
    b.oDataValid = true → b.oData = (roundKey K (roundAt (a + 1) + 1)).w1 := by
  intro b hvalid'
  obtain ⟨-, hvalid, -, hrcon, -⟩ := h.mainControl
  rw [(sbox_next _ _ _ _ _).1, Bool.and_eq_true, Bool.not_eq_true'] at hvalid'
  obtain ⟨hreset, hv⟩ := hvalid'
  obtain ⟨-, hpointer, hlt, hsame⟩ := (Control.atRound a ha).feed (hvalid ▸ hv)
  obtain ⟨hdata, horigin⟩ := h.sboxIn hv
  simp only [b, hreset, hv, hdata, horigin, Bool.not_false]
  rw [sbox_oData hlt (hrcon.trans hpointer), hsame, roundKey]

/-- One cycle of the expansion. A load that is still up repeats the key. -/
theorem step (h : Expanding K a s ke kd) (hpos : 0 < a) (ha : a < 96)
    (hload : iKeyLoad = true → a < 4 ∧ iKeyData = K) :
    Expanding K (a + 1) (s.next iParamLoad iKeyLoad iKeyData) (KeyRam.store ke s.oRAMKe)
      (KeyRam.store kd s.oRAMKd) := by
  have hheld : ∀ a < 4, 0 < a → (Control.age a).next true = (Control.age a).next false := by
    decide
  constructor
  · obtain ⟨hkc, hbc⟩ := h.lengths
    cases iParamLoad <;> simp [next, hkc, hbc, keyLength, blockSize]
  · have hne : (a == 0) = false := by simp only [beq_eq_false_iff_ne]; omega
    rw [control_next (Or.inr h.lengths), h.control, Control.age, hne]
    cases hl : iKeyLoad
    · rfl
    · exact hheld a (hload hl).1 hpos
  · have hkey : (s.next iParamLoad iKeyLoad iKeyData).first.key =
        if iKeyLoad then iKeyData else s.first.key := by
      cases hs : s.first.state <;> cases iKeyLoad <;> simp [next, FirstRoundKey.next, hs]
    rw [hkey, h.firstKey]
    split
    · next hl => exact (hload hl).2
    · rfl
  · exact h.firstAddr.next iKeyLoad iKeyData
  · exact h.key_next ha hload
  · exact h.sboxIn_next ha
  · intro hv
    have hsbox : (s.next iParamLoad iKeyLoad iKeyData).main.sbox = _ := sbox_eq _ _ _ _ _ _ _ _
    rw [hsbox] at hv ⊢
    exact h.sboxOut_next ha hv
  · intro r j
    have hin := inverseIRAMKd_hits h.firstAddr r j
    rw [h.control] at hin
    exact hin
  · exact inverse_carries (h.reversedCarries ha) s.inverse
  · rintro r j ⟨b, hb, hit⟩
    rw [lane_store]
    have hhits := oRAMKe_hits h.firstAddr r j
    rw [h.control] at hhits
    split
    · next hnow => exact h.keCarries ha r j hnow
    · next hnow =>
      refine h.keFilled r j ⟨b, ?_, hit⟩
      rcases Nat.lt_succ_iff_lt_or_eq.mp hb with hlt | rfl
      · exact hlt
      · exact absurd (hhits.trans hit) hnow
  · rintro r j ⟨b, hb, hit⟩
    rw [lane_store]
    split
    · next hnow => exact h.kdCarries r j hnow
    · next hnow =>
      refine h.kdFilled r j ⟨b, ?_, hit⟩
      rcases Nat.lt_succ_iff_lt_or_eq.mp hb with hlt | heq
      · exact hlt
      · rw [h.kdHits, ← heq] at hnow
        exact absurd hit hnow

end Expanding

/-! ### Before and after -/

/-- No key load and no write is under way. -/
structure Idle (s : Makekey) : Prop where
  control : s.control = Control.idle ∨ s.control = Control.age 95
  firstAddr : FirstAddr s.first
  kdHits : ∀ r j, s.oRAMKd.hits r j = false

theorem idle_reset : reset.Idle :=
  ⟨Or.inl rfl, fun hw => absurd hw (by decide), fun r j => by fin_cases j <;> rfl⟩

/-- The RAMs hold the round keys of `K`. -/
def Holds (K : Block) (ke kd : BitVec 4 → Block) : Prop :=
  ∀ r ≤ 10, ke (BitVec.ofNat 4 r) = roundKey K r ∧ kd (BitVec.ofNat 4 r) = inverseRoundKey K r

/-- What the two idle controls have in common. -/
theorem Idle.registers {s : Makekey} (h : s.Idle) :
    s.main.state = .idle ∧ s.first.state = .idle ∧ s.main.sboxIDataValid = false ∧
      (∀ load, s.control.next load = Control.idle.next load) ∧
      ∀ r j, s.control.hitsKe r j = false ∧ s.control.hitsKd r j = false := by
  show s.control.main = .idle ∧ s.control.first = .idle ∧ s.control.sboxIDataValid = false ∧ _
  have hlast : (Control.age 95).main = .idle ∧ (Control.age 95).first = .idle ∧
      (Control.age 95).sboxIDataValid = false ∧
      (∀ load, (Control.age 95).next load = Control.idle.next load) ∧
      (Control.age 95).toRam.write = false ∧ (Control.age 95).ramControlSel = true := by
    decide +kernel
  rcases h.control with hc | hc <;> rw [hc]
  · exact ⟨rfl, rfl, rfl, fun _ => rfl, fun _ _ => ⟨rfl, rfl⟩⟩
  · obtain ⟨hmain, hfirst, hvalid, hnext, hwrite, hsel⟩ := hlast
    exact ⟨hmain, hfirst, hvalid, hnext, fun r j => by
      simp [Control.hitsKe, Control.hitsKd, hwrite, hsel]⟩

theorem Idle.hits {s : Makekey} (h : s.Idle) (r : BitVec 4) (j : Fin 4) :
    s.oRAMKe.hits r j = false ∧ s.inverseIRAMKd.hits r j = false := by
  rw [oRAMKe_hits h.firstAddr, inverseIRAMKd_hits h.firstAddr]
  exact h.registers.2.2.2.2 r j

theorem store_of_not_hits {p : RamPort} (h : ∀ r j, p.hits r j = false)
    (mem : BitVec 4 → Block) : KeyRam.store mem p = mem := by
  funext r
  refine lane_ext fun j => ?_
  rw [lane_store, h r j]
  rfl

/-- Without a load an idle expansion leaves the RAMs alone. -/
theorem Idle.next {s : Makekey} (h : s.Idle) (iParamLoad : Bool) (iKeyData : Block) :
    (s.next iParamLoad false iKeyData).Idle ∧
      (s.next iParamLoad false iKeyData).control = Control.idle := by
  obtain ⟨hmain, -, -, hnext, -⟩ := h.registers
  have hcontrol : (s.next iParamLoad false iKeyData).control = Control.idle := by
    rw [control_next (Or.inl hmain), hnext]
    rfl
  exact ⟨⟨Or.inl hcontrol, h.firstAddr.next false iKeyData, fun r j => (h.hits r j).2⟩, hcontrol⟩

theorem Idle.load {s : Makekey} (h : s.Idle) {iParamLoad : Bool}
    (hparam : iParamLoad = true ∨ (s.KC = 4 ∧ s.BC = 4)) (K : Block) (ke kd : BitVec 4 → Block) :
    Expanding K 1 (s.next iParamLoad true K) ke kd := by
  obtain ⟨hmain, hfirst, hvalid, hnext, -⟩ := h.registers
  have hno : ∀ r j, (s.next iParamLoad true K).oRAMKd.hits r j = false := fun r j => (h.hits r j).2
  constructor
  · rcases hparam with rfl | ⟨hkc, hbc⟩
    · exact ⟨rfl, rfl⟩
    · cases iParamLoad <;> simp [Makekey.next, hkc, hbc, keyLength, blockSize]
  · rw [control_next (Or.inl hmain), hnext]
    rfl
  · simp [Makekey.next, FirstRoundKey.next, hfirst]
  · exact h.firstAddr.next true K
  · simp [Makekey.next, MainRoundKey.next, hmain, roundAt, roundKey]
  · intro hv
    simp [Makekey.next, MainRoundKey.next, hmain, hvalid] at hv
  · intro hv
    have hsbox : (s.next iParamLoad true K).main.sbox = _ := Expanding.sbox_eq _ _ _ _ _ _ _ _
    rw [hsbox, (sbox_next _ _ _ _ _).1, hvalid, Bool.and_false] at hv
    cases hv
  · intro r j
    rw [hno]
    rfl
  · intro r j hit
    rw [hno] at hit
    cases hit
  · rintro r j ⟨b, hb, hit⟩
    have hb0 : b = 0 := by omega
    rw [hb0] at hit
    cases hit
  · rintro r j ⟨b, hb, -⟩
    omega

theorem covered : ∀ r < 11, ∀ j : Fin 4,
    (Control.age (if r = 0 then 2 else 9 * r + j)).hitsKe (BitVec.ofNat 4 r) j = true ∧
      (Control.age (if r = 10 then 2 else 9 * (10 - r) + j)).hitsKd (BitVec.ofNat 4 r) j = true := by
  decide +kernel

/-- The whole expansion has been written. -/
theorem Expanding.holds {K : Block} {a : ℕ} {s : Makekey} {ke kd : BitVec 4 → Block}
    (h : Expanding K a s ke kd) (ha : 95 ≤ a) : Holds K ke kd := by
  intro r hr
  have htoNat : (BitVec.ofNat 4 r).toNat = r := by
    rw [BitVec.toNat_ofNat, Nat.mod_eq_of_lt (by omega)]
  constructor
  · refine lane_ext fun j => ?_
    have hj := j.isLt
    have hlane := h.keFilled (BitVec.ofNat 4 r) j ⟨_, ?_, (covered r (by omega) j).1⟩
    · rw [hlane, encryptionKeys, htoNat]
    · split <;> omega
  · refine lane_ext fun j => ?_
    have hj := j.isLt
    have hlane := h.kdFilled (BitVec.ofNat 4 r) j ⟨_, ?_, (covered r (by omega) j).2⟩
    · rw [hlane, decryptionKeys, htoNat]
    · split <;> omega

theorem Expanding.idle {K : Block} {s : Makekey} {ke kd : BitVec 4 → Block}
    (h : Expanding K 95 s ke kd) : s.Idle := by
  refine ⟨Or.inr h.control, h.firstAddr, fun r j => ?_⟩
  have hdone : (Control.age 94).toRam.write = false ∧ (Control.age 94).ramControlSel = true := by
    decide +kernel
  rw [h.kdHits]
  simp [Control.hitsKd, hdone]

end Makekey

end SocCrypto.Aes

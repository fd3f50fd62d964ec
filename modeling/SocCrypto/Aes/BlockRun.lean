import SocCrypto.Aes.Makekey

/-!
# A block in the datapath

The control part of the datapath runs through 22 cycles for a block whatever the
data; `age` is that run. `InFlight` says what the data registers hold beside it:
the state of the cipher over the round keys read so far. Round key `r` is read in
cycle `2 * r`, so nothing is assumed of the key RAM at other times.
-/

namespace SocCrypto.Aes
open AesFunction (Block column row0 row1 row2 row3 layers subByte mixColumn invMixColumn)

/-! ### Control -/

namespace Endec

/-- The control registers of the datapath. -/
structure Control where
  shifted : Bool
  oBusy : Bool
  shiftIDataValid : Bool
  init : Bool
  controlIDataValid : Bool
  roundValid : Bool
  roundCounter : BitVec 4
  oRAMAddr : BitVec 4
  multipleValid : Bool
  lastValid : Bool
  deriving DecidableEq

namespace Control

def idle : Control := ⟨false, false, false, false, false, false, 0, 0, false, false⟩

def meetMax (c : Control) : Bool := c.roundCounter == 8 && c.roundValid

def next (c : Control) (iDataValid : Bool) : Control where
  shifted := iDataValid
  oBusy := if iDataValid then true else if c.multipleValid then false else c.oBusy
  shiftIDataValid := c.shifted
  init := if c.meetMax then false else if c.shiftIDataValid then true else c.init
  controlIDataValid := if c.meetMax then false else c.roundValid
  roundValid := if c.init then c.controlIDataValid else c.shiftIDataValid
  roundCounter := if c.meetMax then 0 else if c.roundValid then c.roundCounter + 1 else c.roundCounter
  oRAMAddr := if c.lastValid then 0 else if c.shifted || c.roundValid then c.oRAMAddr + 1 else c.oRAMAddr
  multipleValid := c.meetMax
  lastValid := c.multipleValid

/-- Control `a` cycles after a block entered an idle datapath. -/
def age : ℕ → Control
  | 0 => idle
  | a + 1 => (age a).next (a == 0)

theorem age_done : age 22 = idle := by decide

end Control

def control (s : Endec) : Control where
  shifted := s.shiftedIDataValid
  oBusy := s.oBusy
  shiftIDataValid := s.block.multiple.shiftIDataValid
  init := s.block.multiple.init
  controlIDataValid := s.block.multiple.controlIDataValid
  roundValid := s.block.multiple.roundN.oDataValid
  roundCounter := s.block.multiple.roundCounter
  oRAMAddr := s.block.multiple.oRAMAddr
  multipleValid := s.block.multiple.oDataValid
  lastValid := s.block.last.oDataValid

section
variable {s : Endec} {iParamLoad iEndec iDataValid : Bool} {iRAMKeData iRAMKdData iData : Block}

theorem StandardRound_next_oDataValid (r : StandardRound) (e v : Bool) (b : Block) :
    (r.next e v b).oDataValid = v := by
  cases v <;> rfl

theorem LastRound_next_oDataValid (r : LastRound) (e v : Bool) (b : Block) :
    (r.next e v b).oDataValid = v := by
  cases v <;> rfl

/-- The control registers run by themselves. -/
theorem control_next (h : s.block.round = 10) :
    (s.next iParamLoad iEndec Makekey.round iRAMKeData iRAMKdData iDataValid iData).control =
      s.control.next iDataValid := by
  have hmax : s.block.multiple.meetMax s.block.round = s.control.meetMax := by
    rw [MultipleStandardRound.meetMax, h]
    rfl
  simp only [control, next, EndecBlock.next, MultipleStandardRound.next,
    StandardRound_next_oDataValid, LastRound_next_oDataValid, hmax, Control.next]
  rfl

end

end Endec

/-! ### Rounds -/

/-- The layers of the mode. -/
def layersOf (endec : Bool) : Layers Block := if endec then layers.symm else layers

/-- A standard round is the substitution and the linear layer of the mode. -/
theorem StandardRound.shiftAndMix_next (s : StandardRound) (e : Bool) (b : Block) :
    (s.next e true b).shiftAndMix e = (layersOf e).mix ((layersOf e).sub b) := by
  cases e
  · simp only [StandardRound.next, shiftAndMix, lookup, Bool.false_eq_true, if_false, if_true,
      smT_enc]
    simp [layersOf, layers, AesFunction.mixColumns, AesFunction.subBytes, AesFunction.shift,
      AesFunction.shiftRows, AesFunction.mapRows, Block.map]
  · simp only [StandardRound.next, shiftAndMix, lookup, if_true, smT_dec]
    simp [layersOf, layers, Layers.symm, AesFunction.mixColumns, AesFunction.subBytes,
      AesFunction.shift, AesFunction.invShiftRows, AesFunction.mapRows, Block.map]

/-- The last round is the substitution of the mode. -/
theorem LastRound.shiftAndMix_next (s : LastRound) (e : Bool) (b : Block) :
    (s.next e true b).shiftAndMix e = (layersOf e).sub b := by
  cases e
  · simp [LastRound.next, shiftAndMix, lookupLast, smS_eq, layersOf, layers, AesFunction.subBytes,
      AesFunction.shift, AesFunction.shiftRows, AesFunction.mapRows, Block.map]
  · simp [LastRound.next, shiftAndMix, lookupLast, smSi_eq, layersOf, layers, Layers.symm,
      AesFunction.subBytes, AesFunction.shift, AesFunction.invShiftRows, AesFunction.mapRows,
      Block.map]

theorem addKey_layersOf (e : Bool) (b k : Block) : (layersOf e).addKey b k = b.addKey k := by
  cases e <;> rfl

/-- The inverse substitution and the inverse row shift commute. -/
theorem shift_symm_subBytes_symm (b : Block) :
    AesFunction.shift.symm (AesFunction.subBytes.symm b) =
      AesFunction.subBytes.symm (AesFunction.shift.symm b) := by
  simp [AesFunction.subBytes, AesFunction.shift, AesFunction.invShiftRows, AesFunction.mapRows,
    Block.map]

/-- In the cycle after a valid block, a standard round puts out one round of the mode on it, and
a last round the same without the column mix. -/
theorem rounds_fips (s : StandardRound) (l : LastRound) (b k : Block) :
    ((s.next false true b).oData false k =
        (AesFunction.mixColumns (AesFunction.shift (AesFunction.subBytes b))).addKey k ∧
      (s.next true true b).oData true k =
        (AesFunction.mixColumns.symm
          (AesFunction.shift.symm (AesFunction.subBytes.symm b))).addKey k) ∧
    ((l.next false true b).oData false k =
        (AesFunction.shift (AesFunction.subBytes b)).addKey k ∧
      (l.next true true b).oData true k =
        (AesFunction.shift.symm (AesFunction.subBytes.symm b)).addKey k) := by
  unfold StandardRound.oData LastRound.oData
  rw [StandardRound.shiftAndMix_next, StandardRound.shiftAndMix_next, LastRound.shiftAndMix_next,
    LastRound.shiftAndMix_next, shift_symm_subBytes_symm]
  exact ⟨⟨rfl, rfl⟩, rfl, rfl⟩

/-! ### A block in flight -/

/-- State of the cipher after `r` full rounds. -/
def stateAfter (e : Bool) (k : ℕ → Block) (b : Block) (r : ℕ) : Block := (layersOf e).rounds k b r

/-- Block `b`, `a` cycles after its entry, under round keys `k`; `q` is what the key
RAM of the mode shows. -/
structure InFlight (e : Bool) (k : ℕ → Block) (b : Block) (a : ℕ) (s : Endec) (q : Block) :
    Prop where
  endec : s.endec = e
  blockEndec : s.block.endec = e
  round : s.block.round = 10
  control : s.control = Endec.Control.age a
  entered : a = 1 → s.data = b ∧ q = k 0
  feed : ∀ r < 9, a = 2 * r + 2 → s.block.multiple.roundNIData = stateAfter e k b r
  mixed : ∀ r < 9, a = 2 * r + 3 →
    s.block.multiple.roundN.shiftAndMix e =
      (layersOf e).mix ((layersOf e).sub (stateAfter e k b r)) ∧ q = k (r + 1)
  final : a = 20 → s.block.multiple.oData = stateAfter e k b 9
  out : a = 21 → s.block.last.shiftAndMix e = (layersOf e).sub (stateAfter e k b 9) ∧ q = k 10

namespace InFlight

open Endec (Control)

variable {e : Bool} {k : ℕ → Block} {b : Block} {a : ℕ} {s : Endec}
  {iParamLoad iEndec : Bool} {iRAMKeData iRAMKdData iData q : Block}

theorem age_feed : ∀ r < 9, (Control.age (2 * r + 2)).init = decide (r ≠ 0) ∧
    (if (Control.age (2 * r + 2)).init then (Control.age (2 * r + 2)).controlIDataValid
      else (Control.age (2 * r + 2)).shiftIDataValid) = true := by
  decide

theorem age_addr : ∀ r < 11, (Control.age (2 * r)).oRAMAddr = BitVec.ofNat 4 r := by
  decide

theorem age_meetMax : ∀ a < 22, (Control.age a).meetMax = decide (a = 19) := by
  decide

theorem age_lastValid : ∀ a < 22, (Control.age a).lastValid = decide (a = 21) := by
  decide

theorem roundNIDataValid_eq (h : InFlight e k b a s q) :
    s.block.multiple.roundNIDataValid =
      if (Control.age a).init then (Control.age a).controlIDataValid
      else (Control.age a).shiftIDataValid := by
  rw [← h.control]
  rfl

theorem meetMax_eq (h : InFlight e k b a s q) (ha : a < 22) :
    s.block.multiple.meetMax s.block.round = decide (a = 19) := by
  rw [← age_meetMax a ha, ← h.control, MultipleStandardRound.meetMax, h.round]
  rfl

/-- One cycle of a block in flight: round key `r` is read in cycle `2 * r`. -/
theorem step (h : InFlight e k b a s (s.ramData iRAMKeData iRAMKdData)) (ha : a < 22)
    (hmode : iParamLoad = true → iEndec = e) (hin : a = 0 → iData = b)
    (mem : BitVec 4 → Block) (hmem : ∀ r < 11, a = 2 * r → mem (BitVec.ofNat 4 r) = k r) :
    InFlight e k b (a + 1)
      (s.next iParamLoad iEndec Makekey.round iRAMKeData iRAMKdData (a == 0) iData)
      (mem s.oRAMAddr) := by
  have haddr : ∀ r < 11, a = 2 * r → mem s.oRAMAddr = k r := by
    intro r hr har
    have hage : s.oRAMAddr = (Control.age a).oRAMAddr := by
      rw [← h.control]
      rfl
    rw [hage, har, age_addr r hr, hmem r hr har]
  have hmax := h.meetMax_eq ha
  have hcontrol : (s.next iParamLoad iEndec Makekey.round iRAMKeData iRAMKdData (a == 0)
      iData).control = Control.age (a + 1) := by
    rw [Endec.control_next h.round, h.control]
    rfl
  have hround : ∀ r < 9, a = 2 * r + 3 →
      s.block.multiple.roundN.oData s.block.endec (s.ramData iRAMKeData iRAMKdData) =
        stateAfter e k b (r + 1) := by
    intro r hr har
    obtain ⟨hmix, hq⟩ := h.mixed r hr har
    rw [h.blockEndec, StandardRound.oData, hmix, hq, stateAfter, stateAfter, Layers.rounds,
      addKey_layersOf]
  constructor
  · show (if iParamLoad then iEndec else s.endec) = e
    split
    · next hp => exact hmode hp
    · exact h.endec
  · show (if iParamLoad then iEndec else s.block.endec) = e
    split
    · next hp => exact hmode hp
    · exact h.blockEndec
  · show (if iParamLoad then Makekey.round else s.block.round) = 10
    split
    · rfl
    · exact h.round
  · exact hcontrol
  · intro ha1
    have ha0 : a = 0 := by omega
    refine ⟨?_, haddr 0 (by decide) ha0⟩
    simp [Endec.next, ha0, hin ha0]
  · intro r hr har
    have hinit := (age_feed r hr).1
    rw [← har, ← hcontrol] at hinit
    show (if (s.next iParamLoad iEndec Makekey.round iRAMKeData iRAMKdData (a == 0)
      iData).control.init then _ else _) = _
    rw [hinit]
    -- the first round takes the block after the key addition, the others the round before
    rcases Nat.eq_zero_or_pos r with rfl | hpos
    · obtain ⟨hdata, hq⟩ := h.entered (by omega)
      show s.data.addKey (s.ramData iRAMKeData iRAMKdData) = _
      rw [hdata, hq, stateAfter, Layers.rounds, addKey_layersOf]
    · obtain ⟨r, rfl⟩ := Nat.exists_eq_succ_of_ne_zero hpos.ne'
      exact hround r (by omega) (by omega)
  · intro r hr har
    refine ⟨?_, haddr (r + 1) (by omega) (by omega)⟩
    have hvalid : s.block.multiple.roundNIDataValid = true := by
      have har' : a = 2 * r + 2 := by omega
      rw [h.roundNIDataValid_eq, har']
      exact (age_feed r hr).2
    show (s.block.multiple.roundN.next s.block.endec s.block.multiple.roundNIDataValid
      s.block.multiple.roundNIData).shiftAndMix e = _
    rw [h.blockEndec, hvalid, h.feed r hr (by omega), StandardRound.shiftAndMix_next]
  · intro ha20
    have ha19 : a = 19 := by omega
    show (if s.block.multiple.meetMax s.block.round then _ else _) = _
    rw [hmax, ha19]
    exact hround 8 (by decide) ha19
  · intro ha21
    have ha20 : a = 20 := by omega
    refine ⟨?_, haddr 10 (by decide) (by omega)⟩
    have hvalid : s.block.multiple.oDataValid = true := by
      have hage : s.block.multiple.oDataValid = (Control.age a).multipleValid := by
        rw [← h.control]
        rfl
      rw [hage, ha20]
      rfl
    show (s.block.last.next s.block.endec s.block.multiple.oDataValid
      s.block.multiple.oData).shiftAndMix e = _
    rw [h.blockEndec, hvalid, h.final ha20, LastRound.shiftAndMix_next]

theorem oDataValid (h : InFlight e k b a s q) (ha : a < 22) :
    s.oDataValid = decide (a = 21) := by
  rw [← age_lastValid a ha, ← h.control]
  rfl

/-- The block leaves enciphered. -/
theorem oData (h : InFlight e k b 21 s (s.ramData iRAMKeData iRAMKdData)) :
    s.oData iRAMKeData iRAMKdData = (layersOf e).cipher 10 k b := by
  obtain ⟨hlast, hq⟩ := h.out rfl
  rw [Endec.oData, EndecBlock.oData, LastRound.oData, h.blockEndec, hlast, hq, Layers.cipher,
    addKey_layersOf]
  rfl

end InFlight

/-- The datapath between blocks. -/
structure Endec.Ready (e : Bool) (s : Endec) : Prop where
  endec : s.endec = e
  blockEndec : s.block.endec = e
  round : s.block.round = 10
  control : s.control = Control.idle

theorem Endec.Ready.inFlight {e : Bool} {s : Endec} (h : s.Ready e) (k : ℕ → Block) (b q : Block) :
    InFlight e k b 0 s q :=
  ⟨h.endec, h.blockEndec, h.round, h.control, fun ha => absurd ha (by decide),
    fun r _ ha => absurd ha (by omega), fun r _ ha => absurd ha (by omega),
    fun ha => absurd ha (by decide), fun ha => absurd ha (by decide)⟩

theorem InFlight.ready {e : Bool} {k : ℕ → Block} {b q : Block} {s : Endec}
    (h : InFlight e k b 22 s q) : s.Ready e :=
  ⟨h.endec, h.blockEndec, h.round, h.control.trans Endec.Control.age_done⟩

end SocCrypto.Aes

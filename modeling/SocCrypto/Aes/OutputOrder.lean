import SocCrypto.Aes.KeyExpansion
import SocCrypto.Aes.BlockRun
import SocCrypto.Aes.InputCredit
import SocCrypto.Clocked

/-!
# Blocks through the AES engine

The engine takes a block in, is busy for 20 cycles and writes the four words 23 to 26
cycles after the start. `Phase φ` is its state `φ` cycles after the last start, 27 when
that is over. Fetching the next four words takes two cycles each, one of them before the
engine is busy, so the next start is 27 cycles later at the earliest.
-/

namespace SocCrypto.Aes
open AesFunction (Block)
open Clocked

/-! ### Control of the datapath -/

namespace Endec

/-- The control registers also run by themselves before the number of rounds is loaded, as
long as no block is in. -/
theorem control_next_of {s : Endec} {iParamLoad iEndec iDataValid : Bool}
    {iRAMKeData iRAMKdData iData : Block}
    (h : s.block.round = 10 ∨ s.block.multiple.roundN.oDataValid = false) :
    (s.next iParamLoad iEndec Makekey.round iRAMKeData iRAMKdData iDataValid iData).control =
      s.control.next iDataValid := by
  rcases h with hround | hvalid
  · exact control_next hround
  · have hmax : s.block.multiple.meetMax s.block.round = s.control.meetMax := by
      rw [MultipleStandardRound.meetMax, hvalid, Bool.and_false]
      show false = (s.block.multiple.roundCounter == 8 && s.block.multiple.roundN.oDataValid)
      rw [hvalid, Bool.and_false]
    simp only [control, next, EndecBlock.next, MultipleStandardRound.next,
      StandardRound_next_oDataValid, LastRound_next_oDataValid, hmax, Control.next]
    rfl

theorem Control.age_oBusy : ∀ a < 22, (Control.age a).oBusy = decide (1 ≤ a ∧ a ≤ 20) := by
  decide

end Endec

/-! ### Phases -/

namespace Core

/-- Cycles of fetching done for the next block, two a word. -/
def fetched (s : Core) : ℕ := 2 * s.bufferINCounter.toNat + s.ffInDataValid.toNat

/-- The most that can be fetched `φ` cycles after a start. -/
def budget (φ : ℕ) : ℕ :=
  if φ ≤ 2 then φ else if φ ≤ 21 then 2 else if φ ≤ 26 then φ - 19 else 7

/-- Words of the last block that are still to be written. -/
def pending (φ : ℕ) : ℕ := min 4 (27 - φ)

structure Phase (φ : ℕ) (s : Core) : Prop where
  le : φ ≤ 27
  start : s.start = decide (φ = 0)
  control : s.cipher.endec.control = Endec.Control.age (if φ ≤ 21 then φ else 0)
  rDelay : s.rDelay = decide (φ = 22)
  counterOUT : s.bufferOUTCounter = if 23 ≤ φ ∧ φ ≤ 25 then BitVec.ofNat 3 (φ - 22) else 0
  writeReq : s.oFFOutWriteReq = decide (23 ≤ φ ∧ φ ≤ 26)
  counterIN : s.bufferINCounter.toNat ≤ 3
  fetched : s.fetched ≤ budget φ
  loaded : s.cipher.endec.block.round = 10 ∨
    (φ = 27 ∧ s.fetched = 0 ∧ s.makekeyDoneReg = false ∧ s.cipher.makekey.Idle ∧
      s.cipher.makekey.oDone = false)

/-- The phase after a cycle. -/
def nextPhase (φ : ℕ) (s : Core) : ℕ := if s.fetched = 7 then 0 else min (φ + 1) 27

theorem AfterReset.phase {s : Core} (h : s.AfterReset) : s.Phase 27 := by
  have hfetched : s.fetched = 0 := by
    rw [Core.fetched, h.bufferINCounter, h.ffInDataValid]
    rfl
  constructor
  · exact le_rfl
  · exact h.start
  · rw [h.endec]
    rfl
  · exact h.rDelay
  · exact h.bufferOUTCounter
  · exact h.oFFOutWriteReq
  · rw [h.bufferINCounter]
    decide
  · rw [hfetched]
    exact Nat.zero_le _
  · right
    refine ⟨rfl, hfetched, h.makekeyDoneReg, ?_, ?_⟩
    · rw [h.makekey]
      exact Makekey.idle_reset
    · rw [h.makekey]
      rfl

section
variable {φ : ℕ} {s : Core} {i : In}

theorem bufferINReset_eq (h : s.bufferINCounter.toNat ≤ 3) :
    s.bufferINReset = decide (s.bufferINCounter.toNat = 3) := by
  have hall : ∀ c : BitVec 3, c.toNat ≤ 3 →
      (c.getLsbD 1 && c.getLsbD 0) = decide (c.toNat = 3) := by decide
  exact hall _ h

theorem fetched_next (h : s.bufferINCounter.toNat ≤ 3) :
    (s.next i).bufferINCounter.toNat ≤ 3 ∧
      (s.next i).fetched = if s.fetched = 7 then 0
        else if s.ffInDataValid then s.fetched + 1
        else s.fetched + (s.oFFInReadReq i.iFFInEmpty i.iFFOutAlmostFull).toNat := by
  have hreset := bufferINReset_eq h
  have hread : s.ffInDataValid = true → s.oFFInReadReq i.iFFInEmpty i.iFFOutAlmostFull = false := by
    intro hvalid
    simp [oFFInReadReq, hvalid]
  cases hvalid : s.ffInDataValid
  · have hcounter : (s.next i).bufferINCounter = s.bufferINCounter := by simp [next, hvalid]
    refine ⟨hcounter ▸ h, ?_⟩
    simp only [Core.fetched, hcounter, hvalid, Bool.toNat_false, Nat.add_zero, Bool.false_eq_true,
      if_false]
    rw [if_neg (by omega)]
    rfl
  · have hnext : (s.next i).ffInDataValid = false := hread hvalid
    by_cases hlast : s.bufferINCounter.toNat = 3
    · have hcounter : (s.next i).bufferINCounter = 0 := by
        simp [next, hvalid, hreset, hlast]
      refine ⟨by rw [hcounter]; decide, ?_⟩
      simp [Core.fetched, hcounter, hnext, hvalid, hlast]
    · have hcounter : (s.next i).bufferINCounter.toNat = s.bufferINCounter.toNat + 1 := by
        have hsame : (s.next i).bufferINCounter = s.bufferINCounter + 1 := by
          simp [next, hvalid, hreset, hlast]
        rw [hsame]
        exact toNat_add_one rfl (by omega)
      refine ⟨by omega, ?_⟩
      simp only [Core.fetched, hcounter, hnext, hvalid, Bool.toNat_true, Bool.toNat_false, if_true]
      rw [if_neg (by omega)]
      omega

theorem Phase.busy (h : s.Phase φ) : s.busy = decide (1 ≤ φ ∧ φ ≤ 20) := by
  have hle := h.le
  show s.cipher.endec.control.oBusy = _
  rw [h.control, Endec.Control.age_oBusy _ (by split <;> omega)]
  congr 1
  simp only [eq_iff_iff]
  split <;> omega

theorem Phase.oDataValid (h : s.Phase φ) : s.cipher.oDataValid = decide (φ = 21) := by
  have hle := h.le
  show s.cipher.endec.control.lastValid = _
  rw [h.control, InFlight.age_lastValid _ (by split <;> omega)]
  congr 1
  simp only [eq_iff_iff]
  split <;> omega

theorem Phase.start_next (h : s.Phase φ) : (s.next i).start = decide (s.fetched = 7) := by
  have hcounter := h.counterIN
  show (s.bufferINReset && s.ffInDataValid) = _
  rw [bufferINReset_eq hcounter, Core.fetched]
  cases s.ffInDataValid
  · simp only [Bool.and_false, Bool.toNat_false, Nat.add_zero]
    exact (decide_eq_false (by omega)).symm
  · simp only [Bool.and_true, Bool.toNat_true]
    congr 1
    simp only [eq_iff_iff]
    omega

/-- A start comes when the block before it is out. -/
theorem Phase.late (h : s.Phase φ) (hlast : s.fetched = 7) : 26 ≤ φ := by
  have hle := h.le
  have hbudget := h.fetched
  simp only [budget] at hbudget
  split at hbudget
  · omega
  · split at hbudget
    · omega
    · split at hbudget <;> omega

/-- What is the same before a start, long after one and at one follows the cycles. -/
theorem Phase.at_next {α : Type} (h : s.Phase φ) (f : ℕ → α) (h0 : f 0 = f 27) (h28 : f 28 = f 27) :
    f (s.nextPhase φ) = f (φ + 1) := by
  have hle := h.le
  rw [nextPhase]
  by_cases hlast : s.fetched = 7
  · have hlate := h.late hlast
    rw [if_pos hlast, h0]
    have hcases : φ = 26 ∨ φ = 27 := by omega
    rcases hcases with rfl | rfl
    · rfl
    · exact h28.symm
  · rw [if_neg hlast]
    by_cases hend : φ = 27
    · subst hend
      exact h28.symm
    · rw [Nat.min_eq_left (by omega)]

theorem control_phase : ∀ φ < 28, (Endec.Control.age (if φ ≤ 21 then φ else 0)).next (decide (φ = 0)) =
    Endec.Control.age (if φ + 1 ≤ 21 then φ + 1 else 0) := by
  decide

/-- `Buffer_OUT_counter` in a phase. -/
def counterAt (φ : ℕ) : BitVec 3 := if 23 ≤ φ ∧ φ ≤ 25 then BitVec.ofNat 3 (φ - 22) else 0

theorem counterAt_next : ∀ φ < 28,
    (if decide (φ = 22) || !(counterAt φ == 0) then
      if (counterAt φ).getLsbD 1 && (counterAt φ).getLsbD 0 then 0 else counterAt φ + 1
    else counterAt φ) = counterAt (φ + 1) := by
  decide

theorem writeReq_next : ∀ φ < 28,
    (if decide (φ = 22) then true else if counterAt φ == 0 then false
      else decide (23 ≤ φ ∧ φ ≤ 26)) = decide (23 ≤ φ + 1 ∧ φ + 1 ≤ 26) := by
  decide

theorem budget_busy : ∀ φ < 28, 1 ≤ φ → φ ≤ 20 →
    budget φ ≤ budget (φ + 1) ∧ budget φ ≤ 2 ∧ 2 ≤ budget (φ + 1) := by
  decide

theorem budget_free : ∀ φ < 28, ¬ (1 ≤ φ ∧ φ ≤ 20) →
    min 6 (budget φ) + 1 ≤ budget (min (φ + 1) 27) := by
  decide

theorem Phase.fetched_next_le (h : s.Phase φ) : (s.next i).fetched ≤ budget (s.nextPhase φ) := by
  have hle := h.le
  have hbudget := h.fetched
  have hread : (s.oFFInReadReq i.iFFInEmpty i.iFFOutAlmostFull).toNat ≤ (!s.busy).toNat := by
    rw [oFFInReadReq]
    cases s.busy <;> simp [Bool.toNat_le]
  rw [h.busy] at hread
  rw [(fetched_next h.counterIN).2, nextPhase]
  by_cases hlast : s.fetched = 7
  · rw [if_pos hlast]
    exact Nat.zero_le _
  rw [if_neg hlast, if_neg hlast]
  by_cases hbusy : 1 ≤ φ ∧ φ ≤ 20
  · -- only a word read before the engine became busy arrives
    obtain ⟨hmono, htwo, htwo'⟩ := budget_busy φ (by omega) hbusy.1 hbusy.2
    have hnone : (s.oFFInReadReq i.iFFInEmpty i.iFFOutAlmostFull).toNat = 0 := by
      simpa [hbusy.1, hbusy.2] using hread
    rw [hnone, Nat.min_eq_left (by omega)]
    rw [Core.fetched] at hbudget ⊢
    cases hvalid : s.ffInDataValid
    · rw [hvalid] at hbudget
      simp only [Bool.false_eq_true, if_false, Bool.toNat_false] at hbudget ⊢
      omega
    · rw [hvalid] at hbudget
      simp only [if_true, Bool.toNat_true] at hbudget ⊢
      omega
  · have hfree := budget_free φ (by omega) hbusy
    have hcounter := h.counterIN
    have hvalid := Bool.toNat_le s.ffInDataValid
    have hone := Bool.toNat_le (s.oFFInReadReq i.iFFInEmpty i.iFFOutAlmostFull)
    have hsix : s.fetched ≤ 6 := by
      rw [Core.fetched] at hlast ⊢
      omega
    refine le_trans ?_ hfree
    split <;> omega

theorem Phase.next (h : s.Phase φ) (hload : i.iParamLoad = i.iKeyLoad) :
    (s.next i).Phase (s.nextPhase φ) := by
  have hle := h.le
  have hcounter : s.bufferOUTCounter = counterAt φ := h.counterOUT
  constructor
  · rw [nextPhase]
    split <;> omega
  · rw [h.start_next, nextPhase]
    congr 1
    by_cases hlast : s.fetched = 7 <;> simp [hlast]
  · have hrun : (s.next i).cipher.endec.control = s.cipher.endec.control.next s.start := by
      refine Endec.control_next_of ?_
      rcases h.loaded with hround | ⟨rfl, -⟩
      · exact Or.inl hround
      · right
        have hidle := h.control
        exact congrArg Endec.Control.roundValid hidle
    rw [hrun, h.control, h.start, control_phase φ (by omega)]
    exact (h.at_next (fun φ => Endec.Control.age (if φ ≤ 21 then φ else 0)) rfl rfl).symm
  · show s.cipher.oDataValid = _
    rw [h.oDataValid]
    have hnext := h.at_next (fun φ => decide (φ = 22)) rfl rfl
    rw [hnext]
    congr 1
    simp only [eq_iff_iff]
    omega
  · have hnext := h.at_next counterAt rfl rfl
    refine Eq.trans ?_ hnext.symm
    rw [← counterAt_next φ (by omega), ← hcounter, ← h.rDelay]
    rfl
  · have hnext := h.at_next (fun φ => decide (23 ≤ φ ∧ φ ≤ 26)) rfl rfl
    refine Eq.trans ?_ hnext.symm
    rw [← writeReq_next φ (by omega), ← hcounter, ← h.rDelay, ← h.writeReq]
    rfl
  · exact (fetched_next h.counterIN).1
  · exact h.fetched_next_le
  · rcases h.loaded with hround | ⟨rfl, hnone, hreg, hidle, hdone⟩
    · left
      show (if i.iParamLoad then Makekey.round else s.cipher.endec.block.round) = 10
      split
      · rfl
      · exact hround
    · cases hkey : i.iKeyLoad
      · right
        have hread : s.oFFInReadReq i.iFFInEmpty i.iFFOutAlmostFull = false := by
          simp [oFFInReadReq, hreg]
        have hstay : (s.next i).fetched = 0 := by
          have hvalid : s.ffInDataValid = false := by
            cases hv : s.ffInDataValid
            · rfl
            · rw [Core.fetched, hv, Bool.toNat_true] at hnone
              omega
          rw [(fetched_next h.counterIN).2, if_neg (by omega), hvalid, hread, hnone]
          rfl
        obtain ⟨hstill, hcontrol⟩ := hidle.next i.iParamLoad i.iKeyData
        refine ⟨?_, hstay, ?_, ?_, ?_⟩
        · rw [nextPhase, if_neg (by omega)]
          rfl
        · show (if s.cipher.makekey.oDone then true else s.makekeyDoneReg) = false
          rw [hdone, hreg]
          rfl
        · show (s.cipher.makekey.next i.iParamLoad i.iKeyLoad i.iKeyData).Idle
          rw [hkey]
          exact hstill
        · show (s.cipher.makekey.next i.iParamLoad i.iKeyLoad i.iKeyData).control.sboxReset = false
          rw [hkey, hcontrol]
          rfl
      · left
        show (if i.iParamLoad then Makekey.round else s.cipher.endec.block.round) = 10
        rw [hload, hkey]
        rfl

theorem Phase.fetched_last (h : s.Phase φ) (hlast : (s.next i).fetched = 7) :
    25 ≤ φ ∧ i.iFFOutAlmostFull = false := by
  have hle := h.le
  have hbudget := h.fetched
  rw [(fetched_next h.counterIN).2] at hlast
  by_cases hnow : s.fetched = 7
  · rw [if_pos hnow] at hlast
    cases hlast
  rw [if_neg hnow] at hlast
  cases hvalid : s.ffInDataValid
  · rw [hvalid] at hlast
    simp only [Bool.false_eq_true, if_false] at hlast
    have hsix : s.fetched = 6 ∧ s.oFFInReadReq i.iFFInEmpty i.iFFOutAlmostFull = true := by
      have heven : s.fetched = 2 * s.bufferINCounter.toNat := by
        rw [Core.fetched, hvalid]
        rfl
      cases hread : s.oFFInReadReq i.iFFInEmpty i.iFFOutAlmostFull
      · rw [hread, Bool.toNat_false] at hlast
        omega
      · rw [hread, Bool.toNat_true] at hlast
        exact ⟨by omega, rfl⟩
    constructor
    · rw [hsix.1] at hbudget
      revert hbudget
      have hall : ∀ φ < 28, 6 ≤ budget φ → 25 ≤ φ := by decide
      exact hall φ (by omega)
    · have hread := hsix.2
      simp only [oFFInReadReq, Bool.and_eq_true, Bool.not_eq_true'] at hread
      exact hread.1.1.1.2
  · rw [hvalid] at hlast
    simp only [if_true] at hlast
    rw [Core.fetched, hvalid, Bool.toNat_true] at hlast
    omega

end

end Core

/-! ### Room in the output FIFO -/

namespace AesFifo

/-- The words in the FIFO, those of the last block still to come, and those of a block
that will start. -/
structure Bounded (φ : ℕ) (s : AesFifo) : Prop where
  phase : s.aes.Phase φ
  room : s.fifoOut.words.length + Core.pending φ + (if s.aes.fetched = 7 then 4 else 0) ≤ 61

theorem AfterReset.bounded {s : AesFifo} (h : s.AfterReset) : s.Bounded 27 := by
  refine ⟨h.aes.phase, ?_⟩
  rw [h.fifoOut]
  split <;> decide

theorem pending_next : ∀ φ < 28, Core.pending (min (φ + 1) 27) + (decide (23 ≤ φ ∧ φ ≤ 26)).toNat ≤
    Core.pending φ := by
  decide

theorem Bounded.next {φ : ℕ} {s : AesFifo} (h : s.Bounded φ) {i : In}
    (hload : i.iParamLoad = i.iKeyLoad) : (s.next i).Bounded (s.aes.nextPhase φ) := by
  have hphase := h.phase
  have hle := hphase.le
  have hroom := h.room
  have hlen : (s.next i).fifoOut.words.length ≤
      s.fifoOut.words.length + (decide (23 ≤ φ ∧ φ ≤ 26)).toNat := by
    rw [← hphase.writeReq]
    show (s.fifoOut.next i.iRstControl s.aes.oFFOutWriteReq s.aes.oFFOutData
      i.iReadFifoOut).words.length ≤ _
    cases i.iRstControl
    · exact FifoFull.length_next_le _ _ _ _
    · exact Nat.zero_le _
  have hpending := pending_next φ (by omega)
  refine ⟨hphase.next (i := s.aesIn i) hload, ?_⟩
  rw [Core.nextPhase]
  by_cases hlast : s.aes.fetched = 7
  · have hzero : (s.next i).aes.fetched = 0 := by
      show (s.aes.next (s.aesIn i)).fetched = 0
      rw [(Core.fetched_next hphase.counterIN).2, if_pos hlast]
    rw [if_pos hlast] at hroom ⊢
    rw [hzero, if_neg (by omega)]
    have hfour : Core.pending 0 = 4 := rfl
    omega
  · rw [if_neg hlast] at hroom ⊢
    by_cases hnext : (s.next i).aes.fetched = 7
    · -- the fourth word was read with the FIFO below its almost-full mark
      obtain ⟨hlate, halmost⟩ := hphase.fetched_last (i := s.aesIn i) hnext
      have hbelow : s.fifoOut.words.length < 56 := not_le.mp (of_decide_eq_false halmost)
      have hfew : Core.pending φ ≤ 2 := by
        rw [Core.pending]
        omega
      rw [if_pos hnext]
      omega
    · rw [if_neg hnext]
      omega

/-- A write finds room. -/
theorem Bounded.not_full {φ : ℕ} {s : AesFifo} (h : s.Bounded φ)
    (hwrite : s.aes.oFFOutWriteReq = true) : s.fifoOut.full = false := by
  have hroom := h.room
  rw [h.phase.writeReq] at hwrite
  have hφ := of_decide_eq_true hwrite
  have hpending : 1 ≤ Core.pending φ := by
    rw [Core.pending]
    omega
  refine decide_eq_false ?_
  show ¬ 64 ≤ s.fifoOut.words.length
  omega

end AesFifo

/-! ### Runs -/

namespace Qsys

/-- The engine after `t` cycles. -/
def coreAt (s : Qsys) (i : ℕ → In) (t : ℕ) : Core := (run next s i t).aesFifo.aes

/-- Cycles since the last start. -/
def phaseAt (s : Qsys) (i : ℕ → In) : ℕ → ℕ
  | 0 => 27
  | t + 1 => (coreAt s i t).nextPhase (phaseAt s i t)

section
variable {s : Qsys} {i : ℕ → In}

theorem AfterReset.bounded_run (h : s.AfterReset) (t : ℕ) :
    (run next s i t).aesFifo.Bounded (phaseAt s i t) := by
  induction t with
  | zero => exact h.aesFifo.bounded
  | succ t ih => exact ih.next (i := (run next s i t).aesFifoIn) rfl

theorem AfterReset.phase_run (h : s.AfterReset) (t : ℕ) :
    (coreAt s i t).Phase (phaseAt s i t) := (h.bounded_run t).phase

theorem AfterReset.start_iff (h : s.AfterReset) (t : ℕ) :
    (coreAt s i t).start = true ↔ phaseAt s i t = 0 := by
  rw [(h.phase_run t).start]
  exact decide_eq_true_iff

theorem AfterReset.phaseAt_add (h : s.AfterReset) {t : ℕ} (hstart : phaseAt s i t = 0) {k : ℕ}
    (hk : k ≤ 26) : phaseAt s i (t + k) = k := by
  induction k with
  | zero => exact hstart
  | succ k ih =>
    have hphase := ih (by omega)
    have hnot : (coreAt s i (t + k)).fetched ≠ 7 := by
      intro hlast
      have hlate := (h.phase_run (t + k)).late hlast
      omega
    show (coreAt s i (t + k)).nextPhase (phaseAt s i (t + k)) = k + 1
    rw [Core.nextPhase, if_neg hnot, hphase]
    omega

/-- Every phase below 27 has its start. -/
theorem phaseAt_start {u : ℕ} (hu : phaseAt s i u < 27) :
    phaseAt s i u ≤ u ∧ phaseAt s i (u - phaseAt s i u) = 0 := by
  induction u with
  | zero => exact absurd hu (lt_irrefl 27)
  | succ u ih =>
    have hstep : phaseAt s i (u + 1) = if (coreAt s i u).fetched = 7 then 0
        else min (phaseAt s i u + 1) 27 := rfl
    by_cases hlast : (coreAt s i u).fetched = 7
    · rw [if_pos hlast] at hstep
      rw [hstep]
      exact ⟨Nat.zero_le _, hstep⟩
    · rw [if_neg hlast] at hstep
      have hbefore : phaseAt s i (u + 1) = phaseAt s i u + 1 := by omega
      obtain ⟨hle, hzero⟩ := ih (by omega)
      rw [hbefore]
      refine ⟨by omega, ?_⟩
      rw [Nat.add_sub_add_right]
      exact hzero

/-- `Buffer_OUT` keeps the block until its last word is out. -/
theorem AfterReset.bufferOUT (h : s.AfterReset) {t : ℕ} (hstart : phaseAt s i t = 0) {j : ℕ}
    (hj : j ≤ 4) : (coreAt s i (t + 22 + j)).bufferOUT = (coreAt s i (t + 21)).cipher.oData := by
  have hload : ∀ u, (coreAt s i (u + 1)).bufferOUT =
      if (coreAt s i u).cipher.oDataValid then (coreAt s i u).cipher.oData
      else (coreAt s i u).bufferOUT := fun _ => rfl
  induction j with
  | zero =>
    have hvalid : (coreAt s i (t + 21)).cipher.oDataValid = true := by
      rw [(h.phase_run (t + 21)).oDataValid, h.phaseAt_add hstart (by omega)]
      rfl
    rw [Nat.add_zero, hload (t + 21), if_pos hvalid]
  | succ j ih =>
    have hvalid : (coreAt s i (t + 22 + j)).cipher.oDataValid = false := by
      rw [(h.phase_run (t + 22 + j)).oDataValid, Nat.add_assoc, h.phaseAt_add hstart (by omega)]
      exact decide_eq_false (by omega)
    rw [← Nat.add_assoc, hload (t + 22 + j), if_neg (by simp [hvalid])]
    exact ih (by omega)

theorem AfterReset.writes (h : s.AfterReset) {t : ℕ} (hstart : phaseAt s i t = 0) {j : ℕ}
    (hj : j < 4) : (coreAt s i (t + 23 + j)).oFFOutWriteReq = true ∧
      (coreAt s i (t + 23 + j)).oFFOutData =
        getWord (coreAt s i (t + 21)).cipher.oData (BitVec.ofNat 3 j) := by
  constructor
  · rw [(h.phase_run (t + 23 + j)).writeReq, Nat.add_assoc, h.phaseAt_add hstart (by omega)]
    exact decide_eq_true (by omega)
  · have hcounter : (coreAt s i (t + 22 + j)).bufferOUTCounter = BitVec.ofNat 3 j := by
      rw [(h.phase_run (t + 22 + j)).counterOUT, Nat.add_assoc, h.phaseAt_add hstart (by omega)]
      rcases Nat.eq_zero_or_pos j with rfl | hpos
      · rfl
      · rw [if_pos (by omega), Nat.add_sub_cancel_left]
    have hdata : (coreAt s i (t + 22 + j + 1)).oFFOutData =
        getWord (coreAt s i (t + 22 + j)).bufferOUT (coreAt s i (t + 22 + j)).bufferOUTCounter := rfl
    rw [show t + 23 + j = t + 22 + j + 1 by omega, hdata, h.bufferOUT hstart (by omega), hcounter]

theorem AfterReset.not_full (h : s.AfterReset) {t : ℕ}
    (hwrite : (coreAt s i t).oFFOutWriteReq = true) :
    (run next s i t).aesFifo.fifoOut.full = false := (h.bounded_run t).not_full hwrite

/-- The output side of a run. -/
structure OutputOrdered (s : Qsys) (i : ℕ → In) : Prop where
  /-- No write meets a full output FIFO. -/
  notFull : ∀ t, (coreAt s i t).oFFOutWriteReq = true →
    (run next s i t).aesFifo.fifoOut.full = false
  /-- A write appends its word to the output FIFO. -/
  appended : ∀ t, (coreAt s i t).oFFOutWriteReq = true → (run next s i t).resetBit = false →
    let f := (run next s i t).aesFifo.fifoOut
    (run next s i (t + 1)).aesFifo.fifoOut.words =
      (if (run next s i t).wm.rReadFifoOut then f.words.tail else f.words) ++
        [(coreAt s i t).oFFOutData]
  /-- The block started in cycle `t` is out in cycle `t + 21`, stays in `Buffer_OUT`, and its
  words are written in the cycles `t + 23` to `t + 26`. -/
  block : ∀ t, (coreAt s i t).start = true →
    (coreAt s i (t + 21)).cipher.oDataValid = true ∧
    (∀ j ≤ 4, (coreAt s i (t + 22 + j)).bufferOUT = (coreAt s i (t + 21)).cipher.oData) ∧
    ∀ j < 4, (coreAt s i (t + 23 + j)).oFFOutWriteReq = true ∧
      (coreAt s i (t + 23 + j)).oFFOutData =
        getWord (coreAt s i (t + 21)).cipher.oData (BitVec.ofNat 3 j)
  /-- Each write is one of these. -/
  source : ∀ u, (coreAt s i u).oFFOutWriteReq = true →
    ∃ t j, j < 4 ∧ u = t + 23 + j ∧ (coreAt s i t).start = true
  /-- The writes of a block are over before those of the next. -/
  apart : ∀ t t', (coreAt s i t).start = true → (coreAt s i t').start = true → t < t' →
    t + 27 ≤ t'

theorem AfterReset.output_order (h : s.AfterReset) (i : ℕ → In) : OutputOrdered s i := by
  refine ⟨fun t hwrite => h.not_full hwrite, ?_, ?_, ?_, ?_⟩
  · intro t hwrite hreset f
    have hfull : f.full = false := h.not_full hwrite
    have hwrite' : (run next s i t).aesFifo.aes.oFFOutWriteReq = true := hwrite
    show (f.next (run next s i t).resetBit (run next s i t).aesFifo.aes.oFFOutWriteReq
      (run next s i t).aesFifo.aes.oFFOutData (run next s i t).wm.rReadFifoOut).words = _
    rw [hreset, hwrite']
    simp only [FifoFull.next, Bool.false_eq_true, if_false, hfull, Bool.not_false, Bool.and_true,
      if_true]
    rfl
  · intro t hstart
    have hphase := (h.start_iff t).mp hstart
    refine ⟨?_, fun j hj => h.bufferOUT hphase hj, fun j hj => h.writes hphase hj⟩
    rw [(h.phase_run (t + 21)).oDataValid, h.phaseAt_add hphase (by omega)]
    rfl
  · intro u hwrite
    rw [(h.phase_run u).writeReq] at hwrite
    have hφ := of_decide_eq_true hwrite
    obtain ⟨hle, hzero⟩ := phaseAt_start (s := s) (i := i) (u := u) (by omega)
    exact ⟨u - phaseAt s i u, phaseAt s i u - 23, by omega, by omega, (h.start_iff _).mpr hzero⟩
  · intro t t' hstart hstart' hlt
    by_contra hclose
    have hphase := h.phaseAt_add ((h.start_iff t).mp hstart) (k := t' - t) (by omega)
    rw [show t + (t' - t) = t' by omega, (h.start_iff t').mp hstart'] at hphase
    omega

end

/-- Key 0 is loaded, and the words 100 to 103 arrive when its expansion is over. -/
def oneBlock (t : ℕ) : In where
  iRead := false
  iWrite := decide (t = 0)
  iAddress := 0
  iData := 3
  iRMRddatavalid := decide (100 ≤ t ∧ t < 104)
  iRMWaitrequest := false
  iRMRddata := BitVec.ofNat 32 t
  iWMWaitrequest := false

theorem oneBlock_start : (coreAt System.powerUp.qsys oneBlock 110).start = true := by
  decide +kernel

theorem output_order_oneBlock :
    (coreAt System.powerUp.qsys oneBlock 110).start = true ∧
      OutputOrdered System.powerUp.qsys oneBlock :=
  ⟨oneBlock_start, System.powerUp_afterReset.output_order oneBlock⟩

end Qsys

end SocCrypto.Aes

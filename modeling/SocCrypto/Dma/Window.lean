import SocCrypto.Aes.Qsys
import SocCrypto.Dma.ReadPath
import SocCrypto.Stepper

/-!
# Reads of the DMA masters

The read masters of `RSA_Controller.v`, `SHA_256_Controller.v` and `AES_Qsys.v` are steppers by
four bytes: the first two share `MasterRead`, the third one waits for room before each request.
All compare the advanced address with the end for equality, so they stay inside a window of
positive length divisible by four and leave every other one.
-/

namespace SocCrypto
open Clocked Stepper

/-! ### RSA and SHA -/

namespace Dma.MasterRead

/-- What the controller and the bus show a released master in a cycle. -/
structure Timing where
  startRead : Bool
  wait : Bool
  fifoFull : Bool

def after (readStart length : Word) (i : ℕ → Timing) : ℕ → MasterRead :=
  run (fun m i => m.next true i.startRead readStart (readStart + length) i.wait i.fifoFull) reset i

def reads (readStart length : Word) (i : ℕ → Timing) : Trace 32 where
  read t := (after readStart length i t).oRead
  address t := (after readStart length i t).oAddress
  moves t := (after readStart length i t).moves (i t).wait (i t).fifoFull

def phase : MasterState → Phase
  | .start => .idle
  | .raise => .raise
  | .accept => .request
  | .check => .compare

def toStepper (m : MasterRead) : Stepper.State 32 := ⟨phase m.state, m.oAddress⟩

def gates (i : Timing) : Gates := ⟨i.startRead, true, !(i.wait || i.fifoFull)⟩

theorem phase_eq_request (s : MasterState) : phase s = .request ↔ s = .accept := by
  cases s <;> simp [phase]

theorem toStepper_next (readStart endAddress : Word) (m : MasterRead) (i : Timing) :
    (m.next true i.startRead readStart endAddress i.wait i.fifoFull).toStepper =
      Stepper.next 4 readStart endAddress m.toStepper (gates i) := by
  cases hs : m.state with
  | start =>
    rw [next_start hs]
    cases hi : i.startRead <;> simp [toStepper, Stepper.next, gates, phase, hs, hi]
  | raise =>
    rw [next_raise hs]
    simp [toStepper, Stepper.next, gates, phase, hs]
  | accept =>
    rw [next_accept hs]
    cases hi : i.wait || i.fifoFull <;> simp [toStepper, Stepper.next, gates, phase, hs, hi]
  | check =>
    rw [next_check hs]
    by_cases hend : m.oAddress = endAddress <;>
      simp [toStepper, Stepper.next, phase, hs, hend]

theorem oRead_next {m : MasterRead} (h : m.oRead = decide (m.state = .accept))
    (readStart endAddress : Word) (i : Timing) :
    (m.next true i.startRead readStart endAddress i.wait i.fifoFull).oRead =
      decide ((m.next true i.startRead readStart endAddress i.wait i.fifoFull).state = .accept) := by
  cases hs : m.state with
  | start => rw [next_start hs]; split <;> simp [h, hs]
  | raise => rw [next_raise hs]; rfl
  | accept => rw [next_accept hs]; split <;> simp [h, hs]
  | check => rw [next_check hs]; split <;> simp [h, hs]

theorem after_simulates (readStart length : Word) (i : ℕ → Timing) (t : ℕ) :
    (after readStart length i t).oRead = decide ((after readStart length i t).state = .accept) ∧
      (after readStart length i t).toStepper =
        Stepper.after 4 readStart (readStart + length) (fun u => gates (i u)) t :=
  run_simulates (fun _ i h => oRead_next h _ _ i) (fun m i _ => toStepper_next _ _ m i) reset i rfl t

theorem reads_eq (readStart length : Word) (i : ℕ → Timing) :
    reads readStart length i = trace 4 readStart (readStart + length) fun t => gates (i t) := by
  have hphase : ∀ t, decide ((after readStart length i t).state = .accept) =
      decide ((Stepper.after 4 readStart (readStart + length) (fun u => gates (i u)) t).phase =
        .request) := by
    intro t
    rw [← (after_simulates readStart length i t).2]
    exact (decide_eq_decide.mpr (phase_eq_request _)).symm
  refine Trace.ext (funext fun t => ?_) (funext fun t => ?_) (funext fun t => ?_)
  · show (after readStart length i t).oRead = decide (_ = _)
    rw [(after_simulates readStart length i t).1, hphase]
  · exact congrArg State.address (after_simulates readStart length i t).2
  · show (decide (_ = _) && !(i t).wait && !(i t).fifoFull) =
      (decide (_ = _) && !((i t).wait || (i t).fifoFull))
    rw [hphase, Bool.not_or, Bool.and_assoc]

/-- The two masters read inside their window exactly when its length is positive and divisible
by four. -/
theorem reads_within_iff {readStart length : Word}
    (hfit : readStart.toNat + length.toNat ≤ 2 ^ 32) :
    (∀ i, (reads readStart length i).Within readStart length) ↔
      0 < length.toNat ∧ 4 ∣ length.toNat := by
  constructor
  · intro h
    have hopen := h fun _ => ⟨true, false, false⟩
    rw [reads_eq] at hopen
    by_contra hbad
    exact not_trace_within (by decide) hbad hopen
  · rintro ⟨hpos, hdvd⟩ i
    rw [reads_eq]
    exact trace_within hfit hpos hdvd (by decide) _

end Dma.MasterRead

/-! ### AES -/

namespace Aes.ReadMaster

structure Timing where
  START : Bool
  credit : Bool
  wait : Bool

/-- What a reset leaves; the last address keeps what it held. -/
def reset (rRMLastaddr : Word) : ReadMaster := ⟨.IDLE, false, 0, rRMLastaddr, false, false⟩

def after (rRMLastaddr startAddr LENGTH : Word) (i : ℕ → Timing) : ℕ → ReadMaster :=
  run (fun m i => m.next false i.START startAddr LENGTH i.credit i.wait) (reset rRMLastaddr) i

def reads (rRMLastaddr startAddr LENGTH : Word) (i : ℕ → Timing) : Trace 32 where
  read t := (after rRMLastaddr startAddr LENGTH i t).oRMRead
  address t := (after rRMLastaddr startAddr LENGTH i t).oRMRdaddr
  moves t := (after rRMLastaddr startAddr LENGTH i t).oRMRead && !(i t).wait

def phase : DmaState → Phase
  | .IDLE => .idle
  | .STEP_1 => .raise
  | .STEP_2 => .request
  | _ => .compare

def toStepper (m : ReadMaster) : Stepper.State 32 := ⟨phase m.rStateDMARM, m.oRMRdaddr⟩

def gates (i : Timing) : Gates := ⟨i.START, i.credit, !i.wait⟩

/-- The states the read master uses, with the end address in place after the first. -/
structure Used (lastaddr : Word) (m : ReadMaster) : Prop where
  state : m.rStateDMARM = .IDLE ∨ m.rStateDMARM = .STEP_1 ∨ m.rStateDMARM = .STEP_2 ∨
    m.rStateDMARM = .STOP
  read : m.oRMRead = decide (m.rStateDMARM = .STEP_2)
  last : m.rStateDMARM ≠ .IDLE → m.rRMLastaddr = lastaddr

theorem Used.request_iff {lastaddr : Word} {m : ReadMaster} (h : m.Used lastaddr) :
    m.toStepper.phase = .request ↔ m.oRMRead = true := by
  rw [h.read, decide_eq_true_eq]
  rcases h.state with hs | hs | hs | hs <;> simp [toStepper, phase, hs]

theorem Used.next {startAddr : Word} (LENGTH : Word) {m : ReadMaster}
    (h : m.Used (startAddr + LENGTH))
    (i : Timing) :
    (m.next false i.START startAddr LENGTH i.credit i.wait).Used (startAddr + LENGTH) ∧
      (m.next false i.START startAddr LENGTH i.credit i.wait).toStepper =
        Stepper.next 4 startAddr (startAddr + LENGTH) m.toStepper (gates i) := by
  have hread := h.read
  have hlast := h.last
  rcases h.state with hs | hs | hs | hs
  · rw [hs] at hread
    cases hi : i.START
    · refine ⟨?_, by simp [ReadMaster.next, toStepper, Stepper.next, gates, phase, hs, hi]⟩
      simpa [ReadMaster.next, hs, hi] using h
    · refine ⟨?_, by simp [ReadMaster.next, toStepper, Stepper.next, gates, phase, hs, hi]⟩
      constructor <;> simp [ReadMaster.next, hs, hread]
  · rw [hs] at hread
    cases hi : i.credit
    · refine ⟨?_, by simp [ReadMaster.next, toStepper, Stepper.next, gates, phase, hs, hi]⟩
      simpa [ReadMaster.next, hs, hi] using h
    · refine ⟨?_, by simp [ReadMaster.next, toStepper, Stepper.next, gates, phase, hs, hi]⟩
      constructor <;> simp [ReadMaster.next, hs, hlast (by simp [hs])]
  · rw [hs] at hread
    cases hi : i.wait
    · refine ⟨?_, by simp [ReadMaster.next, toStepper, Stepper.next, gates, phase, hs, hi]⟩
      constructor <;> simp [ReadMaster.next, hs, hlast (by simp [hs])]
    · refine ⟨?_, by simp [ReadMaster.next, toStepper, Stepper.next, gates, phase, hs, hi]⟩
      constructor <;> simp [ReadMaster.next, hs, hread, hlast (by simp [hs])]
  · rw [hs] at hread
    have hend := hlast (by simp [hs])
    by_cases hi : m.oRMRdaddr = startAddr + LENGTH
    · refine ⟨?_, by simp [ReadMaster.next, toStepper, Stepper.next, phase, hs, hi, hend]⟩
      constructor <;> simp [ReadMaster.next, hs, hi, hread, hend]
    · refine ⟨?_, by simp [ReadMaster.next, toStepper, Stepper.next, phase, hs, hi, hend]⟩
      constructor <;> simp [ReadMaster.next, hs, hi, hread, hend]

theorem after_simulates (rRMLastaddr startAddr LENGTH : Word) (i : ℕ → Timing) (t : ℕ) :
    (after rRMLastaddr startAddr LENGTH i t).Used (startAddr + LENGTH) ∧
      (after rRMLastaddr startAddr LENGTH i t).toStepper =
        Stepper.after 4 startAddr (startAddr + LENGTH) (fun u => gates (i u)) t :=
  run_simulates (fun _ i h => (h.next _ i).1) (fun _ i h => (h.next _ i).2) _ i
    ⟨.inl rfl, rfl, fun h => absurd rfl h⟩ t

theorem reads_eq (rRMLastaddr startAddr LENGTH : Word) (i : ℕ → Timing) :
    reads rRMLastaddr startAddr LENGTH i =
      trace 4 startAddr (startAddr + LENGTH) fun t => gates (i t) := by
  have hread : ∀ t, (after rRMLastaddr startAddr LENGTH i t).oRMRead =
      decide ((Stepper.after 4 startAddr (startAddr + LENGTH) (fun u => gates (i u)) t).phase =
        .request) := by
    intro t
    obtain ⟨hused, hsim⟩ := after_simulates rRMLastaddr startAddr LENGTH i t
    rw [hused.read, ← hsim]
    rcases hused.state with hs | hs | hs | hs <;> simp [toStepper, phase, hs]
  refine Trace.ext (funext fun t => ?_) (funext fun t => ?_) (funext fun t => ?_)
  · exact hread t
  · exact congrArg State.address (after_simulates rRMLastaddr startAddr LENGTH i t).2
  · show (_ && !(i t).wait) = (decide _ && !(i t).wait)
    rw [hread]

theorem reads_within_iff {startAddr LENGTH : Word}
    (hfit : startAddr.toNat + LENGTH.toNat ≤ 2 ^ 32) (rRMLastaddr : Word) :
    (∀ i, (reads rRMLastaddr startAddr LENGTH i).Within startAddr LENGTH) ↔
      0 < LENGTH.toNat ∧ 4 ∣ LENGTH.toNat := by
  constructor
  · intro h
    have hopen := h fun _ => ⟨true, true, false⟩
    rw [reads_eq] at hopen
    by_contra hbad
    exact not_trace_within (by decide) hbad hopen
  · rintro ⟨hpos, hdvd⟩ i
    rw [reads_eq]
    exact trace_within hfit hpos hdvd (by decide) _

end Aes.ReadMaster

/-! ### All three -/

/-- All three masters read inside the window the processor programs, whatever the bus does,
exactly when the length is positive and divisible by four. -/
theorem dma_reads_within_iff (start LENGTH : Word) (hfit : start.toNat + LENGTH.toNat ≤ 2 ^ 32) :
    ((∀ i, (Dma.MasterRead.reads start LENGTH i).Within start LENGTH) ↔
      0 < LENGTH.toNat ∧ 4 ∣ LENGTH.toNat) ∧
    ∀ rRMLastaddr, (∀ i, (Aes.ReadMaster.reads rRMLastaddr start LENGTH i).Within start LENGTH) ↔
      0 < LENGTH.toNat ∧ 4 ∣ LENGTH.toNat :=
  ⟨Dma.MasterRead.reads_within_iff hfit, Aes.ReadMaster.reads_within_iff hfit⟩

theorem dma_reads_within_iff_sixteen :
    (∀ i, (Dma.MasterRead.reads 0x1000 16 i).Within 0x1000 16) ∧
      ∀ i, (Aes.ReadMaster.reads 0 0x1000 16 i).Within 0x1000 16 :=
  have h := dma_reads_within_iff 0x1000 16 (by decide)
  ⟨h.1.mpr (by decide), (h.2 0).mpr (by decide)⟩

/-- With length zero the first request is already outside. -/
theorem dma_reads_zero :
    (¬ ∀ i, (Dma.MasterRead.reads 0x1000 0 i).Within 0x1000 0) ∧
      ¬ ∀ i, (Aes.ReadMaster.reads 0 0x1000 0 i).Within 0x1000 0 := by
  constructor
  · intro h
    have hwindow := (h fun _ => ⟨true, false, false⟩).window 2 (by decide)
    exact absurd hwindow (by decide)
  · intro h
    have hwindow := (h fun _ => ⟨true, true, false⟩).window 2 (by decide)
    exact absurd hwindow (by decide)

end SocCrypto

import Mathlib.Data.List.Infix
import SocCrypto.Uart.SspUart

/-!
# Control register and interrupt of the UART

The wrapper drives address 0 in every cycle in which the bus accesses nothing, and the
core loads register 0 at every falling edge of `SSP_SCK` that finds it addressed: from
`SSP_DI` in a write, from `USR` otherwise. `Clr_Int` needs `SSP_En` with address 1, and
the wrapper raises `SSP_En` with address 3 only.
-/

namespace SocCrypto.Uart.SspUart

@[simp] theorem run_nil (s : SspUart) : run s [] = s := rfl

theorem run_append (s : SspUart) (es fs : List Edge) : run s (es ++ fs) = run (run s es) fs :=
  List.foldl_append

@[simp] theorem run_snoc (s : SspUart) (es : List Edge) (e : Edge) :
    run s (es ++ [e]) = step (run s es) e := by
  rw [run_append]
  rfl

/-! ### Power-up and bus cycles -/

/-- The registers of a cleared device. -/
def cleared : SspUart where
  ucr := 0
  usr := 0
  tdr := 0
  rdr := 0
  spr := 0
  rtfThr := 0
  ps := 0
  div := 0
  en := false
  hld := false
  txHold := false
  rxD := false
  irq := false
  red1 := Re1ce.clear
  red2 := Re1ce.clear
  red3 := Re1ce.clear
  red4 := Re1ce.clear
  red5 := Re1ce.clear
  tf1 := ⟨fun _ => 0, 0, 0, 0, false, false⟩
  rf1 := ⟨fun _ => 0, 0, 0, 0, false, false⟩
  brg := ⟨0, 0, false⟩
  xmt := ⟨.pIdle, false, 0, false, 0, false⟩
  rcv := ⟨.pWaitMark, 0, 0, 0, false⟩
  tmr := ⟨false, 0, false, 0, false, 0, false, false⟩
  int := ⟨QSync.clear, QSync.clear, QSync.clear, QSync.clear, QSync.clear, QSync.clear,
    false, false, false, false⟩

def idleBus : Bus := ⟨false, false, false, 0, 0⟩

def writeBus (a : BitVec 3) (d : BitVec 32) : Bus := ⟨true, true, false, a, d⟩

def readBus (a : BitVec 3) : Bus := ⟨true, false, true, a, 0⟩

/-- Marking lines, clear to send. -/
def markLines : Lines := ⟨true, true, true⟩

def resetEdge : Edge := ⟨true, true, .none, idleBus, markLines⟩

/-- One period of `SSP_SCK` with a `Clk` edge at each of its edges. -/
def period (b : Bus) : List Edge :=
  [⟨false, true, .rise, b, markLines⟩, ⟨false, true, .fall, b, markLines⟩]

/-! ### Control register -/

/-- An Avalon write to register 0. -/
def writesUCR (b : Bus) : Bool := b.iChipSelect && b.iWrite && b.iAddress == 0

/-- A falling edge that finds register 0 addressed and no write. -/
def loadsStatus (e : Edge) : Bool := e.sckFall && e.bus.selUCR && !e.bus.sspWE

theorem writesUCR_eq (b : Bus) : writesUCR b = (b.selUCR && b.sspWE) := by
  rcases b with ⟨_ | _, _ | _, _ | _, a, d⟩ <;>
    simp [writesUCR, Bus.selUCR, Bus.sspWE, Bus.sspRA, Bus.sspSSEL, Bus.sspWnR, Bus.sspEOC]

theorem step_ucr_of_writesUCR {s : SspUart} {e : Edge} (hr : e.iRst = false) (hf : e.sck = .fall)
    (hw : writesUCR e.bus = true) : (step s e).ucr = e.bus.iData.setWidth 12 := by
  have hsel : e.bus.selUCR = true ∧ e.bus.sspWE = true := by
    rw [writesUCR_eq, Bool.and_eq_true] at hw
    exact hw
  have hcs : e.bus.iChipSelect = true ∧ e.bus.iWrite = true := by
    simp only [writesUCR, Bool.and_eq_true] at hw
    exact hw.1
  simp [step, Edge.sckFall, Bus.sspDI, hr, hf, hsel.1, hsel.2, hcs.1, hcs.2]

theorem step_ucr {s : SspUart} {e : Edge} (hr : e.iRst = false) (hw : writesUCR e.bus = false) :
    (step s e).ucr = if loadsStatus e then s.usr else s.ucr := by
  rw [writesUCR_eq] at hw
  cases hf : e.sckFall <;> cases hs : e.bus.selUCR <;> cases hwe : e.bus.sspWE <;>
    simp [step, loadsStatus, hr, hf, hs, hwe] at hw ⊢

/-- After a write of `v` to `UCR` and along edges that do not write `UCR`, `UCR` keeps `v`
if and only if `USR` holds `v` at each falling edge that loads it. -/
theorem ucr_retained_iff (s : SspUart) (w : Edge) (es : List Edge)
    (hw : w.iRst = false ∧ w.sck = .fall ∧ writesUCR w.bus = true)
    (hes : ∀ e ∈ es, e.iRst = false ∧ writesUCR e.bus = false) :
    (∀ pre, pre <+: es → (run (step s w) pre).ucr = w.bus.iData.setWidth 12) ↔
      ∀ pre e, pre ++ [e] <+: es → loadsStatus e = true →
        (run (step s w) pre).usr = w.bus.iData.setWidth 12 := by
  have hstep : ∀ pre e, pre ++ [e] <+: es → (run (step s w) (pre ++ [e])).ucr =
      if loadsStatus e then (run (step s w) pre).usr else (run (step s w) pre).ucr := by
    intro pre e hpre
    have he := hes e (hpre.subset (by simp))
    rw [run_snoc]
    exact step_ucr he.1 he.2
  constructor
  · intro hret pre e hpre hload
    have hucr := hret _ hpre
    rw [hstep pre e hpre, if_pos hload] at hucr
    exact hucr
  · intro husr pre
    -- on the last edge before the prefix ends
    induction pre using List.reverseRecOn with
    | nil => exact fun _ => step_ucr_of_writesUCR hw.1 hw.2.1 hw.2.2
    | append_singleton pre e ih =>
      intro hpre
      rw [hstep pre e hpre]
      split
      · next hload => exact husr pre e hpre hload
      · exact ih ((List.prefix_append pre [e]).trans hpre)

/-- A write of `UCR` followed by a read of `USR`. -/
theorem ucr_retained_iff_readStatus :
    (∀ pre, pre <+: period (readBus 1) →
        (run (step cleared ⟨false, true, .fall, writeBus 0 0x110, markLines⟩) pre).ucr =
          (0x110 : BitVec 32).setWidth 12) ↔
      ∀ pre e, pre ++ [e] <+: period (readBus 1) → loadsStatus e = true →
        (run (step cleared ⟨false, true, .fall, writeBus 0 0x110, markLines⟩) pre).usr =
          (0x110 : BitVec 32).setWidth 12 :=
  ucr_retained_iff cleared ⟨false, true, .fall, writeBus 0 0x110, markLines⟩ (period (readBus 1))
    ⟨rfl, rfl, rfl⟩ (by decide)

/-- One idle period after the write replaces mode 8N1 with interrupts by the status flags. -/
theorem ucr_lost_idle :
    ¬ ∀ s w es, Reachable s → w.iRst = false ∧ w.sck = .fall ∧ writesUCR w.bus = true →
      (∀ e ∈ es, e.iRst = false ∧ writesUCR e.bus = false) →
      (run (step s w) es).ucr = w.bus.iData.setWidth 12 := by
  intro h
  have hlost := h (run (step cleared resetEdge) (period idleBus))
    ⟨false, true, .fall, writeBus 0 0x110, markLines⟩ (period idleBus)
    ⟨cleared, resetEdge, period idleBus, rfl, rfl, rfl⟩ ⟨rfl, rfl, rfl⟩ (by decide)
  revert hlost
  decide

/-! ### Interrupt -/

/-- The enable of the detector behind `Clr_Int` is low in every bus cycle. -/
theorem clrIntDen_eq_false (s : SspUart) (b : Bus) : s.clrIntDen b = false := by
  have hsel : (b.selUSR && b.sspEn) = false := by
    by_cases h3 : b.sspRA = 3
    · simp [Bus.selUSR, h3]
    · have hen : b.sspEn = false := by
        rw [Bus.sspEn, beq_eq_false_iff_ne.mpr h3, Bool.and_false]
      rw [hen, Bool.and_false]
  cases hs : b.selUSR <;> cases he : b.sspEn <;> simp [hs, he, clrIntDen] at hsel ⊢

theorem Re1ce.next_clear (rst clk din : Bool) :
    Re1ce.clear.next rst clk din false = Re1ce.clear := by
  cases rst <;> cases clk <;> cases din <;> rfl

theorem Re1ce.next_reset (r : Re1ce) (clk din den : Bool) :
    r.next true clk din den = Re1ce.clear := by
  simp [Re1ce.next, Re1ce.clear]

theorem red1_step {s : SspUart} (h : s.red1 = Re1ce.clear) (e : Edge) :
    (step s e).red1 = Re1ce.clear := by
  show s.red1.next e.iRst e.clk e.sckRise (s.clrIntDen e.bus) = Re1ce.clear
  rw [clrIntDen_eq_false, h]
  exact Re1ce.next_clear _ _ _

theorem red1_run {s : SspUart} (h : s.red1 = Re1ce.clear) (es : List Edge) :
    (run s es).red1 = Re1ce.clear := by
  induction es generalizing s with
  | nil => exact h
  | cons e es ih => exact ih (red1_step h e)

/-- `Clr_Int` never comes. -/
theorem Reachable.red1 {s : SspUart} (hs : Reachable s) : s.red1 = Re1ce.clear := by
  obtain ⟨powerUp, e, es, hr, -, rfl⟩ := hs
  refine red1_run ?_ es
  show powerUp.red1.next e.iRst e.clk e.sckRise (powerUp.clrIntDen e.bus) = Re1ce.clear
  rw [hr]
  exact Re1ce.next_reset _ _ _ _

theorem irq_step {s : SspUart} (h : s.red1 = Re1ce.clear) (hirq : s.irq = true) {e : Edge}
    (hr : e.iRst = false) : (step s e).irq = true := by
  have hclr : s.clrInt = false := by
    rw [clrInt, h]
    rfl
  simp [step, hr, hclr, hirq]

theorem irq_run {s : SspUart} (h : s.red1 = Re1ce.clear) (hirq : s.irq = true) {es : List Edge}
    (hes : ∀ e ∈ es, e.iRst = false) : (run s es).irq = true := by
  induction es generalizing s with
  | nil => exact hirq
  | cons e es ih =>
    exact ih (red1_step h e) (irq_step h hirq (hes e (by simp)))
      (fun f hf => hes f (List.mem_cons_of_mem e hf))

/-- Some accesses without a hardware reset lower `IRQ`. -/
def Acknowledgeable (s : SspUart) : Prop :=
  ∃ es : List Edge, (∀ e ∈ es, e.iRst = false) ∧ (run s es).irq = false

/-- An interrupt request, once raised, stays up until the reset. -/
theorem irq_not_acknowledgeable {s : SspUart} (hs : Reachable s) (hirq : s.irq = true) :
    ¬ Acknowledgeable s := by
  rintro ⟨es, hes, hlow⟩
  rw [irq_run hs.red1 hirq hes] at hlow
  exact Bool.noConfusion hlow

/-- Reset and two idle periods: the load of `UCR` from `USR` sets `IE`, and the flags left
by the reset raise `IRQ`. -/
def afterReset : SspUart :=
  run (step cleared resetEdge) (period idleBus ++ period idleBus ++ period idleBus)

theorem irq_not_acknowledgeable_afterReset : ¬ Acknowledgeable afterReset :=
  irq_not_acknowledgeable ⟨cleared, resetEdge, _, rfl, rfl, rfl⟩ (by decide)

theorem irq_stuck_afterReset :
    ¬ ∀ s, Reachable s → s.irq = true → Acknowledgeable s := by
  intro h
  have hreach : Reachable afterReset := ⟨cleared, resetEdge, _, rfl, rfl, rfl⟩
  have hirq : afterReset.irq = true := by decide
  obtain ⟨es, hes, hlow⟩ := h afterReset hreach hirq
  rw [irq_run hreach.red1 hirq hes] at hlow
  exact Bool.noConfusion hlow

end SocCrypto.Uart.SspUart

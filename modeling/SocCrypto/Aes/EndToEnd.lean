import SocCrypto.Aes.Isolation

/-!
# From hardware reset to the end of a job

The reset does not put the write master into `IDLE`, and answers to reads from before it still
arrive, so what becomes of the first job is a question of what the reset met: `first_job_iff` says
when the job comes out right. A reset that meets no read under way and finds the write master in
`IDLE` is such a case: nothing moves before `START` but the key expansion.
-/

namespace SocCrypto.Aes
open AesFunction (Block)
open Clocked
open Soft (blockAt)

/-! ### Before the start -/

theorem Core.Empty.next {s : Core} (h : s.Empty) {i : Core.In} (hempty : i.iFFInEmpty = true) :
    (s.next i).Empty := by
  have hvalid : s.cipher.endec.block.multiple.roundN.oDataValid = false :=
    congrArg Endec.Control.roundValid h.control
  have hlast : s.cipher.oDataValid = false := congrArg Endec.Control.lastValid h.control
  constructor
  · show s.oFFInReadReq i.iFFInEmpty i.iFFOutAlmostFull = false
    rw [oFFInReadReq, hempty]
    rfl
  · show (if s.ffInDataValid then _ else s.bufferINCounter) = 0
    rw [h.ffInDataValid]
    exact h.bufferINCounter
  · show (s.bufferINReset && s.ffInDataValid) = false
    rw [h.ffInDataValid, Bool.and_false]
  · have hrun : (s.next i).cipher.endec.control = s.cipher.endec.control.next s.start :=
      Endec.control_next_of (Or.inr hvalid)
    rw [hrun, h.control, h.start]
    rfl
  · exact hlast
  · show (if s.rDelay then true else if s.bufferOUTCounterZero then false else s.oFFOutWriteReq) = _
    rw [h.rDelay, h.oFFOutWriteReq]
    exact ite_self _

theorem Core.AfterReset.empty {s : Core} (h : s.AfterReset) : s.Empty := by
  refine ⟨h.ffInDataValid, h.bufferINCounter, h.start, ?_, h.rDelay, h.oFFOutWriteReq⟩
  rw [h.endec]
  rfl

namespace System

/-- No read is made and no word is in the engine. -/
structure Resting (s : System) : Prop where
  rStateDMARM : s.qsys.rm.rStateDMARM = .IDLE
  oRMRead : s.qsys.rm.oRMRead = false
  inflight : s.inflight = []
  rWriteFifoIn : s.qsys.rWriteFifoIn = false
  fifoIn : s.qsys.aesFifo.fifoIn.words = []
  core : s.qsys.aesFifo.aes.Empty
  fifoOut : s.qsys.aesFifo.fifoOut.words = []

theorem Resting.of_reset {s : System} (h : s.qsys.AfterReset) (hinflight : s.inflight = []) :
    s.Resting :=
  ⟨h.rStateDMARM, h.oRMRead, hinflight, h.rWriteFifoIn, h.aesFifo.fifoIn, h.aesFifo.aes.empty,
    h.aesFifo.fifoOut⟩

theorem Resting.next {s : System} (h : s.Resting)
    (hstart : s.qsys.startBit = true → s.qsys.resetBit = true) (M : Word → Word) (i : In) :
    (s.next M i).Resting := by
  have hrm : (s.next M i).qsys.rm.rStateDMARM = .IDLE ∧ (s.next M i).qsys.rm.oRMRead = false := by
    show (s.qsys.rm.next s.qsys.resetBit s.qsys.startBit _ _ _ _).rStateDMARM = .IDLE ∧
      (s.qsys.rm.next s.qsys.resetBit s.qsys.startBit _ _ _ _).oRMRead = false
    cases hreset : s.qsys.resetBit
    · have hno : s.qsys.startBit = false := by
        rw [← Bool.not_eq_true]
        intro hup
        rw [hstart hup] at hreset
        cases hreset
      rw [ReadMaster.next, if_neg (by decide), h.rStateDMARM, hno]
      exact ⟨h.rStateDMARM, h.oRMRead⟩
    · exact ⟨rfl, rfl⟩
  have hempty : (s.next M i).qsys.aesFifo.aes.Empty :=
    h.core.next (i := s.qsys.aesFifo.aesIn s.qsys.aesFifoIn) (by
      show s.qsys.aesFifo.fifoIn.empty = true
      rw [FifoFull.empty, h.fifoIn]
      rfl)
  refine ⟨hrm.1, hrm.2, ?_, ?_, ?_, hempty, ?_⟩
  · show (if i.answer then s.inflight.tail else s.inflight) ++
      (if s.qsys.rm.oRMRead && !i.rmWait then [s.qsys.rm.oRMRdaddr] else []) = []
    rw [h.inflight, h.oRMRead]
    cases i.answer <;> rfl
  · show (i.answer && !s.inflight.isEmpty) = false
    rw [h.inflight]
    exact Bool.and_false _
  · show (s.qsys.aesFifo.fifoIn.next s.qsys.resetBit s.qsys.rWriteFifoIn _
      s.qsys.aesFifo.readFifoIn).words = []
    rw [FifoFull.next, h.rWriteFifoIn, h.fifoIn]
    cases s.qsys.resetBit <;> cases s.qsys.aesFifo.readFifoIn <;> rfl
  · show (s.qsys.aesFifo.fifoOut.next s.qsys.resetBit s.qsys.aesFifo.aes.oFFOutWriteReq _
      s.qsys.wm.rReadFifoOut).words = []
    rw [FifoFull.next, h.core.oFFOutWriteReq, h.fifoOut]
    cases s.qsys.resetBit <;> cases s.qsys.wm.rReadFifoOut <;> rfl

/-- With nothing to write the write master stays in `IDLE` and makes no request. -/
theorem Resting.wm_next {s : System} (h : s.Resting) (hwm : s.qsys.wm.rStateDMAWM = .IDLE)
    (M : Word → Word) (i : In) : (s.next M i).qsys.wm.rStateDMAWM = .IDLE := by
  show (s.qsys.wm.next s.qsys.resetBit _ _ s.qsys.aesFifo.fifoOut.empty _ _).rStateDMAWM = .IDLE
  rw [WriteMaster.next, hwm, FifoFull.empty, h.fifoOut]
  rfl

/-- At rest and with the write master in `IDLE`, where it makes no request. -/
structure Quiet (s : System) : Prop where
  resting : s.Resting
  sound : s.qsys.wm.Sound
  wm : s.qsys.wm.rStateDMAWM = .IDLE

theorem Quiet.accepted {s : System} (h : s.Quiet) (i : In) : s.accepted i = [] := by
  have hrequest : s.qsys.wm.oWMWrite = false := by
    rw [← Bool.not_eq_true]
    intro hup
    have hbus := h.sound.write hup
    rw [h.wm] at hbus
    cases hbus
  rw [System.accepted, WriteMaster.accepts, hrequest]
  rfl

/-- Before `START` nothing begins to move. -/
theorem Quiet.run {M : Word → Word} {s : System} {i : ℕ → In} {t : ℕ} (h : s.Quiet)
    (hstart : ∀ u < t, (Clocked.run (System.next M) s i u).qsys.startBit = true →
      (Clocked.run (System.next M) s i u).qsys.resetBit = true) :
    (Clocked.run (System.next M) s i t).Quiet ∧ writes M s i t = [] := by
  induction t with
  | zero => exact ⟨h, rfl⟩
  | succ t ih =>
    obtain ⟨hnow, hnone⟩ := ih fun u hu => hstart u (by omega)
    refine ⟨⟨hnow.resting.next (hstart t (by omega)) M (i t),
      WriteMaster.Sound.next (Or.inr hnow.sound) _ _ _ _ _,
      hnow.resting.wm_next hnow.wm M (i t)⟩, ?_⟩
    rw [writes, hnone, hnow.accepted]
    rfl

/-! ### The first job -/

/-- From a hardware reset on, key `K` is loaded in mode `e`, `RESET` is set in cycle `T` when the
expansion is over, and the job starts in the next, with every read answered. -/
structure Prepared (e : Bool) (K : Block) (rmAddr wmAddr : Word) (n T : ℕ) (x : ℕ → System) :
    Prop where
  hardwareReset : (x 0).qsys.HardwareReset
  key : ∃ L, Qsys.LoadsKey (fun t => (x t).qsys) e K L T ∧ L + 95 ≤ T
  reset : (x T).qsys.resetBit = true
  programmed : (x (T + 1)).qsys.Programmed rmAddr wmAddr (4 * n)
  answered : (x (T + 1)).inflight = []

/-- Nothing of an earlier job gets into the words of the first one or to their places. -/
structure Fresh (wmAddr : Word) (n : ℕ) (s : System) : Prop where
  wm : s.qsys.wm.Aimed wmAddr (4 * n)
  core : s.qsys.aesFifo.aes.Empty
  latched : s.qsys.rWriteFifoIn = false

section
variable {e : Bool} {K : Block} {rmAddr wmAddr : Word} {n T : ℕ} {M₀ : Word → Word} {s₀ : System}
  {j : ℕ → In}

theorem Prepared.starting (h : Prepared e K rmAddr wmAddr n T (run (next M₀) s₀ j)) :
    (run (next M₀) s₀ j (T + 1)).Starting rmAddr wmAddr n :=
  ⟨Qsys.cleared_next h.reset _, h.programmed, h.answered⟩

theorem Prepared.regular (h : Prepared e K rmAddr wmAddr n T (run (next M₀) s₀ j)) (t : ℕ) :
    (run (next M₀) s₀ j t).qsys.Regular :=
  ((Reached.reset h.hardwareReset).run M₀ j t).regular

theorem Prepared.holdsKey (h : Prepared e K rmAddr wmAddr n T (run (next M₀) s₀ j)) :
    (run (next M₀) s₀ j (T + 1)).qsys.aesFifo.aes.HoldsKey e K := by
  obtain ⟨L, hloads, hover⟩ := h.key
  exact hloads.holdsKey (j := fun t => (run (next M₀) s₀ j t).qsysIn M₀ (j t)) (fun _ => rfl)
    h.hardwareReset.afterReset.aesFifo.aes.makekey hover

/-- When the job comes out right, nothing was written before it and the engine was fresh. -/
theorem Prepared.fresh (h : Prepared e K rmAddr wmAddr n T (run (next M₀) s₀ j)) (hpos : 0 < n)
    (hlt : 16 * n < 2 ^ 32)
    (hjob : ∀ (M : Word → Word) (i : ℕ → In), (∀ t, (i t).Harmless) →
      Serves M (run (next M₀) s₀ j (T + 1)) i →
        ∃ T', ∀ t ≥ T', writes M₀ s₀ j (T + 1) ++ writes M (run (next M₀) s₀ j (T + 1)) i t =
          result (aes e K) M rmAddr wmAddr n) :
    (run (next M₀) s₀ j (T + 1)).Fresh wmAddr n ∧ writes M₀ s₀ j (T + 1) = [] := by
  have hsurj := aes_surjective e K
  have hnone : writes M₀ s₀ j (T + 1) = [] := by
    rcases hw : writes M₀ s₀ j (T + 1) with _ | ⟨w, l⟩
    · rfl
    · -- a write made before the start is wrong for some source
      obtain ⟨M, hM⟩ := exists_other hsurj rmAddr w.2
      obtain ⟨T', hT'⟩ := hjob M (fun _ => In.serve) (fun _ => harmless_serve) (serves_serve M _)
      have hhead := congrArg List.head? (hT' T' le_rfl)
      rw [hw, result_head hpos, List.cons_append, List.head?_cons, Option.some_inj] at hhead
      exact absurd (congrArg Prod.snd hhead).symm hM
  rw [hnone] at hjob
  have hwrites : (run (next M₀) s₀ j (T + 1)).Writes (aes e K) rmAddr wmAddr n := hjob
  obtain ⟨ke, kd, hkeyed, hholds⟩ := h.holdsKey
  obtain ⟨hcore, hlatched⟩ := hwrites.empty hpos hlt (aes_injective e K) hsurj h.starting
    (h.regular (T + 1)) hkeyed (delivers_aes hholds e)
  exact ⟨⟨hwrites.aimed hpos hsurj h.starting (h.regular (T + 1)).wm, hcore, hlatched⟩, hnone⟩

/-- The bus writes from the reset on are in the end those of the job, over every source and on
every bus, exactly when the engine is fresh at the start and has made no write before it. -/
theorem first_job_iff (h : Prepared e K rmAddr wmAddr n T (run (next M₀) s₀ j)) (hpos : 0 < n)
    (hlt : 16 * n < 2 ^ 32) :
    (∀ (M : Word → Word) (i : ℕ → In), (∀ t, (i t).Harmless) →
      Serves M (run (next M₀) s₀ j (T + 1)) i →
        ∃ T', ∀ t ≥ T', writes M₀ s₀ j (T + 1) ++ writes M (run (next M₀) s₀ j (T + 1)) i t =
          result (aes e K) M rmAddr wmAddr n) ↔
      (run (next M₀) s₀ j (T + 1)).Fresh wmAddr n ∧ writes M₀ s₀ j (T + 1) = [] := by
  constructor
  · exact h.fresh hpos hlt
  · rintro ⟨hfresh, hnone⟩ M i hi hserves
    obtain ⟨ke, kd, hkeyed, hholds⟩ := h.holdsKey
    rw [hnone]
    exact h.starting.writes hpos hlt (h.regular (T + 1)) hkeyed (delivers_aes hholds e) hfresh.wm
      hfresh.core hfresh.latched M i hi hserves

end

/-! ### Two resets -/

/-- Key 0 is loaded, and a job of one block follows `RESET`. -/
def firstJob (t : ℕ) : In :=
  if t = 0 then In.write 0 3
  else if t = 100 then In.write 13 2
  else if t = 101 then In.write 11 64
  else if t = 102 then In.write 12 16
  else if t = 103 then In.write 13 1
  else In.idle

/-- A reset of `m` on a device that is cleared otherwise. -/
def resetWith (m : WriteMaster) : System :=
  ⟨{ powerUp.qsys with wm := m.next true 0 0 true 0 false }, []⟩

/-- The write master as after power-up, and waiting for a word. -/
def waitingIn (state : DmaState) : WriteMaster := ⟨state, false, 0, 0, 0, false, false⟩

theorem firstJob_registers : ∀ state ∈ [DmaState.IDLE, .STEP_1],
    let x := run (next id) (resetWith (waitingIn state)) firstJob
    (∀ t < 104, (x t).qsys.enable = true →
      2 ≤ t ∧ t < 2 + 4 ∧ (x t).qsys.keyData = ⟨0, 0, 0, 0⟩ ∧ (x t).qsys.mode = false) ∧
    (∀ t < 104, (x t).qsys.startBit = true → (x t).qsys.resetBit = true) ∧
    (x 2).qsys.enable = true ∧ (x 103).qsys.resetBit = true ∧ (x 104).qsys.resetBit = false ∧
    (x 104).qsys.startBit = true ∧ (x 104).qsys.rmStartAddr = 0 ∧ (x 104).qsys.wmStartAddr = 64 ∧
    (x 104).qsys.length = 16 ∧ (x 104).qsys.enable = false ∧
    ((x 104).qsys.ram 0).getLsbD 0 = false ∧ (x 104).inflight = [] ∧
    (x 104).qsys.wm.rStateDMAWM = state ∧ (x 104).qsys.wm.oWMWraddr = 0 := by
  decide +kernel

theorem resetWith_afterReset (m : WriteMaster) : (resetWith m).qsys.AfterReset :=
  ⟨rfl, rfl, rfl, rfl, rfl, rfl, rfl, powerUp_afterReset.aesFifo⟩

theorem firstJob_prepared {state : DmaState} (hstate : state ∈ [DmaState.IDLE, .STEP_1]) :
    Prepared false ⟨0, 0, 0, 0⟩ 0 64 1 103
      (run (next id) (resetWith (waitingIn state)) firstJob) := by
  obtain ⟨hheld, -, hload, hreset, hdown, hstart, hrm, hwm, hlength, henable, hram, hanswered, -⟩ :=
    firstJob_registers state hstate
  exact ⟨⟨resetWith_afterReset _, _, _, _, _, _, _, rfl⟩,
    ⟨2, ⟨hload, fun t ht => hheld t (by omega)⟩, by decide⟩, hreset,
    ⟨hdown, hstart, hrm, hwm, hlength, henable, by rw [hram]; rfl⟩, hanswered⟩

/-- After a reset that finds the write master in `IDLE` the first job comes out right. -/
theorem first_job_idle :
    let x := run (next id) (resetWith (waitingIn .IDLE)) firstJob
    x 0 = powerUp ∧ ∀ (M : Word → Word) (i : ℕ → In), (∀ t, (i t).Harmless) →
      Serves M (x 104) i → ∃ T', ∀ t ≥ T',
        writes id (resetWith (waitingIn .IDLE)) firstJob 104 ++ writes M (x 104) i t =
          result (aes false ⟨0, 0, 0, 0⟩) M 0 64 1 := by
  have hmem : DmaState.IDLE ∈ [DmaState.IDLE, .STEP_1] := by decide
  have hquiet : (resetWith (waitingIn .IDLE)).Quiet :=
    ⟨.of_reset (resetWith_afterReset _) rfl, ((firstJob_prepared hmem).regular 0).wm, rfl⟩
  obtain ⟨hnow, hnone⟩ := hquiet.run (M := id) (i := firstJob) (t := 104)
    (firstJob_registers .IDLE hmem).2.1
  exact ⟨rfl, (first_job_iff (firstJob_prepared hmem) (by decide) (by decide)).mpr
    ⟨⟨Or.inl hnow.wm, hnow.resting.core, hnow.resting.rWriteFifoIn⟩, hnone⟩⟩

/-- After a reset that finds it waiting for a word it does not. -/
theorem first_job_waiting :
    let x := run (next id) (resetWith (waitingIn .STEP_1)) firstJob
    Prepared false ⟨0, 0, 0, 0⟩ 0 64 1 103 x ∧
      ¬ ∀ (M : Word → Word) (i : ℕ → In), (∀ t, (i t).Harmless) → Serves M (x 104) i →
        ∃ T', ∀ t ≥ T',
          writes id (resetWith (waitingIn .STEP_1)) firstJob 104 ++ writes M (x 104) i t =
            result (aes false ⟨0, 0, 0, 0⟩) M 0 64 1 := by
  intro x
  have hprepared : Prepared false ⟨0, 0, 0, 0⟩ 0 64 1 103 x := firstJob_prepared (by decide)
  refine ⟨hprepared, fun hjob => ?_⟩
  have haimed := (hprepared.fresh (by decide) (by decide) hjob).1.wm
  obtain ⟨-, -, -, -, -, -, -, -, -, -, -, -, hstate, haddr⟩ :=
    firstJob_registers .STEP_1 (by decide)
  rcases haimed with hidle | ⟨-, hplace, -⟩
  · exact absurd (hidle.symm.trans hstate) (by decide)
  · exact absurd (hplace.symm.trans haddr) (by decide)

end System

end SocCrypto.Aes

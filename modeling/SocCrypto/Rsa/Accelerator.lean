import SocCrypto.Rsa.Exponentiation
import SocCrypto.Rsa.Transfer
import SocCrypto.PowerInverse

/-!
# The RSA accelerator

`RSA_Controller.v` around the core it instantiates: `PowModMon1024` runs on `iRSA_clk`, enabled by
`reset_n_delay_for_low_clk` and loaded by `RSA_load`, and its outputs are what the state machine
of the controller waits for. A job started after a reset that one edge of `iRSA_clk` has seen
leaves the power of its operands in memory.
-/

namespace SocCrypto.Rsa
open Dma Clocked

/-! ### One valid cycle -/

namespace PowModMon1024

section
variable {A B N : BitVec 1024} {d : ℕ} {i : ℕ → In} {s : PowModMon1024} {a : In}

/-- The latch of `oDataValid` is low before the last state. -/
theorem state_of_valid (hquiet : s.oDataValid = false) (hvalid : (s.next a).oDataValid = true) :
    (s.next a).state = .finish := by
  have hlatch : (s.next a).latch.oDataValid = false := hquiet
  by_contra hne
  have hlow : (s.next a).oDataValid = false := by
    cases hs : (s.next a).state <;> simp [oDataValid, control, hs, hlatch] at hne ⊢
    split <;> rfl
  rw [hvalid] at hlow
  cases hlow

theorem initial_of_finish (hs : s.state = .finish) : (s.next a).state = .initial := by
  cases he : a.iEnable <;> simp [next, he, hs]

theorem initial_of_hold (hs : s.state = .initial) (ha : hold a) : (s.next a).state = .initial := by
  simp [next, hs, ha.1, ha.2]

theorem quiet_of_initial (hs : s.state = .initial) : s.oDataValid = false := by
  simp [oDataValid, control, hs]

/-- After one load pulse there is one valid cycle, and the power is put out in it. -/
theorem valid_once (hs : s.Primed) (hv : s.NoneValid)
    (hinverse : s.InverseSound N.toNat) (hreduction : s.ReductionSound A.toNat B.toNat N.toNat)
    (hodd : N.toNat % 2 = 1) (h1 : 1 < N.toNat) (hN : N.toNat < 2 ^ 1023) (hB : 0 < B.toNat)
    (hi : Starts A B N d i) :
    ∃ m > d, (∀ t, (run next s i t).oDataValid = decide (t = m)) ∧
      (run next s i m).oZ = BitVec.ofNat 1024 (A.toNat ^ B.toNat % N.toNat) := by
  have hload := loaded_run hi hs hv
  obtain ⟨n, hquiet, hdone⟩ := Ends.run_starts hi hs.state (hload.gets_power h1 hN hB)
  have hsound : (run next s i d).InverseSound N.toNat ∧
      (run next s i d).ReductionSound A.toNat B.toNat N.toNat := by
    cases d with
    | zero => exact ⟨hinverse, hreduction⟩
    | succ d => exact sound_of_wait (initial_run hi hs.state (Nat.le_succ d)) _ _ _
  have hpower := (power_next_iff (i := i d) hodd h1 hN hsound.1).mpr hsound.2
  have hfinish : (run next s i (d + 1 + n)).state = .finish := by
    have hlow := hquiet (d + n) (by omega)
    have hvalid := hdone.valid
    rw [show d + 1 + n = d + n + 1 by omega, run_last] at hvalid ⊢
    exact state_of_valid hlow hvalid
  -- from the cycle after it the core waits for another load pulse
  have hafter : ∀ k, (run next s i (d + 1 + n + 1 + k)).state = .initial := by
    intro k
    induction k with
    | zero => exact initial_of_finish hfinish
    | succ k ih =>
      have hheld := hi.held (n + 1 + k)
      rw [show d + 1 + (n + 1 + k) = d + 1 + n + 1 + k by omega] at hheld
      exact initial_of_hold ih hheld
  refine ⟨d + 1 + n, by omega, ?_, ?_⟩
  · intro t
    rcases Nat.lt_trichotomy t (d + 1 + n) with hlt | rfl | hgt
    · rw [hquiet t hlt, decide_eq_false (by omega)]
    · rw [hdone.valid, decide_eq_true rfl]
    · obtain ⟨k, rfl⟩ := Nat.exists_eq_add_of_le (show d + 1 + n + 1 ≤ t by omega)
      rw [quiet_of_initial (hafter k), decide_eq_false (by omega)]
  · refine BitVec.eq_of_toNat_eq ?_
    have hlt : A.toNat ^ B.toNat % N.toNat < 2 ^ 1024 :=
      lt_trans (Nat.mod_lt _ (by omega)) N.isLt
    rw [hdone.z, BitVec.toNat_ofNat, Nat.mod_eq_of_lt hlt]
    exact hpower

end

end PowModMon1024

theorem RsaFsm.next_resetNDelay (r : RsaFsm) (resetn readFifoDone rsaValid : Bool)
    (rsaData : BitVec 1024) :
    (r.next resetn readFifoDone rsaValid rsaData).resetNDelay = resetn := by
  unfold RsaFsm.next
  split
  · rfl
  · split <;> (try split) <;> rfl

/-- After a hardware reset no word of an earlier job is under way. -/
theorem Controller.HardwareReset.filling {M : Word → Word} {s : Controller}
    {readStart writeStart : Word} (h : s.HardwareReset) (hs : s.Started readStart writeStart) :
    s.Filling M readStart (newWords M readStart) 96 0 := by
  have hrestarted : s.Restarted readStart := by
    refine ⟨?_, h.master, h.drain⟩
    rw [hs.writeStart]
    exact hs
  have hfilling := hrestarted.filling (M := M)
  have hstale : s.stale M = [] := by simp [stale, h.fifo, h.inflight]
  rwa [hstale, List.nil_append, List.take_of_length_le (by simp)] at hfilling

theorem Controller.AfterLoad.finish_step {M : Word → Word} {s : Controller} {i : Controller.In}
    (h : s.AfterLoad) (hi : s.rsa.state = .finish ∨ i.rsaClk = true ∧ i.rsaValid = true) :
    (s.step M i).rsa.state = .finish := by
  rcases h.state with hst | hst
  · rcases hi with hi | ⟨hclk, hvalid⟩
    · exact absurd (hst.symm.trans hi) (by simp)
    · simp [step_rsa, hclk, RsaFsm.next, h.delay, hst, hvalid]
  · cases hclk : i.rsaClk <;> simp [step_rsa, hclk, RsaFsm.next, h.delay, hst]

/-! ### The machine -/

structure Accelerator where
  controller : Controller
  core : PowModMon1024

namespace Accelerator

/-- Clock edges, the processor and the bus. -/
structure In where
  sysClk : Bool
  rsaClk : Bool
  cpu : Option Config.Write
  waitRead : Bool
  answer : Bool
  waitWrite : Bool

def controllerIn (s : Accelerator) (i : In) : Controller.In where
  sysClk := i.sysClk
  rsaClk := i.rsaClk
  cpu := i.cpu
  waitRead := i.waitRead
  answer := i.answer
  waitWrite := i.waitWrite
  rsaValid := s.core.oDataValid
  rsaData := s.core.oZ

/-- Ports of `PowModMon1024 RSA`. -/
def coreIn (s : Accelerator) : PowModMon1024.In where
  iEnable := s.controller.rsa.resetNDelay
  iLoad := s.controller.rsa.load
  iA := s.controller.drain.operand 0
  iB := s.controller.drain.operand 32
  iN := s.controller.drain.operand 64

def step (M : Word → Word) (s : Accelerator) (i : In) : Accelerator where
  controller := s.controller.step M (s.controllerIn i)
  core := if i.rsaClk then s.core.next s.coreIn else s.core

/-- State after `t` cycles. -/
def after (M : Word → Word) (s : Accelerator) (i : ℕ → In) : ℕ → Accelerator := run (step M) s i

/-- What the controller sees in a run. -/
def seen (M : Word → Word) (s : Accelerator) (i : ℕ → In) (t : ℕ) : Controller.In :=
  (after M s i t).controllerIn (i t)

theorem after_controller (M : Word → Word) (s : Accelerator) (i : ℕ → In) (t : ℕ) :
    (after M s i t).controller = run (Controller.step M) s.controller (seen M s i) t := by
  induction t with
  | zero => rfl
  | succ t ih =>
    rw [run_last, ← ih]
    rfl

/-- An edge of `iRSA_clk` in cycle `t`. -/
def Edge (i : ℕ → In) (t : ℕ) : Prop := (i t).rsaClk = true

instance (i : ℕ → In) : DecidablePred (Edge i) := fun _ => inferInstanceAs (Decidable (_ = true))

/-- Inputs of the core at its edges. -/
noncomputable def coreInputs (M : Word → Word) (s : Accelerator) (i : ℕ → In) (k : ℕ) :
    PowModMon1024.In :=
  (after M s i (Nat.nth (Edge i) k)).coreIn

theorem after_core (M : Word → Word) (s : Accelerator) (i : ℕ → In) (t : ℕ) :
    (after M s i t).core =
      run PowModMon1024.next s.core (coreInputs M s i) (Nat.count (Edge i) t) :=
  run_count (p := Edge i) (x := fun t => (after M s i t).core)
    (j := fun t => (after M s i t).coreIn)
    (fun t (ht : (i t).rsaClk = true) => by
      show ((after M s i t).step M (i t)).core = _
      simp [step, ht])
    (fun t (ht : ¬ (i t).rsaClk = true) => by
      show ((after M s i t).step M (i t)).core = _
      simp [step, ht]) t

/-! ### The load of a job -/

section
variable {M : Word → Word} {s : Accelerator} {i : ℕ → In} {T : ℕ} {readStart writeStart : Word}

/-- The three integers stored at the read address. -/
def operandsAt (M : Word → Word) (a : Word) : Operands :=
  (storedInteger M a, storedInteger M (a + 128), storedInteger M (a + 256))

/-- The soft reset has just gone up, with the core in its first state. -/
structure Running (M : Word → Word) (s : Accelerator) (i : ℕ → In)
    (readStart writeStart : Word) : Prop where
  reset : Controller.HardwareReset s.controller
  started : s.controller.Started readStart writeStart
  core : s.core.state = .initial
  cpu : ∀ t, (i t).cpu = none
  fair : Controller.BusFair (fun t => (after M s i t).controller) (seen M s i)
  clock : ∀ t, ∃ u ≥ t, Edge i u

theorem Running.started_at (h : Running M s i readStart writeStart) (t : ℕ) :
    (after M s i t).controller.Started readStart writeStart := by
  rw [after_controller]
  exact Controller.run_started h.started h.cpu t

/-- The core is enabled from its second edge on. -/
theorem Running.delay (h : Running M s i readStart writeStart) (t : ℕ) :
    (after M s i t).controller.rsa.resetNDelay = decide (0 < Nat.count (Edge i) t) := by
  induction t with
  | zero =>
    rw [Nat.count_zero]
    exact h.reset.delay
  | succ t ih =>
    have hresetn := (h.started_at t).resetn
    show ((after M s i t).controller.step M (seen M s i t)).rsa.resetNDelay = _
    by_cases hedge : Edge i t
    · have hclk : (seen M s i t).rsaClk = true := hedge
      rw [Controller.step_rsa, if_pos hclk, hresetn, Nat.count_succ, if_pos hedge,
        decide_eq_true (Nat.succ_pos _)]
      exact RsaFsm.next_resetNDelay _ _ _ _ _
    · have hclk : ¬ (seen M s i t).rsaClk = true := hedge
      rw [Controller.step_rsa, if_neg hclk, Nat.count_succ, if_neg hedge, Nat.add_zero]
      exact ih

/-- The one edge that loads the core. -/
structure LoadEdge (M : Word → Word) (s : Accelerator) (i : ℕ → In) (readStart : Word)
    (u : ℕ) : Prop where
  edge : Edge i u
  enable : (after M s i u).controller.rsa.resetNDelay = true
  load : (after M s i u).controller.rsa.load = true
  operands : (after M s i u).controller.operands = operandsAt M readStart
  before : ∀ t < u, Edge i t → (after M s i t).controller.rsa.resetNDelay = true →
    (after M s i t).controller.rsa.load = false
  later : ∀ t > u, (after M s i t).controller.AfterLoad

theorem Running.exists_load (h : Running M s i readStart writeStart) :
    ∃ u, LoadEdge M s i readStart u := by
  have hfilling := h.reset.filling (M := M) h.started
  have hfair : Controller.BusFair (run (Controller.step M) s.controller (seen M s i))
      (seen M s i) := by
    have hsame : run (Controller.step M) s.controller (seen M s i) =
        fun t => (after M s i t).controller := funext fun t => (after_controller M s i t).symm
    rw [hsame]
    exact h.fair
  have hreads : s.controller.Reads M readStart (Controller.newWords M readStart) :=
    Or.inl ⟨96, 0, hfilling⟩
  have hfresh : s.controller.Fresh := Or.inl h.reset.delay
  obtain ⟨t, hfilled⟩ := Controller.exists_filled hfilling h.started (by simp) h.cpu hfair
  have hclock : Controller.RsaClock (seen M s i) := h.clock
  obtain ⟨u, hu⟩ := Controller.exists_load h.started h.cpu hfresh hclock hfilled
  have hphase := Controller.run_fresh (i := seen M s i) h.started h.cpu hreads hfresh
  simp only [← after_controller] at hu hphase
  have hafter : ∀ t, Edge i t → (after M s i t).controller.Loading →
      ∀ v > t, (after M s i v).controller.AfterLoad := by
    intro t hedge hl v hv
    have hnext := hl.step (M := M) (i := seen M s i t) (h.started_at t).resetn
    rw [if_pos (show (seen M s i t).rsaClk = true from hedge)] at hnext
    rw [after_controller]
    refine Controller.run_afterLoad (t := t + 1) h.started h.cpu ?_ hv
    rw [← after_controller]
    exact hnext
  have hnotAfter : ¬ (after M s i u).controller.AfterLoad := by
    intro ha
    rw [ha.loadsAt] at hu
    cases hu
  have hedge : Edge i u := by
    simp only [Controller.loadsAt, Bool.and_eq_true] at hu
    exact hu.1.1
  obtain ⟨hl, n, hn⟩ : (after M s i u).controller.Loading ∧
      ∃ n, (after M s i u).controller.Filled readStart (Controller.newWords M readStart) n := by
    rcases hphase u with hf | hl | ha
    · rw [hf.loadsAt] at hu
      cases hu
    · exact hl
    · exact absurd ha hnotAfter
  refine ⟨u, hedge, hl.delay, hl.load, ?_, ?_, hafter u hedge hl⟩
  · rw [hn.operands, Controller.operandsOf_newWords]
    rfl
  · intro t ht hedget henable
    rcases hphase t with hf | ⟨hlt, -⟩ | ha
    · rcases hf with hf | hf
      · rw [henable] at hf
        cases hf
      · exact hf.2
    · exact absurd (hafter t hedget hlt u ht) hnotAfter
    · exact ha.load

theorem coreInputs_count {t : ℕ} (ht : Edge i t) :
    coreInputs M s i (Nat.count (Edge i) t) = (after M s i t).coreIn := by
  rw [coreInputs, Nat.nth_count ht]

/-- The first edge finds the enable low, the others the load pulse of the job. -/
theorem LoadEdge.starts (h : Running M s i readStart writeStart) {u : ℕ}
    (hu : LoadEdge M s i readStart u) :
    (coreInputs M s i 0).iEnable = false ∧
      PowModMon1024.Starts (operandsAt M readStart).1 (operandsAt M readStart).2.1
        (operandsAt M readStart).2.2 (Nat.count (Edge i) u - 1) fun k => coreInputs M s i (k + 1) := by
  have henable : ∀ t, (after M s i t).coreIn.iEnable = decide (0 < Nat.count (Edge i) t) := h.delay
  have hpos : 0 < Nat.count (Edge i) u := by
    have hnow := hu.enable
    rw [h.delay] at hnow
    exact of_decide_eq_true hnow
  have hload : coreInputs M s i (Nat.count (Edge i) u - 1 + 1) = (after M s i u).coreIn := by
    rw [Nat.sub_add_cancel hpos, coreInputs_count hu.edge]
  constructor
  · obtain ⟨t, hedge, hcount⟩ := exists_edge h.clock 0
    have hnow := coreInputs_count (M := M) (s := s) hedge
    rw [hcount] at hnow
    rw [hnow, henable, hcount]
    rfl
  · constructor
    case waits =>
      intro k hk
      obtain ⟨t, hedge, hcount⟩ := exists_edge h.clock (k + 1)
      have hlt : t < u := lt_of_count_lt (p := Edge i) (by omega)
      have hon : (after M s i t).controller.rsa.resetNDelay = true := by
        rw [h.delay, hcount]
        exact decide_eq_true (Nat.succ_pos k)
      rw [← hcount, coreInputs_count hedge]
      exact ⟨hon, hu.before t hlt hedge hon⟩
    case held =>
      intro k
      obtain ⟨t, hedge, hcount⟩ := exists_edge h.clock (Nat.count (Edge i) u - 1 + 1 + k + 1)
      have hgt : u < t := lt_of_count_lt (p := Edge i) (by omega)
      rw [← hcount, coreInputs_count hedge]
      exact ⟨(hu.later t hgt).delay, (hu.later t hgt).load⟩
    case enable =>
      rw [hload]
      exact hu.enable
    case load =>
      rw [hload]
      exact hu.load
    case a =>
      rw [hload]
      exact congrArg (fun o : Operands => o.1) hu.operands
    case b =>
      rw [hload]
      exact congrArg (fun o : Operands => o.2.1) hu.operands
    case n =>
      rw [hload]
      exact congrArg (fun o : Operands => o.2.2) hu.operands

/-! ### The result of a job -/

/-- What the accelerator computes of its operands: the power, modulo the third one. -/
def power (o : Operands) : BitVec 1024 :=
  BitVec.ofNat 1024 (o.1.toNat ^ o.2.1.toNat % o.2.2.toNat)

/-- Operands for which the core is right: an odd modulus below `2 ^ 1023` and an exponent. -/
structure Fit (o : Operands) : Prop where
  odd : o.2.2.toNat % 2 = 1
  one_lt : 1 < o.2.2.toNat
  lt : o.2.2.toNat < 2 ^ 1023
  exponent : 0 < o.2.1.toNat

/-- After the load edge the core has one valid cycle, counted in its own edges. -/
theorem LoadEdge.valid_once (h : Running M s i readStart writeStart) {u : ℕ}
    (hu : LoadEdge M s i readStart u) (hfit : Fit (operandsAt M readStart)) :
    ∃ m > Nat.count (Edge i) u,
      (∀ t, (after M s i t).core.oDataValid = decide (Nat.count (Edge i) t = m)) ∧
        ∀ t, Nat.count (Edge i) t = m →
          (after M s i t).core.oZ = power (operandsAt M readStart) := by
  obtain ⟨hlow, hstarts⟩ := hu.starts h
  obtain ⟨hinverse, hreduction⟩ := PowModMon1024.sound_of_wait (i := coreInputs M s i 0) h.core
    (operandsAt M readStart).1.toNat (operandsAt M readStart).2.1.toNat
    (operandsAt M readStart).2.2.toNat
  obtain ⟨m, hm, hvalid, hz⟩ := PowModMon1024.valid_once
    (PowModMon1024.primed_of_low s.core hlow) (PowModMon1024.noneValid_of_initial h.core _)
    hinverse hreduction hfit.odd hfit.one_lt hfit.lt hfit.exponent hstarts
  have hcore : ∀ t k, Nat.count (Edge i) t = k + 1 → (after M s i t).core =
      run PowModMon1024.next (s.core.next (coreInputs M s i 0)) (fun k => coreInputs M s i (k + 1))
        k := by
    intro t k hk
    rw [after_core, hk, run_succ]
  refine ⟨m + 1, by omega, ?_, ?_⟩
  · intro t
    cases hk : Nat.count (Edge i) t with
    | zero =>
      rw [after_core, hk, decide_eq_false (Nat.succ_ne_zero m).symm]
      exact PowModMon1024.quiet_of_initial h.core
    | succ k =>
      rw [hcore t k hk, hvalid]
      exact decide_eq_decide.mpr (by omega)
  · intro t ht
    rw [hcore t m ht, hz]
    rfl

theorem Running.job (h : Running M s i readStart writeStart) (hfit : Fit (operandsAt M readStart)) :
    (∃ t₀, ∀ t ≥ t₀, (after M s i t).controller.loads = [operandsAt M readStart] ∧
        (after M s i t).controller.writes =
          resultWrites writeStart (power (operandsAt M readStart)) 32) ∧
      ∀ t, (after M s i t).controller.loads <+: [operandsAt M readStart] ∧
        (after M s i t).controller.writes <+:
          resultWrites writeStart (power (operandsAt M readStart)) 32 := by
  obtain ⟨u, hu⟩ := h.exists_load
  obtain ⟨m, hm, hvalid, hz⟩ := hu.valid_once h hfit
  have hsame : run (Controller.step M) s.controller (seen M s i) =
      fun t => (after M s i t).controller := funext fun t => (after_controller M s i t).symm
  have hcore : ∀ t, Controller.Computes (fun _ => power (operandsAt M readStart))
      (run (Controller.step M) s.controller (seen M s i) t) (seen M s i t) := by
    intro t _ hnow o _
    have hcount : Nat.count (Edge i) t = m := of_decide_eq_true ((hvalid t).symm.trans hnow)
    exact hz t hcount
  have hlive : Controller.CoreFair (run (Controller.step M) s.controller (seen M s i))
      (seen M s i) := by
    rw [hsame]
    intro t
    obtain ⟨v, hedge, hcount⟩ := exists_edge h.clock m
    have hv : u < v := lt_of_count_lt (p := Edge i) (by omega)
    rcases Nat.lt_or_ge v t with hlt | hge
    · -- the result was taken at the valid edge
      have hstay : ∀ w > v, (after M s i w).controller.rsa.state = .finish := by
        intro w hw
        induction w, hw using Nat.le_induction with
        | base =>
          refine (hu.later v hv).finish_step (M := M) (i := seen M s i v) (Or.inr ⟨hedge, ?_⟩)
          show (after M s i v).core.oDataValid = true
          rw [hvalid, decide_eq_true hcount]
        | succ w hw ih =>
          exact (hu.later w (by omega)).finish_step (M := M) (i := seen M s i w) (Or.inl ih)
      obtain ⟨w, hw, hedgew⟩ := h.clock t
      refine ⟨w, hw, hedgew, fun hbusy => ?_⟩
      rw [hstay w (by omega)] at hbusy
      cases hbusy
    · refine ⟨v, hge, hedge, fun _ => ?_⟩
      show (after M s i v).core.oDataValid = true
      rw [hvalid, decide_eq_true hcount]
  have hfair : Controller.BusFair (run (Controller.step M) s.controller (seen M s i))
      (seen M s i) := by
    rw [hsame]
    exact h.fair
  have hjob := Controller.job_transfers h.reset h.started h.cpu hcore hfair h.clock hlive
  rw [Controller.operandsOf_newWords, hsame] at hjob
  exact hjob

/-! ### Jobs with their reset -/

/-- From a hardware reset that an edge of `iRSA_clk` has seen: the soft reset is low until cycle
`T`, in which the registers of the job are programmed; the bus and the clocks are fair. -/
structure Job (M : Word → Word) (s : Accelerator) (i : ℕ → In) (T : ℕ)
    (readStart writeStart : Word) : Prop where
  reset : Controller.HardwareReset s.controller
  low : ∀ t < T, (after M s i t).controller.config.resetn = false
  edge : ∃ t < T, Edge i t
  started : (after M s i T).controller.Started readStart writeStart
  cpu : ∀ t ≥ T, (i t).cpu = none
  fair : Controller.BusFair (fun t => (after M s i t).controller) (seen M s i)
  clock : ∀ t, ∃ u ≥ t, Edge i u

theorem Job.reset_until (h : Job M s i T readStart writeStart) {t : ℕ} (ht : t ≤ T) :
    Controller.HardwareReset (after M s i t).controller := by
  rw [after_controller]
  refine Controller.run_reset h.reset (fun t ht => ?_) t ht
  rw [← after_controller]
  exact h.low t ht

/-- An edge under the soft reset takes the core to its first state. -/
theorem Job.core_initial (h : Job M s i T readStart writeStart) :
    (after M s i T).core.state = .initial := by
  have hreset : ∀ t ≤ T, Edge i t → (after M s i (t + 1)).core.state = .initial := by
    intro t ht hedge
    have hlow : (after M s i t).coreIn.iEnable = false := (h.reset_until ht).delay
    have hclk : (i t).rsaClk = true := hedge
    show ((after M s i t).step M (i t)).core.state = _
    simp [step, hclk, PowModMon1024.next, hlow]
  obtain ⟨t, ht, hedge⟩ := h.edge
  have hkept : ∀ u, t + 1 ≤ u → u ≤ T → (after M s i u).core.state = .initial := by
    intro u hu
    induction u, hu using Nat.le_induction with
    | base => exact fun _ => hreset t ht.le hedge
    | succ u hu ih =>
      intro hle
      by_cases hclk : Edge i u
      · exact hreset u (by omega) hclk
      · have hnot : ¬ (i u).rsaClk = true := hclk
        have hsame : (after M s i (u + 1)).core = (after M s i u).core := by
          show ((after M s i u).step M (i u)).core = _
          simp [step, hnot]
        rw [hsame]
        exact ih (by omega)
  exact hkept T ht le_rfl

theorem Job.running (h : Job M s i T readStart writeStart) :
    Running M (after M s i T) (fun t => i (T + t)) readStart writeStart := by
  have hback : ∀ P : ℕ → Prop, (∀ t, ∃ u ≥ t, P u) → ∀ t, ∃ u ≥ t, P (T + u) := by
    intro P hP t
    obtain ⟨u, hu, hPu⟩ := hP (T + t)
    refine ⟨u - T, by omega, ?_⟩
    rwa [Nat.add_sub_cancel' (by omega)]
  have hshift : ∀ t, after M (after M s i T) (fun u => i (T + u)) t = after M s i (T + t) :=
    fun t => (run_add (step M) s i T t).symm
  refine ⟨h.reset_until le_rfl, h.started, h.core_initial, fun t => h.cpu (T + t) (by omega), ?_,
    hback _ h.clock⟩
  constructor
  case grantRead =>
    simp only [seen, hshift]
    exact hback _ h.fair.grantRead
  case answer =>
    simp only [seen, hshift]
    exact hback _ h.fair.answer
  case grantWrite =>
    simp only [seen, hshift]
    exact hback _ h.fair.grantWrite

/-- A job with the integers `A`, `B` and `N` at its read address writes the 32 words of
`A ^ B % N` once each and in order, whatever the core held before the reset, and nothing else. -/
theorem Job.writes_power (h : Job M s i T readStart writeStart)
    (hfit : Fit (operandsAt M readStart)) :
    (∃ t₀, ∀ t ≥ t₀, (after M s i t).controller.writes =
        resultWrites writeStart (power (operandsAt M readStart)) 32) ∧
      ∀ t, (after M s i t).controller.writes <+:
        resultWrites writeStart (power (operandsAt M readStart)) 32 := by
  have hshift : ∀ t, after M (after M s i T) (fun u => i (T + u)) t = after M s i (T + t) :=
    fun t => (run_add (step M) s i T t).symm
  obtain ⟨⟨t₀, hend⟩, hparts⟩ := h.running.job hfit
  refine ⟨⟨T + t₀, fun t ht => ?_⟩, fun t => ?_⟩
  · have hlast := (hend (t - T) (by omega)).2
    rwa [hshift, Nat.add_sub_cancel' (by omega)] at hlast
  · rcases Nat.lt_or_ge t T with hlt | hge
    · rw [(h.reset_until hlt.le).writes]
      exact List.nil_prefix
    · have hpart := (hparts (t - T)).2
      rwa [hshift, Nat.add_sub_cancel' hge] at hpart

end

end Accelerator

end SocCrypto.Rsa

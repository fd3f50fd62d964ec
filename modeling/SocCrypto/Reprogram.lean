import SocCrypto.Dma.Reprogram
import SocCrypto.Rsa.Transfer
import SocCrypto.Sha.Job

/-!
# Reprogramming a finished controller

`RSA_Init` and `SHA_256_Intit` write the addresses and the length of the next job
before they drop the soft reset. Registers and masters of both controllers are
instances of `Masters`, so when this is silent is settled there.
-/

namespace SocCrypto
open Dma Clocked

/-! ### RSA controller -/

namespace Rsa.Controller

def masters (s : Controller) : Masters 5 := ⟨s.config, s.read.master, s.write⟩

def mastersIn (s : Controller) (i : In) : Masters.In 1024 where
  tick := i.sysClk
  cpu := i.cpu
  waitRead := i.waitRead
  fifoFull := s.read.fifo.full
  startWrite := s.rsa.done
  value := s.rsa.data1024
  waitWrite := i.waitWrite

theorem masters_step (M : Word → Word) (s : Controller) (i : In) :
    (s.step M i).masters = s.masters.next (s.mastersIn i) := by
  cases hclk : i.sysClk <;>
    simp [masters, Masters.next, mastersIn, hclk, step_config, step_read, step_write,
      ReadPath.next, readIn, Masters.endAddressWrite, endAddressWrite]

theorem masters_run (M : Word → Word) (s : Controller) (i : ℕ → In) (t : ℕ) :
    (run (step M) s i t).masters =
      run Masters.next s.masters (fun t => (run (step M) s i t).mastersIn (i t)) t := by
  induction t with
  | zero => rfl
  | succ t ih =>
    show ((run (step M) s i t).step M (i t)).masters = _
    rw [masters_step, ih]
    rfl

theorem Reachable.handshake {s : Controller} (h : Reachable s) : s.masters.Handshake := by
  induction h with
  | start h =>
    constructor
    · simp [masters, h.master, MasterRead.reset]
    · rw [masters, h.write]
      rfl
  | step M i _ ih =>
    rw [masters_step]
    exact ih.next _

theorem InJob.complete {M : Word → Word} {readStart writeStart : Word}
    {f : Operands → BitVec 1024} {s : Controller} (h : InJob M readStart writeStart f 32 s) :
    s.masters.Complete := by
  have hstate := h.sent.pending rfl
  constructor
  · simp [masters, Config.resetn, h.started.control]
  · exact hstate
  · simp [masters, Masters.endAddressWrite, h.started.writeStart,
      h.sent.address (by simp [hstate])]

/-- A new write address, then an idle cycle before the soft reset is dropped. -/
def newWriteAddress (t : ℕ) : In :=
  cpuEdge <|
    match t with
    | 0 => some (1, 0)
    | 1 => some (2, 4096)
    | 2 => some (3, 384)
    | 4 => some (0, 0)
    | _ => none

theorem newWriteAddress_reprograms :
    Masters.Reprograms 0 4096 384 0 0 1 2 4 5 (fun t => (newWriteAddress t).sysClk)
      (fun t => (newWriteAddress t).cpu) := by
  constructor
  case others =>
    intro t ht h0 h1 h2
    have hthree : t = 3 := by omega
    subst hthree
    rfl
  case between =>
    intro t h4 h5
    omega
  all_goals decide

theorem exists_firstJob :
    ∃ s, Reachable s ∧ InJob id 0 0 (fun _ => 42) 32 s := by
  have hreset : HardwareReset (run (Controller.step id) powerUp firstJob 2) := by
    refine run_reset powerUp_reset ?_ 2 le_rfl
    intro t ht
    have hcases : t = 0 ∨ t = 1 := by omega
    rcases hcases with rfl | rfl <;> rfl
  have hstarted : (run (Controller.step id) powerUp firstJob 2).Started 0 0 :=
    ⟨rfl, rfl, rfl, rfl⟩
  obtain ⟨-, u, -, -, hjob⟩ := hreset.exists_written (M := id) (f := fun _ => 42)
    (i := fun t => firstJob (t + 2)) hstarted
    (fun _ => rfl) (fun _ _ _ _ _ => rfl)
    (by constructor <;> exact fun t => ⟨t, le_rfl, rfl, fun _ => rfl⟩)
    (fun t => ⟨t, le_rfl, rfl⟩) (fun t => ⟨t, le_rfl, rfl, fun _ => rfl⟩)
  refine ⟨_, ?_, hjob⟩
  have hrun : ∀ (s : Controller) (i : ℕ → In) (t : ℕ), Reachable s →
      Reachable (run (Controller.step id) s i t) := by
    intro s i t hs
    induction t with
    | zero => exact hs
    | succ t ih => exact ih.step id (i t)
  exact hrun _ _ u (hrun _ _ 2 (.start powerUp_reset))

end Rsa.Controller

/-! ### SHA-256 controller -/

namespace Sha.Controller

def masters (s : Controller) : Masters 3 := ⟨s.config, s.read.master, s.write⟩

def mastersIn (s : Controller) (i : In) : Masters.In 256 where
  tick := i.clk
  cpu := i.cpu
  waitRead := i.waitRead
  fifoFull := s.read.fifo.full
  startWrite := s.core.oDone
  value := s.core.oHashValue
  waitWrite := i.waitWrite

theorem masters_step (M : Word → Word) (s : Controller) (i : In) :
    (s.step M i).masters = s.masters.next (s.mastersIn i) := by
  cases hclk : i.clk <;>
    simp [masters, Masters.next, mastersIn, hclk, step_config, step_read, step_write,
      ReadPath.next, readIn, Masters.endAddressWrite, endAddressWrite]

theorem masters_run (M : Word → Word) (s : Controller) (i : ℕ → In) (t : ℕ) :
    (run (step M) s i t).masters =
      run Masters.next s.masters (fun t => (run (step M) s i t).mastersIn (i t)) t := by
  induction t with
  | zero => rfl
  | succ t ih =>
    show ((run (step M) s i t).step M (i t)).masters = _
    rw [masters_step, ih]
    rfl

theorem Reachable.handshake {s : Controller} (h : Reachable s) : s.masters.Handshake := by
  induction h with
  | start h =>
    constructor
    · simp [masters, h.master, MasterRead.reset]
    · rw [masters, h.write]
      rfl
  | step M i _ ih =>
    rw [masters_step]
    exact ih.next _

theorem InJob.complete {M : Word → Word} {readStart writeStart : Word} {nb : ℕ} {g : Progress}
    {s : Controller} (h : InJob M readStart writeStart nb g s) (hg : g.sent = 8) :
    s.masters.Complete := by
  have hstate := h.sent.pending hg
  constructor
  · simp [masters, Config.resetn, h.started.control]
  · exact hstate
  · simp [masters, Masters.endAddressWrite, h.started.writeStart,
      h.sent.address (by simp [hstate]), hg]

/-- A new write address, then an idle cycle before the soft reset is dropped. -/
def newWriteAddress (t : ℕ) : In where
  clk := true
  shaClk := true
  cpu :=
    match t with
    | 0 => some (1, 0)
    | 1 => some (2, 8192)
    | 2 => some (3, 64)
    | 4 => some (0, 0)
    | _ => none
  waitRead := false
  answer := false
  waitWrite := false

theorem newWriteAddress_reprograms :
    Masters.Reprograms 0 8192 64 0 0 1 2 4 5 (fun t => (newWriteAddress t).clk)
      (fun t => (newWriteAddress t).cpu) := by
  constructor
  case others =>
    intro t ht h0 h1 h2
    have hthree : t = 3 := by omega
    subst hthree
    rfl
  case between =>
    intro t h4 h5
    omega
  all_goals decide

theorem exists_finished :
    ∃ s : Controller, s.Reachable ∧ s.masters.Complete ∧ s.config.writeStart = 4096 := by
  obtain ⟨t, g, hjob, hg⟩ := exists_oneBlock
  refine ⟨_, ?_, hjob.complete hg, hjob.started.writeStart⟩
  clear hjob hg
  induction t with
  | zero => exact .start powerUp_reset
  | succ t ih => exact ih.step id (oneBlock t)

end Sha.Controller

/-! ### The register sequence of the drivers -/

open Masters in
/-- From every reachable state of either controller whose write master has finished,
for all register values and any steps between the writes: no request line is up
before the masters see the reset exactly when the write address is kept and the
read side has come to rest at an end address that is kept as well. -/
theorem reprogram_silent_iff (M : Word → Word) (newRead newWrite newLength newControl : Word)
    (a b d c e : ℕ) :
    (∀ (s : Rsa.Controller) (i : ℕ → Rsa.Controller.In),
        s.Reachable → s.masters.Complete →
        Reprograms newRead newWrite newLength newControl a b d c e (fun t => (i t).sysClk)
          (fun t => (i t).cpu) →
        ((∀ t ≤ e, (run (Rsa.Controller.step M) s i t).read.master.oRead = false ∧
            (run (Rsa.Controller.step M) s i t).write.oWrite = false) ↔
          newWrite = s.config.writeStart ∧
            ReadKept s.masters newRead newLength d c fun t => (i t).sysClk)) ∧
      ∀ (s : Sha.Controller) (i : ℕ → Sha.Controller.In),
        s.Reachable → s.masters.Complete →
        Reprograms newRead newWrite newLength newControl a b d c e (fun t => (i t).clk)
          (fun t => (i t).cpu) →
        ((∀ t ≤ e, (run (Sha.Controller.step M) s i t).read.master.oRead = false ∧
            (run (Sha.Controller.step M) s i t).write.oWrite = false) ↔
          newWrite = s.config.writeStart ∧
            ReadKept s.masters newRead newLength d c fun t => (i t).clk) := by
  constructor
  · intro s i hs hd h
    have hsilent := Reprograms.silent_iff
      (i := fun t => (run (Rsa.Controller.step M) s i t).mastersIn (i t)) h hs.handshake hd
    simp only [Silent, ← Rsa.Controller.masters_run] at hsilent
    exact hsilent
  · intro s i hs hd h
    have hsilent := Reprograms.silent_iff
      (i := fun t => (run (Sha.Controller.step M) s i t).mastersIn (i t)) h hs.handshake hd
    simp only [Silent, ← Sha.Controller.masters_run] at hsilent
    exact hsilent

/-- A new write address of a finished controller is not silent. -/
theorem reprogram_silent_iff_newWriteAddress :
    (∃ s : Rsa.Controller, s.Reachable ∧ s.masters.Complete ∧
      ¬ ∀ t ≤ 5, (run (Rsa.Controller.step id) s Rsa.Controller.newWriteAddress t).read.master.oRead
          = false ∧
        (run (Rsa.Controller.step id) s Rsa.Controller.newWriteAddress t).write.oWrite = false) ∧
      ∃ s : Sha.Controller, s.Reachable ∧ s.masters.Complete ∧
        ¬ ∀ t ≤ 5, (run (Sha.Controller.step id) s Sha.Controller.newWriteAddress t).read.master.oRead
            = false ∧
          (run (Sha.Controller.step id) s Sha.Controller.newWriteAddress t).write.oWrite = false := by
  constructor
  · obtain ⟨s, hs, hjob⟩ := Rsa.Controller.exists_firstJob
    refine ⟨s, hs, hjob.complete, fun hsilent => ?_⟩
    have hkept := (((reprogram_silent_iff id 0 4096 384 0 0 1 2 4 5).1 s
      Rsa.Controller.newWriteAddress hs hjob.complete
      Rsa.Controller.newWriteAddress_reprograms).mp hsilent).1
    rw [hjob.started.writeStart] at hkept
    exact absurd hkept (by decide)
  · obtain ⟨s, hs, hd, hw⟩ := Sha.Controller.exists_finished
    refine ⟨s, hs, hd, fun hsilent => ?_⟩
    have hkept := (((reprogram_silent_iff id 0 8192 64 0 0 1 2 4 5).2 s
      Sha.Controller.newWriteAddress hs hd Sha.Controller.newWriteAddress_reprograms).mp hsilent).1
    rw [hw] at hkept
    exact absurd hkept (by decide)

namespace Rsa.Controller

/-- The finished write master writes one word more, right after its window. -/
theorem newWriteAddress_not_silent :
    ∃ s : Controller, Reachable s ∧ s.masters.Complete ∧
      Masters.Reprograms 0 4096 384 0 0 1 2 4 5 (fun t => (newWriteAddress t).sysClk)
        (fun t => (newWriteAddress t).cpu) ∧
      ∃ w ∈ (run (Controller.step id) s newWriteAddress 5).writes,
        w.1 ∉ addresses s.config.writeStart 32 := by
  obtain ⟨s, hs, hjob⟩ := exists_firstJob
  have hd := hjob.complete
  have hw : s.config.writeStart = 0 := hjob.started.writeStart
  have hconfig : ∀ t ≤ 4, (run (Controller.step id) s newWriteAddress t).config =
      s.masters.configAt 0 4096 384 0 1 2 t := by
    intro t ht
    have hcfg := Masters.Reprograms.config_run
      (i := fun t => (run (Controller.step id) s newWriteAddress t).mastersIn (newWriteAddress t))
      newWriteAddress_reprograms s.masters t ht
    rw [← masters_run] at hcfg
    exact hcfg
  have hreset : ∀ t ≤ 4, (run (Controller.step id) s newWriteAddress t).config.resetn = true := by
    intro t ht
    rw [hconfig t ht]
    exact hd.resetn
  have hnext : ∀ t, (run (Controller.step id) s newWriteAddress (t + 1)).write =
      (run (Controller.step id) s newWriteAddress t).write.next
        (run (Controller.step id) s newWriteAddress t).config.resetn
        (run (Controller.step id) s newWriteAddress t).rsa.done
        (run (Controller.step id) s newWriteAddress t).config.writeStart
        (run (Controller.step id) s newWriteAddress t).endAddressWrite
        (run (Controller.step id) s newWriteAddress t).rsa.data1024 false :=
    fun t => step_write
  have hstate : s.write.state = .check := hd.state
  have hstart : s.write.oAddress = 128 := by
    have haddr := hd.address
    simpa [masters, Masters.endAddressWrite, hw] using haddr
  have hkept : ∀ t ≤ 2, (run (Controller.step id) s newWriteAddress t).write = s.write := by
    intro t ht
    induction t with
    | zero => rfl
    | succ t ih =>
      have hprev := ih (by omega)
      rw [hnext, hreset t (by omega), hprev, MasterWrite.next_check hstate, if_pos]
      rw [endAddressWrite, hconfig t (by omega)]
      simp [Masters.configAt, show t ≤ 1 by omega, masters, hw, hstart]
  have hraise : (run (Controller.step id) s newWriteAddress 3).write =
      ⟨.raise, s.write.oAddress, s.write.oData, s.write.oWrite, s.write.addressWrite⟩ := by
    rw [hnext, hreset 2 (by omega), hkept 2 le_rfl, MasterWrite.next_check hstate, if_neg]
    rw [endAddressWrite, hconfig 2 (by omega), hstart]
    simp [Masters.configAt]
  have haccept : (run (Controller.step id) s newWriteAddress 4).write =
      ⟨.accept, s.write.oAddress, s.write.oData, true, s.write.addressWrite⟩ := by
    rw [hnext, hreset 3 (by omega), hraise, MasterWrite.next_raise rfl]
  refine ⟨s, hs, hd, newWriteAddress_reprograms, (128, s.write.oData), ?_, ?_⟩
  · show _ ∈ ((run (Controller.step id) s newWriteAddress 4).step id (newWriteAddress 4)).writes
    rw [step_writes, haccept, ← hstart]
    simp [newWriteAddress, cpuEdge]
  · show (128 : Word) ∉ addresses s.config.writeStart 32
    rw [hw]
    decide

end Rsa.Controller

end SocCrypto

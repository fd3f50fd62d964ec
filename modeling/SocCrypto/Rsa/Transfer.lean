import SocCrypto.Rsa.Restart

/-!
# One job of the RSA controller

From a hardware reset to the last result word: the core is loaded once, with the
integers stored at the read address, and the 32 words of its result are written
once each, in order. Reads end before the load and writes begin after it, so the
memory content can be taken as fixed.
-/

namespace SocCrypto.Rsa
open Dma Clocked

/-- The 1024-bit integer of the 32 words from `a` on, lowest word first. -/
def storedInteger (M : Word → Word) (a : Word) : BitVec 1024 :=
  BitVec.ofNat 1024 (wordsValue ((addresses a 32).map M))

theorem addresses_take_drop (a : Word) {j k n : ℕ} (h : j + k ≤ n) :
    ((addresses a n).drop j).take k = addresses (a + BitVec.ofNat 32 (4 * j)) k := by
  apply List.ext_getElem
  · simp
    omega
  · intro l hl hl'
    simp only [addresses, List.getElem_take, List.getElem_drop, List.getElem_map,
      List.getElem_range, Nat.mul_add, BitVec.ofNat_add, BitVec.add_assoc]

namespace Controller

theorem operandsOf_newWords (M : Word → Word) (a : Word) :
    operandsOf (newWords M a) =
      (storedInteger M a, storedInteger M (a + 128), storedInteger M (a + 256)) := by
  have hslice : ∀ j, j + 32 ≤ 96 → ((newWords M a).drop j).take 32 =
      (addresses (a + BitVec.ofNat 32 (4 * j)) 32).map M := by
    intro j hj
    rw [newWords, ← List.map_drop, ← List.map_take, addresses_take_drop a hj]
  have hzero := hslice 0 (by omega)
  rw [List.drop_zero, Nat.mul_zero] at hzero
  rw [operandsOf, hzero, hslice 32 (by omega), hslice 64 (by omega)]
  simp [storedInteger]

variable {M : Word → Word} {readStart writeStart : Word} {s : Controller} {i : In}
  {f : Operands → BitVec 1024} {ops : Operands}

/-! ### Soft reset held low -/

theorem HardwareReset.step (h : HardwareReset s) (hreset : s.config.resetn = false) :
    HardwareReset (s.step M i) := by
  have hread : s.drain.fifoRead = false := by
    rw [h.drain]
    rfl
  have hwrite : s.write.oWrite = false := by
    rw [h.write]
    rfl
  have hoRead : s.read.master.oRead = false := by
    rw [h.master]
    rfl
  constructor
  case master => cases hclk : i.sysClk <;>
    simp [step_read, hclk, h.master, ReadPath.next, readIn, hreset, MasterRead.next]
  case fifo => cases hclk : i.sysClk <;> cases haclr : s.config.fifoClear <;>
    simp [step_read, hclk, h.fifo, h.inflight, ReadPath.next, readIn, Fifo.next, hread, haclr]
  case inflight => cases hclk : i.sysClk <;>
    simp [step_read, hclk, h.inflight, ReadPath.next, hoRead]
  case drain =>
    rw [step_drain, hreset]
    split
    · rfl
    · exact h.drain
  case write =>
    rw [step_write, hreset]
    split
    · rfl
    · exact h.write
  case loads => simp [step_loads, h.rsaLoad, h.loads]
  case writes => simp [step_writes, hwrite, h.writes]
  all_goals cases hclk : i.rsaClk <;>
    simp [step_rsa, hclk, RsaFsm.next, h.delay, hreset, h.rsaState, h.rsaLoad, h.rsaDone]

/-! ### Invariant of a job -/

/-- How far the state machine around the core has come. -/
inductive Phase (readStart : Word) (target : List Word) (f : Operands → BitVec 1024)
    (s : Controller) : Prop
  | fresh : s.Fresh → s.rsa.done = false → s.loads = [] → Phase readStart target f s
  | loading (n : ℕ) : s.Loading → s.Filled readStart target n → s.rsa.done = false →
      s.loads = [] → Phase readStart target f s
  | busy : s.AfterLoad → s.rsa.state = .busy → s.rsa.done = false →
      s.loads = [operandsOf target] → Phase readStart target f s
  | finish : s.AfterLoad → s.rsa.state = .finish → s.rsa.done = true →
      s.rsa.data1024 = f (operandsOf target) → s.loads = [operandsOf target] →
      Phase readStart target f s

/-- State of a job after `k` words have been written. -/
structure InJob (M : Word → Word) (readStart writeStart : Word) (f : Operands → BitVec 1024)
    (k : ℕ) (s : Controller) : Prop where
  started : s.Started readStart writeStart
  reads : s.Reads M readStart (newWords M readStart)
  phase : s.Phase readStart (newWords M readStart) f
  sent : s.write.Sent writeStart (f (operandsOf (newWords M readStart))) k
  done : s.write.state ≠ .start → s.rsa.done = true
  writes : s.writes = resultWrites writeStart (f (operandsOf (newWords M readStart))) k

theorem HardwareReset.inJob (h : HardwareReset s) (hs : s.Started readStart writeStart)
    (f : Operands → BitVec 1024) : InJob M readStart writeStart f 0 s := by
  have hrestarted : s.Restarted readStart := by
    refine ⟨?_, h.master, h.drain⟩
    rw [hs.writeStart]
    exact hs
  have hfilling := hrestarted.filling (M := M)
  have hstale : s.stale M = [] := by simp [stale, h.fifo, h.inflight]
  rw [hstale, List.nil_append, List.take_of_length_le (by simp)] at hfilling
  refine ⟨hs, Or.inl ⟨96, 0, hfilling⟩, ?_, ?_, ?_, by simp [h.writes, resultWrites]⟩
  · exact .fresh (Or.inl h.delay) h.rsaDone h.loads
  · rw [h.write]
    exact MasterWrite.sent_reset _ _ _
  · rw [h.write]
    intro hst
    exact absurd rfl hst

/-- The core answers with `f` of the operands it was last loaded with. -/
def Computes (f : Operands → BitVec 1024) (s : Controller) (i : In) : Prop :=
  i.rsaClk = true → i.rsaValid = true → ∀ o, s.loads.getLast? = some o → i.rsaData = f o

theorem Phase.step {target : List Word} (h : s.Phase readStart target f)
    (hs : s.Started readStart writeStart) (hreads : s.Reads M readStart target)
    (hcore : Computes f s i) : (s.step M i).Phase readStart target f := by
  cases h with
  | fresh hf hdone hloads =>
    have hquiet : (s.step M i).loads = [] := by
      have hoff := hf.loadsAt i
      rw [loadsAt] at hoff
      simp [step_loads, hoff, hloads]
    have hdone' : (s.step M i).rsa.done = false := by
      cases hclk : i.rsaClk
      · simp [step_rsa, hclk, hdone]
      · rcases hf with hd | ⟨hst, -⟩
        · simp [step_rsa, hclk, RsaFsm.next, hd]
        · cases hd : s.rsa.resetNDelay <;> cases hfd : s.drain.readFifoDone <;>
            simp [step_rsa, hclk, RsaFsm.next, hd, hst, hfd, hdone]
    rcases hf.step (M := M) (i := i) hs.resetn with hf' | ⟨hl, hfd⟩
    · exact .fresh hf' hdone' hquiet
    · obtain ⟨n, hn⟩ := hreads.filled hfd
      obtain ⟨n', hn'⟩ := hn.step (M := M) (i := i) hs
      exact .loading n' hl hn' hdone' hquiet
  | loading n hl hn hdone hloads =>
    have hnext := hl.step (M := M) (i := i) hs.resetn
    cases hclk : i.rsaClk
    · rw [hclk] at hnext
      obtain ⟨n', hn'⟩ := hn.step (M := M) (i := i) hs
      exact .loading n' hnext hn' (by simp [step_rsa, hclk, hdone]) (by simp [step_loads, hclk, hloads])
    · rw [hclk] at hnext
      refine .busy hnext ?_ ?_ ?_
      · simp [step_rsa, hclk, RsaFsm.next, hl.delay, hl.state]
      · simp [step_rsa, hclk, RsaFsm.next, hl.delay, hl.state, hdone]
      · simp [step_loads, hclk, hl.load, hl.delay, hloads, hn.operands]
  | busy ha hst hdone hloads =>
    have hnext := ha.step (M := M) (i := i) hs.resetn
    have hsame : (s.step M i).loads = [operandsOf target] := by
      have hoff := ha.loadsAt i
      rw [loadsAt] at hoff
      simp [step_loads, hoff, hloads]
    cases hclk : i.rsaClk
    · exact .busy hnext (by simp [step_rsa, hclk, hst]) (by simp [step_rsa, hclk, hdone]) hsame
    · cases hvalid : i.rsaValid
      · exact .busy hnext (by simp [step_rsa, hclk, RsaFsm.next, ha.delay, hst, hvalid])
          (by simp [step_rsa, hclk, RsaFsm.next, ha.delay, hst, hvalid, hdone]) hsame
      · have hdata := hcore hclk hvalid (operandsOf target) (by rw [hloads]; rfl)
        exact .finish hnext (by simp [step_rsa, hclk, RsaFsm.next, ha.delay, hst, hvalid])
          (by simp [step_rsa, hclk, RsaFsm.next, ha.delay, hst, hvalid])
          (by simp [step_rsa, hclk, RsaFsm.next, ha.delay, hst, hvalid, hdata]) hsame
  | finish ha hst hdone hdata hloads =>
    have hnext := ha.step (M := M) (i := i) hs.resetn
    have hsame : (s.step M i).loads = [operandsOf target] := by
      have hoff := ha.loadsAt i
      rw [loadsAt] at hoff
      simp [step_loads, hoff, hloads]
    have hrsa : (s.step M i).rsa = s.rsa := by
      cases hclk : i.rsaClk
      · simp [step_rsa, hclk]
      · have hdelay := ha.delay
        cases hr : s.rsa with
        | mk d l st dn v =>
          rw [hr] at hdelay hst
          simp only at hdelay hst
          simp [step_rsa, hclk, hr, RsaFsm.next, hdelay, hst, hs.resetn]
    exact .finish hnext (by rw [hrsa]; exact hst) (by rw [hrsa]; exact hdone)
      (by rw [hrsa]; exact hdata) hsame

/-- A result that has been taken stays. -/
theorem Phase.done_step {target : List Word} (h : s.Phase readStart target f)
    (hdone : s.rsa.done = true) :
    s.rsa.data1024 = f (operandsOf target) ∧ (s.step M i).rsa.done = true := by
  cases h with
  | fresh _ hd _ => simp [hd] at hdone
  | loading _ _ _ hd _ => simp [hd] at hdone
  | busy _ _ hd _ => simp [hd] at hdone
  | finish ha hst _ hdata _ =>
    refine ⟨hdata, ?_⟩
    cases hclk : i.rsaClk
    · simp [step_rsa, hclk, hdone]
    · simp [step_rsa, hclk, RsaFsm.next, ha.delay, hst, hdone]

/-- Words written after a step. -/
def sentNext (s : Controller) (i : In) (k : ℕ) : ℕ :=
  if i.sysClk && s.write.moves i.waitWrite then k + 1 else k

/-- The write master of a job sees the result of the core. -/
theorem InJob.write_next {k : ℕ} (h : InJob M readStart writeStart f k s)
    (hclk : i.sysClk = true) :
    (s.step M i).write = s.write.next true s.rsa.done writeStart
      (writeStart + BitVec.ofNat 32 (4 * 2 ^ 5)) (f (operandsOf (newWords M readStart)))
      i.waitWrite := by
  rw [step_write, if_pos hclk, h.started.resetn, h.started.writeStart, endAddressWrite,
    h.started.writeStart]
  by_cases hdone : s.rsa.done = true
  · rw [(h.phase.done_step (M := M) (i := i) hdone).1]
    rfl
  · have hst : s.write.state = .start := by
      by_contra hne
      exact hdone (h.done hne)
    have hfalse : s.rsa.done = false := by simpa using hdone
    rw [MasterWrite.next_start hst, MasterWrite.next_start hst, hfalse]
    rfl

theorem InJob.step {k : ℕ} (h : InJob M readStart writeStart f k s) (hcpu : i.cpu = none)
    (hcore : Computes f s i) : InJob M readStart writeStart f (s.sentNext i k) (s.step M i) := by
  have hphase := h.phase.step h.started h.reads hcore
  refine ⟨h.started.next hcpu, h.reads.step h.started, hphase, ?_, ?_, ?_⟩
  · cases hclk : i.sysClk
    · simpa [step_write, hclk, sentNext] using h.sent
    · have hnext := h.sent.next (by decide) s.rsa.done i.waitWrite
      rw [h.write_next hclk]
      simpa [sentNext, hclk] using hnext
  · intro hst
    have hdone : s.rsa.done = true := by
      by_contra hne
      have hidle : s.write.state = .start := by
        by_contra hne'
        exact hne (h.done hne')
      have hfalse : s.rsa.done = false := by simpa using hne
      apply hst
      cases hclk : i.sysClk
      · simp [step_write, hclk, hidle]
      · rw [h.write_next hclk, MasterWrite.next_start hidle, hfalse]
        simpa using hidle
    exact (h.phase.done_step hdone).2
  · rw [step_writes, h.writes, sentNext]
    cases hclk : i.sysClk
    · simp
    · simpa using h.sent.resultWrites_next i.waitWrite

/-! ### The whole run -/

section
variable {i : ℕ → In} {k : ℕ}

/-- Every wait for the core ends. -/
def CoreFair (s : ℕ → Controller) (i : ℕ → In) : Prop :=
  ∀ t, ∃ u ≥ t, (i u).rsaClk = true ∧ ((s u).rsa.state = .busy → (i u).rsaValid = true)

theorem run_inJob (h : InJob M readStart writeStart f k s) (hcpu : ∀ t, (i t).cpu = none)
    (hcore : ∀ t, Computes f (run (Controller.step M) s i t) (i t)) (t : ℕ) :
    ∃ k, InJob M readStart writeStart f k (run (Controller.step M) s i t) := by
  induction t with
  | zero => exact ⟨k, h⟩
  | succ t ih =>
    obtain ⟨k, hk⟩ := ih
    exact ⟨_, hk.step (hcpu t) (hcore t)⟩

theorem Phase.afterLoad {target : List Word} (h : s.Phase readStart target f)
    (hne : s.loads ≠ []) : s.AfterLoad := by
  cases h with
  | fresh _ _ hl => exact absurd hl hne
  | loading _ _ _ _ hl => exact absurd hl hne
  | busy ha _ _ _ => exact ha
  | finish ha _ _ _ _ => exact ha

/-- The core's result is taken. -/
theorem exists_done (h : InJob M readStart writeStart f k s) (hcpu : ∀ t, (i t).cpu = none)
    (hcore : ∀ t, Computes f (run (Controller.step M) s i t) (i t)) (hfresh : s.Fresh)
    (hfilling : s.Filling M readStart (newWords M readStart) 96 0)
    (hfair : BusFair (run (Controller.step M) s i) i) (hclk : RsaClock i)
    (hlive : CoreFair (run (Controller.step M) s i) i) :
    ∃ t, (run (Controller.step M) s i t).rsa.done = true := by
  obtain ⟨t, hfilled⟩ := exists_filled hfilling h.started (by simp) hcpu hfair
  obtain ⟨u, hu⟩ := exists_load h.started hcpu hfresh hclk hfilled
  have hloaded : (run (Controller.step M) s i (u + 1)).loads ≠ [] := by
    show ((run (Controller.step M) s i u).step M (i u)).loads ≠ []
    rw [loadsAt] at hu
    simp [step_loads, hu]
  obtain ⟨ku, hju⟩ := run_inJob h hcpu hcore (u + 1)
  have hafter := hju.phase.afterLoad hloaded
  obtain ⟨v, hv, hvclk, hvalid⟩ := hlive (u + 1)
  have hvafter := run_afterLoad (M := M) h.started hcpu hafter hv
  rcases hvafter.state with hst | hst
  · refine ⟨v + 1, ?_⟩
    show ((run (Controller.step M) s i v).step M (i v)).rsa.done = true
    simp [step_rsa, hvclk, RsaFsm.next, hvafter.delay, hst, hvalid hst]
  · obtain ⟨kv, hjv⟩ := run_inJob h hcpu hcore v
    refine ⟨v, ?_⟩
    cases hjv.phase with
    | fresh hf _ _ =>
      rcases hf with hd | ⟨hs, -⟩
      · simp [hvafter.delay] at hd
      · simp [hst] at hs
    | loading _ hl _ _ _ =>
      have := hl.state
      rw [hst] at this
      cases this
    | busy _ hs _ _ =>
      rw [hst] at hs
      cases hs
    | finish _ _ hd _ _ => exact hd

theorem run_done (h : InJob M readStart writeStart f k s) (hcpu : ∀ t, (i t).cpu = none)
    (hcore : ∀ t, Computes f (run (Controller.step M) s i t) (i t)) {t : ℕ}
    (ht : (run (Controller.step M) s i t).rsa.done = true) {u : ℕ} (hu : t ≤ u) :
    (run (Controller.step M) s i u).rsa.done = true := by
  induction u, hu using Nat.le_induction with
  | base => exact ht
  | succ u _ ih =>
    obtain ⟨ku, hju⟩ := run_inJob h hcpu hcore u
    exact (hju.phase.done_step ih).2

theorem exists_written (h : InJob M readStart writeStart f k s) (hcpu : ∀ t, (i t).cpu = none)
    (hcore : ∀ t, Computes f (run (Controller.step M) s i t) (i t))
    (hfair : BusFair (run (Controller.step M) s i) i) {t : ℕ}
    (ht : (run (Controller.step M) s i t).rsa.done = true) :
    ∃ u ≥ t, InJob M readStart writeStart f 32 (run (Controller.step M) s i u) := by
  choose K hK using run_inJob h hcpu hcore
  have hnext : ∀ u, K (u + 1) = (run (Controller.step M) s i u).sentNext (i u) (K u) := by
    intro u
    have hstep := (hK u).step (hcpu u) (hcore u)
    have hlen := congrArg List.length ((hK (u + 1)).writes.symm.trans hstep.writes)
    simpa [resultWrites] using hlen
  have hrank : ∀ u,
      (run (Controller.step M) s i (u + 1)).write.state.rank (2 ^ 5 - K (u + 1)) ≤
        (run (Controller.step M) s i u).write.state.rank (2 ^ 5 - K u) := by
    intro u
    rw [hnext u]
    cases hclk : (i u).sysClk
    · simp only [sentNext, hclk, Bool.false_and, Bool.false_eq_true, if_false]
      show ((run (Controller.step M) s i u).step M (i u)).write.state.rank _ ≤ _
      simp [step_write, hclk]
    · have hle := (hK u).sent.rank_next_le (run (Controller.step M) s i u).rsa.done
        (i u).waitWrite (writeStart + BitVec.ofNat 32 (4 * 2 ^ 5))
      have hwrite := (hK u).write_next hclk
      simp only [sentNext, hclk, Bool.true_and]
      show ((run (Controller.step M) s i u).step M (i u)).write.state.rank _ ≤ _
      rw [hwrite]
      exact hle
  obtain ⟨t₀, hstable⟩ := exists_stable
    (fun u => (run (Controller.step M) s i u).write.state.rank (2 ^ 5 - K u)) hrank
  obtain ⟨u, hu, huclk, hugrant⟩ := hfair.grantWrite (max t t₀)
  have hudone := run_done h hcpu hcore ht (show t ≤ u by omega)
  have hwaits : ((run (Controller.step M) s i u).write.state = .start ∧
        (run (Controller.step M) s i u).rsa.done = false) ∨
      ((run (Controller.step M) s i u).write.state = .accept ∧ (i u).waitWrite = true) ∨
      ((run (Controller.step M) s i u).write.state = .check ∧ K u = 2 ^ 5) := by
    refine (hK u).sent.waits (by decide) ?_
    have h0 := hstable u (by omega)
    have h1 := hstable (u + 1) (by omega)
    simp only [hnext u, sentNext, huclk, Bool.true_and] at h0 h1
    have hwrite := (hK u).write_next huclk
    have hstate : (run (Controller.step M) s i (u + 1)).write =
        ((run (Controller.step M) s i u).step M (i u)).write := rfl
    rw [hstate, hwrite] at h1
    exact h1.trans h0.symm
  have hk := (hK u).sent.all_sent hwaits hudone hugrant
  have hju := hK u
  rw [hk] at hju
  exact ⟨u, by omega, hju⟩

end

theorem Phase.loads_prefix {target : List Word} (h : s.Phase readStart target f) :
    s.loads <+: [operandsOf target] := by
  cases h with
  | fresh _ _ hl => simp [hl]
  | loading _ _ _ _ hl => simp [hl]
  | busy _ _ _ hl => simp [hl]
  | finish _ _ _ _ hl => simp [hl]

theorem run_reset {i : ℕ → In} (h : HardwareReset s) {T : ℕ}
    (hlow : ∀ t < T, (run (Controller.step M) s i t).config.resetn = false) :
    ∀ t ≤ T, HardwareReset (run (Controller.step M) s i t) := by
  intro t
  induction t with
  | zero => exact fun _ => h
  | succ t ih => exact fun ht => (ih (by omega)).step (hlow t (by omega))

/-- A job runs to its end: the result is taken and then all words are written. -/
theorem HardwareReset.exists_written {i : ℕ → In} (h : HardwareReset s)
    (hs : s.Started readStart writeStart) (hcpu : ∀ t, (i t).cpu = none)
    (hcore : ∀ t, Computes f (run (Controller.step M) s i t) (i t))
    (hfair : BusFair (run (Controller.step M) s i) i) (hclk : RsaClock i)
    (hlive : CoreFair (run (Controller.step M) s i) i) :
    ∃ t u, t ≤ u ∧ (run (Controller.step M) s i t).rsa.done = true ∧
      InJob M readStart writeStart f 32 (run (Controller.step M) s i u) := by
  have hjob := h.inJob (M := M) hs f
  have hfilling : s.Filling M readStart (newWords M readStart) 96 0 := by
    rcases hjob.reads with ⟨n, c, hf⟩ | ⟨n, hf⟩
    · have hc : c = 0 := by
        rw [← hf.counter, h.drain]
        rfl
      have hn : n = 96 := by
        have hleft := MasterRead.left_reset readStart (show 0 < 96 by decide)
        rw [← h.master] at hleft
        exact hf.left.unique (by decide) hleft
      rw [hn, hc] at hf
      exact hf
    · have hdone := hf.done
      rw [h.drain] at hdone
      cases hdone
  obtain ⟨t, ht⟩ := exists_done hjob hcpu hcore (Or.inl h.delay) hfilling hfair hclk hlive
  obtain ⟨u, hu, hju⟩ := Controller.exists_written hjob hcpu hcore hfair ht
  exact ⟨t, u, hu, ht, hju⟩

theorem job_transfers {i : ℕ → In} (h : HardwareReset s) (hs : s.Started readStart writeStart)
    (hcpu : ∀ t, (i t).cpu = none)
    (hcore : ∀ t, Computes f (run (Controller.step M) s i t) (i t))
    (hfair : BusFair (run (Controller.step M) s i) i) (hclk : RsaClock i)
    (hlive : CoreFair (run (Controller.step M) s i) i) :
    (∃ t₀, ∀ t ≥ t₀,
        (run (Controller.step M) s i t).loads = [operandsOf (newWords M readStart)] ∧
        (run (Controller.step M) s i t).writes =
          resultWrites writeStart (f (operandsOf (newWords M readStart))) 32) ∧
      ∀ t, (run (Controller.step M) s i t).loads <+: [operandsOf (newWords M readStart)] ∧
        (run (Controller.step M) s i t).writes <+:
          resultWrites writeStart (f (operandsOf (newWords M readStart))) 32 := by
  have hjob := h.inJob (M := M) hs f
  have hprefix : ∀ t,
      (run (Controller.step M) s i t).loads <+: [operandsOf (newWords M readStart)] ∧
        (run (Controller.step M) s i t).writes <+:
          resultWrites writeStart (f (operandsOf (newWords M readStart))) 32 := by
    intro t
    obtain ⟨k, hk⟩ := run_inJob hjob hcpu hcore t
    refine ⟨hk.phase.loads_prefix, ?_⟩
    rw [hk.writes]
    exact resultWrites_prefix _ _ hk.sent.le
  refine ⟨?_, hprefix⟩
  obtain ⟨t, u, hu, ht, hju⟩ := h.exists_written hs hcpu hcore hfair hclk hlive
  refine ⟨u, fun v hv => ⟨?_, ?_⟩⟩
  · obtain ⟨k, hk⟩ := run_inJob hjob hcpu hcore v
    have hdone := run_done hjob hcpu hcore ht (show t ≤ v by omega)
    cases hk.phase with
    | fresh _ hd _ => simp [hd] at hdone
    | loading _ _ _ hd _ => simp [hd] at hdone
    | busy _ _ hd _ => simp [hd] at hdone
    | finish _ _ _ _ hl => exact hl
  · have hstay : InJob M readStart writeStart f 32 (run (Controller.step M) s i v) := by
      induction v, hv using Nat.le_induction with
      | base => exact hju
      | succ v hv ih =>
        have hstep := ih.step (hcpu v) (hcore v)
        have hst := ih.sent.pending rfl
        have hmoves := MasterWrite.moves_of_ne
          (show (run (Controller.step M) s i v).write.state ≠ .accept by simp [hst])
          (i v).waitWrite
        rw [sentNext, hmoves, Bool.and_false] at hstep
        exact hstep
    exact hstay.writes

/-- From a hardware reset, with the soft reset low until cycle `T`, in which control
is 3, `length` is 384 and the start addresses are programmed: on every fair bus,
for every order of clock edges and every core that computes `f`, the core is
loaded exactly once, with the stored integers, and exactly the 32 words of `f` are
written, in order. -/
theorem transfers_exactly_once (M : Word → Word) (f : Operands → BitVec 1024) (s : Controller)
    (i : ℕ → In) (T : ℕ) (readStart writeStart : Word) (hreset : HardwareReset s)
    (hlow : ∀ t < T, (run (Controller.step M) s i t).config.resetn = false)
    (hstart : (run (Controller.step M) s i T).Started readStart writeStart)
    (hcpu : ∀ t ≥ T, (i t).cpu = none)
    (hcore : ∀ t, Computes f (run (Controller.step M) s i t) (i t))
    (hfair : BusFair (run (Controller.step M) s i) i) (hclk : RsaClock i)
    (hlive : CoreFair (run (Controller.step M) s i) i) :
    let ops := (storedInteger M readStart, storedInteger M (readStart + 128),
      storedInteger M (readStart + 256))
    (∃ t₀, ∀ t ≥ t₀, (run (Controller.step M) s i t).loads = [ops] ∧
        (run (Controller.step M) s i t).writes = resultWrites writeStart (f ops) 32) ∧
      ∀ t, (run (Controller.step M) s i t).loads <+: [ops] ∧
        (run (Controller.step M) s i t).writes <+: resultWrites writeStart (f ops) 32 := by
  intro ops
  have hT := run_reset hreset hlow
  have hshift : ∀ t, run (Controller.step M) s i (T + t) =
      run (Controller.step M) (run (Controller.step M) s i T) (fun u => i (T + u)) t :=
    fun t => run_add (Controller.step M) s i T t
  have hback : ∀ P : ℕ → Prop, (∀ t, ∃ u ≥ t, P u) → ∀ t, ∃ u ≥ t, P (T + u) := by
    intro P hP t
    obtain ⟨u, hu, hPu⟩ := hP (T + t)
    refine ⟨u - T, by omega, ?_⟩
    rw [Nat.add_sub_cancel' (by omega)]
    exact hPu
  have hjob := job_transfers (M := M) (f := f) (i := fun u => i (T + u)) (hT T le_rfl) hstart
    (fun t => hcpu (T + t) (by omega)) (fun t => by rw [← hshift]; exact hcore (T + t))
    ⟨fun t => by simp only [← hshift]; exact hback _ hfair.grantRead t,
      fun t => by simp only [← hshift]; exact hback _ hfair.answer t,
      fun t => by simp only [← hshift]; exact hback _ hfair.grantWrite t⟩
    (hback _ hclk) (fun t => by simp only [← hshift]; exact hback _ hlive t)
  rw [operandsOf_newWords] at hjob
  obtain ⟨⟨t₀, hend⟩, hprefix⟩ := hjob
  refine ⟨⟨T + t₀, ?_⟩, ?_⟩
  · intro t ht
    have hsplit := hend (t - T) (by omega)
    rw [← hshift, Nat.add_sub_cancel' (by omega)] at hsplit
    exact hsplit
  · intro t
    rcases Nat.lt_or_ge t T with hlt | hge
    · have hr := hT t hlt.le
      rw [hr.loads, hr.writes]
      exact ⟨List.nil_prefix, List.nil_prefix⟩
    · have hsplit := hprefix (t - T)
      rw [← hshift, Nat.add_sub_cancel' hge] at hsplit
      exact hsplit

/-- The length register, control 3, then an unstalled bus and a core that always
presents 42. -/
def firstJob : ℕ → In
  | 0 => cpuEdge (some (3, 384))
  | 1 => cpuEdge (some (0, 3))
  | t + 2 => { unstalled (fun _ => true) t with rsaData := 42 }

theorem firstJob_later {t : ℕ} (ht : 2 ≤ t) :
    firstJob t = { unstalled (fun _ => true) (t - 2) with rsaData := 42 } := by
  obtain ⟨u, rfl⟩ := Nat.exists_eq_add_of_le' ht
  rfl

theorem transfers_exactly_once_firstJob :
    ∃ t₀, ∀ t ≥ t₀, (run (Controller.step id) powerUp firstJob t).writes =
      resultWrites 0 (42 : BitVec 1024) 32 := by
  have hlater : ∀ t, ∃ u ≥ t, 2 ≤ u := fun t => ⟨max t 2, le_max_left _ _, le_max_right _ _⟩
  obtain ⟨⟨t₀, h⟩, -⟩ := transfers_exactly_once id (fun _ => 42) powerUp firstJob 2 0 0
    powerUp_reset
    (by
      intro t ht
      have hcases : t = 0 ∨ t = 1 := by omega
      rcases hcases with rfl | rfl <;> rfl)
    ⟨rfl, rfl, rfl, rfl⟩
    (by
      intro t ht
      rw [firstJob_later ht]
      rfl)
    (by
      intro t _ hvalid o _
      match t with
      | 0 => cases hvalid
      | 1 => cases hvalid
      | t + 2 => rfl)
    (by
      constructor <;>
      · intro t
        obtain ⟨u, hu, hu2⟩ := hlater t
        exact ⟨u, hu, by rw [firstJob_later hu2]; exact ⟨rfl, fun _ => rfl⟩⟩)
    (by
      intro t
      obtain ⟨u, hu, hu2⟩ := hlater t
      exact ⟨u, hu, by rw [firstJob_later hu2]; rfl⟩)
    (by
      intro t
      obtain ⟨u, hu, hu2⟩ := hlater t
      exact ⟨u, hu, by rw [firstJob_later hu2]; exact ⟨rfl, fun _ => rfl⟩⟩)
  exact ⟨t₀, fun t ht => (h t ht).2⟩

end Controller

end SocCrypto.Rsa

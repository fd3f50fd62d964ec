import SocCrypto.Rsa.OperandRead

/-!
# Restarting the RSA controller

`RSA_Init` drops and raises the soft reset but never clears the FIFO, and reads
accepted before the reset are still answered. The operands of the next load are
therefore the first 96 words of what the FIFO holds, what is under way to it and
the words of the new job. `restart_iff` says when these are the words of the new
job for every bus timing.
-/

namespace SocCrypto.Rsa
open Dma Clocked

/-! ### Operands as words -/

/-- Little-endian value of a list of words. -/
def wordsValue (l : List Word) : ℕ := l.foldr (fun w v => w.toNat + 2 ^ 32 * v) 0

theorem wordsValue_lt (l : List Word) : wordsValue l < 2 ^ (32 * l.length) := by
  induction l with
  | nil => simp [wordsValue]
  | cons w l ih =>
    have hw := w.isLt
    have hpow : 2 ^ (32 * (l.length + 1)) = 2 ^ 32 * 2 ^ (32 * l.length) := by
      rw [← pow_add]
      congr 1
      omega
    show w.toNat + 2 ^ 32 * wordsValue l < 2 ^ (32 * (l.length + 1))
    rw [hpow]
    have hle : wordsValue l + 1 ≤ 2 ^ (32 * l.length) := ih
    have hmul := Nat.mul_le_mul_left (2 ^ 32) hle
    omega

theorem wordsValue_inj {l l' : List Word} (hlen : l.length = l'.length)
    (h : wordsValue l = wordsValue l') : l = l' := by
  induction l generalizing l' with
  | nil =>
    cases l' with
    | nil => rfl
    | cons w' l' => simp at hlen
  | cons w l ih =>
    cases l' with
    | nil => simp at hlen
    | cons w' l' =>
      have hw := w.isLt
      have hw' := w'.isLt
      have hval : w.toNat + 2 ^ 32 * wordsValue l = w'.toNat + 2 ^ 32 * wordsValue l' := h
      have hword : w = w' := BitVec.eq_of_toNat_eq (by omega)
      have hrest : wordsValue l = wordsValue l' := by omega
      rw [hword, ih (by simpa using hlen) hrest]

/-- The three 1024-bit operands in a list of 96 words. -/
def operandsOf (l : List Word) : Operands :=
  (BitVec.ofNat 1024 (wordsValue (l.take 32)),
    BitVec.ofNat 1024 (wordsValue ((l.drop 32).take 32)),
    BitVec.ofNat 1024 (wordsValue ((l.drop 64).take 32)))

theorem ofNat_wordsValue_inj {l l' : List Word} (hl : l.length = 32) (hl' : l'.length = 32)
    (h : BitVec.ofNat 1024 (wordsValue l) = BitVec.ofNat 1024 (wordsValue l')) : l = l' := by
  have hlt := wordsValue_lt l
  have hlt' := wordsValue_lt l'
  rw [hl] at hlt
  rw [hl'] at hlt'
  have hnat := congrArg BitVec.toNat h
  rw [BitVec.toNat_ofNat, BitVec.toNat_ofNat, Nat.mod_eq_of_lt hlt, Nat.mod_eq_of_lt hlt'] at hnat
  exact wordsValue_inj (hl.trans hl'.symm) hnat

theorem operandsOf_inj {l l' : List Word} (hl : l.length = 96) (hl' : l'.length = 96)
    (h : operandsOf l = operandsOf l') : l = l' := by
  obtain ⟨ha, hbc⟩ := Prod.mk.inj h
  obtain ⟨hb, hc⟩ := Prod.mk.inj hbc
  have h0 := ofNat_wordsValue_inj (by simp [hl]) (by simp [hl']) ha
  have h1 := ofNat_wordsValue_inj (by simp [hl]) (by simp [hl']) hb
  have h2 := ofNat_wordsValue_inj (by simp [hl]) (by simp [hl']) hc
  have hsplit : ∀ m : List Word, m.length = 96 →
      m = m.take 32 ++ ((m.drop 32).take 32 ++ (m.drop 64).take 32) := by
    intro m hm
    have htail : (m.drop 64).take 32 = m.drop 64 := List.take_of_length_le (by simp [hm])
    have hdrop : m.drop 64 = (m.drop 32).drop 32 := by rw [List.drop_drop]
    rw [htail, hdrop, List.take_append_drop, List.take_append_drop]
  rw [hsplit l hl, hsplit l' hl', h0, h1, h2]

namespace Controller

variable {M : Word → Word} {readStart writeStart : Word} {s : Controller} {i : In}
  {target : List Word} {n c : ℕ}

theorem operand_eq {d : FifoToMem} (hdone : d.readFifoDone = true)
    (h : (List.range 96).map d.mem = target) {lo : ℕ} (hlo : lo + 32 ≤ 96) :
    d.operand lo = BitVec.ofNat 1024 (wordsValue ((target.drop lo).take 32)) := by
  have hslice : (target.drop lo).take 32 = (List.range 32).map fun k => d.mem (lo + k) := by
    rw [← h]
    apply List.ext_getElem
    · simp
      omega
    · intro k hk hk'
      simp
  rw [hslice, wordsValue, FifoToMem.operand, hdone, if_pos rfl, List.foldr_map]

theorem Filled.operands (h : s.Filled readStart target n) : s.operands = operandsOf target := by
  have hzero := operand_eq h.done h.words (show 0 + 32 ≤ 96 by omega)
  rw [List.drop_zero] at hzero
  rw [Controller.operands, operandsOf, hzero, operand_eq h.done h.words (by omega),
    operand_eq h.done h.words (by omega)]

theorem operands_of_not_done (h : s.drain.readFifoDone = false) : s.operands = (0, 0, 0) := by
  simp [Controller.operands, FifoToMem.operand, h]

/-! ### Reading or done reading -/

/-- The drain phase or its end. -/
def Reads (M : Word → Word) (readStart : Word) (target : List Word) (s : Controller) : Prop :=
  (∃ n c, s.Filling M readStart target n c) ∨ ∃ n, s.Filled readStart target n

theorem Filled.step (h : s.Filled readStart target n) (hs : s.Started readStart writeStart) :
    ∃ n, (s.step M i).Filled readStart target n := by
  cases hclk : i.sysClk
  · obtain ⟨hread, hdrain⟩ := step_of_not_sysClk (M := M) (s := s) hclk
    exact ⟨n, by rw [hread]; exact h.left, by rw [hdrain]; exact h.done,
      by rw [hdrain]; exact h.fifoRead, by rw [hdrain]; exact h.state,
      by rw [hdrain]; exact h.words⟩
  · exact ⟨_, h.sysEdge hs hclk⟩

theorem Reads.step (h : s.Reads M readStart target) (hs : s.Started readStart writeStart) :
    (s.step M i).Reads M readStart target := by
  rcases h with ⟨n, c, hf⟩ | ⟨n, hf⟩
  · obtain ⟨n', -, -, hnext⟩ := hf.step (i := i) hs
    rcases hnext with ⟨c', hf'⟩ | hf'
    · exact Or.inl ⟨n', c', hf'⟩
    · exact Or.inr ⟨n', hf'⟩
  · exact Or.inr (hf.step hs)

theorem Reads.filled (h : s.Reads M readStart target) (hdone : s.drain.readFifoDone = true) :
    ∃ n, s.Filled readStart target n := by
  rcases h with ⟨n, c, hf⟩ | hf
  · rw [hf.notDone] at hdone
    cases hdone
  · exact hf

/-! ### The state machine around the core -/

/-- The core is loaded at this edge. -/
def loadsAt (s : Controller) (i : In) : Bool := i.rsaClk && s.rsa.load && s.rsa.resetNDelay

/-- No load pulse yet in this job. -/
def Fresh (s : Controller) : Prop :=
  s.rsa.resetNDelay = false ∨ (s.rsa.state = .idle ∧ s.rsa.load = false)

/-- The cycle of the load pulse. -/
structure Loading (s : Controller) : Prop where
  delay : s.rsa.resetNDelay = true
  state : s.rsa.state = .load
  load : s.rsa.load = true

/-- The load pulse is over. -/
structure AfterLoad (s : Controller) : Prop where
  delay : s.rsa.resetNDelay = true
  state : s.rsa.state = .busy ∨ s.rsa.state = .finish
  load : s.rsa.load = false

theorem Fresh.loadsAt (h : s.Fresh) (i : In) : s.loadsAt i = false := by
  rcases h with h | ⟨-, h⟩ <;> simp [Controller.loadsAt, h]

theorem AfterLoad.loadsAt (h : s.AfterLoad) (i : In) : s.loadsAt i = false := by
  simp [Controller.loadsAt, h.load]

theorem Fresh.step (h : s.Fresh) (hs : s.config.resetn = true) :
    (s.step M i).Fresh ∨ ((s.step M i).Loading ∧ s.drain.readFifoDone = true) := by
  cases hclk : i.rsaClk
  · left
    simpa [Fresh, step_rsa, hclk] using h
  · simp only [Fresh, step_rsa, hclk, if_true]
    cases hdelay : s.rsa.resetNDelay
    · left
      right
      simp [RsaFsm.next, hdelay]
    · rcases h with h | ⟨hst, hload⟩
      · rw [hdelay] at h
        cases h
      · cases hdone : s.drain.readFifoDone
        · left
          right
          simp [RsaFsm.next, hdelay, hst, hload]
        · right
          refine ⟨?_, rfl⟩
          constructor <;> simp [step_rsa, hclk, RsaFsm.next, hdelay, hst, hs, hdone]

theorem Loading.step (h : s.Loading) (hs : s.config.resetn = true) :
    if i.rsaClk then (s.step M i).AfterLoad else (s.step M i).Loading := by
  cases hclk : i.rsaClk
  · exact ⟨by simp [step_rsa, hclk, h.delay], by simp [step_rsa, hclk, h.state],
      by simp [step_rsa, hclk, h.load]⟩
  · constructor <;> simp [step_rsa, hclk, RsaFsm.next, h.delay, h.state, hs]

theorem AfterLoad.step (h : s.AfterLoad) (hs : s.config.resetn = true) :
    (s.step M i).AfterLoad := by
  cases hclk : i.rsaClk
  · exact ⟨by simp [step_rsa, hclk, h.delay], by simpa [step_rsa, hclk] using h.state,
      by simp [step_rsa, hclk, h.load]⟩
  · rcases h.state with hst | hst
    · cases hvalid : i.rsaValid <;>
        constructor <;> simp [step_rsa, hclk, RsaFsm.next, h.delay, hst, hs, h.load, hvalid]
    · constructor <;> simp [step_rsa, hclk, RsaFsm.next, h.delay, hst, hs, h.load]

/-! ### Reachable states -/

/-- After a hardware reset that the RSA clock has seen. -/
structure HardwareReset (s : Controller) : Prop where
  master : s.read.master = MasterRead.reset
  fifo : s.read.fifo.words = []
  inflight : s.read.inflight = []
  drain : s.drain = s.drain.reset
  delay : s.rsa.resetNDelay = false
  rsaState : s.rsa.state = .idle
  rsaLoad : s.rsa.load = false
  rsaDone : s.rsa.done = false
  write : s.write = s.write.reset
  loads : s.loads = []
  writes : s.writes = []

/-- Reachable from a hardware reset by any inputs, while memory may change. -/
inductive Reachable : Controller → Prop
  | start {s : Controller} : HardwareReset s → Reachable s
  | step {s : Controller} (M : Word → Word) (i : In) : Reachable s → Reachable (s.step M i)

theorem Reachable.load_iff (h : Reachable s) : s.rsa.load = decide (s.rsa.state = .load) := by
  induction h with
  | start h => simp [h.rsaLoad, h.rsaState]
  | @step s M i _ ih =>
    cases hclk : i.rsaClk
    · simpa [step_rsa, hclk] using ih
    · simp only [step_rsa, hclk, if_true]
      cases hdelay : s.rsa.resetNDelay
      · simp [RsaFsm.next, hdelay]
      · cases hst : s.rsa.state <;> rw [hst] at ih <;> simp only [RsaFsm.next, hdelay, hst]
        · cases s.drain.readFifoDone <;> simp [ih]
        · simp
        · cases i.rsaValid <;> simp [ih]
        · simp [ih]

/-! ### The start of a job -/

/-- The words of the new job. -/
def newWords (M : Word → Word) (readStart : Word) : List Word := (addresses readStart 96).map M

@[simp] theorem length_newWords (M : Word → Word) (readStart : Word) :
    (newWords M readStart).length = 96 := by
  simp [newWords]

/-- Words of earlier jobs the drain machine will see first. -/
def stale (M : Word → Word) (s : Controller) : List Word :=
  s.read.fifo.words ++ s.read.inflight.map M

/-- State at the edge that writes control 3 after control 0. -/
structure Restarted (readStart : Word) (s : Controller) : Prop where
  started : s.Started readStart s.config.writeStart
  master : s.read.master = MasterRead.reset
  drain : s.drain = s.drain.reset

theorem restarted_of_init (hreset : s.config.resetn = false) (hclk : i.sysClk = true)
    (hcpu : i.cpu = some (0, 3)) (hlength : s.config.length = 384) :
    (s.step M i).Restarted s.config.readStart := by
  have hread : (s.step M i).read.master = MasterRead.reset := by
    simp [step_read, hclk, ReadPath.next, readIn, hreset, MasterRead.next]
  have hdrain : (s.step M i).drain = s.drain.reset := by
    simp [step_drain, hclk, hreset, FifoToMem.next]
  have hconfig : (s.step M i).config = { s.config with control := 3 } := by
    simp [step_config, hclk, hcpu, Config.next]
  refine ⟨⟨by rw [hconfig], by rw [hconfig], rfl, by rw [hconfig]; exact hlength⟩, hread, ?_⟩
  rw [hdrain]
  rfl

theorem Restarted.filling (h : s.Restarted readStart) :
    s.Filling M readStart ((s.stale M ++ newWords M readStart).take 96) 96 0 := by
  have hd := h.drain
  constructor
  · rw [h.master]
    exact MasterRead.left_reset readStart (by decide)
  · rw [hd]
    rfl
  · decide
  · rw [hd]
    rfl
  · rw [hd]
    simp [FifoToMem.reset]
  · rw [hd]
    rfl
  · rw [hd]
    intro hst
    cases hst
  · have hstate : s.drain.state = .poll := by
      rw [hd]
      rfl
    simp [held, hstate, ReadPath.stream, h.master, MasterRead.nextAddress, MasterRead.reset, stale,
      newWords]

/-! ### Restart isolation -/

/-- `iRSA_clk` never stops. -/
def RsaClock (i : ℕ → In) : Prop := ∀ t, ∃ u ≥ t, (i u).rsaClk = true

/-- The core is loaded in the run, and always with the words of the new job. -/
def LoadsNew (M : Word → Word) (readStart : Word) (s : ℕ → Controller) (i : ℕ → In) : Prop :=
  (∃ t, (s t).loadsAt (i t) = true) ∧
    ∀ t, (s t).loadsAt (i t) = true → (s t).operands = operandsOf (newWords M readStart)

/-- The words of earlier jobs do not show, and the RSA clock has seen the soft
reset or had not passed its idle state. -/
def Isolated (M : Word → Word) (readStart : Word) (s : Controller) : Prop :=
  (s.stale M ++ newWords M readStart).take 96 = newWords M readStart ∧
    (s.rsa.resetNDelay = true → s.rsa.state = .idle ∨
      (s.rsa.state = .load ∧ operandsOf (newWords M readStart) = (0, 0, 0)))

section
variable {i : ℕ → In}

theorem run_started (hs : s.Started readStart writeStart) (hcpu : ∀ t, (i t).cpu = none) (t : ℕ) :
    (run (Controller.step M) s i t).Started readStart writeStart := by
  induction t with
  | zero => exact hs
  | succ t ih => exact ih.next (hcpu t)

theorem run_reads (hs : s.Started readStart writeStart) (hcpu : ∀ t, (i t).cpu = none)
    (h : s.Reads M readStart target) (t : ℕ) :
    (run (Controller.step M) s i t).Reads M readStart target := by
  induction t with
  | zero => exact h
  | succ t ih => exact ih.step (run_started hs hcpu t)

theorem run_filled (hs : s.Started readStart writeStart) (hcpu : ∀ t, (i t).cpu = none) {t : ℕ}
    (h : ∃ n, (run (Controller.step M) s i t).Filled readStart target n) {u : ℕ} (hu : t ≤ u) :
    ∃ n, (run (Controller.step M) s i u).Filled readStart target n := by
  induction u, hu using Nat.le_induction with
  | base => exact h
  | succ u _ ih =>
    obtain ⟨n, hn⟩ := ih
    exact hn.step (run_started hs hcpu u)

/-- The load pulse of a run that starts before it comes after the drain phase. -/
theorem run_fresh (hs : s.Started readStart writeStart) (hcpu : ∀ t, (i t).cpu = none)
    (h : s.Reads M readStart target) (hfresh : s.Fresh) (t : ℕ) :
    (run (Controller.step M) s i t).Fresh ∨
      ((run (Controller.step M) s i t).Loading ∧
        ∃ n, (run (Controller.step M) s i t).Filled readStart target n) ∨
      (run (Controller.step M) s i t).AfterLoad := by
  induction t with
  | zero => exact Or.inl hfresh
  | succ t ih =>
    have hstart := run_started (M := M) hs hcpu t
    have hreads := run_reads hs hcpu h t
    rcases ih with hf | ⟨hl, n, hn⟩ | ha
    · rcases hf.step (M := M) (i := i t) hstart.resetn with hf' | ⟨hl', hdone⟩
      · exact Or.inl hf'
      · obtain ⟨n, hn⟩ := hreads.filled hdone
        exact Or.inr (Or.inl ⟨hl', hn.step hstart⟩)
    · have hnext := hl.step (M := M) (i := i t) hstart.resetn
      cases hclk : (i t).rsaClk
      · rw [hclk] at hnext
        exact Or.inr (Or.inl ⟨hnext, hn.step hstart⟩)
      · rw [hclk] at hnext
        exact Or.inr (Or.inr hnext)
    · exact Or.inr (Or.inr (ha.step hstart.resetn))

theorem run_afterLoad (hs : s.Started readStart writeStart) (hcpu : ∀ t, (i t).cpu = none)
    {t : ℕ} (h : (run (Controller.step M) s i t).AfterLoad) {u : ℕ} (hu : t ≤ u) :
    (run (Controller.step M) s i u).AfterLoad := by
  induction u, hu using Nat.le_induction with
  | base => exact h
  | succ u _ ih => exact ih.step (run_started (M := M) hs hcpu u).resetn

/-- The next edge of the RSA clock finds the state machine unchanged. -/
theorem exists_rsaEdge (hclk : RsaClock i) (v : ℕ) :
    ∃ u ≥ v, (i u).rsaClk = true ∧
      (run (Controller.step M) s i u).rsa = (run (Controller.step M) s i v).rsa := by
  obtain ⟨u, hu, hedge⟩ := hclk v
  induction u using Nat.strong_induction_on with
  | _ u ih =>
    by_cases hearlier : ∃ w, v ≤ w ∧ w < u ∧ (i w).rsaClk = true
    · obtain ⟨w, hvw, hwu, hw⟩ := hearlier
      exact ih w hwu hvw hw
    · refine ⟨u, hu, hedge, ?_⟩
      simp only [not_exists, not_and, Bool.not_eq_true] at hearlier
      have hsame : ∀ w, v ≤ w → w ≤ u →
          (run (Controller.step M) s i w).rsa = (run (Controller.step M) s i v).rsa := by
        intro w hw
        induction w, hw using Nat.le_induction with
        | base => exact fun _ => rfl
        | succ w hvw ihw =>
          intro hwu
          rw [← ihw (by omega)]
          show ((run (Controller.step M) s i w).step M (i w)).rsa = _
          simp [step_rsa, hearlier w hvw (by omega)]
      exact hsame u hu le_rfl

theorem Loading.exists_load (hclk : RsaClock i) {v : ℕ}
    (h : (run (Controller.step M) s i v).Loading) :
    ∃ u, (run (Controller.step M) s i u).loadsAt (i u) = true := by
  obtain ⟨u, -, hedge, hsame⟩ := exists_rsaEdge (M := M) (s := s) hclk v
  exact ⟨u, by simp [loadsAt, hedge, hsame, h.load, h.delay]⟩

/-- A fresh run is loaded once the operands are there. -/
theorem exists_load (hs : s.Started readStart writeStart) (hcpu : ∀ t, (i t).cpu = none)
    (hfresh : s.Fresh) (hclk : RsaClock i) {t : ℕ}
    (hfilled : ∃ n, (run (Controller.step M) s i t).Filled readStart target n) :
    ∃ u, (run (Controller.step M) s i u).loadsAt (i u) = true := by
  by_contra hnever
  have hnot : ∀ u, (run (Controller.step M) s i u).Fresh := by
    intro u
    induction u with
    | zero => exact hfresh
    | succ u ih =>
      rcases ih.step (M := M) (i := i u) (run_started (M := M) hs hcpu u).resetn with hf | ⟨hl, -⟩
      · exact hf
      · exact absurd (Loading.exists_load (v := u + 1) hclk hl) hnever
  -- one edge leaves the delay register set, the next one finds the operands
  obtain ⟨u, hu, huclk, -⟩ := exists_rsaEdge (M := M) (s := s) hclk t
  have hdelay : (run (Controller.step M) s i (u + 1)).rsa.resetNDelay = true := by
    have hstart := (run_started (M := M) hs hcpu u).resetn
    show ((run (Controller.step M) s i u).step M (i u)).rsa.resetNDelay = true
    rw [step_rsa, if_pos huclk, hstart]
    unfold RsaFsm.next
    split
    · rfl
    · split <;> (try split) <;> rfl
  obtain ⟨v, hv, hvclk, hsame⟩ := exists_rsaEdge (M := M) (s := s) hclk (u + 1)
  obtain ⟨n, hn⟩ := run_filled hs hcpu hfilled (show t ≤ v by omega)
  rw [← hsame] at hdelay
  have hidle := (hnot v).resolve_left (by simp [hdelay])
  refine hnever (Loading.exists_load (v := v + 1) hclk ?_)
  have hstart := (run_started (M := M) hs hcpu v).resetn
  show ((run (Controller.step M) s i v).step M (i v)).Loading
  constructor <;> simp [step_rsa, hvclk, RsaFsm.next, hdelay, hidle.1, hn.done, hstart]

/-! ### Both directions -/

theorem Isolated.loadsNew (hs : s.Restarted readStart)
    (hload : s.rsa.load = decide (s.rsa.state = .load)) (h : s.Isolated M readStart) (hcpu : ∀ t, (i t).cpu = none)
    (hfair : BusFair (run (Controller.step M) s i) i) (hclk : RsaClock i) :
    LoadsNew M readStart (run (Controller.step M) s i) i := by
  obtain ⟨hwords, hrsa⟩ := h
  have hfilling := hs.filling (M := M)
  rw [hwords] at hfilling
  have hreads : s.Reads M readStart (newWords M readStart) := Or.inl ⟨96, 0, hfilling⟩
  obtain ⟨t, hfilled⟩ := exists_filled hfilling hs.started (by simp) hcpu hfair
  by_cases hfresh : s.Fresh
  · refine ⟨exists_load hs.started hcpu hfresh hclk hfilled, ?_⟩
    intro u hu
    rcases run_fresh hs.started hcpu hreads hfresh u with hf | ⟨-, n, hn⟩ | ha
    · rw [hf.loadsAt] at hu
      cases hu
    · exact hn.operands
    · rw [ha.loadsAt] at hu
      cases hu
  · -- the load pulse of the previous job is still up
    have hdelay : s.rsa.resetNDelay = true := by
      by_contra hoff
      exact hfresh (Or.inl (by simpa using hoff))
    obtain ⟨hstate, hzero⟩ : s.rsa.state = .load ∧ operandsOf (newWords M readStart) = (0, 0, 0) := by
      refine (hrsa hdelay).resolve_left fun hidle => hfresh (Or.inr ⟨hidle, ?_⟩)
      rw [hload, hidle]
      rfl
    have hloading : s.Loading := ⟨hdelay, hstate, by rw [hload, hstate]; rfl⟩
    refine ⟨Loading.exists_load (v := 0) hclk hloading, ?_⟩
    intro u _
    rcases run_reads hs.started hcpu hreads u with ⟨n, c, hf⟩ | ⟨n, hn⟩
    · rw [operands_of_not_done hf.notDone, hzero]
    · exact hn.operands

/-- Inputs under which nothing stalls; `clk` says when `iRSA_clk` has an edge. -/
def unstalled (clk : ℕ → Bool) (t : ℕ) : In where
  sysClk := true
  rsaClk := clk t
  cpu := none
  waitRead := false
  answer := true
  waitWrite := false
  rsaValid := true
  rsaData := 0

theorem unstalled_fair (clk : ℕ → Bool) (s : ℕ → Controller) : BusFair s (unstalled clk) := by
  constructor <;> exact fun t => ⟨t, le_rfl, rfl, fun _ => rfl⟩

/-- `iRSA_clk` starts at `start`. -/
def eager (start : ℕ) : ℕ → In := unstalled fun t => decide (start ≤ t)

theorem eager_rsaClock (start : ℕ) : RsaClock (eager start) :=
  fun t => ⟨max t start, le_max_left _ _, decide_eq_true (le_max_right t start)⟩

/-- A load pulse that is up when the job starts can be taken as late as one likes. -/
theorem exists_late_load (hs : s.Started readStart writeStart)
    (hf : s.Filling M readStart target n c) (hlen : target.length = 96) (hl : s.Loading) :
    ∃ start t, (run (Controller.step M) s (eager start) t).loadsAt (eager start t) ∧
      ∃ n, (run (Controller.step M) s (eager start) t).Filled readStart target n := by
  obtain ⟨t, hfilled⟩ := exists_filled (i := unstalled fun _ => false) hf hs hlen (fun _ => rfl)
    (unstalled_fair _ _)
  have hsame : ∀ u ≤ t, run (Controller.step M) s (eager t) u =
      run (Controller.step M) s (unstalled fun _ => false) u := by
    intro u
    induction u with
    | zero => exact fun _ => rfl
    | succ u ih =>
      intro hu
      have hin : eager t u = unstalled (fun _ => false) u := by
        simp [eager, unstalled, show ¬ t ≤ u by omega]
      show (run (Controller.step M) s (eager t) u).step M (eager t u) = _
      rw [ih (by omega), hin]
      rfl
  have hrsa : ∀ u, (run (Controller.step M) s (unstalled fun _ => false) u).rsa = s.rsa := by
    intro u
    induction u with
    | zero => rfl
    | succ u ih => exact ih
  refine ⟨t, t, ?_, by rw [hsame t le_rfl]; exact hfilled⟩
  rw [loadsAt, hsame t le_rfl, hrsa, hl.load, hl.delay]
  simp [eager, unstalled]

theorem isolated_of_loadsNew (hs : s.Restarted readStart)
    (hload : s.rsa.load = decide (s.rsa.state = .load))
    (h : ∀ start, LoadsNew M readStart (run (Controller.step M) s (eager start)) (eager start)) :
    s.Isolated M readStart := by
  have hcpu : ∀ start t, (eager start t).cpu = none := fun _ _ => rfl
  have hfilling := hs.filling (M := M)
  have hreads : s.Reads M readStart ((s.stale M ++ newWords M readStart).take 96) :=
    Or.inl ⟨96, 0, hfilling⟩
  have hlen : ((s.stale M ++ newWords M readStart).take 96).length = 96 := by simp
  constructor
  · -- a load that comes after the drain phase shows the words that were read
    suffices hlate : ∃ start t, (run (Controller.step M) s (eager start) t).loadsAt (eager start t) ∧
        ∃ n, (run (Controller.step M) s (eager start) t).Filled readStart
          ((s.stale M ++ newWords M readStart).take 96) n by
      obtain ⟨start, t, hat, n, hn⟩ := hlate
      have hnew := (h start).2 t hat
      rw [hn.operands] at hnew
      exact operandsOf_inj hlen (by simp) hnew
    by_cases hfresh : s.Fresh
    · obtain ⟨u, hu⟩ := (h 0).1
      refine ⟨0, u, hu, ?_⟩
      rcases run_fresh hs.started (hcpu 0) hreads hfresh u with hf | ⟨-, hn⟩ | ha
      · rw [hf.loadsAt] at hu
        cases hu
      · exact hn
      · rw [ha.loadsAt] at hu
        cases hu
    · have hdelay : s.rsa.resetNDelay = true := by
        by_contra hoff
        exact hfresh (Or.inl (by simpa using hoff))
      obtain ⟨u, hu⟩ := (h 0).1
      have hnotAfter : ¬ s.AfterLoad := by
        intro hafter
        have hrun := run_afterLoad (M := M) (t := 0) hs.started (hcpu 0) hafter (Nat.zero_le u)
        rw [hrun.loadsAt] at hu
        cases hu
      have hstate : s.rsa.state = .load := by
        cases hst : s.rsa.state with
        | idle => exact absurd (Or.inr ⟨hst, by rw [hload, hst]; rfl⟩) hfresh
        | load => rfl
        | busy => exact absurd ⟨hdelay, Or.inl hst, by rw [hload, hst]; rfl⟩ hnotAfter
        | finish => exact absurd ⟨hdelay, Or.inr hst, by rw [hload, hst]; rfl⟩ hnotAfter
      exact exists_late_load hs.started hfilling hlen ⟨hdelay, hstate, by rw [hload, hstate]; rfl⟩
  · intro hdelay
    obtain ⟨u, hu⟩ := (h 0).1
    cases hst : s.rsa.state with
    | idle => exact Or.inl rfl
    | load =>
      right
      refine ⟨rfl, ?_⟩
      have hd := hs.drain
      have hat : (run (Controller.step M) s (eager 0) 0).loadsAt (eager 0 0) = true := by
        show s.loadsAt (eager 0 0) = true
        simp [loadsAt, eager, unstalled, hload, hst, hdelay]
      rw [← (h 0).2 0 hat]
      exact operands_of_not_done (by show s.drain.readFifoDone = false; rw [hd]; rfl)
    | busy =>
      have hafter : s.AfterLoad := ⟨hdelay, Or.inl hst, by rw [hload, hst]; rfl⟩
      have hrun := run_afterLoad (M := M) (t := 0) hs.started (hcpu 0) hafter (Nat.zero_le u)
      rw [hrun.loadsAt] at hu
      cases hu
    | finish =>
      have hafter : s.AfterLoad := ⟨hdelay, Or.inr hst, by rw [hload, hst]; rfl⟩
      have hrun := run_afterLoad (M := M) (t := 0) hs.started (hcpu 0) hafter (Nat.zero_le u)
      rw [hrun.loadsAt] at hu
      cases hu

end

/-- Exactly when the job after a restart is loaded with its own words, for every
bus timing: `s` is any reachable state with the soft reset low and the registers of
the job programmed, `i` the edge that writes control 3. -/
theorem restart_isolated_iff (M : Word → Word) (s : Controller) (i : In) (hreach : Reachable s)
    (hreset : s.config.resetn = false) (hlength : s.config.length = 384)
    (hclk : i.sysClk = true) (hcpu : i.cpu = some (0, 3)) :
    (∀ j : ℕ → In, (∀ t, (j t).cpu = none) → RsaClock j →
        BusFair (run (Controller.step M) (s.step M i) j) j →
        LoadsNew M s.config.readStart (run (Controller.step M) (s.step M i) j) j) ↔
      (s.step M i).Isolated M s.config.readStart := by
  have hrestarted := restarted_of_init (M := M) hreset hclk hcpu hlength
  have hload := (hreach.step M i).load_iff
  constructor
  · intro h
    exact isolated_of_loadsNew hrestarted hload fun start =>
      h (eager start) (fun _ => rfl) (eager_rsaClock start) (unstalled_fair _ _)
  · intro h j hj hjclk hfair
    exact h.loadsNew hrestarted hload hj hfair hjclk

/-- Hardware reset with all registers zero. -/
def powerUp : Controller where
  config := ⟨0, 0, 0, 0⟩
  read := ⟨MasterRead.reset, ⟨[], 0⟩, []⟩
  drain := ⟨.poll, 0, false, false, fun _ => 0⟩
  rsa := ⟨false, false, .idle, false, 0⟩
  write := ⟨.start, 0, 0, false, 0⟩
  loads := []
  writes := []

theorem powerUp_reset : HardwareReset powerUp := by
  constructor <;> rfl

/-- One edge of both clocks on an idle bus, with a register write. -/
def cpuEdge (w : Option Config.Write) : In where
  sysClk := true
  rsaClk := true
  cpu := w
  waitRead := false
  answer := false
  waitWrite := false
  rsaValid := false
  rsaData := 0

/-- States after a sequence of register writes and idle edges. -/
def afterEdges (M : Word → Word) (s : Controller) (l : List (Option Config.Write)) : Controller :=
  l.foldl (fun s w => s.step M (cpuEdge w)) s

theorem Reachable.afterEdges (M : Word → Word) (l : List (Option Config.Write))
    (h : Reachable s) : Reachable (s.afterEdges M l) := by
  induction l generalizing s with
  | nil => exact h
  | cons w l ih => exact ih (h.step M (cpuEdge w))

/-- The first job after a hardware reset is isolated. -/
theorem restart_isolated_iff_powerUp :
    ((powerUp.afterEdges id [some (3, 384)]).step id (cpuEdge (some (0, 3)))).Isolated id 0 ∧
      ∀ j : ℕ → In, (∀ t, (j t).cpu = none) → RsaClock j →
        BusFair (run (Controller.step id)
          ((powerUp.afterEdges id [some (3, 384)]).step id (cpuEdge (some (0, 3)))) j) j →
        LoadsNew id 0 (run (Controller.step id)
          ((powerUp.afterEdges id [some (3, 384)]).step id (cpuEdge (some (0, 3)))) j) j := by
  have hisolated : ((powerUp.afterEdges id [some (3, 384)]).step id
      (cpuEdge (some (0, 3)))).Isolated id 0 :=
    ⟨by decide +kernel, fun h => by cases h⟩
  exact ⟨hisolated, (restart_isolated_iff id (powerUp.afterEdges id [some (3, 384)])
    (cpuEdge (some (0, 3))) ((Reachable.start powerUp_reset).afterEdges id _) rfl rfl rfl rfl).mpr
    hisolated⟩

/-- A job interrupted with its first read under way: length, control 3, three
cycles, control 0. -/
def interrupted : Controller :=
  powerUp.afterEdges id [some (3, 384), some (0, 3), none, none, none, some (0, 0)]

/-- After `interrupted` the core is loaded with a word of the old job. -/
theorem interrupted_not_isolated :
    Reachable interrupted ∧ interrupted.config.resetn = false ∧
      interrupted.config.length = 384 ∧
      ∃ j : ℕ → In, (∀ t, (j t).cpu = none) ∧ RsaClock j ∧
        BusFair (run (Controller.step id) (interrupted.step id (cpuEdge (some (0, 3)))) j) j ∧
        ¬ LoadsNew id interrupted.config.readStart
          (run (Controller.step id) (interrupted.step id (cpuEdge (some (0, 3)))) j) j := by
  have hreach : Reachable interrupted := (Reachable.start powerUp_reset).afterEdges id _
  refine ⟨hreach, rfl, rfl, ?_⟩
  by_contra hall
  have hnew : ∀ start, LoadsNew id interrupted.config.readStart
      (run (Controller.step id) (interrupted.step id (cpuEdge (some (0, 3)))) (eager start))
      (eager start) := by
    intro start
    by_contra hbad
    exact hall ⟨eager start, fun _ => rfl, eager_rsaClock start, unstalled_fair _ _, hbad⟩
  have hisolated := isolated_of_loadsNew
    (restarted_of_init (M := id) (s := interrupted) (i := cpuEdge (some (0, 3))) rfl rfl rfl rfl)
    (hreach.step id (cpuEdge (some (0, 3)))).load_iff hnew
  have hwords : ¬ ((interrupted.step id (cpuEdge (some (0, 3)))).stale id ++
      newWords id interrupted.config.readStart).take 96 =
      newWords id interrupted.config.readStart := by
    decide +kernel
  exact hwords hisolated.1

end Controller

end SocCrypto.Rsa

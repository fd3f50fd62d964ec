import SocCrypto.Rsa.Accelerator
import SocCrypto.Dma.Memory

/-!
# The RSA accelerator and its memory

The memory that answers the read master is the one the write master changes. No word of the
result is written before the core is loaded, and what is read after that has no influence any
more, so a job leaves the power of the operands that memory held at its start.
-/

namespace SocCrypto.Rsa
open Dma Clocked

/-! ### Data that no longer matter -/

/-- Equal but for the words stored. -/
structure FifoToMem.Alike (d d' : FifoToMem) : Prop where
  state : d.state = d'.state
  counter : d.counter = d'.counter
  fifoRead : d.fifoRead = d'.fifoRead
  readFifoDone : d.readFifoDone = d'.readFifoDone

theorem FifoToMem.Alike.next {d d' : FifoToMem} (h : d.Alike d') (resetn empty : Bool)
    (q q' : Word) : (d.next resetn empty q).Alike (d'.next resetn empty q') := by
  obtain ⟨state, counter, fifoRead, done, mem⟩ := d
  obtain ⟨state', counter', fifoRead', done', mem'⟩ := d'
  obtain ⟨rfl, rfl, rfl, rfl⟩ := h
  cases resetn with
  | false => exact ⟨rfl, rfl, rfl, rfl⟩
  | true =>
    cases state with
    | poll => cases empty <;> cases done <;> exact ⟨rfl, rfl, rfl, rfl⟩
    | request => exact ⟨rfl, rfl, rfl, rfl⟩
    | store =>
      by_cases hlast : counter + 1 = 96 <;>
        simp only [FifoToMem.next, Bool.not_true, Bool.false_eq_true, if_false, hlast, if_true] <;>
        exact ⟨rfl, rfl, rfl, rfl⟩
    | finish => exact ⟨rfl, rfl, rfl, rfl⟩

/-- Equal but for the words in the FIFO and on its output. -/
structure ReadAlike (p p' : ReadPath) : Prop where
  master : p.master = p'.master
  inflight : p.inflight = p'.inflight
  used : p.fifo.words.length = p'.fifo.words.length

theorem ReadAlike.full {p p' : ReadPath} (h : ReadAlike p p') : p.fifo.full = p'.fifo.full := by
  rw [Fifo.full, Fifo.full, h.used]

theorem ReadAlike.empty {p p' : ReadPath} (h : ReadAlike p p') : p.fifo.empty = p'.fifo.empty := by
  rw [Bool.eq_iff_iff, Fifo.empty, Fifo.empty, List.isEmpty_iff_length_eq_zero,
    List.isEmpty_iff_length_eq_zero, h.used]

theorem ReadAlike.next {p p' : ReadPath} (h : ReadAlike p p') (M M' : Word → Word)
    (i : ReadPath.In) : ReadAlike (p.next M i) (p'.next M' i) := by
  constructor
  case master => rw [ReadPath.next, ReadPath.next, h.master, h.full]
  case inflight => rw [ReadPath.next, ReadPath.next, h.master, h.inflight]
  case used =>
    have hused := h.used
    have hfull := h.full
    simp only [ReadPath.next, Fifo.next, h.inflight]
    cases i.aclr <;> cases i.rdreq <;> cases i.answer && !p'.inflight.isEmpty <;>
      cases hroom : p'.fifo.full <;> simp [hfull, hused, hroom]

namespace Controller

/-- Equal but for the words on the way into the operand memory and in it. -/
structure Alike (s s' : Controller) : Prop where
  config : s.config = s'.config
  read : ReadAlike s.read s'.read
  drain : s.drain.Alike s'.drain
  rsa : s.rsa = s'.rsa
  write : s.write = s'.write
  loads : s.loads = s'.loads
  writes : s.writes = s'.writes

theorem Alike.refl (s : Controller) : Alike s s :=
  ⟨rfl, ⟨rfl, rfl, rfl⟩, ⟨rfl, rfl, rfl, rfl⟩, rfl, rfl, rfl, rfl⟩

section
variable {s s' : Controller} {i : In}

/-- Only a load looks at the words. -/
theorem Alike.step (h : Alike s s') (hoff : s.loadsAt i = false) (M M' : Word → Word) :
    Alike (s.step M i) (s'.step M' i) := by
  have hin : s.readIn i = s'.readIn i := by rw [readIn, readIn, h.config, h.drain.fifoRead]
  have hoff' : s'.loadsAt i = false := by
    rw [loadsAt, ← h.rsa]
    exact hoff
  constructor
  case config => rw [step_config, step_config, h.config]
  case read =>
    rw [step_read, step_read, hin]
    cases i.sysClk
    · exact h.read
    · exact h.read.next M M' _
  case drain =>
    rw [step_drain, step_drain, h.config, h.read.empty]
    cases i.sysClk
    · exact h.drain
    · exact h.drain.next _ _ _ _
  case rsa => rw [step_rsa, step_rsa, h.config, h.drain.readFifoDone, h.rsa]
  case write =>
    rw [step_write, step_write, h.config, h.rsa, h.write, endAddressWrite, endAddressWrite,
      h.config]
  case loads =>
    rw [step_loads, step_loads, ← loadsAt, ← loadsAt, hoff, hoff', h.loads]
    rfl
  case writes => rw [step_writes, step_writes, h.write, h.writes]

/-! ### Writes come after the load -/

/-- A write is on the bus only after the load of the core. -/
structure Ordered (s : Controller) : Prop where
  phase : s.Fresh ∨ s.Loading ∨ s.AfterLoad
  done : s.rsa.done = true → s.AfterLoad
  write : s.write.state ≠ .start → s.rsa.done = true
  oWrite : s.write.oWrite = true → s.write.state ≠ .start

theorem HardwareReset.ordered (h : s.HardwareReset) : s.Ordered := by
  refine ⟨Or.inl (Or.inl h.delay), ?_, ?_, ?_⟩
  · rw [h.rsaDone]
    exact fun hup => absurd hup Bool.false_ne_true
  · rw [h.write]
    exact fun hne => absurd rfl hne
  · rw [h.write]
    exact fun hup => absurd hup Bool.false_ne_true

theorem Ordered.afterLoad (h : s.Ordered) (hwrite : s.write.oWrite = true) : s.AfterLoad :=
  h.done (h.write (h.oWrite hwrite))

theorem Ordered.afterLoad_of_done (h : s.Ordered) (M : Word → Word)
    (hdone : (s.step M i).rsa.done = true) : s.AfterLoad := by
  by_cases hnow : s.rsa.done = true
  · exact h.done hnow
  · rcases h.phase with hf | hl | ha
    · rcases hf with hd | ⟨hst, -⟩
      · cases hclk : i.rsaClk <;> simp [step_rsa, hclk, RsaFsm.next, hd, hnow] at hdone
      · cases hclk : i.rsaClk <;> cases hd : s.rsa.resetNDelay <;>
          cases hfull : s.drain.readFifoDone <;>
          simp [step_rsa, hclk, RsaFsm.next, hd, hst, hfull, hnow] at hdone
    · cases hclk : i.rsaClk <;>
        simp [step_rsa, hclk, RsaFsm.next, hl.delay, hl.state, hnow] at hdone
    · exact ha

theorem AfterLoad.done_step (h : s.AfterLoad) (hdone : s.rsa.done = true) (M : Word → Word) :
    (s.step M i).rsa.done = true := by
  cases hclk : i.rsaClk
  · simp [step_rsa, hclk, hdone]
  · rcases h.state with hst | hst
    · cases hvalid : i.rsaValid <;> simp [step_rsa, hclk, RsaFsm.next, h.delay, hst, hvalid, hdone]
    · simp [step_rsa, hclk, RsaFsm.next, h.delay, hst, hdone]

theorem oWrite_next {m : MasterWrite 5} (h : m.oWrite = true → m.state ≠ .start) (startWrite : Bool)
    (writeStart endAddress : Word) (value : BitVec 1024) (wait : Bool) :
    (m.next true startWrite writeStart endAddress value wait).oWrite = true →
      (m.next true startWrite writeStart endAddress value wait).state ≠ .start := by
  cases hs : m.state with
  | start =>
    rw [MasterWrite.next_start hs]
    cases startWrite
    · exact h
    · exact fun _ => by simp
  | raise =>
    rw [MasterWrite.next_raise hs]
    exact fun _ => by simp
  | accept =>
    rw [MasterWrite.next_accept hs]
    cases wait
    · exact fun _ => by simp
    · exact h
  | check =>
    rw [MasterWrite.next_check hs]
    split
    · exact h
    · exact fun _ => by simp

theorem Ordered.step (h : s.Ordered) (hresetn : s.config.resetn = true) (M : Word → Word) :
    (s.step M i).Ordered := by
  constructor
  case phase =>
    rcases h.phase with hf | hl | ha
    · rcases hf.step (M := M) (i := i) hresetn with hf' | ⟨hl', -⟩
      · exact Or.inl hf'
      · exact Or.inr (Or.inl hl')
    · have hnext := hl.step (M := M) (i := i) hresetn
      cases hclk : i.rsaClk
      · rw [hclk] at hnext
        exact Or.inr (Or.inl hnext)
      · rw [hclk] at hnext
        exact Or.inr (Or.inr hnext)
    · exact Or.inr (Or.inr (ha.step hresetn))
  case done => exact fun hdone => (h.afterLoad_of_done M hdone).step hresetn
  case write =>
    intro hne
    have hdone : s.rsa.done = true := by
      by_contra hnot
      have hidle : s.write.state = .start := by
        by_contra hne'
        exact hnot (h.write hne')
      refine hne ?_
      rw [step_write, hresetn, MasterWrite.next_start hidle, Bool.eq_false_iff.mpr hnot]
      cases i.sysClk <;> exact hidle
    exact (h.done hdone).done_step hdone M
  case oWrite =>
    rw [step_write, hresetn]
    cases i.sysClk
    · exact h.oWrite
    · exact oWrite_next h.oWrite _ _ _ _ _

end

end Controller

/-- Without a load pulse the operands do not matter. -/
theorem PowModMon1024.next_congr (s : PowModMon1024) {i j : PowModMon1024.In}
    (henable : i.iEnable = j.iEnable) (hi : i.iLoad = false) (hj : j.iLoad = false) :
    s.next i = s.next j := by
  simp only [next, henable, hi, hj, Bool.false_eq_true, if_false]

/-! ### The system -/

structure System where
  accelerator : Accelerator
  memory : Word → Word

namespace System

/-- The bus takes the word of the write master. -/
def accepts (s : System) (i : Accelerator.In) : Bool :=
  i.sysClk && s.accelerator.controller.write.oWrite && !i.waitWrite

def step (s : System) (i : Accelerator.In) : System where
  accelerator := s.accelerator.step s.memory i
  memory :=
    if s.accepts i then
      Function.update s.memory s.accelerator.controller.write.oAddress
        s.accelerator.controller.write.oData
    else s.memory

def after (s : System) (i : ℕ → Accelerator.In) : ℕ → System := run step s i

/-- What the controller sees in a run. -/
def seen (s : System) (i : ℕ → Accelerator.In) (t : ℕ) : Controller.In :=
  (after s i t).accelerator.controllerIn (i t)

/-- A job on a system that has written nothing: the conditions are those of `Accelerator.Job`. -/
structure Job (s : System) (i : ℕ → Accelerator.In) (T : ℕ) (readStart writeStart : Word) :
    Prop where
  reset : Controller.HardwareReset s.accelerator.controller
  low : ∀ t < T, (after s i t).accelerator.controller.config.resetn = false
  edge : ∃ t < T, Accelerator.Edge i t
  started : (after s i T).accelerator.controller.Started readStart writeStart
  cpu : ∀ t ≥ T, (i t).cpu = none
  fair : Controller.BusFair (fun t => (after s i t).accelerator.controller) (seen s i)
  clock : ∀ t, ∃ u ≥ t, Accelerator.Edge i u

/-- How the system keeps up with an accelerator whose memory does not change. -/
inductive Follows (M : Word → Word) (s : System) (x : Accelerator) : Prop
  | same : s.accelerator = x → s.memory = M → x.controller.writes = [] → Follows M s x
  | ahead : Controller.Alike s.accelerator.controller x.controller → s.accelerator.core = x.core →
      x.controller.AfterLoad → Follows M s x

section
variable {M : Word → Word} {s : System} {x : Accelerator} {i : Accelerator.In}

theorem Follows.alike (h : Follows M s x) :
    Controller.Alike s.accelerator.controller x.controller ∧ s.accelerator.core = x.core := by
  cases h with
  | same heq _ _ =>
    rw [heq]
    exact ⟨.refl _, rfl⟩
  | ahead halike hcore _ => exact ⟨halike, hcore⟩

theorem Follows.step (h : Follows M s x)
    (hwrite : x.controller.write.oWrite = true → (x.step M i).controller.AfterLoad)
    (hafter : x.controller.AfterLoad → (x.step M i).controller.AfterLoad) :
    Follows M (s.step i) (x.step M i) := by
  cases h with
  | same heq hmemory hwrites =>
    have hnext : (s.step i).accelerator = x.step M i := by rw [System.step, heq, hmemory]
    cases haccepts : s.accepts i
    · refine .same hnext ?_ ?_
      · rw [System.step, haccepts]
        exact hmemory
      · show (x.controller.step M (x.controllerIn i)).writes = []
        rw [accepts, heq] at haccepts
        have hnone : ((x.controllerIn i).sysClk && x.controller.write.oWrite &&
          !(x.controllerIn i).waitWrite) = false := haccepts
        rw [Controller.step_writes, hnone, hwrites]
        rfl
    · simp only [accepts, heq, Bool.and_eq_true] at haccepts
      refine .ahead ?_ ?_ (hwrite haccepts.1.2)
      · rw [hnext]
        exact .refl _
      · rw [hnext]
  | ahead halike hcore hload =>
    have hin : s.accelerator.controllerIn i = x.controllerIn i := by
      rw [Accelerator.controllerIn, Accelerator.controllerIn, hcore]
    have hoff : s.accelerator.controller.loadsAt (s.accelerator.controllerIn i) = false := by
      rw [Controller.loadsAt, halike.rsa]
      exact hload.loadsAt _
    refine .ahead ?_ ?_ (hafter hload)
    · have hnext := halike.step hoff s.memory M
      rw [hin] at hnext
      show Controller.Alike (s.accelerator.controller.step s.memory (s.accelerator.controllerIn i)) _
      rw [hin]
      exact hnext
    · show (if i.rsaClk then s.accelerator.core.next s.accelerator.coreIn else s.accelerator.core) =
        if i.rsaClk then x.core.next x.coreIn else x.core
      rw [hcore]
      have hlow : x.coreIn.iLoad = false := hload.load
      have hlow' : s.accelerator.coreIn.iLoad = false := by
        rw [Accelerator.coreIn, halike.rsa]
        exact hload.load
      have henable : s.accelerator.coreIn.iEnable = x.coreIn.iEnable := by
        rw [Accelerator.coreIn, Accelerator.coreIn, halike.rsa]
      rw [PowModMon1024.next_congr x.core henable hlow' hlow]

end

/-! ### A job with its memory -/

section
variable {s : System} {i : ℕ → Accelerator.In} {T : ℕ} {readStart writeStart : Word}

/-- The accelerator over the memory of the start. -/
abbrev frozen (s : System) (i : ℕ → Accelerator.In) : ℕ → Accelerator :=
  Accelerator.after s.memory s.accelerator i

/-- The two runs side by side, with what the accelerator is like before and after cycle `T`. -/
structure Beside (s : System) (i : ℕ → Accelerator.In) (T : ℕ) (readStart writeStart : Word)
    (t : ℕ) : Prop where
  follows : Follows s.memory (after s i t) (frozen s i t)
  before : t ≤ T → (frozen s i t).controller.HardwareReset
  ordered : T ≤ t → (frozen s i t).controller.Ordered
  started : T ≤ t → (frozen s i t).controller.Started readStart writeStart

theorem Job.beside (h : Job s i T readStart writeStart) (t : ℕ) :
    Beside s i T readStart writeStart t := by
  have hstart : ∀ {t : ℕ}, T ≤ t → Follows s.memory (after s i t) (frozen s i t) →
      (T < t → (frozen s i t).controller.Started readStart writeStart) →
        (frozen s i t).controller.Started readStart writeStart := by
    intro t ht hf hlater
    rcases Nat.lt_or_eq_of_le ht with hlt | rfl
    · exact hlater hlt
    · have hconfig := hf.alike.1.config
      have hs := h.started
      exact ⟨by rw [← hconfig]; exact hs.control, by rw [← hconfig]; exact hs.readStart,
        by rw [← hconfig]; exact hs.writeStart, by rw [← hconfig]; exact hs.length⟩
  induction t with
  | zero =>
    have hf : Follows s.memory (after s i 0) (frozen s i 0) := .same rfl rfl h.reset.writes
    exact ⟨hf, fun _ => h.reset, fun _ => h.reset.ordered, fun ht => hstart ht hf (by omega)⟩
  | succ t ih =>
    obtain ⟨hf, hbefore, hordered, hstarted⟩ := ih
    have hstep : frozen s i (t + 1) = (frozen s i t).step s.memory (i t) := rfl
    have hlive : after s i (t + 1) = (after s i t).step (i t) := rfl
    rcases Nat.lt_or_ge t T with hlt | hge
    · -- under the soft reset nothing is written
      have hreset := hbefore hlt.le
      have hlow : (frozen s i t).controller.config.resetn = false := by
        rw [← hf.alike.1.config]
        exact h.low t hlt
      have hnext : (frozen s i (t + 1)).controller.HardwareReset := by
        rw [hstep]
        exact hreset.step hlow
      have hidle : (frozen s i t).controller.write.oWrite = false := by
        rw [hreset.write]
        rfl
      have hf' : Follows s.memory (after s i (t + 1)) (frozen s i (t + 1)) := by
        rw [hstep, hlive]
        refine hf.step (fun hup => ?_) fun ha => ?_
        · rw [hidle] at hup
          cases hup
        · exact absurd (hreset.delay.symm.trans ha.delay) Bool.false_ne_true
      exact ⟨hf', fun _ => hnext, fun _ => hnext.ordered, fun ht => hstart ht hf' (by omega)⟩
    · have hs := hstarted hge
      have ho := hordered hge
      have hafter : (frozen s i t).controller.AfterLoad →
          ((frozen s i t).step s.memory (i t)).controller.AfterLoad := fun ha => ha.step hs.resetn
      refine ⟨?_, fun ht => absurd ht (by omega), fun _ => ?_, fun _ => ?_⟩
      · rw [hstep, hlive]
        exact hf.step (fun hup => hafter (ho.afterLoad hup)) hafter
      · rw [hstep]
        exact ho.step hs.resetn s.memory
      · rw [hstep]
        exact hs.next (h.cpu t hge)

/-- The bus cannot tell the two runs apart. -/
theorem Job.frozen (h : Job s i T readStart writeStart) :
    Accelerator.Job s.memory s.accelerator i T readStart writeStart := by
  have halike : ∀ t, Controller.Alike (after s i t).accelerator.controller
      (System.frozen s i t).controller := fun t => (h.beside t).follows.alike.1
  refine ⟨h.reset, fun t ht => ?_, h.edge, (h.beside T).started le_rfl, h.cpu, ?_, h.clock⟩
  · rw [← (halike t).config]
    exact h.low t ht
  · constructor
    case grantRead =>
      intro t
      obtain ⟨u, hu, hclk, hgrant⟩ := h.fair.grantRead t
      rw [(halike u).read.master] at hgrant
      exact ⟨u, hu, hclk, hgrant⟩
    case answer =>
      intro t
      obtain ⟨u, hu, hclk, hanswer⟩ := h.fair.answer t
      rw [(halike u).read.inflight] at hanswer
      exact ⟨u, hu, hclk, hanswer⟩
    case grantWrite =>
      intro t
      obtain ⟨u, hu, hclk, hgrant⟩ := h.fair.grantWrite t
      rw [(halike u).write] at hgrant
      exact ⟨u, hu, hclk, hgrant⟩

/-- Memory holds what it held at the start and the writes made since. -/
theorem memory_eq (hnone : s.accelerator.controller.writes = []) (t : ℕ) :
    (after s i t).memory = stored s.memory (after s i t).accelerator.controller.writes := by
  induction t with
  | zero =>
    show s.memory = stored s.memory s.accelerator.controller.writes
    rw [hnone]
    rfl
  | succ t ih =>
    show (if (after s i t).accepts (i t) then _ else (after s i t).memory) =
      stored s.memory ((after s i t).accelerator.controller.step (after s i t).memory
        (seen s i t)).writes
    rw [Controller.step_writes]
    show _ = stored s.memory (if (after s i t).accepts (i t) then _ else _)
    cases (after s i t).accepts (i t)
    · exact ih
    · rw [if_pos rfl, if_pos rfl, stored_append, ← ih]
      rfl

theorem wordsValue_resultWord {n : ℕ} (v : BitVec n) (k j : ℕ) :
    wordsValue ((List.range k).map fun l => resultWord v (j + l)) =
      v.toNat / 2 ^ (32 * j) % 2 ^ (32 * k) := by
  induction k generalizing j with
  | zero => simp [wordsValue, Nat.mod_one]
  | succ k ih =>
    have hshift : (fun l => resultWord v (j + l)) ∘ Nat.succ = fun l => resultWord v (j + 1 + l) := by
      funext l
      rw [Function.comp_apply, show j + Nat.succ l = j + 1 + l by omega]
    have hword : (resultWord v j).toNat = v.toNat / 2 ^ (32 * j) % 2 ^ 32 := by
      rw [resultWord, BitVec.toNat_setWidth, BitVec.toNat_ushiftRight, Nat.shiftRight_eq_div_pow]
    have hdiv : v.toNat / 2 ^ (32 * (j + 1)) = v.toNat / 2 ^ (32 * j) / 2 ^ 32 := by
      rw [Nat.div_div_eq_div_mul, ← pow_add, Nat.mul_succ]
    have hpow : (2 : ℕ) ^ (32 * (k + 1)) = 2 ^ 32 * 2 ^ (32 * k) := by
      rw [← pow_add, Nat.mul_succ, Nat.add_comm]
    rw [List.range_succ_eq_map, List.map_cons, List.map_map, hshift]
    show (resultWord v (j + 0)).toNat + 2 ^ 32 * wordsValue _ = _
    rw [Nat.add_zero, ih, hword, hdiv, hpow, Nat.mod_mul]

theorem ofNat_wordsValue_resultWord (v : BitVec 1024) :
    BitVec.ofNat 1024 (wordsValue ((List.range 32).map (resultWord v))) = v := by
  have hvalue := wordsValue_resultWord v 32 0
  simp only [Nat.zero_add, Nat.mul_zero, pow_zero, Nat.div_one] at hvalue
  refine BitVec.eq_of_toNat_eq ?_
  rw [show (fun l => resultWord v l) = resultWord v from rfl] at hvalue
  rw [hvalue, BitVec.toNat_ofNat, Nat.mod_eq_of_lt (Nat.mod_lt _ (Nat.two_pow_pos _)),
    Nat.mod_eq_of_lt v.isLt]

/-- The words of a result are read back as the result. -/
theorem storedInteger_stored (M : Word → Word) (a : Word) (v : BitVec 1024) :
    storedInteger (stored M (resultWrites a v 32)) a = v := by
  have hread : (addresses a 32).map (stored M (resultWrites a v 32)) =
      (List.range 32).map (resultWord v) := by
    rw [addresses, List.map_map]
    refine List.map_congr_left fun k hk => ?_
    exact stored_block M a (by decide) (resultWord v) (List.mem_range.mp hk)
  rw [storedInteger, hread, ofNat_wordsValue_resultWord]

/-- The words of a stored integer are those it was read from. -/
theorem resultWord_storedInteger (M : Word → Word) (a : Word) {k : ℕ} (hk : k < 32) :
    resultWord (storedInteger M a) k = M (a + BitVec.ofNat 32 (4 * k)) := by
  have hsame : (List.range 32).map (resultWord (storedInteger M a)) = (addresses a 32).map M :=
    ofNat_wordsValue_inj (by simp) (by simp) (ofNat_wordsValue_resultWord (storedInteger M a))
  have hword := congrArg (fun l => l[k]?) hsame
  simpa [addresses, hk] using hword

/-- What a job does to memory in the end, and at no time elsewhere. -/
theorem Job.memory (h : Job s i T readStart writeStart)
    (hfit : Accelerator.Fit (Accelerator.operandsAt s.memory readStart)) :
    (∃ t₀, ∀ t ≥ t₀, (after s i t).memory = stored s.memory (resultWrites writeStart
        (Accelerator.power (Accelerator.operandsAt s.memory readStart)) 32)) ∧
      ∀ t x, (∀ k < 32, writeStart + BitVec.ofNat 32 (4 * k) ≠ x) →
        (after s i t).memory x = s.memory x := by
  have halike : ∀ t, (after s i t).accelerator.controller.writes =
      (System.frozen s i t).controller.writes := fun t => (h.beside t).follows.alike.1.writes
  obtain ⟨⟨t₀, hend⟩, hpart⟩ := h.frozen.writes_power hfit
  refine ⟨⟨t₀, fun t ht => ?_⟩, fun t x hx => ?_⟩
  · rw [memory_eq h.reset.writes, halike, hend t ht]
  · rw [memory_eq h.reset.writes, halike]
    refine stored_of_notMem _ fun w hw => ?_
    obtain ⟨k, hk, rfl⟩ := List.mem_map.mp ((hpart t).subset hw)
    exact hx k (List.mem_range.mp hk)

/-- A job leaves `A ^ B % N` at its write address, of the integers that memory held at its read
address, and touches no other word on the way. -/
theorem job_leaves_power (h : Job s i T readStart writeStart)
    (hfit : Accelerator.Fit (Accelerator.operandsAt s.memory readStart)) :
    (∃ t₀, ∀ t ≥ t₀, storedInteger (after s i t).memory writeStart =
        Accelerator.power (Accelerator.operandsAt s.memory readStart)) ∧
      ∀ t x, (∀ k < 32, writeStart + BitVec.ofNat 32 (4 * k) ≠ x) →
        (after s i t).memory x = s.memory x := by
  obtain ⟨⟨t₀, hend⟩, hother⟩ := h.memory hfit
  refine ⟨⟨t₀, fun t ht => ?_⟩, hother⟩
  rw [hend t ht, storedInteger_stored]

/-! ### A job from power-up -/

/-- Length, write address, control 3, then a bus that never waits; both clocks run. -/
def firstJob : ℕ → Accelerator.In
  | 0 => ⟨true, true, some (3, 384), false, false, false⟩
  | 1 => ⟨true, true, some (2, 512), false, false, false⟩
  | 2 => ⟨true, true, some (0, 3), false, false, false⟩
  | _ + 3 => ⟨true, true, none, false, true, false⟩

/-- All registers zero. -/
def powerUp (M : Word → Word) : System := ⟨⟨Controller.powerUp, PowModMon1024.cleared⟩, M⟩

theorem firstJob_later {t : ℕ} (ht : 3 ≤ t) :
    firstJob t = ⟨true, true, none, false, true, false⟩ := by
  obtain ⟨u, rfl⟩ := Nat.exists_eq_add_of_le' ht
  rfl

theorem job_powerUp (M : Word → Word) : Job (powerUp M) firstJob 3 0 512 := by
  have hlater : ∀ t, ∃ u ≥ t, 3 ≤ u := fun t => ⟨max t 3, le_max_left _ _, le_max_right _ _⟩
  refine ⟨Controller.powerUp_reset, fun t ht => ?_, ⟨0, by decide, rfl⟩, ⟨rfl, rfl, rfl, rfl⟩,
    fun t ht => ?_, ?_, fun t => ?_⟩
  · have hcases : t = 0 ∨ t = 1 ∨ t = 2 := by omega
    have hcontrol : (after (powerUp M) firstJob t).accelerator.controller.config.control = 0 := by
      rcases hcases with rfl | rfl | rfl <;> rfl
    rw [Config.resetn, hcontrol]
    rfl
  · rw [firstJob_later ht]
  · constructor
    case grantRead =>
      intro t
      obtain ⟨u, hu, hlate⟩ := hlater t
      exact ⟨u, hu, by simp [seen, Accelerator.controllerIn, firstJob_later hlate]⟩
    case answer =>
      intro t
      obtain ⟨u, hu, hlate⟩ := hlater t
      exact ⟨u, hu, by simp [seen, Accelerator.controllerIn, firstJob_later hlate]⟩
    case grantWrite =>
      intro t
      obtain ⟨u, hu, hlate⟩ := hlater t
      exact ⟨u, hu, by simp [seen, Accelerator.controllerIn, firstJob_later hlate]⟩
  · obtain ⟨u, hu, hlate⟩ := hlater t
    exact ⟨u, hu, by rw [Accelerator.Edge, firstJob_later hlate]⟩

/-- Memory with three small integers in the operand window. -/
def operandMemory (A B N : Word) : Word → Word := fun a =>
  if a = 0 then A else if a = 128 then B else if a = 256 then N else 0

theorem job_leaves_power_five :
    ∃ t₀, ∀ t ≥ t₀, storedInteger (after (powerUp (operandMemory 5 3 7)) firstJob t).memory 512 =
      6#1024 := by
  have hoperands : Accelerator.operandsAt (operandMemory 5 3 7) 0 = (5#1024, 3#1024, 7#1024) := by
    decide +kernel
  have hfit : Accelerator.Fit (Accelerator.operandsAt (operandMemory 5 3 7) 0) := by
    rw [hoperands]
    exact ⟨by decide +kernel, by decide +kernel, by decide +kernel, by decide +kernel⟩
  obtain ⟨⟨t₀, h⟩, -⟩ := job_leaves_power (job_powerUp (operandMemory 5 3 7)) hfit
  refine ⟨t₀, fun t ht => (h t ht).trans ?_⟩
  show Accelerator.power (Accelerator.operandsAt (operandMemory 5 3 7) 0) = _
  rw [hoperands]
  decide +kernel

/-- Two jobs whose exponents undo each other modulo their common modulus: the second one, run on
the 32 words that the first one left, restores the words that the first one was given. -/
theorem inverse_job_restores {s' : System} {i' : ℕ → Accelerator.In} {T' t : ℕ}
    {readStart' writeStart' : Word} {A e d N : BitVec 1024} (h : Job s i T readStart writeStart)
    (h' : Job s' i' T' readStart' writeStart')
    (hoperands : Accelerator.operandsAt s.memory readStart = (A, e, N))
    (hkey : PowerInverse.KeyPair N.toNat e.toNat d.toNat) (hodd : N.toNat % 2 = 1)
    (h1 : 1 < N.toNat) (hN : N.toNat < 2 ^ 1023) (hA : A.toNat < N.toNat)
    (hended : (after s i t).accelerator.controller.writes.length = 32)
    (hcopied : ∀ k < 32, s'.memory (readStart' + BitVec.ofNat 32 (4 * k)) =
      (after s i t).memory (writeStart + BitVec.ofNat 32 (4 * k)))
    (hoperands' : (Accelerator.operandsAt s'.memory readStart').2 = (d, N)) :
    ∃ t₀, ∀ u ≥ t₀, ∀ k < 32, (after s' i' u).memory (writeStart' + BitVec.ofNat 32 (4 * k)) =
      s.memory (readStart + BitVec.ofNat 32 (4 * k)) := by
  have hpos := hkey.pos
  have hfit : Accelerator.Fit (A, e, N) := ⟨hodd, h1, hN, Nat.pos_of_mul_pos_right hpos⟩
  rw [← hoperands] at hfit
  have hpower : Accelerator.power (A, e, N) = BitVec.ofNat 1024 (A.toNat ^ e.toNat % N.toNat) := rfl
  have hlt : A.toNat ^ e.toNat % N.toNat < 2 ^ 1024 := lt_trans (Nat.mod_lt _ (by omega)) N.isLt
  -- the second job is given the power
  have hwritten : (after s i t).memory =
      stored s.memory (resultWrites writeStart (Accelerator.power (A, e, N)) 32) := by
    have hprefix := (h.frozen.writes_power hfit).2 t
    rw [← (h.beside t).follows.alike.1.writes, hoperands] at hprefix
    rw [memory_eq h.reset.writes, hprefix.eq_of_length (by rw [hended, resultWrites]; simp)]
  have hgiven : storedInteger s'.memory readStart' = Accelerator.power (A, e, N) := by
    rw [← storedInteger_stored s.memory writeStart (Accelerator.power (A, e, N)), ← hwritten,
      storedInteger, storedInteger, addresses, addresses, List.map_map, List.map_map]
    congr 2
    exact List.map_congr_left fun k hk => hcopied k (List.mem_range.mp hk)
  have hall : Accelerator.operandsAt s'.memory readStart' =
      (Accelerator.power (A, e, N), d, N) := Prod.ext hgiven hoperands'
  have hfit' : Accelerator.Fit (Accelerator.operandsAt s'.memory readStart') := by
    rw [hall]
    exact ⟨hodd, h1, hN, Nat.pos_of_mul_pos_left hpos⟩
  have hback : Accelerator.power (Accelerator.power (A, e, N), d, N) = A := by
    refine BitVec.eq_of_toNat_eq ?_
    rw [Accelerator.power, hpower, BitVec.toNat_ofNat, BitVec.toNat_ofNat, Nat.mod_eq_of_lt hlt,
      hkey.power_power, Nat.mod_eq_of_lt hA, Nat.mod_eq_of_lt A.isLt]
  obtain ⟨⟨t₀, hend⟩, -⟩ := h'.memory hfit'
  refine ⟨t₀, fun u hu k hk => ?_⟩
  have hread := congrArg Prod.fst hoperands
  rw [hend u hu, hall, hback, ← resultWord_storedInteger s.memory readStart hk]
  show stored _ (block writeStart' 32 (resultWord A)) _ = _
  rw [stored_block _ _ (by decide) _ hk]
  exact congrArg (fun v => resultWord v k) hread.symm

theorem keyPair_fifteen : PowerInverse.KeyPair (15#1024).toNat (3#1024).toNat (3#1024).toNat := by
  have hN : (15#1024).toNat = 3 * 5 := by decide +kernel
  have he : (3#1024).toNat = 3 := by decide +kernel
  rw [hN, he]
  refine ⟨(Nat.squarefree_mul (by decide)).mpr
    ⟨Nat.prime_three.prime.squarefree, Nat.prime_five.prime.squarefree⟩, fun p hp hdvd => ?_,
    by decide⟩
  rcases (Nat.Prime.dvd_mul hp).mp hdvd with h3 | h5
  · rw [(Nat.prime_dvd_prime_iff_eq hp Nat.prime_three).mp h3]
  · rw [(Nat.prime_dvd_prime_iff_eq hp Nat.prime_five).mp h5]

/-- The integer 2 comes back after both jobs. -/
theorem inverse_job_restores_fifteen :
    ∃ s' : System, ∃ t₀, ∀ u ≥ t₀, (after s' firstJob u).memory 512 = 2 := by
  have hoperands : Accelerator.operandsAt (operandMemory 2 3 15) 0 =
      (2#1024, 3#1024, 15#1024) := by decide +kernel
  have hfit : Accelerator.Fit (Accelerator.operandsAt (operandMemory 2 3 15) 0) := by
    rw [hoperands]
    exact ⟨by decide +kernel, by decide +kernel, by decide +kernel, by decide +kernel⟩
  obtain ⟨⟨t, hend⟩, -⟩ := (job_powerUp (operandMemory 2 3 15)).frozen.writes_power hfit
  have hended : (after (powerUp (operandMemory 2 3 15)) firstJob
      t).accelerator.controller.writes.length = 32 := by
    rw [((job_powerUp (operandMemory 2 3 15)).beside t).follows.alike.1.writes]
    show (Accelerator.after _ _ _ t).controller.writes.length = 32
    rw [hend t le_rfl, resultWrites]
    simp
  -- the processor copies the result and leaves the exponent and the modulus as they are
  generalize hgiven : (after (powerUp (operandMemory 2 3 15)) firstJob t).memory = F
  let M' : Word → Word := fun a => if a.toNat < 128 then F (512 + a) else operandMemory 0 3 15 a
  have hcopied : ∀ k < 32, M' (0 + BitVec.ofNat 32 (4 * k)) = F (512 + BitVec.ofNat 32 (4 * k)) := by
    intro k hk
    have hlow : (0 + BitVec.ofNat 32 (4 * k) : Word).toNat < 128 := by
      rw [zero_add, BitVec.toNat_ofNat, Nat.mod_eq_of_lt (by omega)]
      omega
    show (if (0 + BitVec.ofNat 32 (4 * k) : Word).toNat < 128 then _ else _) = _
    rw [if_pos hlow, zero_add]
  have hkept : ∀ a : Word, 128 ≤ a.toNat → M' a = operandMemory 0 3 15 a := by
    intro a ha
    exact if_neg (Nat.not_lt.mpr ha)
  have hhigh : ∀ b ∈ [(128 : Word), 256], storedInteger M' (0 + b) =
      storedInteger (operandMemory 0 3 15) (0 + b) := by
    intro b hb
    rw [storedInteger, storedInteger]
    congr 2
    refine List.map_congr_left fun a ha => hkept a ?_
    obtain ⟨k, hk, rfl⟩ := List.mem_map.mp ha
    have hk' := List.mem_range.mp hk
    have hb' : 128 ≤ b.toNat ∧ b.toNat ≤ 256 := by
      simp only [List.mem_cons, List.not_mem_nil, or_false] at hb
      rcases hb with rfl | rfl <;> decide
    rw [zero_add, BitVec.toNat_add, BitVec.toNat_ofNat, Nat.mod_eq_of_lt (a := 4 * k) (by omega),
      Nat.mod_eq_of_lt (by omega)]
    omega
  have hoperands' : (Accelerator.operandsAt M' 0).2 = (3#1024, 15#1024) := by
    refine Prod.ext ((hhigh 128 (by decide)).trans ?_) ((hhigh 256 (by decide)).trans ?_) <;>
      decide +kernel
  obtain ⟨t₀, hback⟩ := inverse_job_restores (t := t) (job_powerUp (operandMemory 2 3 15))
    (job_powerUp M') hoperands keyPair_fifteen (by decide +kernel) (by decide +kernel)
    (by decide +kernel) (by decide +kernel) hended (by rw [hgiven]; exact hcopied) hoperands'
  exact ⟨powerUp M', t₀, fun u hu => hback u hu 0 (by decide)⟩

end

end System

end SocCrypto.Rsa

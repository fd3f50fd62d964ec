import SocCrypto.Rsa.Transfer

/-!
# Results across the two clock domains

The soft reset, `read_fifo_done` and `RSA_done` cross between `iSys_clk` and `iRSA_clk` without a
handshake. The masters see every low pulse of the soft reset, the state machine around the core
only one that its own clock samples; when the masters leave the reset with the old `RSA_done` up,
or with the old job still in the core, they write the old result. `Traced` adds to the
controller what the masters have read since they last saw the reset.
-/

namespace SocCrypto.Rsa
open Dma Clocked

/-- An edge of either clock or of both, with the memory content at that time. -/
structure Edge where
  memory : Word → Word
  io : Controller.In

/-- The controller with its history since the masters last saw the soft reset. -/
structure Traced where
  ctl : Controller
  /-- The masters saw the soft reset released at the last edge of `iSys_clk`. -/
  running : Bool
  /-- Addresses of the accepted reads. -/
  requested : List Word
  /-- Addresses and words of the answered reads. -/
  answered : List (Word × Word)
  /-- Words taken from the FIFO to `mem`. -/
  stored : List Word
  /-- `stored` when the core was last loaded. -/
  loaded : Option (List Word)

theorem FifoToMem.next_state_store (d : FifoToMem) (fifoEmpty : Bool) (q : Word) :
    (d.next true fifoEmpty q).state = .store ↔ d.state = .request := by
  cases hs : d.state with
  | poll => rw [next_poll hs]; split <;> simp [hs]
  | request => rw [next_request hs]; simp
  | store =>
    simp only [FifoToMem.next, hs, Bool.not_true, Bool.false_eq_true, if_false]
    split <;> simp
  | finish => rw [next_finish hs]; simp

namespace Traced

def step (x : Traced) (e : Edge) : Traced where
  ctl := x.ctl.step e.memory e.io
  running := if e.io.sysClk then x.ctl.config.resetn else x.running
  requested :=
    if e.io.sysClk then
      if x.ctl.config.resetn then
        x.requested ++
          if x.ctl.read.master.oRead && !e.io.waitRead then [x.ctl.read.master.oAddress] else []
      else []
    else x.requested
  answered :=
    if e.io.sysClk then
      if x.ctl.config.resetn then
        x.answered ++
          if e.io.answer && !x.ctl.read.inflight.isEmpty then
            [(x.ctl.read.inflight.headD 0, e.memory (x.ctl.read.inflight.headD 0))]
          else []
      else []
    else x.answered
  stored :=
    if e.io.sysClk then
      if x.ctl.config.resetn then
        if x.ctl.drain.state = .store then x.stored ++ [x.ctl.read.fifo.q] else x.stored
      else []
    else x.stored
  loaded :=
    if e.io.sysClk && !x.ctl.config.resetn then none
    else if x.ctl.loadsAt e.io then some x.stored
    else x.loaded

/-- After a hardware reset. -/
def start (s : Controller) : Traced := ⟨s, false, [], [], [], none⟩

/-! ### What is claimed of a state -/

/-- A word on the bus is one of the result of the 96 words read since the restart. -/
def OwnResult (f : Operands → BitVec 1024) (x : Traced) : Prop :=
  x.ctl.write.oWrite = true → ∃ l, x.loaded = some l ∧ l.length = 96 ∧
    ∃ k < 32, x.ctl.write.oData = resultWord (f (operandsOf l)) k

/-- The words the core was loaded with are answers to reads accepted since the restart. -/
def OwnOperands (x : Traced) : Prop :=
  ∀ l, x.loaded = some l → l.Sublist (x.answered.map Prod.snd) ∧
    x.answered.map Prod.fst <+: x.requested

/-! ### Conditions on a step -/

/-- The first edge at which the masters see the soft reset released. -/
def Restarts (x : Traced) (e : Edge) : Prop :=
  e.io.sysClk = true ∧ x.ctl.config.resetn = true ∧ x.running = false

/-- `RSA_done` is low by then, and the old job is gone: the RSA clock has seen the reset or its
state machine was idle. -/
def ResultGone (x : Traced) (e : Edge) : Prop :=
  x.Restarts e → x.ctl.rsa.done = false ∧ x.ctl.Fresh

/-- The FIFO is empty by then and no read is under way, and the FIFO is not cleared during a
job. -/
def OperandsGone (x : Traced) (e : Edge) : Prop :=
  (x.Restarts e → x.ctl.read.fifo.words = [] ∧ x.ctl.read.inflight = []) ∧
    (x.ctl.config.resetn = true → x.ctl.config.fifoClear = false)

/-! ### The domain of the bus clock -/

/-- `mem` holds the words taken from the FIFO. -/
structure Drains (x : Traced) : Prop where
  words : (List.range x.stored.length).map x.ctl.drain.mem = x.stored
  filling : x.ctl.drain.readFifoDone = false → x.ctl.drain.state ≠ .finish ∧
    x.stored.length < 96 ∧ x.ctl.drain.counter.toNat = x.stored.length
  filled : x.ctl.drain.readFifoDone = true → x.stored.length = 96 ∧
    (x.ctl.drain.state = .finish ∨ x.ctl.drain.state = .poll)

/-- The write master offers words of `v`. -/
structure Offers (v : BitVec 1024) (m : MasterWrite 5) : Prop where
  write : m.oWrite = decide (m.state = .accept)
  data : m.state ≠ .start → ∃ k < 32, m.oData = resultWord v k

section
variable {f : Operands → BitVec 1024} {x : Traced} {e : Edge} {v : BitVec 1024}

theorem Drains.operands (h : x.Drains) (hdone : x.ctl.drain.readFifoDone = true) :
    x.ctl.operands = operandsOf x.stored := by
  have hlen := (h.filled hdone).1
  have hwords := h.words
  rw [hlen] at hwords
  have hzero := Controller.operand_eq hdone hwords (show 0 + 32 ≤ 96 by omega)
  rw [List.drop_zero] at hzero
  rw [Controller.operands, operandsOf, hzero, Controller.operand_eq hdone hwords (by omega),
    Controller.operand_eq hdone hwords (by omega)]

theorem Drains.step (h : x.Drains) (hreset : x.ctl.config.resetn = true) :
    (x.step e).Drains := by
  cases hclk : e.io.sysClk
  · have hstored : (x.step e).stored = x.stored := by simp [Traced.step, hclk]
    have hdrain : (x.step e).ctl.drain = x.ctl.drain := by
      simp [Traced.step, Controller.step_drain, hclk]
    exact ⟨by rw [hstored, hdrain]; exact h.words, by rw [hstored, hdrain]; exact h.filling,
      by rw [hstored, hdrain]; exact h.filled⟩
  · have hdrain : (x.step e).ctl.drain =
        x.ctl.drain.next true x.ctl.read.fifo.empty x.ctl.read.fifo.q := by
      simp [Traced.step, Controller.step_drain, hclk, hreset]
    have hstored : (x.step e).stored =
        if x.ctl.drain.state = .store then x.stored ++ [x.ctl.read.fifo.q] else x.stored := by
      simp [Traced.step, hclk, hreset]
    have hwords := h.words
    have hfilling := h.filling
    have hfilled := h.filled
    cases hs : x.ctl.drain.state with
    | poll =>
      rw [FifoToMem.next_poll hs] at hdrain
      simp only [hs, reduceCtorEq, if_false] at hstored
      constructor <;> rw [hstored, hdrain] <;> split
      · exact hwords
      · exact hwords
      · exact fun hd => ⟨by simp, (hfilling hd).2⟩
      · exact hfilling
      · rename_i hgo
        intro hd
        simp only at hd
        simp [hd] at hgo
      · exact hfilled
    | request =>
      rw [FifoToMem.next_request hs] at hdrain
      simp only [hs, reduceCtorEq, if_false] at hstored
      constructor <;> rw [hstored, hdrain]
      · exact hwords
      · exact fun hd => ⟨by simp, (hfilling hd).2⟩
      · intro hd
        simpa [hs] using (hfilled hd).2
    | store =>
      have hnot : x.ctl.drain.readFifoDone = false := by
        by_contra hd
        simpa [hs] using (hfilled (by simpa using hd)).2
      obtain ⟨-, hlt, hcount⟩ := hfilling hnot
      rw [FifoToMem.next_store hs hcount hlt] at hdrain
      simp only [hs, if_true] at hstored
      constructor <;> rw [hstored, hdrain, List.length_append, List.length_singleton]
      · rw [range_map_update, hwords]
      · intro hd
        have hne : x.stored.length ≠ 95 := by
          rintro h95
          simp [h95] at hd
        refine ⟨by simp [hne], by omega, ?_⟩
        show (x.ctl.drain.counter + 1).toNat = _
        rw [BitVec.toNat_add, hcount]
        exact Nat.mod_eq_of_lt (show x.stored.length + 1 < 2 ^ 7 by omega)
      · intro hd
        have heq : x.stored.length = 95 := by
          by_contra hne
          simp [hne, hnot] at hd
        exact ⟨by omega, by simp [heq]⟩
    | finish =>
      rw [FifoToMem.next_finish hs] at hdrain
      simp only [hs, reduceCtorEq, if_false] at hstored
      have hd : x.ctl.drain.readFifoDone = true := by
        by_contra hd
        exact (hfilling (by simpa using hd)).1 hs
      constructor <;> rw [hstored, hdrain]
      · exact hwords
      · simp [hd]
      · exact fun _ => ⟨(hfilled hd).1, Or.inr rfl⟩

theorem Drains.filled_step (h : x.Drains) (hdone : x.ctl.drain.readFifoDone = true)
    (hreset : x.ctl.config.resetn = true) : (x.step e).ctl.drain.readFifoDone = true := by
  obtain ⟨hlen, hstate⟩ := h.filled hdone
  have hne : x.ctl.drain.state ≠ .store := by
    rcases hstate with hs | hs <;> simp [hs]
  have hlen' : (x.step e).stored.length = 96 := by
    cases hclk : e.io.sysClk <;> simp [Traced.step, hclk, hreset, hne, hlen]
  by_contra hnot
  have hlt := ((h.step (e := e) hreset).filling (by simpa using hnot)).2.1
  omega

/-! ### The write master -/

theorem Offers.idle {m : MasterWrite 5} (h : Offers v m) (hs : m.state = .start)
    (w : BitVec 1024) : Offers w m :=
  ⟨h.write, fun hne => absurd hs hne⟩

theorem Offers.next {m : MasterWrite 5} (h : Offers v m) (startWrite wait : Bool)
    (writeStart endAddress : Word) :
    Offers v (m.next true startWrite writeStart endAddress v wait) := by
  have hwrite := h.write
  have hdata := h.data
  cases hs : m.state with
  | start =>
    rw [MasterWrite.next_start hs]
    split
    · exact ⟨by simpa [hs] using hwrite, fun _ => ⟨0, by omega, rfl⟩⟩
    · exact h
  | raise =>
    rw [MasterWrite.next_raise hs]
    exact ⟨rfl, fun _ => hdata (by simp [hs])⟩
  | accept =>
    rw [MasterWrite.next_accept hs]
    split
    · exact h
    · exact ⟨rfl, fun _ => ⟨m.addressWrite.toNat, m.addressWrite.isLt, rfl⟩⟩
  | check =>
    rw [MasterWrite.next_check hs]
    split
    · exact h
    · exact ⟨by simpa [hs] using hwrite, fun _ => hdata (by simp [hs])⟩

/-! ### The state machine around the core -/

/-- The core holds the words `l`. -/
structure Holds (l : List Word) (x : Traced) : Prop where
  loaded : x.loaded = some l
  length : l.length = 96
  last : x.ctl.loads.getLast? = some (operandsOf l)

/-- How far the job since the restart has come. -/
inductive Stage (f : Operands → BitVec 1024) (x : Traced) : Prop
  | fresh : x.ctl.Fresh → x.ctl.rsa.done = false → x.ctl.write.state = .start → Stage f x
  | loading : x.ctl.Loading → x.ctl.drain.readFifoDone = true → x.ctl.rsa.done = false →
      x.ctl.write.state = .start → Stage f x
  | busy (l : List Word) : x.ctl.AfterLoad → x.ctl.rsa.state = .busy → x.Holds l →
      x.ctl.rsa.done = false → x.ctl.write.state = .start → Stage f x
  | finish (l : List Word) : x.ctl.AfterLoad → x.ctl.rsa.state = .finish → x.Holds l →
      x.ctl.rsa.data1024 = f (operandsOf l) → Stage f x

theorem write_start (hs : x.ctl.write.state = .start) (hdone : x.ctl.rsa.done = false)
    (hreset : x.ctl.config.resetn = true) : (x.step e).ctl.write.state = .start := by
  cases hclk : e.io.sysClk <;>
    simp [Traced.step, Controller.step_write, hclk, hreset, MasterWrite.next_start hs, hdone, hs]

theorem Holds.step {l : List Word} (h : x.Holds l) (hoff : x.ctl.loadsAt e.io = false)
    (hreset : x.ctl.config.resetn = true) : (x.step e).Holds l := by
  refine ⟨?_, h.length, ?_⟩
  · simp [Traced.step, hreset, hoff, h.loaded]
  · have hoff' := hoff
    rw [Controller.loadsAt] at hoff'
    simp [Traced.step, Controller.step_loads, hoff', h.last]

theorem Stage.step (h : x.Stage f) (hd : x.Drains) (hreset : x.ctl.config.resetn = true)
    (hcore : Controller.Computes f x.ctl e.io) : (x.step e).Stage f := by
  cases h with
  | fresh hf hdone hw =>
    have hstart := write_start (e := e) hw hdone hreset
    have hdone' : (x.step e).ctl.rsa.done = false := by
      cases hclk : e.io.rsaClk
      · simp [Traced.step, Controller.step_rsa, hclk, hdone]
      · rcases hf with hdelay | ⟨hst, -⟩
        · simp [Traced.step, Controller.step_rsa, hclk, RsaFsm.next, hdelay]
        · cases hdelay : x.ctl.rsa.resetNDelay <;> cases hfd : x.ctl.drain.readFifoDone <;>
            simp [Traced.step, Controller.step_rsa, hclk, RsaFsm.next, hdelay, hst, hfd, hdone]
    rcases hf.step (M := e.memory) (i := e.io) hreset with hf' | ⟨hl, hfd⟩
    · exact .fresh hf' hdone' hstart
    · exact .loading hl (hd.filled_step hfd hreset) hdone' hstart
  | loading hl hfd hdone hw =>
    have hstart := write_start (e := e) hw hdone hreset
    have hnext := hl.step (M := e.memory) (i := e.io) hreset
    cases hclk : e.io.rsaClk
    · rw [hclk] at hnext
      exact .loading hnext (hd.filled_step hfd hreset)
        (by simp [Traced.step, Controller.step_rsa, hclk, hdone]) hstart
    · rw [hclk] at hnext
      have hat : x.ctl.loadsAt e.io = true := by
        simp [Controller.loadsAt, hclk, hl.load, hl.delay]
      refine .busy x.stored hnext ?_ ⟨?_, (hd.filled hfd).1, ?_⟩ ?_ hstart
      · simp [Traced.step, Controller.step_rsa, hclk, RsaFsm.next, hl.delay, hl.state]
      · simp [Traced.step, hreset, hat]
      · simp [Traced.step, Controller.step_loads, hclk, hl.load, hl.delay, hd.operands hfd]
      · simp [Traced.step, Controller.step_rsa, hclk, RsaFsm.next, hl.delay, hl.state, hdone]
  | busy l ha hst hholds hdone hw =>
    have hstart := write_start (e := e) hw hdone hreset
    have hnext := ha.step (M := e.memory) (i := e.io) hreset
    have hholds' := hholds.step (e := e) (ha.loadsAt e.io) hreset
    cases hclk : e.io.rsaClk
    · exact .busy l hnext (by simp [Traced.step, Controller.step_rsa, hclk, hst]) hholds'
        (by simp [Traced.step, Controller.step_rsa, hclk, hdone]) hstart
    · cases hvalid : e.io.rsaValid
      · refine .busy l hnext ?_ hholds' ?_ hstart <;>
          simp [Traced.step, Controller.step_rsa, hclk, RsaFsm.next, ha.delay, hst, hvalid, hdone]
      · have hdata := hcore hclk hvalid (operandsOf l) hholds.last
        refine .finish l hnext ?_ hholds' ?_ <;>
          simp [Traced.step, Controller.step_rsa, hclk, RsaFsm.next, ha.delay, hst, hvalid, hdata]
  | finish l ha hst hholds hdata =>
    have hnext := ha.step (M := e.memory) (i := e.io) hreset
    refine .finish l hnext ?_ (hholds.step (ha.loadsAt e.io) hreset) ?_ <;>
      cases hclk : e.io.rsaClk <;>
        simp [Traced.step, Controller.step_rsa, hclk, RsaFsm.next, ha.delay, hst, hdata]

/-- The write master sees one result from its first word to its last. -/
theorem Stage.offers_step (h : x.Stage f) (hoffers : Offers x.ctl.rsa.data1024 x.ctl.write)
    (hreset : x.ctl.config.resetn = true) :
    Offers (x.step e).ctl.rsa.data1024 (x.step e).ctl.write := by
  have hnext : Offers x.ctl.rsa.data1024 (x.step e).ctl.write := by
    cases hclk : e.io.sysClk
    · simpa [Traced.step, Controller.step_write, hclk] using hoffers
    · simpa [Traced.step, Controller.step_write, hclk, hreset] using hoffers.next _ _ _ _
  cases h with
  | fresh hf hdone hw => exact hnext.idle (write_start hw hdone hreset) _
  | loading hl hfd hdone hw => exact hnext.idle (write_start hw hdone hreset) _
  | busy l ha hst hholds hdone hw => exact hnext.idle (write_start hw hdone hreset) _
  | finish l ha hst hholds hdata =>
    have hsame : (x.step e).ctl.rsa.data1024 = x.ctl.rsa.data1024 := by
      cases hclk : e.io.rsaClk <;>
        simp [Traced.step, Controller.step_rsa, hclk, RsaFsm.next, ha.delay, hst]
    rw [hsame]
    exact hnext

/-! ### From a soft reset to the next -/

/-- The soft reset is low again, the masters have not seen it yet. -/
structure Fades (f : Operands → BitVec 1024) (x : Traced) : Prop where
  own : x.OwnResult f
  quiet : x.ctl.write.oWrite = true → x.ctl.rsa.load = false ∧
    (x.ctl.rsa.state = .finish ∨ x.ctl.rsa.resetNDelay = false)

theorem Stage.fades (h : x.Stage f) (hoffers : Offers x.ctl.rsa.data1024 x.ctl.write) :
    x.Fades f := by
  have hidle : x.ctl.write.state = .start → x.ctl.write.oWrite = false := by
    intro hs
    rw [hoffers.write, hs]
    rfl
  cases h with
  | fresh hf hdone hw => constructor <;> intro hup <;> simp [hidle hw] at hup
  | loading hl hfd hdone hw => constructor <;> intro hup <;> simp [hidle hw] at hup
  | busy l ha hst hholds hdone hw => constructor <;> intro hup <;> simp [hidle hw] at hup
  | finish l ha hst hholds hdata =>
    refine ⟨fun hup => ⟨l, hholds.loaded, hholds.length, ?_⟩, fun _ => ⟨ha.load, Or.inl hst⟩⟩
    rw [← hdata]
    refine hoffers.data fun hs => ?_
    rw [hidle hs] at hup
    cases hup

theorem Fades.step (h : x.Fades f) (hreset : x.ctl.config.resetn = false)
    (hclk : e.io.sysClk = false) : (x.step e).Fades f := by
  have hwrite : (x.step e).ctl.write = x.ctl.write := by
    simp [Traced.step, Controller.step_write, hclk]
  constructor
  · intro hup
    rw [hwrite] at hup ⊢
    obtain ⟨hload, -⟩ := h.quiet hup
    have hsame : (x.step e).loaded = x.loaded := by
      simp [Traced.step, hclk, Controller.loadsAt, hload]
    rw [hsame]
    exact h.own hup
  · intro hup
    rw [hwrite] at hup
    obtain ⟨hload, hst⟩ := h.quiet hup
    cases hrsa : e.io.rsaClk
    · simpa [Traced.step, Controller.step_rsa, hrsa] using ⟨hload, hst⟩
    · rcases hst with hst | hdelay
      · cases hdelay : x.ctl.rsa.resetNDelay <;>
          simp [Traced.step, Controller.step_rsa, hrsa, RsaFsm.next, hdelay, hst, hload, hreset]
      · simp [Traced.step, Controller.step_rsa, hrsa, RsaFsm.next, hdelay, hreset]

/-- What the masters' reset leaves. -/
structure AtReset (x : Traced) : Prop where
  drain : x.ctl.drain.readFifoDone = false ∧ x.ctl.drain.state = .poll ∧
    x.ctl.drain.counter = 0 ∧ x.ctl.drain.fifoRead = false
  stored : x.stored = []
  loaded : ∀ l, x.loaded = some l → l = []
  write : x.ctl.write.state = .start ∧ x.ctl.write.oWrite = false

theorem atReset_step (hreset : x.ctl.config.resetn = false) (hclk : e.io.sysClk = true) :
    (x.step e).AtReset := by
  constructor
  · simp [Traced.step, Controller.step_drain, hclk, hreset, FifoToMem.next, FifoToMem.reset]
  · simp [Traced.step, hclk, hreset]
  · simp [Traced.step, hclk, hreset]
  · simp [Traced.step, Controller.step_write, hclk, hreset, MasterWrite.next, MasterWrite.reset]

theorem AtReset.step (h : x.AtReset) (hclk : e.io.sysClk = false) : (x.step e).AtReset := by
  constructor
  · simpa [Traced.step, Controller.step_drain, hclk] using h.drain
  · simpa [Traced.step, hclk] using h.stored
  · intro l hl
    cases hat : x.ctl.loadsAt e.io
    · exact h.loaded l (by simpa [Traced.step, hclk, hat] using hl)
    · have heq : x.stored = l := by simpa [Traced.step, hclk, hat] using hl
      rw [← heq]
      exact h.stored
  · simpa [Traced.step, Controller.step_write, hclk] using h.write

theorem AtReset.drains (h : x.AtReset) : x.Drains := by
  obtain ⟨hdone, hs, hcount, -⟩ := h.drain
  constructor <;> simp [h.stored, hdone, hs, hcount]

theorem AtReset.offers (h : x.AtReset) (v : BitVec 1024) : Offers v x.ctl.write :=
  ⟨by rw [h.write.1, h.write.2]; rfl, fun hs => absurd h.write.1 hs⟩

/-- Invariant of every run. -/
structure Consistent (f : Operands → BitVec 1024) (x : Traced) : Prop where
  reset : x.running = false → x.AtReset
  job : x.running = true → x.ctl.config.resetn = true →
    x.Drains ∧ x.Stage f ∧ Offers x.ctl.rsa.data1024 x.ctl.write
  fades : x.running = true → x.ctl.config.resetn = false → x.Fades f

theorem Consistent.of_job (hrunning : x.running = true) (hd : x.Drains) (hs : x.Stage f)
    (ho : Offers x.ctl.rsa.data1024 x.ctl.write) : x.Consistent f :=
  ⟨fun hr => absurd (hrunning.symm.trans hr) (by simp), fun _ _ => ⟨hd, hs, ho⟩,
    fun _ _ => hs.fades ho⟩

theorem Consistent.of_reset (hrunning : x.running = false) (h : x.AtReset) : x.Consistent f :=
  ⟨fun _ => h, fun hr => absurd (hrunning.symm.trans hr) (by simp),
    fun hr => absurd (hrunning.symm.trans hr) (by simp)⟩

theorem Consistent.step (h : x.Consistent f) (hcore : Controller.Computes f x.ctl e.io)
    (hgone : x.ResultGone e) : (x.step e).Consistent f := by
  cases hclk : e.io.sysClk
  · have hrunning : (x.step e).running = x.running := by simp [Traced.step, hclk]
    have hconfig : (x.step e).ctl.config = x.ctl.config := by
      simp [Traced.step, Controller.step_config, hclk]
    constructor
    · exact fun hr => (h.reset (hrunning ▸ hr)).step hclk
    · intro hr hreset
      rw [hconfig] at hreset
      obtain ⟨hd, hs, ho⟩ := h.job (hrunning ▸ hr) hreset
      exact ⟨hd.step hreset, hs.step hd hreset hcore, hs.offers_step ho hreset⟩
    · intro hr hreset
      rw [hconfig] at hreset
      exact (h.fades (hrunning ▸ hr) hreset).step hreset hclk
  · cases hreset : x.ctl.config.resetn
    · exact .of_reset (by simp [Traced.step, hclk, hreset]) (atReset_step hreset hclk)
    · -- a job goes on, or starts at this edge
      have hjob : x.Drains ∧ x.Stage f ∧ Offers x.ctl.rsa.data1024 x.ctl.write := by
        cases hrunning : x.running
        · have hat := h.reset hrunning
          obtain ⟨hdone, hfresh⟩ := hgone ⟨hclk, hreset, hrunning⟩
          exact ⟨hat.drains, .fresh hfresh hdone hat.write.1, hat.offers _⟩
        · exact h.job hrunning hreset
      obtain ⟨hd, hs, ho⟩ := hjob
      exact .of_job (by simp [Traced.step, hclk, hreset]) (hd.step hreset)
        (hs.step hd hreset hcore) (hs.offers_step ho hreset)

theorem Consistent.ownResult (h : x.Consistent f) : x.OwnResult f := by
  cases hrunning : x.running
  · intro hup
    rw [(h.reset hrunning).write.2] at hup
    cases hup
  · cases hreset : x.ctl.config.resetn
    · exact (h.fades hrunning hreset).own
    · obtain ⟨-, hs, ho⟩ := h.job hrunning hreset
      exact (hs.fades ho).own

/-! ### Where the operands come from -/

/-- Words taken from the FIFO, on their way to `mem` and left in it. -/
def taken (x : Traced) : List Word :=
  x.stored ++ (if x.ctl.drain.state = .store then [x.ctl.read.fifo.q] else []) ++
    x.ctl.read.fifo.words

/-- What memory has answered and the FIFO took since the restart. -/
structure Fed (x : Traced) : Prop where
  taken : x.taken.Sublist (x.answered.map Prod.snd)
  order : x.answered.map Prod.fst ++ x.ctl.read.inflight = x.requested
  request : x.ctl.drain.state = .request → x.ctl.read.fifo.words ≠ []
  fifoRead : x.ctl.drain.fifoRead = decide (x.ctl.drain.state = .request)

/-- The word memory answers in a cycle. -/
def answers (x : Traced) (e : Edge) : List Word :=
  if e.io.answer && !x.ctl.read.inflight.isEmpty then [e.memory (x.ctl.read.inflight.headD 0)]
  else []

theorem map_snd_answered_step (hreset : x.ctl.config.resetn = true) (hclk : e.io.sysClk = true) :
    (x.step e).answered.map Prod.snd = x.answered.map Prod.snd ++ x.answers e := by
  simp only [Traced.step, hclk, hreset, if_true, List.map_append, answers]
  split <;> rfl

theorem Fed.taken_step (h : x.Fed) (hreset : x.ctl.config.resetn = true)
    (hclear : x.ctl.config.fifoClear = false) (hclk : e.io.sysClk = true) :
    (x.step e).taken = x.taken ++ if x.ctl.read.fifo.full then [] else x.answers e := by
  have hfifo : (x.step e).ctl.read.fifo = x.ctl.read.fifo.next false
      (e.io.answer && !x.ctl.read.inflight.isEmpty) (e.memory (x.ctl.read.inflight.headD 0))
      x.ctl.drain.fifoRead := by
    simp [Traced.step, Controller.step_read, hclk, ReadPath.next, Controller.readIn, hclear]
  have hdrain : (x.step e).ctl.drain =
      x.ctl.drain.next true x.ctl.read.fifo.empty x.ctl.read.fifo.q := by
    simp [Traced.step, Controller.step_drain, hclk, hreset]
  have hstored : (x.step e).stored =
      if x.ctl.drain.state = .store then x.stored ++ [x.ctl.read.fifo.q] else x.stored := by
    simp [Traced.step, hclk, hreset]
  have hnew : (if e.io.answer && !x.ctl.read.inflight.isEmpty && !x.ctl.read.fifo.full then
      [e.memory (x.ctl.read.inflight.headD 0)] else []) =
      if x.ctl.read.fifo.full then [] else x.answers e := by
    cases hfull : x.ctl.read.fifo.full <;> simp [answers]
  have hread := h.fifoRead
  have hrequest := h.request
  rw [Traced.taken, Traced.taken, hstored, hdrain, hfifo, Fifo.next, ← hnew]
  simp only [FifoToMem.next_state_store]
  cases hs : x.ctl.drain.state with
  | request =>
    rw [hs] at hread hrequest
    obtain ⟨w, ws, hws⟩ := List.exists_cons_of_ne_nil (hrequest rfl)
    simp [hread, hws]
  | poll => simp [hread, hs]
  | store => simp [hread, hs]
  | finish => simp [hread, hs]

theorem Fed.step (h : x.Fed) (hreset : x.ctl.config.resetn = true)
    (hclear : x.ctl.config.fifoClear = false) (hclk : e.io.sysClk = true) : (x.step e).Fed := by
  have hread : (x.step e).ctl.read = x.ctl.read.next e.memory (x.ctl.readIn e.io) := by
    simp [Traced.step, Controller.step_read, hclk]
  have hdrain : (x.step e).ctl.drain =
      x.ctl.drain.next true x.ctl.read.fifo.empty x.ctl.read.fifo.q := by
    simp [Traced.step, Controller.step_drain, hclk, hreset]
  have hfifoRead := h.fifoRead
  constructor
  · rw [h.taken_step hreset hclear hclk, map_snd_answered_step hreset hclk]
    refine h.taken.append ?_
    split
    · exact List.nil_sublist _
    · exact List.Sublist.refl _
  · rw [hread]
    have horder := h.order
    simp only [Traced.step, hclk, hreset, if_true, ReadPath.next, Controller.readIn, ← horder]
    cases e.io.answer
    · simp
    · cases x.ctl.read.inflight <;> simp
  · rw [hdrain, hread]
    intro hs
    cases hst : x.ctl.drain.state with
    | poll =>
      rw [hst] at hfifoRead
      rw [FifoToMem.next_poll hst] at hs
      split at hs
      · rename_i hgo
        have hne : x.ctl.read.fifo.words ≠ [] := by
          rw [← Fifo.empty_eq_false_iff]
          simp only [Bool.and_eq_true, Bool.not_eq_true'] at hgo
          exact hgo.1
        simp [ReadPath.next, Controller.readIn, Fifo.next, hclear, hfifoRead, hne]
      · rw [hst] at hs
        cases hs
    | request =>
      rw [FifoToMem.next_request hst] at hs
      cases hs
    | store =>
      simp only [FifoToMem.next, hst, Bool.not_true, Bool.false_eq_true, if_false] at hs
      split at hs <;> cases hs
    | finish =>
      rw [FifoToMem.next_finish hst] at hs
      cases hs
  · rw [hdrain]
    cases hst : x.ctl.drain.state with
    | poll =>
      rw [FifoToMem.next_poll hst]
      split <;> simp [hfifoRead, hst]
    | request => rw [FifoToMem.next_request hst]; rfl
    | store =>
      simp only [FifoToMem.next, hst, Bool.not_true, Bool.false_eq_true, if_false]
      split <;> simp [hfifoRead, hst]
    | finish =>
      rw [FifoToMem.next_finish hst]
      simp [hfifoRead, hst]

/-- Invariant of the runs whose restarts find the FIFO empty and no read under way. -/
structure Supplied (x : Traced) : Prop where
  own : ∀ l, x.loaded = some l → l.Sublist (x.answered.map Prod.snd)
  stored : x.stored.Sublist (x.answered.map Prod.snd)
  order : x.answered.map Prod.fst <+: x.requested
  reset : x.running = false → x.AtReset ∧ x.answered = [] ∧ x.requested = []
  fed : x.running = true → x.Fed

theorem Supplied.step (h : x.Supplied) (hgone : x.OperandsGone e) : (x.step e).Supplied := by
  cases hclk : e.io.sysClk
  · have hrunning : (x.step e).running = x.running := by simp [Traced.step, hclk]
    have hanswered : (x.step e).answered = x.answered := by simp [Traced.step, hclk]
    have hrequested : (x.step e).requested = x.requested := by simp [Traced.step, hclk]
    have hstored : (x.step e).stored = x.stored := by simp [Traced.step, hclk]
    obtain ⟨hread, hdrain⟩ := Controller.step_of_not_sysClk (M := e.memory) (s := x.ctl) hclk
    constructor
    · intro l hl
      rw [hanswered]
      cases hat : x.ctl.loadsAt e.io
      · exact h.own l (by simpa [Traced.step, hclk, hat] using hl)
      · have heq : x.stored = l := by simpa [Traced.step, hclk, hat] using hl
        rw [← heq]
        exact h.stored
    · rw [hstored, hanswered]
      exact h.stored
    · rw [hanswered, hrequested]
      exact h.order
    · intro hr
      obtain ⟨hat, hans, hreq⟩ := h.reset (hrunning ▸ hr)
      exact ⟨hat.step hclk, hanswered.trans hans, hrequested.trans hreq⟩
    · intro hr
      have hfed := h.fed (hrunning ▸ hr)
      have hread' : (x.step e).ctl.read = x.ctl.read := hread
      have hdrain' : (x.step e).ctl.drain = x.ctl.drain := hdrain
      refine ⟨?_, ?_, ?_, ?_⟩
      · rw [taken, hstored, hread', hdrain', hanswered]
        exact hfed.taken
      · rw [hanswered, hread', hrequested]
        exact hfed.order
      · rw [hread', hdrain']
        exact hfed.request
      · rw [hdrain']
        exact hfed.fifoRead
  · cases hreset : x.ctl.config.resetn
    · have hrunning : (x.step e).running = false := by simp [Traced.step, hclk, hreset]
      have hanswered : (x.step e).answered = [] := by simp [Traced.step, hclk, hreset]
      have hrequested : (x.step e).requested = [] := by simp [Traced.step, hclk, hreset]
      have hstored : (x.step e).stored = [] := by simp [Traced.step, hclk, hreset]
      have hloaded : (x.step e).loaded = none := by simp [Traced.step, hclk, hreset]
      refine ⟨fun l hl => absurd (hloaded.symm.trans hl) (by simp), by simp [hstored],
        by simp [hanswered], fun _ => ⟨atReset_step hreset hclk, hanswered, hrequested⟩,
        fun hr => absurd (hrunning.symm.trans hr) (by simp)⟩
    · have hclear := hgone.2 hreset
      have hrunning : (x.step e).running = true := by simp [Traced.step, hclk, hreset]
      have hfed : x.Fed := by
        cases hr : x.running
        · obtain ⟨hat, hans, hreq⟩ := h.reset hr
          obtain ⟨hwords, hinflight⟩ := hgone.1 ⟨hclk, hreset, hr⟩
          obtain ⟨hdone, hs, hcount, hread⟩ := hat.drain
          constructor <;> simp [taken, hat.stored, hs, hwords, hans, hreq, hinflight, hread]
        · exact h.fed hr
      have hfed' := hfed.step hreset hclear hclk
      have hgrow : (x.answered.map Prod.snd).Sublist ((x.step e).answered.map Prod.snd) := by
        rw [map_snd_answered_step hreset hclk]
        exact List.sublist_append_left _ _
      refine ⟨?_, ?_, ?_, fun hr => absurd (hrunning.symm.trans hr) (by simp), fun _ => hfed'⟩
      · intro l hl
        cases hat : x.ctl.loadsAt e.io
        · exact (h.own l (by simpa [Traced.step, hclk, hreset, hat] using hl)).trans hgrow
        · have heq : x.stored = l := by simpa [Traced.step, hclk, hreset, hat] using hl
          rw [← heq]
          exact h.stored.trans hgrow
      · refine List.Sublist.trans ?_ hfed'.taken
        rw [taken, List.append_assoc]
        exact List.sublist_append_left _ _
      · rw [← hfed'.order]
        exact List.prefix_append _ _

/-! ### Runs -/

/-- States of a run from a hardware reset. -/
def after (s : Controller) (e : ℕ → Edge) : ℕ → Traced := run Traced.step (start s) e

theorem start_atReset {s : Controller} (h : Controller.HardwareReset s) : (start s).AtReset := by
  have hd : s.drain = s.drain.reset := h.drain
  have hw : s.write = s.write.reset := h.write
  constructor
  · rw [start, hd]
    exact ⟨rfl, rfl, rfl, rfl⟩
  · rfl
  · intro l hl
    cases hl
  · rw [start, hw]
    exact ⟨rfl, rfl⟩

end

/-- From a hardware reset, with any memory, any edges of the two clocks, any register writes and
any core that computes `f`: when `RSA_done` is low and the old job gone at every edge at which
the masters see the soft reset released, every word on the bus is of the result of the words
read since the restart; and when the FIFO is empty by then and no read under way, these are
answers to reads accepted since. -/
theorem own_result (f : Operands → BitVec 1024) (s : Controller) (e : ℕ → Edge)
    (hreset : Controller.HardwareReset s)
    (hcore : ∀ t, Controller.Computes f (after s e t).ctl (e t).io)
    (hgone : ∀ t, (after s e t).ResultGone (e t)) :
    (∀ t, (after s e t).OwnResult f) ∧
      ((∀ t, (after s e t).OperandsGone (e t)) → ∀ t, (after s e t).OwnOperands) := by
  constructor
  · have hrun : ∀ t, (after s e t).Consistent f := by
      intro t
      induction t with
      | zero => exact .of_reset rfl (start_atReset hreset)
      | succ t ih => exact ih.step (hcore t) (hgone t)
    exact fun t => (hrun t).ownResult
  · intro hoperands
    have hrun : ∀ t, (after s e t).Supplied := by
      intro t
      induction t with
      | zero =>
        refine ⟨?_, List.nil_sublist _, List.nil_prefix, fun _ => ⟨start_atReset hreset, rfl, rfl⟩, ?_⟩
        · intro l hl
          cases hl
        · intro hr
          cases hr
      | succ t ih => exact ih.step (hoperands t)
    exact fun t l hl => ⟨(hrun t).own l hl, (hrun t).order⟩

/-- The first job after a hardware reset, on an unstalled bus. -/
def firstEdges (t : ℕ) : Edge := ⟨id, Controller.firstJob t⟩

theorem after_ctl_firstJob (t : ℕ) : (after Controller.powerUp firstEdges t).ctl =
    run (Controller.step id) Controller.powerUp Controller.firstJob t := by
  induction t with
  | zero => rfl
  | succ t ih =>
    show Controller.step id (after Controller.powerUp firstEdges t).ctl (Controller.firstJob t) = _
    rw [ih]
    rfl

theorem computes_firstJob (s : Controller) (t : ℕ) :
    Controller.Computes (fun _ => 42) s (Controller.firstJob t) := by
  intro _ hvalid o _
  match t with
  | 0 => cases hvalid
  | 1 => cases hvalid
  | t + 2 => rfl

theorem control_firstJob (t : ℕ) :
    (after Controller.powerUp firstEdges (t + 2)).ctl.config.control = 3 := by
  induction t with
  | zero => rfl
  | succ t ih => exact ih

theorem restarts_firstJob {t : ℕ}
    (h : (after Controller.powerUp firstEdges t).Restarts (firstEdges t)) : t < 3 := by
  by_contra hge
  obtain ⟨u, rfl⟩ := Nat.exists_eq_add_of_le' (Nat.le_of_not_lt hge)
  have hrunning : (after Controller.powerUp firstEdges (u + 3)).running =
      (after Controller.powerUp firstEdges (u + 2)).ctl.config.resetn := rfl
  have hstop := h.2.2
  rw [hrunning, Config.resetn, control_firstJob] at hstop
  cases hstop

/-- A first job meets both conditions. -/
theorem own_result_firstJob :
    (∀ t, (after Controller.powerUp firstEdges t).OwnResult fun _ => 42) ∧
      ∀ t, (after Controller.powerUp firstEdges t).OwnOperands := by
  have h := own_result (fun _ => 42) Controller.powerUp firstEdges Controller.powerUp_reset
    (fun t => computes_firstJob _ t) (by
      intro t hrestarts
      have ht := restarts_firstJob hrestarts
      obtain rfl | rfl | rfl : t = 0 ∨ t = 1 ∨ t = 2 := by
        omega
      all_goals exact ⟨rfl, Or.inl rfl⟩)
  refine ⟨h.1, h.2 fun t => ⟨fun hrestarts => ?_, fun hreset => ?_⟩⟩
  · have ht := restarts_firstJob hrestarts
    obtain rfl | rfl | rfl : t = 0 ∨ t = 1 ∨ t = 2 := by
      omega
    all_goals exact ⟨rfl, rfl⟩
  · rcases Nat.lt_or_ge t 2 with ht | ht
    · obtain rfl | rfl : t = 0 ∨ t = 1 := by
        omega
      all_goals rfl
    · obtain ⟨u, rfl⟩ := Nat.exists_eq_add_of_le' ht
      rw [Config.fifoClear, control_firstJob]
      rfl

/-! ### Stale results -/

/-- An edge of one clock on an idle bus. -/
def idleEdge (sysClk : Bool) (cpu : Option Config.Write) (rsaValid : Bool)
    (rsaData : BitVec 1024) : Edge where
  memory := id
  io :=
    { sysClk, rsaClk := !sysClk, cpu, waitRead := false, answer := false, waitWrite := false,
      rsaValid, rsaData }

/-- Edges of `iSys_clk` alone. -/
def sysEdges : ℕ → Edge := fun _ => idleEdge true none false 0

/-- The edges of `l`, then edges of `iSys_clk` alone. -/
def thenSys (l : List Edge) (t : ℕ) : Edge := l.getD t (idleEdge true none false 0)

section
variable {f : Operands → BitVec 1024} {x : Traced}

/-- The masters have left the soft reset and find the old `RSA_done`. -/
structure Stale (x : Traced) : Prop where
  resetn : x.ctl.config.resetn = true
  done : x.ctl.rsa.done = true
  write : x.ctl.write.state = .start
  loaded : ∀ l, x.loaded = some l → l = []

/-- The second edge after the soft reset puts a word of the old result on the bus. -/
theorem Stale.not_ownResult (h : x.Stale) : ¬ (run Traced.step x sysEdges 2).OwnResult f := by
  have hraise : (x.step (sysEdges 0)).ctl.write.state = .raise := by
    simp [Traced.step, Controller.step_write, sysEdges, idleEdge, h.resetn,
      MasterWrite.next_start h.write, h.done]
  have hreset : (x.step (sysEdges 0)).ctl.config.resetn = true := h.resetn
  have hup : (run Traced.step x sysEdges 2).ctl.write.oWrite = true := by
    show ((x.step (sysEdges 0)).step (sysEdges 1)).ctl.write.oWrite = true
    rw [Traced.step, Controller.step_write, hreset, MasterWrite.next_raise hraise]
    rfl
  have hstays : ∀ y : Traced, y.ctl.config.resetn = true → ∀ t, (y.step (sysEdges t)).loaded =
      y.loaded := by
    intro y hy t
    simp [Traced.step, Controller.loadsAt, sysEdges, idleEdge, hy]
  have hloaded : (run Traced.step x sysEdges 2).loaded = x.loaded :=
    (hstays _ hreset 1).trans (hstays x h.resetn 0)
  intro hown
  obtain ⟨l, hl, hlen, -⟩ := hown hup
  rw [hloaded] at hl
  rw [h.loaded l hl] at hlen
  cases hlen

/-- The core ends the old job before the masters' next edge. -/
theorem stale_of_busy (h : x.AtReset) (hreset : x.ctl.config.resetn = true)
    (hdelay : x.ctl.rsa.resetNDelay = true) (hst : x.ctl.rsa.state = .busy)
    (v : BitVec 1024) :
    (x.step (idleEdge false none true v)).Stale := by
  have hat := h.step (e := idleEdge false none true v) rfl
  exact ⟨hreset, by simp [Traced.step, Controller.step_rsa, idleEdge, RsaFsm.next, hdelay, hst],
    hat.write.1, hat.loaded⟩

/-- What the core answers by its last operands. -/
def answer (f : Operands → BitVec 1024) (s : Controller) : BitVec 1024 :=
  f (s.loads.getLast?.getD (0, 0, 0))

theorem computes_answer (s : Controller) (rsaValid : Bool) :
    Controller.Computes f s (idleEdge false none rsaValid (answer f s)).io := by
  intro _ _ o ho
  rw [answer, ho]
  rfl

theorem computes_sysEdges (s : Controller) (t : ℕ) : Controller.Computes f s (sysEdges t).io := by
  intro hclk
  cases hclk

/-- The condition is exact: when it fails at a restart, a bus and a core that computes `f` put
a word on the bus that belongs to no words read since. -/
theorem exists_stale (h : x.AtReset) (hreset : x.ctl.config.resetn = true)
    (hload : x.ctl.rsa.load = decide (x.ctl.rsa.state = .load))
    (hfinish : x.ctl.rsa.state = .finish → x.ctl.rsa.done = true)
    (hnot : ¬ (x.ctl.rsa.done = false ∧ x.ctl.Fresh)) :
    ∃ e : ℕ → Edge, (∀ t, (e t).io.cpu = none) ∧
      (∀ t, Controller.Computes f (run Traced.step x e t).ctl (e t).io) ∧
      ∃ t, ¬ (run Traced.step x e t).OwnResult f := by
  cases hdone : x.ctl.rsa.done
  · have hfresh : ¬ x.ctl.Fresh := fun hf => hnot ⟨hdone, hf⟩
    have hdelay : x.ctl.rsa.resetNDelay = true := by
      by_contra hd
      exact hfresh (Or.inl (by simpa using hd))
    cases hst : x.ctl.rsa.state with
    | idle => exact absurd (Or.inr ⟨hst, by rw [hload, hst]; rfl⟩) hfresh
    | load =>
      let a := idleEdge false none false (answer f x.ctl)
      let b := idleEdge false none true (answer f (x.step a).ctl)
      have hbusy : (x.step a).ctl.rsa.state = .busy := by
        simp [a, Traced.step, Controller.step_rsa, idleEdge, RsaFsm.next, hdelay, hst]
      have hdelay' : (x.step a).ctl.rsa.resetNDelay = true := by
        simp [a, Traced.step, Controller.step_rsa, idleEdge, RsaFsm.next, hdelay, hst, hreset]
      have hstale := stale_of_busy (h.step (e := a) rfl) hreset hdelay' hbusy
        (answer f (x.step a).ctl)
      refine ⟨thenSys [a, b], ?_, ?_, 4, hstale.not_ownResult⟩
      · rintro (_ | _ | t)
        · rfl
        · rfl
        · rfl
      · rintro (_ | _ | t)
        · exact computes_answer _ _
        · exact computes_answer _ _
        · exact computes_sysEdges _ t
    | busy =>
      let a := idleEdge false none true (answer f x.ctl)
      have hstale := stale_of_busy h hreset hdelay hst (answer f x.ctl)
      refine ⟨thenSys [a], ?_, ?_, 3, hstale.not_ownResult⟩
      · rintro (_ | t)
        · rfl
        · rfl
      · rintro (_ | t)
        · exact computes_answer _ _
        · exact computes_sysEdges _ t
    | finish =>
      rw [hfinish hst] at hdone
      cases hdone
  · have hstale : x.Stale := ⟨hreset, hdone, h.write.1, h.loaded⟩
    exact ⟨sysEdges, fun _ => rfl, fun t => computes_sysEdges _ t, 2, hstale.not_ownResult⟩

end

/-- A job to its end, then the soft reset low for one cycle of `iSys_clk` without an edge of
`iRSA_clk`. -/
def unseenReset (T t : ℕ) : Edge :=
  if t < T then firstEdges t
  else if t = T then idleEdge true (some (0, 0)) false 0
  else if t = T + 1 then idleEdge true (some (0, 3)) false 0
  else idleEdge true none false 0

theorem computes_unseenReset (T : ℕ) (s : Controller) (t : ℕ) :
    Controller.Computes (fun _ => 42) s (unseenReset T t).io := by
  unfold unseenReset
  split
  · exact computes_firstJob s t
  · split
    · exact fun _ hvalid => by cases hvalid
    · split <;> exact fun _ hvalid => by cases hvalid

theorem control_idleEdge (x : Traced) (c : Word) :
    (x.step (idleEdge true (some (0, c)) false 0)).ctl.config.control = c := by
  simp [Traced.step, Controller.step_config, idleEdge, Config.next]

theorem exists_done_firstJob :
    ∃ T, (after Controller.powerUp firstEdges T).ctl.rsa.done = true := by
  have hreset := Controller.run_reset (M := id) (i := Controller.firstJob) (T := 2)
    Controller.powerUp_reset (by
      intro t ht
      have hcases : t = 0 ∨ t = 1 := by omega
      rcases hcases with rfl | rfl <;> rfl) 2 le_rfl
  have hstarted : (run (Controller.step id) Controller.powerUp Controller.firstJob 2).Started 0 0 :=
    ⟨rfl, rfl, rfl, rfl⟩
  obtain ⟨t, -, -, hdone, -⟩ := hreset.exists_written (i := fun t => Controller.firstJob (2 + t))
    (M := id) (f := fun _ => 42) hstarted
    (fun t => by rw [Nat.add_comm]; rfl) (fun t => computes_firstJob _ (2 + t))
    (by constructor <;> exact fun t => ⟨t, le_rfl, by rw [Nat.add_comm]; exact ⟨rfl, fun _ => rfl⟩⟩)
    (fun t => ⟨t, le_rfl, by simp only [Nat.add_comm 2]; rfl⟩)
    (fun t => ⟨t, le_rfl, by simp only [Nat.add_comm 2]; exact ⟨rfl, fun _ => rfl⟩⟩)
  refine ⟨2 + t, ?_⟩
  rw [after_ctl_firstJob, run_add]
  exact hdone

/-- A word of the first result is on the bus after the reset. -/
theorem stale_result_firstJob :
    ∃ T, (∀ t, Controller.Computes (fun _ => 42) (after Controller.powerUp (unseenReset T) t).ctl
      (unseenReset T t).io) ∧
      ¬ ∀ t, (after Controller.powerUp (unseenReset T) t).OwnResult fun _ => 42 := by
  obtain ⟨T, hdone⟩ := exists_done_firstJob
  refine ⟨T, fun t => computes_unseenReset T _ t, fun hown => ?_⟩
  have hsame : after Controller.powerUp (unseenReset T) T =
      after Controller.powerUp firstEdges T := by
    refine run_congr fun u hu => ?_
    rw [unseenReset, if_pos hu]
  have hlow : unseenReset T T = idleEdge true (some (0, 0)) false 0 := by
    rw [unseenReset, if_neg (by omega), if_pos rfl]
  have hhigh : unseenReset T (T + 1) = idleEdge true (some (0, 3)) false 0 := by
    rw [unseenReset, if_neg (by omega), if_neg (by omega), if_pos rfl]
  have hsys : ∀ u, unseenReset T (T + 2 + u) = sysEdges u := by
    intro u
    rw [unseenReset, if_neg (by omega), if_neg (by omega), if_neg (by omega)]
    rfl
  have hstale : (after Controller.powerUp (unseenReset T) (T + 2)).Stale := by
    have hat := atReset_step (x := (after Controller.powerUp firstEdges T).step (unseenReset T T))
      (e := unseenReset T (T + 1)) (by rw [hlow, Config.resetn, control_idleEdge]; rfl)
      (by rw [hhigh]; rfl)
    rw [← hsame] at hat hdone
    have hkept : (after Controller.powerUp (unseenReset T) (T + 2)).ctl.rsa =
        (after Controller.powerUp (unseenReset T) T).ctl.rsa := by
      show ((Traced.step (Traced.step _ (unseenReset T T)) (unseenReset T (T + 1))).ctl).rsa = _
      rw [hlow, hhigh]
      rfl
    refine ⟨?_, by rw [hkept]; exact hdone, hat.write.1, hat.loaded⟩
    show (Traced.step (Traced.step _ (unseenReset T T)) (unseenReset T (T + 1))).ctl.config.resetn
      = true
    rw [hlow, hhigh, Config.resetn, control_idleEdge]
    rfl
  have hrun : after Controller.powerUp (unseenReset T) (T + 2 + 2) =
      run Traced.step (after Controller.powerUp (unseenReset T) (T + 2)) sysEdges 2 := by
    rw [after, run_add]
    exact run_congr fun u _ => hsys u
  exact hstale.not_ownResult (hrun ▸ hown (T + 2 + 2))

end Traced

end SocCrypto.Rsa

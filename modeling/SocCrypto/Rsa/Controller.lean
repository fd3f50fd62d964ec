import SocCrypto.Dma.WriteMaster

/-!
# The RSA controller

`RSA_Controller.v` with its FIFO and the memory behind its masters. The bus side
runs on `iSys_clk`, the state machine around the RSA core on `iRSA_clk`; a step
is any edge of either clock or of both. The core is an input: it may present a
result in any cycle. The lists `loads` and `writes` record the operands the core
was loaded with and the words the bus took.
-/

namespace SocCrypto.Rsa
open Dma

/-! ### FIFO to operand memory -/

/-- `state_fifo_to_mem`, in the order 2'd0 to 2'd3. -/
inductive FifoState where
  | poll
  | request
  | store
  | finish
  deriving DecidableEq

structure FifoToMem where
  state : FifoState
  counter : BitVec 7
  fifoRead : Bool
  readFifoDone : Bool
  mem : ℕ → Word

namespace FifoToMem

def reset (d : FifoToMem) : FifoToMem :=
  { d with state := .poll, counter := 0, fifoRead := false, readFifoDone := false }

/-- One clock. The counter of state `store` is a blocking assignment, so the
comparison sees its new value; writes beyond `mem[95]` are ignored. -/
def next (d : FifoToMem) (resetn fifoEmpty : Bool) (fifoOutData : Word) : FifoToMem :=
  if !resetn then d.reset
  else
    match d.state with
    | .poll =>
      if !fifoEmpty && !d.readFifoDone then { d with fifoRead := true, state := .request } else d
    | .request => { d with fifoRead := false, state := .store }
    | .store =>
      let mem :=
        if d.counter < 96 then Function.update d.mem d.counter.toNat fifoOutData else d.mem
      let counter := d.counter + 1
      if counter = 96 then { d with mem, counter, readFifoDone := true, state := .finish }
      else { d with mem, counter, state := .poll }
    | .finish => { d with counter := 0, state := .poll }

/-- Value of the concatenation `{mem[lo + 31], ..., mem[lo]}`. -/
def operand (d : FifoToMem) (lo : ℕ) : BitVec 1024 :=
  if d.readFifoDone then
    BitVec.ofNat 1024 ((List.range 32).foldr (fun k v => (d.mem (lo + k)).toNat + 2 ^ 32 * v) 0)
  else 0

end FifoToMem

/-! ### State machine around the core -/

/-- `RSA_state`, in the order 2'd0 to 2'd3. -/
inductive RsaState where
  | idle
  | load
  | busy
  | finish
  deriving DecidableEq

structure RsaFsm where
  resetNDelay : Bool
  load : Bool
  state : RsaState
  done : Bool
  data1024 : BitVec 1024
  deriving DecidableEq

def RsaFsm.next (r : RsaFsm) (resetn readFifoDone rsaValid : Bool) (rsaData : BitVec 1024) :
    RsaFsm :=
  if !r.resetNDelay then
    { r with resetNDelay := resetn, load := false, state := .idle, done := false }
  else
    match r.state with
    | .idle =>
      if readFifoDone then { r with resetNDelay := resetn, load := true, state := .load }
      else { r with resetNDelay := resetn }
    | .load => { r with resetNDelay := resetn, load := false, state := .busy }
    | .busy =>
      if rsaValid then
        { r with resetNDelay := resetn, data1024 := rsaData, done := true, state := .finish }
      else { r with resetNDelay := resetn }
    | .finish => { r with resetNDelay := resetn }

/-! ### The controller -/

/-- The operands of one load: A, B, N. -/
abbrev Operands := BitVec 1024 × BitVec 1024 × BitVec 1024

structure Controller where
  config : Config
  read : ReadPath
  drain : FifoToMem
  rsa : RsaFsm
  write : MasterWrite 5
  loads : List Operands
  writes : List (Word × Word)

namespace Controller

structure In where
  sysClk : Bool
  rsaClk : Bool
  /-- Register write of the processor. -/
  cpu : Option Config.Write
  waitRead : Bool
  /-- Memory answers the oldest accepted read. -/
  answer : Bool
  waitWrite : Bool
  rsaValid : Bool
  rsaData : BitVec 1024

def operands (s : Controller) : Operands :=
  (s.drain.operand 0, s.drain.operand 32, s.drain.operand 64)

/-- What the read side sees in a cycle. -/
def readIn (s : Controller) (i : In) : ReadPath.In where
  resetn := s.config.resetn
  startRead := s.config.startRead
  aclr := s.config.fifoClear
  readStart := s.config.readStart
  endAddress := s.config.endAddressRead
  rdreq := s.drain.fifoRead
  wait := i.waitRead
  answer := i.answer

/-- `end_address_write = write_start_address + 128`. -/
def endAddressWrite (s : Controller) : Word := s.config.writeStart + 128

/-- An edge of `iSys_clk`. -/
def sysEdge (M : Word → Word) (s : Controller) (i : In) : Controller :=
  { s with
    config := s.config.next i.cpu
    read := s.read.next M (s.readIn i)
    drain := s.drain.next s.config.resetn s.read.fifo.empty s.read.fifo.q
    write := s.write.next s.config.resetn s.rsa.done s.config.writeStart s.endAddressWrite
      s.rsa.data1024 i.waitWrite
    writes :=
      if s.write.oWrite && !i.waitWrite then s.writes ++ [(s.write.oAddress, s.write.oData)]
      else s.writes }

/-- One step: the clocks that have an edge; both see the state before it. The
core takes its operands at an edge with `RSA_load` and its enable high. -/
def step (M : Word → Word) (s : Controller) (i : In) : Controller :=
  { (if i.sysClk then s.sysEdge M i else s) with
    rsa :=
      if i.rsaClk then s.rsa.next s.config.resetn s.drain.readFifoDone i.rsaValid i.rsaData
      else s.rsa
    loads :=
      if i.rsaClk && s.rsa.load && s.rsa.resetNDelay then s.loads ++ [s.operands] else s.loads }

section
variable {M : Word → Word} {s : Controller} {i : In}

theorem step_config :
    (s.step M i).config = if i.sysClk then s.config.next i.cpu else s.config := by
  cases h : i.sysClk <;> simp [step, sysEdge, h]

theorem step_read :
    (s.step M i).read = if i.sysClk then s.read.next M (s.readIn i) else s.read := by
  cases h : i.sysClk <;> simp [step, sysEdge, h]

theorem step_drain :
    (s.step M i).drain =
      if i.sysClk then s.drain.next s.config.resetn s.read.fifo.empty s.read.fifo.q
      else s.drain := by
  cases h : i.sysClk <;> simp [step, sysEdge, h]

theorem step_write :
    (s.step M i).write =
      if i.sysClk then s.write.next s.config.resetn s.rsa.done s.config.writeStart
        s.endAddressWrite s.rsa.data1024 i.waitWrite
      else s.write := by
  cases h : i.sysClk <;> simp [step, sysEdge, h]

theorem step_writes :
    (s.step M i).writes =
      if i.sysClk && s.write.oWrite && !i.waitWrite then
        s.writes ++ [(s.write.oAddress, s.write.oData)]
      else s.writes := by
  cases h : i.sysClk <;> simp [step, sysEdge, h]

theorem step_rsa :
    (s.step M i).rsa =
      if i.rsaClk then s.rsa.next s.config.resetn s.drain.readFifoDone i.rsaValid i.rsaData
      else s.rsa := rfl

theorem step_loads :
    (s.step M i).loads =
      if i.rsaClk && s.rsa.load && s.rsa.resetNDelay then s.loads ++ [s.operands]
      else s.loads := rfl

end

end Controller

end SocCrypto.Rsa

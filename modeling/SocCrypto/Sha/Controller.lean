import SocCrypto.Dma.WriteMaster
import SocCrypto.Sha.Core

/-!
# The SHA-256 controller

`SHA_256_Controller.v` with its FIFO and the memory behind its masters: the bus
side of the RSA controller with an 8-word write master, and an assembler that
hands blocks of 16 words to the core. The bus side runs on `iClk`, the core on
`iSHA_clk`; a step is any edge of either clock or of both.
-/

namespace SocCrypto.Sha
open Dma

/-! ### FIFO to block -/

/-- `state_fifo_to_mem`, in the order 2'd0 to 2'd3. -/
inductive AssemblerState where
  | poll
  | request
  | store
  | offer
  deriving DecidableEq

structure Assembler where
  state : AssemblerState
  counter : BitVec 4
  fifoRead : Bool
  writeDone : Bool
  shaEnable : Bool
  mem : BitVec 512
  deriving DecidableEq

namespace Assembler

def reset (d : Assembler) : Assembler := ⟨.poll, 0, false, false, false, d.mem⟩

/-- One clock. The enable stays up once the first block is complete. -/
def next (d : Assembler) (resetn fifoEmpty : Bool) (fifoOutData : Word) (readBlock : Bool) :
    Assembler :=
  if !resetn then d.reset
  else
    match d.state with
    | .poll =>
      if !fifoEmpty && !d.writeDone then { d with fifoRead := true, state := .request } else d
    | .request => { d with fifoRead := false, state := .store }
    | .store =>
      let stored := { d with mem := pushWord d.mem fifoOutData, counter := d.counter + 1 }
      if d.counter = 15 then { stored with writeDone := true, shaEnable := true, state := .offer }
      else { stored with state := .poll }
    | .offer =>
      if readBlock then { d with writeDone := false, counter := 0, state := .poll } else d

end Assembler

/-! ### The controller -/

structure Controller where
  config : Config
  read : ReadPath
  drain : Assembler
  core : Core
  write : MasterWrite 3
  writes : List (Word × Word)
  deriving DecidableEq

namespace Controller

structure In where
  clk : Bool
  shaClk : Bool
  /-- Register write of the processor. -/
  cpu : Option Config.Write
  waitRead : Bool
  /-- Memory answers the oldest accepted read. -/
  answer : Bool
  waitWrite : Bool

/-- What the read side sees in a cycle. -/
def readIn (s : Controller) (i : In) : ReadPath.In where
  resetn := s.config.resetn
  startRead := s.config.startRead
  aclr := s.config.fifoClear
  readStart := s.config.readStart
  endAddress := s.config.endAddressRead
  rdreq := s.drain.fifoRead
  wait := i.waitRead
  answer := i.answer

/-- `end_address_write = write_start_address + 32`. -/
def endAddressWrite (s : Controller) : Word := s.config.writeStart + 32

/-- `number_block = length >> 6`. -/
def numberBlock (s : Controller) : Word := s.config.length >>> 6

/-- An edge of `iClk`. -/
def clkEdge (M : Word → Word) (s : Controller) (i : In) : Controller :=
  { s with
    config := s.config.next i.cpu
    read := s.read.next M (s.readIn i)
    drain := s.drain.next s.config.resetn s.read.fifo.empty s.read.fifo.q s.core.oReadBlock
    write := s.write.next s.config.resetn s.core.oDone s.config.writeStart s.endAddressWrite
      s.core.oHashValue i.waitWrite
    writes :=
      if s.write.oWrite && !i.waitWrite then s.writes ++ [(s.write.oAddress, s.write.oData)]
      else s.writes }

/-- One step: the clocks that have an edge; both see the state before it. -/
def step (M : Word → Word) (s : Controller) (i : In) : Controller :=
  { (if i.clk then s.clkEdge M i else s) with
    core :=
      if i.shaClk then
        s.core.next s.drain.shaEnable s.drain.writeDone s.drain.mem s.numberBlock
      else s.core }

section
variable {M : Word → Word} {s : Controller} {i : In}

theorem step_config : (s.step M i).config = if i.clk then s.config.next i.cpu else s.config := by
  cases h : i.clk <;> simp [step, clkEdge, h]

theorem step_read :
    (s.step M i).read = if i.clk then s.read.next M (s.readIn i) else s.read := by
  cases h : i.clk <;> simp [step, clkEdge, h]

theorem step_drain :
    (s.step M i).drain =
      if i.clk then
        s.drain.next s.config.resetn s.read.fifo.empty s.read.fifo.q s.core.oReadBlock
      else s.drain := by
  cases h : i.clk <;> simp [step, clkEdge, h]

theorem step_write :
    (s.step M i).write =
      if i.clk then s.write.next s.config.resetn s.core.oDone s.config.writeStart
        s.endAddressWrite s.core.oHashValue i.waitWrite
      else s.write := by
  cases h : i.clk <;> simp [step, clkEdge, h]

theorem step_writes :
    (s.step M i).writes =
      if i.clk && s.write.oWrite && !i.waitWrite then
        s.writes ++ [(s.write.oAddress, s.write.oData)]
      else s.writes := by
  cases h : i.clk <;> simp [step, clkEdge, h]

theorem step_core :
    (s.step M i).core =
      if i.shaClk then
        s.core.next s.drain.shaEnable s.drain.writeDone s.drain.mem s.numberBlock
      else s.core := rfl

end

/-- State of `iRstn`; the FIFO and the memory are empty. -/
structure HardwareReset (s : Controller) : Prop where
  master : s.read.master = MasterRead.reset
  fifo : s.read.fifo.words = []
  inflight : s.read.inflight = []
  drain : s.drain = s.drain.reset
  write : s.write = s.write.reset
  writes : s.writes = []

/-- Reachable from a hardware reset by any inputs, while memory may change. -/
inductive Reachable : Controller → Prop
  | start {s : Controller} : HardwareReset s → Reachable s
  | step {s : Controller} (M : Word → Word) (i : In) : Reachable s → Reachable (s.step M i)

end Controller

end SocCrypto.Sha

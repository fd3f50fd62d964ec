import SocCrypto.Aes.Core

/-!
# The AES engine on the bus

`AES_Qsys.v`: the register file, the read master with its credit counter, the write
master, and `AES_FIFO.v`. `Memory` is the bus side of the read master: it accepts a
request when it does not assert waitrequest and answers the accepted requests in order,
at most one in a cycle. `iRst_n` is high in a step.
-/

namespace SocCrypto.Aes
open AesFunction (Block)

/-! ### Registers -/

/-- `r_state_DMA_RM` and `r_state_DMA_WM`; the read master uses `IDLE`, `STEP_1`, `STEP_2`
and `STOP`. -/
inductive DmaState
  | IDLE | STEP_1 | STEP_2 | STEP_3 | STEP_4 | STEP_5 | STOP
  deriving DecidableEq

structure ReadMaster where
  rStateDMARM : DmaState
  oRMRead : Bool
  oRMRdaddr : Word
  rRMLastaddr : Word
  rRMDone : Bool
  rAddStored : Bool
  deriving DecidableEq

namespace ReadMaster

/-- `credit` is `w_usedw + r_fifo_guess_stored < 56` with `!w_full_fifoIn`. -/
def next (m : ReadMaster) (RESET START : Bool) (startAddr LENGTH : Word) (credit wait : Bool) :
    ReadMaster :=
  if RESET then
    { m with rStateDMARM := .IDLE, oRMRead := false, oRMRdaddr := 0, rRMDone := false,
             rAddStored := false }
  else
    match m.rStateDMARM with
    | .IDLE =>
      if START then
        { m with oRMRdaddr := startAddr, rRMLastaddr := startAddr + LENGTH, rStateDMARM := .STEP_1 }
      else m
    | .STEP_1 =>
      if credit then { m with oRMRead := true, rAddStored := true, rStateDMARM := .STEP_2 } else m
    | .STEP_2 =>
      if !wait then
        { m with rAddStored := false, oRMRead := false, oRMRdaddr := m.oRMRdaddr + 4,
                 rStateDMARM := .STOP }
      else { m with rAddStored := false }
    | .STOP =>
      if m.oRMRdaddr = m.rRMLastaddr then { m with rRMDone := true }
      else { m with rStateDMARM := .STEP_1 }
    | _ => m

end ReadMaster

structure WriteMaster where
  rStateDMAWM : DmaState
  oWMWrite : Bool
  oWMWraddr : Word
  oWMWrdata : Word
  rWMLastaddr : Word
  rWMDone : Bool
  rReadFifoOut : Bool
  deriving DecidableEq

namespace WriteMaster

def clear (m : WriteMaster) : WriteMaster :=
  { m with rStateDMAWM := .IDLE, oWMWrite := false, oWMWraddr := 0, rWMDone := false,
           rReadFifoOut := false }

/-- The case statement stands behind the `if`, not in its `else`: what it assigns overrides
the reset. -/
def next (m : WriteMaster) (RESET : Bool) (startAddr LENGTH : Word) (emptyFifoOut : Bool)
    (qFifoOut : Word) (wait : Bool) : WriteMaster :=
  let r := if RESET then m.clear else m
  match m.rStateDMAWM with
  | .IDLE =>
    if !emptyFifoOut then
      { r with rReadFifoOut := false, oWMWraddr := startAddr, rWMLastaddr := startAddr + LENGTH,
               rStateDMAWM := .STEP_1 }
    else { r with rReadFifoOut := false, rStateDMAWM := .IDLE }
  | .STEP_1 =>
    if !emptyFifoOut then { r with rReadFifoOut := true, rStateDMAWM := .STEP_2 }
    else { r with rStateDMAWM := .STEP_1 }
  | .STEP_2 => { r with rReadFifoOut := false, rStateDMAWM := .STEP_3 }
  | .STEP_3 => { r with oWMWrdata := qFifoOut, rStateDMAWM := .STEP_4 }
  | .STEP_4 => { r with oWMWrite := true, rStateDMAWM := .STEP_5 }
  | .STEP_5 =>
    if !wait then { r with oWMWrite := false, oWMWraddr := m.oWMWraddr + 4, rStateDMAWM := .STOP }
    else { r with rStateDMAWM := .STEP_5 }
  | .STOP =>
    if m.oWMWraddr = m.rWMLastaddr then { r with rWMDone := true }
    else { r with rStateDMAWM := .STEP_1 }

end WriteMaster

structure Qsys where
  ram : BitVec 4 → Word
  oData : Word
  rWriteFifoIn : Bool
  rDataFifoIn : Word
  enable : Bool
  rBusy : Bool
  rm : ReadMaster
  rFifoGuessStored : BitVec 8
  wm : WriteMaster
  aesFifo : AesFifo

namespace Qsys

structure In where
  iRead : Bool
  iWrite : Bool
  iAddress : BitVec 4
  iData : Word
  iRMRddatavalid : Bool
  iRMWaitrequest : Bool
  iRMRddata : Word
  iWMWaitrequest : Bool
  deriving DecidableEq

/-! ### Register file -/

def rmStartAddr (s : Qsys) : Word := s.ram 10
def wmStartAddr (s : Qsys) : Word := s.ram 11
def length (s : Qsys) : Word := s.ram 12
def startBit (s : Qsys) : Bool := (s.ram 13).getLsbD 0
def resetBit (s : Qsys) : Bool := (s.ram 13).getLsbD 1

def status (s : Qsys) : Word :=
  0#29 ++ BitVec.ofBool s.wm.rWMDone ++ BitVec.ofBool s.rm.rRMDone ++ BitVec.ofBool s.rBusy

/-- The later assignments of the block override the write of the processor. -/
def nextRam (s : Qsys) (i : In) : BitVec 4 → Word := fun a =>
  if a = 14 then s.status
  else if s.enable && a = 0 then 0
  else if a = 8 then if s.aesFifo.fifoOut.empty then 1 else 0
  else if a = 6 then if s.aesFifo.fifoIn.almostFull then 1 else 0
  else if i.iWrite && a = i.iAddress then i.iData
  else s.ram a

/-! ### One clock -/

/-- The sum is taken in the width of the constant, so it does not wrap. -/
def credit (s : Qsys) : Bool :=
  decide (s.aesFifo.fifoIn.usedw.toNat + s.rFifoGuessStored.toNat < 56) && !s.aesFifo.fifoIn.almostFull

def nextGuess (s : Qsys) (rddatavalid : Bool) : BitVec 8 :=
  if s.resetBit then 0
  else if s.rm.rAddStored && rddatavalid then s.rFifoGuessStored
  else if s.rm.rAddStored then s.rFifoGuessStored + 1
  else if rddatavalid then s.rFifoGuessStored - 1
  else s.rFifoGuessStored

def aesFifoIn (s : Qsys) : AesFifo.In where
  iParamLoad := s.enable
  iEndec := (s.ram 1).getLsbD 0
  iKeyLoad := s.enable
  iKeyData := ⟨s.ram 2, s.ram 3, s.ram 4, s.ram 5⟩
  iRstControl := s.resetBit
  iWriteFifoIn := s.rWriteFifoIn
  iDataFifoIn := s.rDataFifoIn
  iReadFifoOut := s.wm.rReadFifoOut

def next (s : Qsys) (i : In) : Qsys where
  ram := s.nextRam i
  oData := if i.iRead then s.ram i.iAddress else s.oData
  rWriteFifoIn := i.iRMRddatavalid
  rDataFifoIn := if i.iRMRddatavalid then i.iRMRddata else s.rDataFifoIn
  enable := (s.ram 0).getLsbD 0 && (s.ram 0).getLsbD 1
  rBusy :=
    if s.resetBit then false
    else if s.startBit && s.wm.oWMWraddr ≠ s.wm.rWMLastaddr then true else false
  rm := s.rm.next s.resetBit s.startBit s.rmStartAddr s.length s.credit i.iRMWaitrequest
  rFifoGuessStored := s.nextGuess i.iRMRddatavalid
  wm := s.wm.next s.resetBit s.wmStartAddr s.length s.aesFifo.fifoOut.empty s.aesFifo.fifoOut.q
    i.iWMWaitrequest
  aesFifo := s.aesFifo.next s.aesFifoIn

/-- What the reset leaves; the register file and the write master, whose case statement
overrides it, are not reset. -/
structure AfterReset (s : Qsys) : Prop where
  rWriteFifoIn : s.rWriteFifoIn = false
  rStateDMARM : s.rm.rStateDMARM = .IDLE
  oRMRead : s.rm.oRMRead = false
  oRMRdaddr : s.rm.oRMRdaddr = 0
  rRMDone : s.rm.rRMDone = false
  rAddStored : s.rm.rAddStored = false
  rFifoGuessStored : s.rFifoGuessStored = 0
  aesFifo : s.aesFifo.AfterReset

end Qsys

/-! ### Engine and memory -/

/-- The engine with the addresses of the accepted reads that memory has not answered. -/
structure System where
  qsys : Qsys
  inflight : List Word

namespace System

structure In where
  iRead : Bool
  iWrite : Bool
  iAddress : BitVec 4
  iData : Word
  /-- `iRM_wairequest`. -/
  rmWait : Bool
  /-- Memory answers the oldest read in this cycle. -/
  answer : Bool
  wmWait : Bool
  deriving DecidableEq

def rddatavalid (s : System) (i : In) : Bool := i.answer && !s.inflight.isEmpty

def qsysIn (M : Word → Word) (s : System) (i : In) : Qsys.In where
  iRead := i.iRead
  iWrite := i.iWrite
  iAddress := i.iAddress
  iData := i.iData
  iRMRddatavalid := s.rddatavalid i
  iRMWaitrequest := i.rmWait
  iRMRddata := M (s.inflight.headD 0)
  iWMWaitrequest := i.wmWait

def next (M : Word → Word) (s : System) (i : In) : System where
  qsys := s.qsys.next (s.qsysIn M i)
  inflight := (if i.answer then s.inflight.tail else s.inflight) ++
    (if s.qsys.rm.oRMRead && !i.rmWait then [s.qsys.rm.oRMRdaddr] else [])

/-- Reached after a reset, over any memory contents, through states with `P` only. -/
inductive Reachable (P : Qsys → Prop) : System → Prop
  | init {s : System} : s.qsys.AfterReset → s.inflight = [] → P s.qsys → Reachable P s
  | step {s : System} (M : Word → Word) (i : In) :
      Reachable P s → P (s.next M i).qsys → Reachable P (s.next M i)

/-! ### Power-up -/

def powerUp : System where
  qsys :=
    { ram := fun _ => 0
      oData := 0
      rWriteFifoIn := false
      rDataFifoIn := 0
      enable := false
      rBusy := false
      rm := ⟨.IDLE, false, 0, 0, false, false⟩
      rFifoGuessStored := 0
      wm := ⟨.IDLE, false, 0, 0, 0, false, false⟩
      aesFifo :=
        { fifoIn := ⟨[], 0⟩
          fifoOut := ⟨[], 0⟩
          aes :=
            { cipher :=
                { makekey := Makekey.reset
                  ke := ⟨fun _ => ⟨0, 0, 0, 0⟩, ⟨0, 0, 0, 0⟩⟩
                  kd := ⟨fun _ => ⟨0, 0, 0, 0⟩, ⟨0, 0, 0, 0⟩⟩
                  endec := Endec.reset }
              ffInDataValid := false
              makekeyDoneReg := false
              bufferIN := ⟨0, 0, 0, 0⟩
              bufferINCounter := 0
              start := false
              bufferOUT := ⟨0, 0, 0, 0⟩
              bufferOUTCounter := 0
              rDelay := false
              oFFOutWriteReq := false
              oFFOutData := 0 } } }
  inflight := []

theorem powerUp_afterReset : powerUp.qsys.AfterReset :=
  ⟨rfl, rfl, rfl, rfl, rfl, rfl, rfl, ⟨rfl, rfl, ⟨rfl, rfl, rfl, rfl, rfl, rfl, rfl, rfl, rfl⟩⟩⟩

def In.write (a : BitVec 4) (d : Word) : In := ⟨false, true, a, d, false, false, false⟩

def In.idle : In := ⟨false, false, 0, 0, false, false, false⟩

end System

end SocCrypto.Aes

import Mathlib.Data.BitVec

/-!
# The parts of the UART

`re1ce.v`, `redet.v` and `fedet.v`, the FIFO `DPSFnmCE.v`, and `UART_BRG.v`,
`UART_TXSM.v`, `UART_RXSM.v`, `UART_RTO.v`, `UART_INT.v`. A `next` is one `Clk` edge
of the always blocks clocked by `Clk`; where a block also has an asynchronous
set or reset, or another clock, the function says what decides it.
-/

namespace SocCrypto.Uart

/-! ### Edge detectors -/

/-- `QSync`, bits 2, 1, 0. -/
structure QSync where
  q2 : Bool
  q1 : Bool
  q0 : Bool
  deriving DecidableEq

namespace QSync

def clear : QSync := ⟨false, false, false⟩

def pls (q : QSync) : Bool := q.q2

/-- `redet.v`, and the `clk` block of `re1ce.v`. -/
def rising (q : QSync) (din : Bool) : QSync := ⟨q.q0 && !q.q1, q.q0, din⟩

/-- `fedet.v`. -/
def falling (q : QSync) (din : Bool) : QSync := ⟨!q.q0 && q.q1, q.q0, din⟩

/-- The state `fedet.v` is reset to. -/
def fallingReset : QSync := ⟨false, true, true⟩

end QSync

/-- `re1ce.v`: a pulse on `clk` for an edge of `din` taken with `den`. -/
structure Re1ce where
  qIn : Bool
  qSync : QSync
  deriving DecidableEq

namespace Re1ce

def clear : Re1ce := ⟨false, QSync.clear⟩

def pls (r : Re1ce) : Bool := r.qSync.pls

/-- `QIn` is cleared by `rst` and by `pls` at any time. -/
def next (r : Re1ce) (rst clk din den : Bool) : Re1ce :=
  let qSync :=
    if rst then QSync.clear
    else if clk then r.qSync.rising r.qIn
    else r.qSync
  { qIn :=
      if rst || qSync.pls then false
      else if din then
        if r.pls then false else if den then true else r.qIn
      else r.qIn
    qSync }

end Re1ce

/-! ### FIFO -/

/-- `DPSFnmCE.v`. -/
structure Dpsf (addr width : ℕ) where
  ram : BitVec addr → BitVec width
  a : BitVec addr
  dpra : BitVec addr
  wCnt : BitVec addr
  nEF : Bool
  rFF : Bool

namespace Dpsf
variable {addr width : ℕ}

def ff (f : Dpsf addr width) : Bool := f.rFF

def ef (f : Dpsf addr width) : Bool := !f.nEF

def cnt (f : Dpsf addr width) : BitVec (1 + addr) := BitVec.ofBool f.ff ++ f.wCnt

def hf (f : Dpsf addr width) : Bool := f.cnt.getLsbD addr || f.cnt.getLsbD (addr - 1)

def dataOut (f : Dpsf addr width) : BitVec width := f.ram f.dpra

def wr (f : Dpsf addr width) (we : Bool) : Bool := we && !f.ff

def rd (f : Dpsf addr width) (re : Bool) : Bool := re && !f.ef

def ce (f : Dpsf addr width) (we re : Bool) : Bool := f.wr we ^^ f.rd re

def next (f : Dpsf addr width) (rst we re : Bool) (di : BitVec width) : Dpsf addr width where
  ram := if f.wr we then fun x => if x = f.a then di else f.ram x else f.ram
  a := if rst then 0 else if f.wr we then f.a + 1 else f.a
  dpra := if rst then 0 else if f.rd re then f.dpra + 1 else f.dpra
  wCnt :=
    if rst then 0
    else if f.wr we && !f.rd re then f.wCnt + 1
    else if f.rd re && !f.wr we then f.wCnt - 1
    else f.wCnt
  nEF :=
    if rst then false
    else if f.ce we re then !(re && f.cnt == 1)
    else f.nEF
  rFF :=
    if rst then false
    else if f.ce we re then we && f.wCnt == BitVec.allOnes addr
    else f.rFF

end Dpsf

/-! ### Baud rate generator -/

structure Brg where
  psCntr : BitVec 4
  divider : BitVec 8
  ce16x : Bool
  deriving DecidableEq

namespace Brg

def tcPSCntr (b : Brg) : Bool := b.psCntr == 0

def tcDivider (b : Brg) : Bool := b.tcPSCntr && b.divider == 0

def next (b : Brg) (rst : Bool) (ps : BitVec 4) (div : BitVec 8) : Brg where
  psCntr := if rst then 0 else if b.tcPSCntr then ps else b.psCntr - 1
  divider :=
    if rst then 0
    else if b.tcDivider then div
    else if b.tcPSCntr then b.divider - 1
    else b.divider
  ce16x := if rst then false else b.tcDivider

end Brg

/-! ### Frame format -/

/-- `{Len, NumStop, ParEn, Par}`. -/
structure Format where
  len : Bool
  numStop : Bool
  parEn : Bool
  par : BitVec 2
  deriving DecidableEq

/-- Parity of a data word, `^w`. -/
def reduceXor {w : ℕ} (x : BitVec w) : Bool :=
  (List.range w).foldl (fun b i => b ^^ x.getLsbD i) false

/-! ### Transmitter -/

inductive TxState
  | pIdle | pStopDelay | pStartDelay | pUnused | pStartBit
  | pShift0 | pShift1 | pShift2 | pShift3 | pShift4 | pShift5 | pShift6 | pShift7
  | pParityBit | pStopBit2 | pStopBit1
  deriving DecidableEq

structure TxSm where
  txSM : TxState
  tfRE : Bool
  tsr : BitVec 9
  txD : Bool
  bit : BitVec 4
  ceBCnt : Bool
  deriving DecidableEq

namespace TxSm

def txIdle (x : TxSm) : Bool := x.txSM == .pIdle

/-- `CE_TxSM`. -/
def ce (x : TxSm) (ce16x : Bool) : Bool := if x.txIdle then ce16x else x.ceBCnt

def ldTSR (x : TxSm) (ce16x tfEF ctsi : Bool) : Bool :=
  x.ce ce16x && !tfEF && ctsi &&
    (x.txSM == .pStartDelay || x.txSM == .pStopBit1 || x.txSM == .pStopDelay)

def parBit (f : Format) (thr : BitVec 8) : Bool :=
  let evn := if f.len then reduceXor (thr.setWidth 7) else reduceXor thr
  match f.par with
  | 0 => !evn
  | 1 => evn
  | 2 => false
  | 3 => true

def nextTxD (x : TxSm) : Bool :=
  match x.txSM with
  | .pStartBit => false
  | .pShift0 => x.tsr.getLsbD 0
  | .pShift1 => x.tsr.getLsbD 1
  | .pShift2 => x.tsr.getLsbD 2
  | .pShift3 => x.tsr.getLsbD 3
  | .pShift4 => x.tsr.getLsbD 4
  | .pShift5 => x.tsr.getLsbD 5
  | .pShift6 => x.tsr.getLsbD 6
  | .pShift7 => x.tsr.getLsbD 7
  | .pParityBit => x.tsr.getLsbD 8
  | _ => true

def nextState (x : TxSm) (f : Format) (tfEF ctsi : Bool) : TxState :=
  let stop := if f.numStop then TxState.pStopBit2 else .pStopBit1
  match x.txSM with
  | .pIdle => if tfEF then .pIdle else .pStartDelay
  | .pStartDelay => if tfEF then .pIdle else if ctsi then .pStartBit else .pStartDelay
  | .pStartBit => .pShift0
  | .pShift0 => .pShift1
  | .pShift1 => .pShift2
  | .pShift2 => .pShift3
  | .pShift3 => .pShift4
  | .pShift4 => .pShift5
  | .pShift5 => .pShift6
  | .pShift6 => if f.len then .pParityBit else .pShift7
  | .pShift7 => if f.parEn then .pParityBit else stop
  | .pParityBit => stop
  | .pStopBit2 => .pStopBit1
  | .pStopBit1 => if tfEF then .pStopDelay else .pStartBit
  | .pStopDelay => if tfEF then .pIdle else if ctsi then .pStartBit else .pStartDelay
  | .pUnused => .pIdle

def next (x : TxSm) (rst ce16x : Bool) (f : Format) (tfEF : Bool) (thr : BitVec 8)
    (ctsi : Bool) : TxSm where
  txSM := if rst then .pIdle else if x.ce ce16x then x.nextState f tfEF ctsi else x.txSM
  tfRE := if x.txIdle then false else x.ldTSR ce16x tfEF ctsi
  tsr :=
    if x.txIdle then BitVec.allOnes 9
    else if x.ldTSR ce16x tfEF ctsi then BitVec.ofBool (parBit f thr) ++ thr
    else x.tsr
  txD := if rst then true else x.nextTxD
  bit := if x.txIdle then 0 else if ce16x then x.bit + 1 else x.bit
  ceBCnt := if x.txIdle then false else ce16x && x.bit == 15

end TxSm

/-! ### Receiver -/

inductive RxState
  | pWaitMark | pChkMark | pIdle | pChkStart
  | pShift0 | pShift1 | pShift2 | pShift3 | pShift4 | pShift5 | pShift6 | pShift7
  | pChkStop1 | pChkStop2 | pChkParity | pRcvError
  deriving DecidableEq

structure RxSm where
  rxSM : RxState
  bCnt : BitVec 4
  rsr : BitVec 8
  rd : BitVec 9
  weRHR : Bool
  deriving DecidableEq

namespace RxSm

/-- `RxSM_Wait`. -/
def wait (x : RxSm) : Bool :=
  x.rxSM == .pWaitMark || x.rxSM == .pChkMark || x.rxSM == .pIdle || x.rxSM == .pRcvError

def rxIdle (x : RxSm) : Bool := x.rxSM == .pIdle

def tcBCnt (x : RxSm) (ce16x : Bool) : Bool := ce16x && x.bCnt == 15

/-- `CE_RxSM`. -/
def ce (x : RxSm) (ce16x : Bool) : Bool := if x.wait then ce16x else x.tcBCnt ce16x

def setBit (r : BitVec 8) (i : ℕ) (b : Bool) : BitVec 8 :=
  if b then r ||| BitVec.twoPow 8 i else r &&& ~~~BitVec.twoPow 8 i

def nextRSR (x : RxSm) (rxD : Bool) : BitVec 8 :=
  match x.rxSM with
  | .pChkStart => 0
  | .pShift0 => setBit x.rsr 0 rxD
  | .pShift1 => setBit x.rsr 1 rxD
  | .pShift2 => setBit x.rsr 2 rxD
  | .pShift3 => setBit x.rsr 3 rxD
  | .pShift4 => setBit x.rsr 4 rxD
  | .pShift5 => setBit x.rsr 5 rxD
  | .pShift6 => setBit x.rsr 6 rxD
  | .pShift7 => setBit x.rsr 7 rxD
  | _ => x.rsr

def parErr (x : RxSm) (par : BitVec 2) (rxD : Bool) : Bool :=
  let oddPar := rxD ^^ reduceXor x.rsr
  let err := match par with
    | 0 => !oddPar
    | 1 => oddPar
    | 2 => rxD
    | 3 => !rxD
  err && x.rxSM == .pChkParity

/-- `CE_RD`. -/
def ceRD (x : RxSm) (ce16x rxD : Bool) : Bool :=
  x.ce ce16x && (x.rxSM == .pChkStop1 && rxD || x.rxSM == .pRcvError)

def nextState (x : RxSm) (f : Format) (rxD : Bool) : RxState :=
  let stop := if f.numStop then RxState.pChkStop2 else .pChkStop1
  match x.rxSM with
  | .pWaitMark => if rxD then .pChkMark else .pWaitMark
  | .pChkMark => if rxD then .pIdle else .pWaitMark
  | .pIdle => if !rxD then .pChkStart else .pIdle
  | .pChkStart => if rxD then .pIdle else .pShift0
  | .pShift0 => .pShift1
  | .pShift1 => .pShift2
  | .pShift2 => .pShift3
  | .pShift3 => .pShift4
  | .pShift4 => .pShift5
  | .pShift5 => .pShift6
  | .pShift6 => if f.len then .pChkParity else .pShift7
  | .pShift7 => if f.parEn then .pChkParity else stop
  | .pChkParity => if x.parErr f.par rxD then .pRcvError else stop
  | .pChkStop2 => if rxD then .pChkStop1 else .pRcvError
  | .pChkStop1 => if rxD then .pIdle else .pRcvError
  | .pRcvError => .pWaitMark

def next (x : RxSm) (rst ce16x : Bool) (f : Format) (rxD : Bool) : RxSm where
  rxSM := if rst then .pWaitMark else if x.ce ce16x then x.nextState f rxD else x.rxSM
  bCnt := if rst || x.wait then 8 else if ce16x then x.bCnt + 1 else x.bCnt
  rsr := if rst then 0 else if x.ce ce16x then x.nextRSR rxD else x.rsr
  rd :=
    if rst then 0
    else if x.ceRD ce16x rxD then BitVec.ofBool (x.rxSM == .pRcvError) ++ x.rsr
    else x.rd
  weRHR := if rst then false else x.ceRD ce16x rxD

end RxSm

/-! ### Receive timeout -/

structure Rto where
  rtoArm : Bool
  bCnt : BitVec 4
  tcBCnt : Bool
  cCnt : BitVec 4
  tcCCnt : Bool
  rtoCnt : BitVec 4
  tcRTOCnt : Bool
  rcvTimeout : Bool
  deriving DecidableEq

namespace Rto

/-- `CE_RTO`. -/
def ceRTO (r : Rto) (ce16x : Bool) : Bool := ce16x && r.tcBCnt && r.tcCCnt && r.tcRTOCnt

def clrRTOArm (r : Rto) (ce16x reRHR : Bool) : Bool := reRHR || r.ceRTO ce16x

/-- `Clr_BCnt`, which is also `Clr_CCnt` and `Clr_RTOCnt`. -/
def clrBCnt (r : Rto) (rst ce16x weRHR reRHR : Bool) : Bool :=
  rst || weRHR || r.clrRTOArm ce16x reRHR || !r.rtoArm

def next (r : Rto) (rst ce16x weRHR reRHR : Bool) (cCntVal rtoVal : BitVec 4) : Rto :=
  let clr := r.clrBCnt rst ce16x weRHR reRHR
  { rtoArm :=
      if rst then false
      else if r.clrRTOArm ce16x reRHR then false
      else if weRHR then true
      else r.rtoArm
    bCnt := if clr then 0 else if ce16x then r.bCnt + 1 else r.bCnt
    tcBCnt := if clr then false else if ce16x then r.bCnt == 14 else r.tcBCnt
    cCnt :=
      if clr then cCntVal
      else if ce16x && r.tcBCnt then if r.tcCCnt then cCntVal else r.cCnt - 1
      else r.cCnt
    tcCCnt := if clr then false else if ce16x then r.cCnt == 0 else r.tcCCnt
    rtoCnt :=
      if clr then rtoVal
      else if ce16x && r.tcBCnt && r.tcCCnt then if r.tcRTOCnt then rtoVal else r.rtoCnt - 1
      else r.rtoCnt
    tcRTOCnt := if clr then false else if ce16x then r.rtoCnt == 0 else r.tcRTOCnt
    rcvTimeout :=
      if rst then false
      else if reRHR then false
      else if r.ceRTO ce16x then true
      else r.rcvTimeout }

end Rto

/-! ### Interrupt flags -/

/-- `UART_INT.v`. -/
structure Interrupts where
  reTFEF : QSync
  feTFHF : QSync
  reRFHF : QSync
  feRFHF : QSync
  reRFEF : QSync
  reRTO : QSync
  iTFE : Bool
  iTHE : Bool
  iRHF : Bool
  iRTO : Bool
  deriving DecidableEq

/-- The flags of the two FIFOs and the timeout, as `UART_INT.v` reads them. -/
structure IntSources where
  tfHF : Bool
  tfEF : Bool
  rfHF : Bool
  rfEF : Bool
  rto : Bool

namespace Interrupts

/-- A flag with the block `always @(posedge Clk or posedge set)`: `was` and `now` are `set`
before and after the edge. -/
def latch (clk was now clr flag : Bool) : Bool :=
  if now then true
  else if clk then if was then true else if clr then was else flag
  else flag

/-- `usr` is `USR[3:0]`. -/
def next (x : Interrupts) (rst clk : Bool) (d : IntSources) (clrInt : Bool) (usr : BitVec 4) :
    Interrupts :=
  let sync (reset q q' : QSync) := if rst then reset else if clk then q' else q
  let reTFEF := sync QSync.clear x.reTFEF (x.reTFEF.rising d.tfEF)
  let feTFHF := sync QSync.fallingReset x.feTFHF (x.feTFHF.falling d.tfHF)
  let reRFHF := sync QSync.clear x.reRFHF (x.reRFHF.rising d.rfHF)
  let reRTO := sync QSync.clear x.reRTO (x.reRTO.rising d.rto)
  { reTFEF, feTFHF, reRFHF, reRTO
    feRFHF := sync QSync.fallingReset x.feRFHF (x.feRFHF.falling d.rfHF)
    reRFEF := sync QSync.clear x.reRFEF (x.reRFEF.rising d.rfEF)
    iTFE := latch clk x.reTFEF.pls reTFEF.pls (rst || x.iTFE && clrInt && usr.getLsbD 0) x.iTFE
    iTHE := latch clk x.feTFHF.pls feTFHF.pls (rst || x.iTHE && clrInt && usr.getLsbD 1) x.iTHE
    iRHF := latch clk x.reRFHF.pls reRFHF.pls
      (rst || x.iRHF && (clrInt || x.feRFHF.pls || x.reRFEF.pls) && usr.getLsbD 2) x.iRHF
    iRTO := latch clk x.reRTO.pls reRTO.pls (rst || x.iRTO && clrInt && usr.getLsbD 3) x.iRTO }

/-- What `IRQ` is raised for. -/
def any (x : Interrupts) : Bool := x.iTFE || x.iTHE || x.iRHF || x.iRTO

end Interrupts

end SocCrypto.Uart

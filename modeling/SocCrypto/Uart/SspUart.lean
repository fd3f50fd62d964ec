import SocCrypto.Uart.Engine

/-!
# The UART core and its Avalon wrapper

`SSP_UART.v` with the parameters of `SSP_UART_Avalon.v`, and the wrapper's decode of the
Avalon signals. An `Edge` is one moment at which the reset is high or a clock has an
edge: a `Clk` edge, an edge of `SSP_SCK`, or both; the registers of each clock read what
stood before it. `SSP_WnR` floats only while `SSP_EOC` and `SSP_En` are low, and is then
read nowhere.
-/

namespace SocCrypto.Uart

/-! ### Inputs -/

/-- The Avalon signals. -/
structure Bus where
  iChipSelect : Bool
  iWrite : Bool
  iRead : Bool
  iAddress : BitVec 3
  iData : BitVec 32
  deriving DecidableEq

namespace Bus

def sspEOC (b : Bus) : Bool := b.iChipSelect && (b.iWrite || b.iRead)

def sspRA (b : Bus) : BitVec 3 := if b.iChipSelect && (b.iWrite || b.iRead) then b.iAddress else 0

def sspEn (b : Bus) : Bool := b.iChipSelect && b.iRead && b.sspRA == 3

def sspWnR (b : Bus) : Bool := b.iChipSelect && b.iWrite

def sspSSEL (b : Bus) : Bool := b.iChipSelect

def sspDI (b : Bus) : BitVec 12 := if b.iChipSelect && b.iWrite then b.iData.setWidth 12 else 0

def sspWE (b : Bus) : Bool := b.sspSSEL && b.sspWnR && b.sspEOC

def selUCR (b : Bus) : Bool := b.sspRA == 0
def selUSR (b : Bus) : Bool := b.sspRA == 1
def selTDR (b : Bus) : Bool := b.sspRA == 2
def selRDR (b : Bus) : Bool := b.sspRA == 3
def selSPR (b : Bus) : Bool := b.sspRA == 4

end Bus

/-- The external serial lines. -/
structure Lines where
  rxD232 : Bool
  xCTS : Bool
  rxD485 : Bool
  deriving DecidableEq

inductive SckEdge
  | none | rise | fall
  deriving DecidableEq

structure Edge where
  iRst : Bool
  clk : Bool
  sck : SckEdge
  bus : Bus
  lines : Lines
  deriving DecidableEq

def Edge.sckRise (e : Edge) : Bool := e.sck == .rise

def Edge.sckFall (e : Edge) : Bool := e.sck == .fall

/-! ### State -/

structure SspUart where
  ucr : BitVec 12
  usr : BitVec 12
  tdr : BitVec 8
  rdr : BitVec 12
  spr : BitVec 12
  rtfThr : BitVec 8
  ps : BitVec 4
  div : BitVec 8
  en : Bool
  hld : Bool
  txHold : Bool
  rxD : Bool
  irq : Bool
  red1 : Re1ce
  red2 : Re1ce
  red3 : Re1ce
  red4 : Re1ce
  red5 : Re1ce
  tf1 : Dpsf 6 8
  rf1 : Dpsf 6 9
  brg : Brg
  xmt : TxSm
  rcv : RxSm
  tmr : Rto
  int : Interrupts

namespace SspUart

/-! ### Control register fields -/

def md (s : SspUart) : BitVec 2 := s.ucr.extractLsb' 10 2

def rtsO (s : SspUart) : Bool := s.ucr.getLsbD 9

def ie (s : SspUart) : Bool := s.ucr.getLsbD 8

def fmt (s : SspUart) : BitVec 4 := s.ucr.extractLsb' 4 4

def format (s : SspUart) : Format :=
  match s.fmt with
  | 0 => ⟨false, false, false, 0⟩
  | 1 => ⟨false, false, false, 0⟩
  | 2 => ⟨false, false, true, 0⟩
  | 3 => ⟨false, false, true, 1⟩
  | 4 => ⟨false, false, true, 2⟩
  | 5 => ⟨false, false, true, 3⟩
  | 6 => ⟨false, false, false, 0⟩
  | 7 => ⟨false, true, false, 0⟩
  | 8 => ⟨false, true, true, 0⟩
  | 9 => ⟨false, true, true, 1⟩
  | 10 => ⟨false, true, true, 2⟩
  | 11 => ⟨false, true, true, 3⟩
  | 12 => ⟨true, false, true, 0⟩
  | 13 => ⟨true, false, true, 1⟩
  | 14 => ⟨true, true, true, 0⟩
  | _ => ⟨true, true, true, 1⟩

def cCntVal (s : SspUart) : BitVec 4 :=
  match s.fmt with
  | 0 => 9
  | 1 => 9
  | 2 => 10
  | 3 => 10
  | 4 => 10
  | 5 => 10
  | 6 => 9
  | 7 => 10
  | 8 => 11
  | 9 => 11
  | 10 => 11
  | 11 => 11
  | 12 => 9
  | 13 => 9
  | 14 => 9
  | _ => 9

/-- `pRTOChrDlyCnt - 1`. -/
def rtoVal : BitVec 4 := 2

/-! ### Status -/

def rs232 (s : SspUart) : Bool := !s.md.getLsbD 1

def rs485 (s : SspUart) : Bool := s.md.getLsbD 1

def xDE (s : SspUart) : Bool := if s.rs485 then !s.xmt.txIdle else false

def xRTS (s : SspUart) : Bool :=
  match s.md with
  | 0 => s.rtsO
  | 1 => !s.rf1.hf
  | 2 => false
  | 3 => false

def rtsI (s : SspUart) : Bool := if s.rs232 then s.xRTS else s.xDE

def ctsI (s : SspUart) (l : Lines) : Bool := if s.md == 1 then l.xCTS else true

def rs (s : SspUart) : BitVec 2 :=
  match s.rf1.ff, s.rf1.hf, s.rf1.ef with
  | false, false, false => 1
  | false, true, false => 2
  | true, true, false => 3
  | _, _, _ => 0

def ts (s : SspUart) : BitVec 2 :=
  match s.tf1.ff, s.tf1.hf, s.xmt.txIdle with
  | false, false, false => 1
  | false, true, false => 2
  | true, true, false => 3
  | _, _, _ => 0

/-- `{MD, RTSi, CTSi, RS, TS, iRTO, iRHF, iTHE, iTFE}`. -/
def status (s : SspUart) (l : Lines) : BitVec 12 :=
  s.md ++ BitVec.ofBool s.rtsI ++ BitVec.ofBool (s.ctsI l) ++ s.rs ++ s.ts ++
    BitVec.ofBool s.int.iRTO ++ BitVec.ofBool s.int.iRHF ++ BitVec.ofBool s.int.iTHE ++
    BitVec.ofBool s.int.iTFE

def trdy (s : SspUart) : Bool := !s.tf1.ff

def rrdy (s : SspUart) : Bool := !s.rf1.ef

def rhr (s : SspUart) : BitVec 9 := s.rf1.dataOut

/-! ### Strobes -/

/-- `den` of the detector behind `Clr_Int`. -/
def clrIntDen (s : SspUart) (b : Bus) : Bool :=
  b.selUSR && (b.sspEn && !s.en) && (s.usr.setWidth 4 != 0)

def clrInt (s : SspUart) : Bool := s.red1.pls

def weTDR (s : SspUart) (b : Bus) : Bool := b.sspWE && b.selTDR && s.trdy

def tfc (s : SspUart) (b : Bus) : Bool := b.sspDI.getLsbD 11 && s.weTDR b

def rfc (s : SspUart) (b : Bus) : Bool := b.sspDI.getLsbD 10 && s.weTDR b

def reRDR (s : SspUart) (b : Bus) : Bool :=
  b.selRDR && !b.sspWnR && (b.sspEn && !s.en) && s.rdr.getLsbD 10

def weRTFThr (b : Bus) : Bool :=
  b.sspWE && b.selSPR && b.sspDI.extractLsb' 9 3 == 3 && b.sspDI.getLsbD 8

/-! ### Reads -/

def sprDO (s : SspUart) : BitVec 12 :=
  match (s.spr.extractLsb' 9 3 : BitVec 3) with
  | 1 => 0x023
  | 2 => 0x022
  | 3 => s.rtfThr.setWidth 12
  | 4 => s.tf1.dataOut.setWidth 12
  | 5 => s.rhr.setWidth 12
  | 6 => s.tf1.cnt.setWidth 12
  | 7 => s.rf1.cnt.setWidth 12
  | 0 => s.spr

def sspDO (s : SspUart) (b : Bus) : BitVec 12 :=
  if b.sspSSEL then
    match b.sspRA with
    | 0 => s.ucr
    | 1 => s.usr
    | 2 => s.tdr.setWidth 12
    | 3 => s.rdr
    | 4 => s.sprDO
    | _ => s.rf1.cnt.setWidth 12
  else 0

/-- `oData` of the wrapper. -/
def oData (s : SspUart) (b : Bus) : BitVec 32 :=
  if b.iChipSelect && b.iRead then
    0#16 ++ BitVec.ofBool b.sspEOC ++ BitVec.ofBool b.sspEn ++ BitVec.ofBool b.sspWnR ++
      BitVec.ofBool b.sspSSEL ++ s.sspDO b
  else 0

/-! ### One edge -/

/-- A register of `posedge SCK or posedge Rst`. -/
def onRise {α : Type} (e : Edge) (reset new old : α) : α :=
  if e.iRst then reset else if e.sckRise then new else old

def nextRxD (s : SspUart) (l : Lines) : Bool :=
  match s.md with
  | 0 => l.rxD232
  | 1 => l.rxD232
  | 2 => if s.xmt.txIdle then l.rxD485 else true
  | 3 => l.rxD485

def step (s : SspUart) (e : Edge) : SspUart where
  ucr :=
    if e.iRst then 0
    else if e.sckFall then
      if e.bus.selUCR then if e.bus.sspWE then e.bus.sspDI else s.usr else s.ucr
    else s.ucr
  usr := onRise e 0 (s.status e.lines) s.usr
  tdr := onRise e 0 (if s.weTDR e.bus then e.bus.sspDI.setWidth 8 else s.tdr) s.tdr
  rdr := onRise e 0
    (if !e.bus.sspEn then
      BitVec.ofBool s.trdy ++ BitVec.ofBool s.rrdy ++ BitVec.ofBool s.tmr.rcvTimeout ++
        BitVec.ofBool (s.rhr.getLsbD 8) ++ s.rhr.setWidth 8
    else s.rdr) s.rdr
  spr := onRise e 0 (if e.bus.sspWE && e.bus.selSPR then e.bus.sspDI else s.spr) s.spr
  rtfThr := onRise e 0x88
    (if weRTFThr e.bus then e.bus.sspDI.setWidth 8 else s.rtfThr) s.rtfThr
  ps := onRise e 0xC
    (if e.bus.selUSR && e.bus.sspWE then e.bus.sspDI.extractLsb' 8 4 else s.ps) s.ps
  div := onRise e 0x01
    (if e.bus.selUSR && e.bus.sspWE then e.bus.sspDI.setWidth 8 else s.div) s.div
  en := onRise e false e.bus.sspEn s.en
  hld := onRise e false (if s.weTDR e.bus then e.bus.sspDI.getLsbD 9 else s.hld) s.hld
  txHold :=
    if e.clk then if e.iRst then false else if s.red4.pls then s.hld else s.txHold
    else s.txHold
  rxD := if e.iRst then true else if e.clk then s.nextRxD e.lines else s.rxD
  irq :=
    if e.clk then
      if e.iRst || s.clrInt then false
      else if !s.irq then s.ie && s.int.any
      else s.irq
    else s.irq
  red1 := s.red1.next e.iRst e.clk e.sckRise (s.clrIntDen e.bus)
  red2 := s.red2.next e.iRst e.clk e.sckRise (s.tfc e.bus)
  red3 := s.red3.next e.iRst e.clk e.sckRise (s.rfc e.bus)
  red4 := s.red4.next e.iRst e.clk e.sckRise (s.weTDR e.bus)
  red5 := s.red5.next e.iRst e.clk e.sckRise (s.reRDR e.bus)
  tf1 := if e.clk then s.tf1.next (e.iRst || s.red2.pls) s.red4.pls s.xmt.tfRE s.tdr else s.tf1
  rf1 := if e.clk then s.rf1.next (e.iRst || s.red3.pls) s.rcv.weRHR s.red5.pls s.rcv.rd else s.rf1
  brg := if e.clk then s.brg.next e.iRst s.ps s.div else s.brg
  xmt :=
    if e.clk then
      s.xmt.next e.iRst s.brg.ce16x s.format (s.tf1.ef || s.txHold) s.tf1.dataOut (s.ctsI e.lines)
    else s.xmt
  rcv := if e.clk then s.rcv.next e.iRst s.brg.ce16x s.format s.rxD else s.rcv
  tmr :=
    if e.clk then s.tmr.next e.iRst s.brg.ce16x s.rcv.weRHR s.red5.pls s.cCntVal rtoVal else s.tmr
  int := s.int.next e.iRst e.clk ⟨s.tf1.hf, s.tf1.ef, s.rf1.hf, s.rf1.ef, s.tmr.rcvTimeout⟩
    s.clrInt (s.usr.setWidth 4)

/-- The state after the edges of a list. -/
def run (s : SspUart) (es : List Edge) : SspUart := es.foldl step s

/-- Reached from any power-up state through a `Clk` edge under reset. -/
def Reachable (s : SspUart) : Prop :=
  ∃ powerUp e es, e.iRst = true ∧ e.clk = true ∧ s = run (step powerUp e) es

end SspUart

end SocCrypto.Uart

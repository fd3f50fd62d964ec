import SocCrypto.Aes.Makekey

/-!
# The AES engine between its FIFOs

`AES.v` with its two buffers, the FIFO `FIFO_full.v`, and both of them in `AES_FIFO.v`.
A FIFO holds 64 words and is almost full from 56 on; `lpm_showahead` is off, so a word
is on `q` one cycle after its read request. `iRst_n` is high in a step.
-/

namespace SocCrypto.Aes
open AesFunction (Block)

/-! ### FIFO -/

structure FifoFull where
  words : List Word
  q : Word
  deriving DecidableEq

namespace FifoFull

/-- `lpm_numwords`. -/
def numwords : ℕ := 64

/-- `almost_full_value`. -/
def almostFullValue : ℕ := 56

def empty (f : FifoFull) : Bool := f.words.isEmpty

def full (f : FifoFull) : Bool := decide (numwords ≤ f.words.length)

def almostFull (f : FifoFull) : Bool := decide (almostFullValue ≤ f.words.length)

/-- Six bits on an eight bit wire: 0 when the FIFO is full. -/
def usedw (f : FifoFull) : BitVec 8 := (BitVec.ofNat 6 f.words.length).setWidth 8

/-- One clock, with overflow and underflow checking; `sclr` leaves `q` alone. -/
def next (f : FifoFull) (sclr wrreq : Bool) (data : Word) (rdreq : Bool) : FifoFull :=
  if sclr then ⟨[], f.q⟩
  else
    { words := (if rdreq then f.words.tail else f.words) ++
        (if wrreq && !f.full then [data] else [])
      q := if rdreq then f.words.headD f.q else f.q }

end FifoFull

/-! ### AES -/

/-- `Buffer_IN[i] <= w`. -/
def putWord (b : Block) (i : BitVec 3) (w : Word) : Block :=
  if i = 0 then { b with w1 := w }
  else if i = 1 then { b with w2 := w }
  else if i = 2 then { b with w3 := w }
  else if i = 3 then { b with w4 := w }
  else b

/-- `Buffer_OUT[i]`. -/
def getWord (b : Block) (i : BitVec 3) : Word :=
  if i = 0 then b.w1
  else if i = 1 then b.w2
  else if i = 2 then b.w3
  else if i = 3 then b.w4
  else 0

/-- `AES.v`. -/
structure Core where
  cipher : Cipher
  ffInDataValid : Bool
  makekeyDoneReg : Bool
  bufferIN : Block
  bufferINCounter : BitVec 3
  start : Bool
  bufferOUT : Block
  bufferOUTCounter : BitVec 3
  rDelay : Bool
  oFFOutWriteReq : Bool
  oFFOutData : Word

namespace Core

structure In where
  iParamLoad : Bool
  iEndec : Bool
  iKeyLoad : Bool
  iKeyData : Block
  iFFInEmpty : Bool
  iFFInData : Word
  iFFOutAlmostFull : Bool
  deriving DecidableEq

/-- `AES_busy`. -/
def busy (s : Core) : Bool := s.cipher.endec.oBusy

def oFFInReadReq (s : Core) (iFFInEmpty iFFOutAlmostFull : Bool) : Bool :=
  !iFFInEmpty && !iFFOutAlmostFull && !s.busy && !s.ffInDataValid && s.makekeyDoneReg

def bufferINReset (s : Core) : Bool := s.bufferINCounter.getLsbD 1 && s.bufferINCounter.getLsbD 0

def bufferOUTReset (s : Core) : Bool := s.bufferOUTCounter.getLsbD 1 && s.bufferOUTCounter.getLsbD 0

def bufferOUTCounterZero (s : Core) : Bool := s.bufferOUTCounter == 0

def cipherIn (s : Core) (i : In) : Cipher.In :=
  ⟨i.iParamLoad, i.iEndec, i.iKeyLoad, i.iKeyData, s.start, s.bufferIN⟩

def next (s : Core) (i : In) : Core where
  cipher := s.cipher.next (s.cipherIn i)
  ffInDataValid := s.oFFInReadReq i.iFFInEmpty i.iFFOutAlmostFull
  makekeyDoneReg := if s.cipher.makekey.oDone then true else s.makekeyDoneReg
  bufferIN := if s.ffInDataValid then putWord s.bufferIN s.bufferINCounter i.iFFInData else s.bufferIN
  bufferINCounter :=
    if s.ffInDataValid then
      if s.bufferINReset then 0 else s.bufferINCounter + 1
    else s.bufferINCounter
  start := s.bufferINReset && s.ffInDataValid
  bufferOUT := if s.cipher.oDataValid then s.cipher.oData else s.bufferOUT
  bufferOUTCounter :=
    if s.rDelay || !s.bufferOUTCounterZero then
      if s.bufferOUTReset then 0 else s.bufferOUTCounter + 1
    else s.bufferOUTCounter
  rDelay := s.cipher.oDataValid
  oFFOutWriteReq :=
    if s.rDelay then true else if s.bufferOUTCounterZero then false else s.oFFOutWriteReq
  oFFOutData := getWord s.bufferOUT s.bufferOUTCounter

/-- What the reset leaves: the buffers and the key RAMs keep what they held. -/
structure AfterReset (s : Core) : Prop where
  makekey : s.cipher.makekey = Makekey.reset
  endec : s.cipher.endec = Endec.reset
  ffInDataValid : s.ffInDataValid = false
  makekeyDoneReg : s.makekeyDoneReg = false
  bufferINCounter : s.bufferINCounter = 0
  start : s.start = false
  bufferOUTCounter : s.bufferOUTCounter = 0
  rDelay : s.rDelay = false
  oFFOutWriteReq : s.oFFOutWriteReq = false

end Core

/-! ### AES and its FIFOs -/

/-- `AES_FIFO.v`. -/
structure AesFifo where
  fifoIn : FifoFull
  fifoOut : FifoFull
  aes : Core

namespace AesFifo

structure In where
  iParamLoad : Bool
  iEndec : Bool
  iKeyLoad : Bool
  iKeyData : Block
  iRstControl : Bool
  iWriteFifoIn : Bool
  iDataFifoIn : Word
  iReadFifoOut : Bool
  deriving DecidableEq

/-- `w_read_fifoIn`. -/
def readFifoIn (s : AesFifo) : Bool := s.aes.oFFInReadReq s.fifoIn.empty s.fifoOut.almostFull

def aesIn (s : AesFifo) (i : In) : Core.In :=
  ⟨i.iParamLoad, i.iEndec, i.iKeyLoad, i.iKeyData, s.fifoIn.empty, s.fifoIn.q, s.fifoOut.almostFull⟩

def next (s : AesFifo) (i : In) : AesFifo where
  fifoIn := s.fifoIn.next i.iRstControl i.iWriteFifoIn i.iDataFifoIn s.readFifoIn
  fifoOut := s.fifoOut.next i.iRstControl s.aes.oFFOutWriteReq s.aes.oFFOutData i.iReadFifoOut
  aes := s.aes.next (s.aesIn i)

/-- What the reset leaves. -/
structure AfterReset (s : AesFifo) : Prop where
  fifoIn : s.fifoIn.words = []
  fifoOut : s.fifoOut.words = []
  aes : s.aes.AfterReset

end AesFifo

end SocCrypto.Aes

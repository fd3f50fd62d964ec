import SocCrypto.Aes.Tables

/-!
# The block datapath of the AES engine

`Standard_round.v`, `Multiple_standard_round.v`, `Last_round.v` and `First_round.v`
inside `AES_endec_block.v`, that inside `AES_endec.v`, and the key RAM they read.
The four words `_1` to `_4` of a port are a block. `MODE` is 0, and no module uses
`iSize`. `iRst_n` is high; `reset` is the state it leaves.
-/

namespace SocCrypto.Aes
open AesFunction (Block column row0 row1 row2 row3)

/-! ### Standard round -/

/-- One table entry for each byte of a word. -/
structure Lookup (α : Type) where
  _1 : α
  _2 : α
  _3 : α
  _4 : α
  deriving DecidableEq

def lookup (iEndec : Bool) (w : Word) : Lookup Word :=
  if iEndec then ⟨smT5 (row0 w), smT6 (row1 w), smT7 (row2 w), smT8 (row3 w)⟩
  else ⟨smT1 (row0 w), smT2 (row1 w), smT3 (row2 w), smT4 (row3 w)⟩

/-- `Data_1_1_SBOX` to `Data_4_4_SBOX` and `oData_valid`. -/
structure StandardRound where
  data1 : Lookup Word
  data2 : Lookup Word
  data3 : Lookup Word
  data4 : Lookup Word
  oDataValid : Bool
  deriving DecidableEq

namespace StandardRound

def reset : StandardRound := ⟨⟨0, 0, 0, 0⟩, ⟨0, 0, 0, 0⟩, ⟨0, 0, 0, 0⟩, ⟨0, 0, 0, 0⟩, false⟩

def next (s : StandardRound) (iEndec iDataValid : Bool) (iData : Block) : StandardRound :=
  if iDataValid then
    { data1 := lookup iEndec iData.w1
      data2 := lookup iEndec iData.w2
      data3 := lookup iEndec iData.w3
      data4 := lookup iEndec iData.w4
      oDataValid := true }
  else { s with oDataValid := false }

/-- `Data_1_SHIFT_and_MIX` to `Data_4_SHIFT_and_MIX`. -/
def shiftAndMix (s : StandardRound) (iEndec : Bool) : Block :=
  if iEndec then
    { w1 := s.data1._1 ^^^ s.data4._2 ^^^ s.data3._3 ^^^ s.data2._4
      w2 := s.data2._1 ^^^ s.data1._2 ^^^ s.data4._3 ^^^ s.data3._4
      w3 := s.data3._1 ^^^ s.data2._2 ^^^ s.data1._3 ^^^ s.data4._4
      w4 := s.data4._1 ^^^ s.data3._2 ^^^ s.data2._3 ^^^ s.data1._4 }
  else
    { w1 := s.data1._1 ^^^ s.data2._2 ^^^ s.data3._3 ^^^ s.data4._4
      w2 := s.data2._1 ^^^ s.data3._2 ^^^ s.data4._3 ^^^ s.data1._4
      w3 := s.data3._1 ^^^ s.data4._2 ^^^ s.data1._3 ^^^ s.data2._4
      w4 := s.data4._1 ^^^ s.data1._2 ^^^ s.data2._3 ^^^ s.data3._4 }

def oData (s : StandardRound) (iEndec : Bool) (iRAMData : Block) : Block :=
  (s.shiftAndMix iEndec).addKey iRAMData

end StandardRound

/-! ### Last round -/

def lookupLast (iEndec : Bool) (w : Word) : Lookup Byte :=
  if iEndec then ⟨smSi (row0 w), smSi (row1 w), smSi (row2 w), smSi (row3 w)⟩
  else ⟨smS (row0 w), smS (row1 w), smS (row2 w), smS (row3 w)⟩

structure LastRound where
  data1 : Lookup Byte
  data2 : Lookup Byte
  data3 : Lookup Byte
  data4 : Lookup Byte
  oDataValid : Bool
  deriving DecidableEq

namespace LastRound

def reset : LastRound := ⟨⟨0, 0, 0, 0⟩, ⟨0, 0, 0, 0⟩, ⟨0, 0, 0, 0⟩, ⟨0, 0, 0, 0⟩, false⟩

def next (s : LastRound) (iEndec iDataValid : Bool) (iData : Block) : LastRound :=
  if iDataValid then
    { data1 := lookupLast iEndec iData.w1
      data2 := lookupLast iEndec iData.w2
      data3 := lookupLast iEndec iData.w3
      data4 := lookupLast iEndec iData.w4
      oDataValid := true }
  else { s with oDataValid := false }

/-- `Data_1_1_SHIFT_and_MIX` to `Data_4_4_SHIFT_and_MIX`. -/
def shiftAndMix (s : LastRound) (iEndec : Bool) : Block where
  w1 := column s.data1._1 (if iEndec then s.data4._2 else s.data2._2) s.data3._3
    (if iEndec then s.data2._4 else s.data4._4)
  w2 := column s.data2._1 (if iEndec then s.data1._2 else s.data3._2) s.data4._3
    (if iEndec then s.data3._4 else s.data1._4)
  w3 := column s.data3._1 (if iEndec then s.data2._2 else s.data4._2) s.data1._3
    (if iEndec then s.data4._4 else s.data2._4)
  w4 := column s.data4._1 (if iEndec then s.data3._2 else s.data1._2) s.data2._3
    (if iEndec then s.data1._4 else s.data3._4)

def oData (s : LastRound) (iEndec : Bool) (iRAMData : Block) : Block :=
  (s.shiftAndMix iEndec).addKey iRAMData

end LastRound

/-! ### The rounds between the first and the last -/

structure MultipleStandardRound where
  shiftIDataValid : Bool
  data : Block
  roundCounter : BitVec 4
  init : Bool
  controlIDataValid : Bool
  controlIData : Block
  oRAMAddr : BitVec 4
  oDataValid : Bool
  oData : Block
  roundN : StandardRound
  deriving DecidableEq

namespace MultipleStandardRound

def reset : MultipleStandardRound :=
  ⟨false, ⟨0, 0, 0, 0⟩, 0, false, false, ⟨0, 0, 0, 0⟩, 0, false, ⟨0, 0, 0, 0⟩, StandardRound.reset⟩

/-- `Round_counter_meet_max`. -/
def meetMax (s : MultipleStandardRound) (iRound : BitVec 4) : Bool :=
  s.roundCounter == iRound - 2 && s.roundN.oDataValid

/-- `Round_N_iData_valid`. -/
def roundNIDataValid (s : MultipleStandardRound) : Bool :=
  if s.init then s.controlIDataValid else s.shiftIDataValid

/-- `Round_N_iData_1` to `Round_N_iData_4`. -/
def roundNIData (s : MultipleStandardRound) : Block := if s.init then s.controlIData else s.data

def next (s : MultipleStandardRound) (iEndec : Bool) (iRound : BitVec 4) (iRAMData : Block)
    (iDataValid : Bool) (iData : Block) (iLastRoundDone : Bool) : MultipleStandardRound where
  shiftIDataValid := iDataValid
  data := iData
  roundCounter :=
    if s.meetMax iRound then 0
    else if s.roundN.oDataValid then s.roundCounter + 1 else s.roundCounter
  init := if s.meetMax iRound then false else if s.shiftIDataValid then true else s.init
  controlIDataValid := if s.meetMax iRound then false else s.roundN.oDataValid
  controlIData := s.roundN.oData iEndec iRAMData
  oRAMAddr :=
    if iLastRoundDone then 0
    else if iDataValid || s.roundN.oDataValid then s.oRAMAddr + 1 else s.oRAMAddr
  oDataValid := s.meetMax iRound
  oData := if s.meetMax iRound then s.roundN.oData iEndec iRAMData else s.oData
  roundN := s.roundN.next iEndec s.roundNIDataValid s.roundNIData

end MultipleStandardRound

/-! ### The block -/

structure EndecBlock where
  endec : Bool
  round : BitVec 4
  multiple : MultipleStandardRound
  last : LastRound
  deriving DecidableEq

namespace EndecBlock

def reset : EndecBlock := ⟨false, 0, MultipleStandardRound.reset, LastRound.reset⟩

/-- `First_round.v` is the key addition in front of the standard rounds. -/
def next (s : EndecBlock) (iParamLoad iEndec : Bool) (iRound : BitVec 4) (iRAMData : Block)
    (iDataValid : Bool) (iData : Block) : EndecBlock where
  endec := if iParamLoad then iEndec else s.endec
  round := if iParamLoad then iRound else s.round
  multiple := s.multiple.next s.endec s.round iRAMData iDataValid (iData.addKey iRAMData)
    s.last.oDataValid
  last := s.last.next s.endec s.multiple.oDataValid s.multiple.oData

def oDataValidPre (s : EndecBlock) : Bool := s.multiple.oDataValid
def oDataValid (s : EndecBlock) : Bool := s.last.oDataValid

def oData (s : EndecBlock) (iRAMData : Block) : Block := s.last.oData s.endec iRAMData

end EndecBlock

/-! ### Encrypt and decrypt -/

structure Endec where
  endec : Bool
  shiftedIDataValid : Bool
  oBusy : Bool
  data : Block
  block : EndecBlock
  deriving DecidableEq

namespace Endec

def reset : Endec := ⟨false, false, false, ⟨0, 0, 0, 0⟩, EndecBlock.reset⟩

/-- The key RAM read data of the mode. -/
def ramData (s : Endec) (iRAMKeData iRAMKdData : Block) : Block :=
  if s.endec then iRAMKdData else iRAMKeData

def next (s : Endec) (iParamLoad iEndec : Bool) (iRound : BitVec 4)
    (iRAMKeData iRAMKdData : Block) (iDataValid : Bool) (iData : Block) : Endec where
  endec := if iParamLoad then iEndec else s.endec
  shiftedIDataValid := iDataValid
  oBusy := if iDataValid then true else if s.block.oDataValidPre then false else s.oBusy
  data := if iDataValid then iData else s.data
  block := s.block.next iParamLoad iEndec iRound (s.ramData iRAMKeData iRAMKdData)
    s.shiftedIDataValid s.data

def oRAMAddr (s : Endec) : BitVec 4 := s.block.multiple.oRAMAddr
def oDataValid (s : Endec) : Bool := s.block.oDataValid

def oData (s : Endec) (iRAMKeData iRAMKdData : Block) : Block :=
  s.block.oData (s.ramData iRAMKeData iRAMKdData)

end Endec

/-! ### Key RAM -/

/-- What a writer drives on the four RAMs of a key: they share the address. -/
structure RamPort where
  addr : BitVec 4
  write1 : Bool
  write2 : Bool
  write3 : Bool
  write4 : Bool
  data : Block
  deriving DecidableEq

/-- Four `ram2port`. -/
structure KeyRam where
  mem : BitVec 4 → Block
  q : Block

namespace KeyRam

def store (mem : BitVec 4 → Block) (p : RamPort) : BitVec 4 → Block := fun a =>
  if a = p.addr then
    { w1 := if p.write1 then p.data.w1 else (mem a).w1
      w2 := if p.write2 then p.data.w2 else (mem a).w2
      w3 := if p.write3 then p.data.w3 else (mem a).w3
      w4 := if p.write4 then p.data.w4 else (mem a).w4 }
  else mem a

/-- One clock. A read of a word being written returns the old word. -/
def next (r : KeyRam) (p : RamPort) (rdaddress : BitVec 4) : KeyRam where
  mem := store r.mem p
  q := r.mem rdaddress

end KeyRam

end SocCrypto.Aes

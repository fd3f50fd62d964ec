import SocCrypto.Aes.Endec

/-!
# The key expansion of the AES engine

`AES_makekey.v` with `First_round_key.v`, `Main_round_key.v`, `SBOX_key_sm_S.v`,
`Makekey_write_to_RAM.v` and `Inverse_MixColumn_round.v`, and with the two key
RAMs and the datapath beside it. `iRst_n` is high; `reset` is the state it leaves.
-/

namespace SocCrypto.Aes
open AesFunction (Block column row0 row1 row2 row3)

/-! ### First round key -/

/-- `State` of `First_round_key.v`: 3'd0, 3'd1, 3'd2 and 3'd4. -/
inductive FirstState where
  | idle
  | write
  | hold
  | done
  deriving DecidableEq

structure FirstRoundKey where
  key : Block
  state : FirstState
  fsmWrite : Bool
  oRAMKeAddr : BitVec 4
  oRAMKdAddr : BitVec 4
  oLastKeyDataValid : Bool
  deriving DecidableEq

namespace FirstRoundKey

def reset : FirstRoundKey := ⟨⟨0, 0, 0, 0⟩, .idle, false, 0, 0, false⟩

def next (s : FirstRoundKey) (iRound : BitVec 4) (iKeyLoad : Bool) (iKeyData : Block) :
    FirstRoundKey :=
  let s' := if iKeyLoad then { s with key := iKeyData } else s
  match s.state with
  | .idle =>
    { s' with oLastKeyDataValid := false, state := if iKeyLoad then .write else .idle }
  | .write => { s' with fsmWrite := true, oRAMKeAddr := 0, oRAMKdAddr := iRound, state := .hold }
  | .hold => { s' with fsmWrite := false, state := .done }
  | .done => { s' with fsmWrite := false, oLastKeyDataValid := true, state := .idle }

def oLastKeyData (s : FirstRoundKey) : Word := s.key.w4

/-- `oRAM_Ke_write_1` to `oRAM_Kd_write_4`: `FSM_write & ~State[2]`. -/
def oRAMWrite (s : FirstRoundKey) : Bool := s.fsmWrite && s.state != .done

def oRAMKe (s : FirstRoundKey) : RamPort :=
  ⟨s.oRAMKeAddr, s.oRAMWrite, s.oRAMWrite, s.oRAMWrite, s.oRAMWrite, s.key⟩

def oRAMKd (s : FirstRoundKey) : RamPort :=
  ⟨s.oRAMKdAddr, s.oRAMWrite, s.oRAMWrite, s.oRAMWrite, s.oRAMWrite, s.key⟩

end FirstRoundKey

/-! ### Substitution of the key expansion -/

/-- `SBOX_key_sm_S.v` with `iSpecial_mode` at 0, where `Main_round_key.v` leaves it. -/
structure SboxKey where
  oDataValid : Bool
  shiftedIOriginData : Word
  rconpointer : BitVec 5
  data : Lookup Byte
  smRcon : Byte
  deriving DecidableEq

namespace SboxKey

def reset : SboxKey := ⟨false, 0, 0, ⟨0, 0, 0, 0⟩, 0⟩

def next (s : SboxKey) (iRstN iDataValid : Bool) (iData iOriginData : Word) : SboxKey :=
  if !iRstN then reset
  else if iDataValid then
    { oDataValid := true
      shiftedIOriginData := iOriginData
      rconpointer := s.rconpointer + 1
      data := ⟨smS (row0 iData), smS (row1 iData), smS (row2 iData), smS (row3 iData)⟩
      smRcon := Aes.smRcon s.rconpointer }
  else { s with oDataValid := false }

def oData (s : SboxKey) : Word :=
  column (s.data._2 ^^^ s.smRcon) s.data._3 s.data._4 s.data._1 ^^^ s.shiftedIOriginData

end SboxKey

/-! ### Write to RAM -/

structure MakekeyWriteToRam where
  write : Bool
  t : BitVec 7
  j : BitVec 3
  deriving DecidableEq

namespace MakekeyWriteToRam

def reset : MakekeyWriteToRam := ⟨false, 0, 0⟩

/-- `reset_condition`. -/
def oDone (s : MakekeyWriteToRam) : Bool := s.j == 3

def next (s : MakekeyWriteToRam) (iStart : Bool) (iCount : BitVec 7) : MakekeyWriteToRam where
  write := if s.oDone then false else if iStart then true else s.write
  j := if s.oDone then 0 else if s.write then s.j + 1 else s.j
  t := if s.oDone then 0 else if iStart then iCount else if s.write then s.t + 1 else s.t

/-- `t_divide` and `t_remain`. -/
def tDivide (s : MakekeyWriteToRam) : BitVec 4 := s.t.extractLsb' 2 4
def tRemain (s : MakekeyWriteToRam) : BitVec 2 := s.t.extractLsb' 0 2

def data (s : MakekeyWriteToRam) (iKEY : Block) : Word :=
  if s.j = 0 then iKEY.w1 else if s.j = 1 then iKEY.w2 else if s.j = 2 then iKEY.w3 else iKEY.w4

def port (s : MakekeyWriteToRam) (addr : BitVec 4) (iKEY : Block) : RamPort where
  addr := addr
  write1 := s.write && s.tRemain == 0
  write2 := s.write && s.tRemain == 1
  write3 := s.write && s.tRemain == 2
  write4 := s.write && s.tRemain == 3
  data := ⟨s.data iKEY, s.data iKEY, s.data iKEY, s.data iKEY⟩

def oRAMKe (s : MakekeyWriteToRam) (iKEY : Block) : RamPort := s.port s.tDivide iKEY

def oRAMKd (s : MakekeyWriteToRam) (iRound : BitVec 4) (iKEY : Block) : RamPort :=
  s.port (iRound - s.tDivide) iKEY

end MakekeyWriteToRam

/-! ### Main rounds -/

/-- `State` of `Main_round_key.v`: 3'd0, 3'd1 and 3'd4 to 3'd7. -/
inductive MainState where
  | idle
  | sbox
  | start
  | write
  | again
  | done
  deriving DecidableEq

structure MainRoundKey where
  state : MainState
  key : Block
  sboxReset : Bool
  sboxIDataValid : Bool
  sboxIData : Word
  sboxIOriginData : Word
  writeIStart : Bool
  writeICount : BitVec 7
  sbox : SboxKey
  toRam : MakekeyWriteToRam
  deriving DecidableEq

namespace MainRoundKey

def reset : MainRoundKey :=
  ⟨.idle, ⟨0, 0, 0, 0⟩, false, false, 0, 0, false, 0, SboxKey.reset, MakekeyWriteToRam.reset⟩

/-- `ROUND_KEY_COUNT_minus_KC`; `Round_plus_1` is four bits wide. -/
def roundKeyCountMinusKC (iRound iKC iBC : BitVec 4) : BitVec 7 :=
  (iRound + 1).setWidth 7 * iBC.setWidth 7 - iKC.setWidth 7

def next (s : MainRoundKey) (iKC iBC iRound : BitVec 4) (iKeyLoad : Bool) (iKeyData : Block)
    (iLastKeyDataValid : Bool) (iLastKeyData : Word) : MainRoundKey :=
  let s' :=
    { s with
      sbox := s.sbox.next (!s.sboxReset) s.sboxIDataValid s.sboxIData s.sboxIOriginData
      toRam := s.toRam.next s.writeIStart s.writeICount }
  match s.state with
  | .idle =>
    if iKeyLoad then { s' with sboxReset := false, key := iKeyData }
    else if iLastKeyDataValid then
      { s' with
        sboxReset := false, sboxIDataValid := true, sboxIData := iLastKeyData,
        sboxIOriginData := s.key.w1, state := .sbox }
    else { s' with sboxReset := false }
  | .sbox =>
    if s.sbox.oDataValid then
      { s' with
        sboxIDataValid := false
        key :=
          { w1 := s.sbox.oData
            w2 := s.key.w2 ^^^ s.sbox.oData
            w3 := s.key.w3 ^^^ s.key.w2 ^^^ s.sbox.oData
            w4 := s.key.w4 ^^^ s.key.w3 ^^^ s.key.w2 ^^^ s.sbox.oData }
        state := .start }
    else { s' with sboxIDataValid := false }
  | .start =>
    { s' with
      writeIStart := true, writeICount := s.writeICount + iKC.setWidth 7, state := .write }
  | .write =>
    if s.toRam.oDone then
      { s' with
        writeIStart := false
        state := if s.writeICount < roundKeyCountMinusKC iRound iKC iBC then .again else .done }
    else { s' with writeIStart := false }
  | .again =>
    { s' with
      sboxIDataValid := true, sboxIOriginData := s.key.w1, sboxIData := s.key.w4, state := .sbox }
  | .done => { s' with sboxReset := true, writeICount := 0, state := .idle }

def oDone (s : MainRoundKey) : Bool := s.sboxReset

def oRAMKe (s : MainRoundKey) : RamPort := s.toRam.oRAMKe s.key

def oRAMKd (s : MainRoundKey) (iRound : BitVec 4) : RamPort := s.toRam.oRAMKd iRound s.key

end MainRoundKey

/-! ### Decryption keys -/

/-- `Inverse_MixColumn_round.v`. -/
structure InverseMixColumnRound where
  /-- `oRAM_Kd_addr`, `oRAM_Kd_write_1` to `_4` and `RAM_Kd_data_1` to `_4`. -/
  kd : RamPort
  sbox1 : Lookup Word
  sbox2 : Lookup Word
  sbox3 : Lookup Word
  sbox4 : Lookup Word
  deriving DecidableEq

namespace InverseMixColumnRound

def reset : InverseMixColumnRound :=
  ⟨⟨0, false, false, false, false, ⟨0, 0, 0, 0⟩⟩, ⟨0, 0, 0, 0⟩, ⟨0, 0, 0, 0⟩, ⟨0, 0, 0, 0⟩,
    ⟨0, 0, 0, 0⟩⟩

def lookupU (w : Word) : Lookup Word := ⟨smU1 (row0 w), smU2 (row1 w), smU3 (row2 w), smU4 (row3 w)⟩

def next (s : InverseMixColumnRound) (iRAMKd : RamPort) : InverseMixColumnRound where
  kd := iRAMKd
  sbox1 := if iRAMKd.write1 then lookupU iRAMKd.data.w1 else s.sbox1
  sbox2 := if iRAMKd.write2 then lookupU iRAMKd.data.w2 else s.sbox2
  sbox3 := if iRAMKd.write3 then lookupU iRAMKd.data.w3 else s.sbox3
  sbox4 := if iRAMKd.write4 then lookupU iRAMKd.data.w4 else s.sbox4

/-- `SBOX_data_OUT_1` to `SBOX_data_OUT_4`. -/
def sum (l : Lookup Word) : Word := l._1 ^^^ l._2 ^^^ l._3 ^^^ l._4

/-- `Condition_for_not_change`. -/
def unchanged (s : InverseMixColumnRound) (iRound : BitVec 4) : Bool :=
  s.kd.addr == 0 || s.kd.addr == iRound

def oRAMKd (s : InverseMixColumnRound) (iRound : BitVec 4) : RamPort :=
  { s.kd with
    data :=
      if s.unchanged iRound then s.kd.data else ⟨sum s.sbox1, sum s.sbox2, sum s.sbox3, sum s.sbox4⟩ }

end InverseMixColumnRound

/-! ### Make key -/

structure Makekey where
  KC : BitVec 4
  BC : BitVec 4
  ramControlSel : Bool
  first : FirstRoundKey
  main : MainRoundKey
  inverse : InverseMixColumnRound
  deriving DecidableEq

namespace Makekey

def reset : Makekey := ⟨0, 0, false, FirstRoundKey.reset, MainRoundKey.reset, InverseMixColumnRound.reset⟩

/-- `KEY_LENGTH`, `BLOCK_SIZE` and `ROUND` of `AES.v`. -/
def keyLength : BitVec 4 := 4
def blockSize : BitVec 4 := 4
def round : BitVec 4 := 10

def oRAMKe (s : Makekey) : RamPort := if s.ramControlSel then s.main.oRAMKe else s.first.oRAMKe

/-- `Inverse_MixColumn_iRAM_Kd`. -/
def inverseIRAMKd (s : Makekey) : RamPort :=
  if s.ramControlSel then s.main.oRAMKd round else s.first.oRAMKd

def oRAMKd (s : Makekey) : RamPort := s.inverse.oRAMKd round

def oDone (s : Makekey) : Bool := s.main.oDone

def next (s : Makekey) (iParamLoad iKeyLoad : Bool) (iKeyData : Block) : Makekey where
  KC := if iParamLoad then keyLength else s.KC
  BC := if iParamLoad then blockSize else s.BC
  ramControlSel :=
    if s.first.oLastKeyDataValid || s.main.oDone then !s.ramControlSel else s.ramControlSel
  first := s.first.next round iKeyLoad iKeyData
  main := s.main.next s.KC s.BC round iKeyLoad iKeyData s.first.oLastKeyDataValid
    s.first.oLastKeyData
  inverse := s.inverse.next s.inverseIRAMKd

end Makekey

/-! ### Key expansion, key RAMs and datapath -/

/-- The part of `AES.v` between its buffers. -/
structure Cipher where
  makekey : Makekey
  ke : KeyRam
  kd : KeyRam
  endec : Endec

namespace Cipher

/-- What `AES.v` and its buffers drive in a cycle; `Start` is `iDataValid`. -/
structure In where
  iParamLoad : Bool
  iEndec : Bool
  iKeyLoad : Bool
  iKeyData : Block
  iDataValid : Bool
  iData : Block
  deriving DecidableEq

def next (s : Cipher) (i : In) : Cipher where
  makekey := s.makekey.next i.iParamLoad i.iKeyLoad i.iKeyData
  ke := s.ke.next s.makekey.oRAMKe s.endec.oRAMAddr
  kd := s.kd.next s.makekey.oRAMKd s.endec.oRAMAddr
  endec := s.endec.next i.iParamLoad i.iEndec Makekey.round s.ke.q s.kd.q i.iDataValid i.iData

def oDataValid (s : Cipher) : Bool := s.endec.oDataValid

def oData (s : Cipher) : Block := s.endec.oData s.ke.q s.kd.q

end Cipher

end SocCrypto.Aes

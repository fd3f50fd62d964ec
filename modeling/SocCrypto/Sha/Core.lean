import SocCrypto.Sha256Function

/-!
# The SHA-256 core

`Scheduler.v`, `Compressor.v` and the controller of `SHA_256.v` that hands them
blocks. Scheduler and compressor run side by side: the one puts a schedule word
with its round constant on `oW` every cycle, the other takes it.
-/

namespace SocCrypto.Sha
open Sha256Function (Hash)

/-! ### Combinational modules -/

/-- `CH.v`. -/
def CH (iX iY iZ : Word) : Word := (iX &&& iY) ^^^ (~~~iX &&& iZ)

/-- `MAJ.v`. -/
def MAJ (iX iY iZ : Word) : Word := (iX &&& iY) ^^^ (iX &&& iZ) ^^^ (iY &&& iZ)

def Sigma0 (iX : Word) : Word := iX.rotateRight 2 ^^^ iX.rotateRight 13 ^^^ iX.rotateRight 22
def Sigma1 (iX : Word) : Word := iX.rotateRight 6 ^^^ iX.rotateRight 11 ^^^ iX.rotateRight 25
def Fi0 (iX : Word) : Word := iX.rotateRight 7 ^^^ iX.rotateRight 18 ^^^ iX >>> 3
def Fi1 (iX : Word) : Word := iX.rotateRight 17 ^^^ iX.rotateRight 19 ^^^ iX >>> 10

/-! ### Scheduler -/

/-- Word `k` of a block, the first word on top. -/
def blockWord (m : BitVec 512) (k : ℕ) : Word := m.extractLsb' (32 * (15 - k)) 32

/-- `{m[479:0], w}`. -/
def pushWord (m : BitVec 512) (w : Word) : BitVec 512 := m.setWidth 480 ++ w

theorem blockWord_pushWord {m : BitVec 512} {w : Word} {k : ℕ} (hk : k < 15) :
    blockWord (pushWord m w) k = blockWord m (k + 1) := by
  have hoff : 32 * (15 - k) = 32 * (15 - (k + 1)) + 32 := by omega
  apply BitVec.eq_of_getLsbD_eq
  intro j hj
  have hhigh : ¬ 32 * (15 - k) + j < 32 := by omega
  have hsub : 32 * (15 - k) + j - 32 = 32 * (15 - (k + 1)) + j := by omega
  simp only [blockWord, pushWord, BitVec.getLsbD_extractLsb', hj, decide_true, Bool.true_and]
  rw [BitVec.getLsbD_append]
  simp only [hhigh, hsub, if_false, BitVec.getLsbD_setWidth, Bool.and_eq_right_iff_imp,
    decide_eq_true_eq]
  omega

theorem blockWord_pushWord_last (m : BitVec 512) (w : Word) :
    blockWord (pushWord m w) 15 = w := by
  apply BitVec.eq_of_getLsbD_eq
  intro j hj
  simp only [blockWord, pushWord, BitVec.getLsbD_extractLsb', hj, decide_true, Bool.true_and]
  rw [BitVec.getLsbD_append]
  simp [hj]

/-- `K_data`, assigned while the core is disabled. -/
def kData : List Word :=
  [0x428a2f98, 0x71374491, 0xb5c0fbcf, 0xe9b5dba5, 0x3956c25b, 0x59f111f1, 0x923f82a4, 0xab1c5ed5,
    0xd807aa98, 0x12835b01, 0x243185be, 0x550c7dc3, 0x72be5d74, 0x80deb1fe, 0x9bdc06a7, 0xc19bf174,
    0xe49b69c1, 0xefbe4786, 0x0fc19dc6, 0x240ca1cc, 0x2de92c6f, 0x4a7484aa, 0x5cb0a9dc, 0x76f988da,
    0x983e5152, 0xa831c66d, 0xb00327c8, 0xbf597fc7, 0xc6e00bf3, 0xd5a79147, 0x06ca6351, 0x14292967,
    0x27b70a85, 0x2e1b2138, 0x4d2c6dfc, 0x53380d13, 0x650a7354, 0x766a0abb, 0x81c2c92e, 0x92722c85,
    0xa2bfe8a1, 0xa81a664b, 0xc24b8b70, 0xc76c51a3, 0xd192e819, 0xd6990624, 0xf40e3585, 0x106aa070,
    0x19a4c116, 0x1e376c08, 0x2748774c, 0x34b0bcb5, 0x391c0cb3, 0x4ed8aa4a, 0x5b9cca4f, 0x682e6ff3,
    0x748f82ee, 0x78a5636f, 0x84c87814, 0x8cc70208, 0x90befffa, 0xa4506ceb, 0xbef9a3f7, 0xc67178f2]

structure Scheduler where
  W : BitVec 512
  iterations : BitVec 6
  message : BitVec 512
  dataReady : Bool
  /-- `scheduler_state`. -/
  busy : Bool
  oW : Word
  deriving DecidableEq

namespace Scheduler

def wT (s : Scheduler) : Word :=
  Fi1 (blockWord s.W 14) + Fi0 (blockWord s.W 1) + blockWord s.W 9 + blockWord s.W 0

def oDataRequest (s : Scheduler) : Bool := !s.dataReady
def oStartCompressor (s : Scheduler) : Bool := s.dataReady

/-- One clock. A load in the cycle in which the message is taken loses its ready flag. -/
def next (s : Scheduler) (iEnable iLoad : Bool) (iMessage : BitVec 512) : Scheduler :=
  if !iEnable then
    { s with oW := 0, iterations := 0, busy := false, message := 0, dataReady := false }
  else
    let loaded := if iLoad then { s with message := iMessage, dataReady := true } else s
    if s.busy then
      { loaded with
        W := pushWord s.W s.wT, oW := blockWord s.W 0 + kData.getD s.iterations.toNat 0,
        iterations := s.iterations + 1, busy := s.iterations != 63 }
    else if s.dataReady then
      { loaded with W := s.message, iterations := 0, dataReady := false, busy := true }
    else loaded

end Scheduler

/-! ### Compressor -/

/-- `compressor_state`, in the order 3'd0 to 3'd4. -/
inductive CompressorState where
  | idle
  | init
  | round
  | add
  | done
  deriving DecidableEq

structure Compressor where
  /-- `H[0]` to `H[7]`. -/
  H : Hash
  /-- The registers `a` to `h`. -/
  vars : Hash
  state : CompressorState
  blockI : Word
  iterations : BitVec 7
  deriving DecidableEq

namespace Compressor

def initialH : Hash where
  a := 0x6a09e667
  b := 0xbb67ae85
  c := 0x3c6ef372
  d := 0xa54ff53a
  e := 0x510e527f
  f := 0x9b05688c
  g := 0x1f83d9ab
  h := 0x5be0cd19

def t1 (c : Compressor) (iW : Word) : Word :=
  c.vars.h + Sigma1 c.vars.e + CH c.vars.e c.vars.f c.vars.g + iW

def t2 (c : Compressor) : Word := Sigma0 c.vars.a + MAJ c.vars.a c.vars.b c.vars.c

def oDone (c : Compressor) : Bool := decide (c.state = .done)

/-- `oHashDigit`: `H[7]` in the low word. -/
def oHashDigit (c : Compressor) : BitVec 256 :=
  if c.oDone then c.H.a ++ c.H.b ++ c.H.c ++ c.H.d ++ c.H.e ++ c.H.f ++ c.H.g ++ c.H.h else 0

/-- One clock. The counter of state `round` is a blocking assignment. -/
def next (c : Compressor) (iEnable iStart : Bool) (iW iNumberBlock : Word) : Compressor :=
  if !iEnable then { c with state := .idle, iterations := 0, blockI := 0, H := initialH }
  else
    match c.state with
    | .idle => if iStart then { c with state := .init } else c
    | .init => { c with vars := c.H, state := .round }
    | .round =>
      { c with
        vars := ⟨c.t1 iW + c.t2, c.vars.a, c.vars.b, c.vars.c, c.vars.d + c.t1 iW, c.vars.e,
          c.vars.f, c.vars.g⟩
        iterations := c.iterations + 1
        state := if c.iterations + 1 = 64 then .add else .round }
    | .add =>
      let H : Hash :=
        ⟨c.vars.a + c.H.a, c.vars.b + c.H.b, c.vars.c + c.H.c, c.vars.d + c.H.d,
          c.vars.e + c.H.e, c.vars.f + c.H.f, c.vars.g + c.H.g, c.vars.h + c.H.h⟩
      if c.blockI = iNumberBlock - 1 then
        { c with H, vars := H, iterations := 0, state := .done }
      else { c with H, vars := H, iterations := 0, state := .round, blockI := c.blockI + 1 }
    | .done => c

end Compressor

/-! ### Block handshake -/

/-- `controller_state`, in the order 2'd0 to 2'd3. -/
inductive ControllerState where
  | first
  | wait
  | load
  | finish
  deriving DecidableEq

structure Core where
  state : ControllerState
  oReadBlock : Bool
  compressor : Compressor
  scheduler : Scheduler
  deriving DecidableEq

namespace Core

def oDone (s : Core) : Bool := s.compressor.oDone
def oHashValue (s : Core) : BitVec 256 := s.compressor.oHashDigit

/-- One clock of `SHA_256.v`. -/
def next (s : Core) (iEnable iDataValid : Bool) (iMessage : BitVec 512) (iNumberBlock : Word) :
    Core :=
  let control : ControllerState × Bool :=
    if !iEnable then (.first, false)
    else
      match s.state with
      | .first =>
        if iDataValid && s.scheduler.oDataRequest then (.wait, true) else (.first, s.oReadBlock)
      | .wait =>
        if s.oDone then (.finish, false)
        else if iDataValid && s.scheduler.oDataRequest then (.load, true)
        else (.wait, false)
      | .load => (.wait, false)
      | .finish => (.finish, s.oReadBlock)
  { state := control.1
    oReadBlock := control.2
    compressor :=
      s.compressor.next iEnable s.scheduler.oStartCompressor s.scheduler.oW iNumberBlock
    scheduler := s.scheduler.next iEnable s.oReadBlock iMessage }

end Core

end SocCrypto.Sha

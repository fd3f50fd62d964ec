import SocCrypto.Aes.Decrypt
import SocCrypto.Aes.OutputOrder

/-!
# Words through the AES core

The core turns the words it is fed, four at a time, into the words of enciphered blocks.
`partialIn` are the words of the block under assembly and `toWrite` those of the last block
that are still to be written; a cycle moves words along and changes nothing else.
-/

namespace SocCrypto.Aes
open AesFunction (Block)
open Clocked

/-! ### Words and blocks -/

def blockWords (b : Block) : List Word := [b.w1, b.w2, b.w3, b.w4]

/-- Words through `f`, four at a time; what is left over yields nothing. -/
def cipherWords (f : Block → Block) : List Word → List Word
  | a :: b :: c :: d :: l => blockWords (f ⟨a, b, c, d⟩) ++ cipherWords f l
  | _ => []

section
variable (f : Block → Block)

theorem cipherWords_blockWords (b : Block) (l : List Word) :
    cipherWords f (blockWords b ++ l) = blockWords (f b) ++ cipherWords f l := rfl

theorem cipherWords_of_short {l : List Word} (h : l.length < 4) : cipherWords f l = [] := by
  rcases l with _ | ⟨a, _ | ⟨b, _ | ⟨c, _ | ⟨d, l⟩⟩⟩⟩
  · rfl
  · rfl
  · rfl
  · rfl
  · simp only [List.length_cons] at h
    omega

theorem length_cipherWords (l : List Word) : (cipherWords f l).length = l.length / 4 * 4 := by
  induction l using cipherWords.induct with
  | case1 a b c d l ih =>
    rw [cipherWords, List.length_append, ih]
    simp only [blockWords, List.length_cons, List.length_nil]
    omega
  | case2 l h =>
    have hshort : l.length < 4 := by
      rcases l with _ | ⟨a, _ | ⟨b, _ | ⟨c, _ | ⟨d, l⟩⟩⟩⟩
      · simp
      · simp
      · simp
      · simp
      · exact absurd rfl (h a b c d l)
    rw [cipherWords_of_short f hshort, List.length_nil]
    omega

end

theorem getWord_eq (b : Block) {j : ℕ} (hj : j < 4) :
    (blockWords b).drop j = getWord b (BitVec.ofNat 3 j) :: (blockWords b).drop (j + 1) := by
  obtain rfl | rfl | rfl | rfl : j = 0 ∨ j = 1 ∨ j = 2 ∨ j = 3 := by
    omega
  all_goals rfl

theorem putWord_eq (b : Block) (w : Word) {c : BitVec 3} (hc : c.toNat ≤ 3) :
    (blockWords (putWord b c w)).take (c.toNat + 1) = (blockWords b).take c.toNat ++ [w] := by
  obtain rfl | rfl | rfl | rfl : c = 0 ∨ c = 1 ∨ c = 2 ∨ c = 3 := by
    have hall : ∀ c : BitVec 3, c.toNat ≤ 3 → c = 0 ∨ c = 1 ∨ c = 2 ∨ c = 3 := by decide
    exact hall c hc
  all_goals rfl

/-! ### The datapath left alone -/

namespace Cipher

/-- A cycle without input. -/
def rest (s : Cipher) : Cipher := s.next ⟨false, false, false, ⟨0, 0, 0, 0⟩, false, ⟨0, 0, 0, 0⟩⟩

theorem next_eq_rest (s : Cipher) {i : In} (hparam : i.iParamLoad = false)
    (hkey : i.iKeyLoad = false) (hdata : i.iDataValid = false) : s.next i = s.rest := by
  obtain ⟨param, endec, key, keyData, valid, data⟩ := i
  obtain rfl : param = false := hparam
  obtain rfl : key = false := hkey
  obtain rfl : valid = false := hdata
  rfl

/-- What the datapath delivers in `n` cycles. -/
def outcome (n : ℕ) (s : Cipher) : Block := (rest^[n] s).oData

theorem run_eq_rest {s : Cipher} {i : ℕ → In} (hparam : ∀ t, (i t).iParamLoad = false)
    (hkey : ∀ t, (i t).iKeyLoad = false) (hdata : ∀ t, (i (t + 1)).iDataValid = false) (n : ℕ) :
    run next s i (n + 1) = rest^[n] (s.next (i 0)) := by
  induction n with
  | zero => rfl
  | succ n ih =>
    rw [Function.iterate_succ_apply', ← ih]
    exact next_eq_rest _ (hparam _) (hkey _) (hdata n)

/-- A block that enters the idle datapath comes out enciphered. -/
theorem outcome_next {e : Bool} {ke kd : BitVec 4 → Block} {b c : Block}
    (h : Delivers e ke kd b c) {s : Cipher} (hready : s.endec.Ready e) (hidle : s.makekey.Idle)
    (hke : s.ke.mem = ke) (hkd : s.kd.mem = kd) {i : In} (hparam : i.iParamLoad = false)
    (hkey : i.iKeyLoad = false) (hvalid : i.iDataValid = true) (hdata : i.iData = b) :
    outcome 20 (s.next i) = c := by
  let j : ℕ → In := fun t => ⟨i.iParamLoad, i.iEndec, i.iKeyLoad, i.iKeyData, t == 0, i.iData⟩
  have hj : j 0 = i := by
    show (⟨i.iParamLoad, i.iEndec, i.iKeyLoad, i.iKeyData, true, i.iData⟩ : In) = i
    rw [← hvalid]
  have hrun := run_eq_rest (s := s) (i := j) (fun _ => hparam) (fun _ => hkey) (fun _ => rfl) 20
  have hdelivers := (h s j hready hidle hke hkd (fun t => ⟨hkey, hparam, rfl⟩) hdata).2
  rw [show 21 = 20 + 1 from rfl, hrun, hj] at hdelivers
  exact hdelivers

end Cipher

/-! ### The core -/

namespace Core

/-- The core is in mode `e` over key RAMs of contents `ke` and `kd`, no key load under way. -/
structure Keyed (e : Bool) (ke kd : BitVec 4 → Block) (s : Core) : Prop where
  idle : s.cipher.makekey.Idle
  ke : s.cipher.ke.mem = ke
  kd : s.cipher.kd.mem = kd
  endec : s.cipher.endec.endec = e
  blockEndec : s.cipher.endec.block.endec = e
  round : s.cipher.endec.block.round = 10
  done : s.makekeyDoneReg = true

section
variable {e : Bool} {ke kd : BitVec 4 → Block} {f : Block → Block} {φ : ℕ} {c : Block} {s : Core}
  {i : In}

theorem Keyed.next (h : s.Keyed e ke kd) (hparam : i.iParamLoad = false)
    (hkey : i.iKeyLoad = false) : (s.next i).Keyed e ke kd := by
  have hcontrol : (s.cipherIn i).iParamLoad = false := hparam
  constructor
  · show (s.cipher.makekey.next i.iParamLoad i.iKeyLoad i.iKeyData).Idle
    rw [hkey]
    exact (h.idle.next _ _).1
  · exact (Makekey.store_of_not_hits (fun r j => (h.idle.hits r j).1) _).trans h.ke
  · exact (Makekey.store_of_not_hits h.idle.kdHits _).trans h.kd
  · show (if i.iParamLoad then i.iEndec else s.cipher.endec.endec) = e
    rw [hparam]
    exact h.endec
  · show (if i.iParamLoad then i.iEndec else s.cipher.endec.block.endec) = e
    rw [hparam]
    exact h.blockEndec
  · show (if i.iParamLoad then Makekey.round else s.cipher.endec.block.round) = 10
    rw [hparam]
    exact h.round
  · show (if s.cipher.makekey.oDone then true else s.makekeyDoneReg) = true
    rw [h.done, ite_self]

/-- Block `c` is the last one to come out, `φ` cycles after its start. -/
structure Holding (f : Block → Block) (φ : ℕ) (c : Block) (s : Core) : Prop where
  phase : s.Phase φ
  entering : φ = 0 → c = f s.bufferIN
  inside : 1 ≤ φ → φ ≤ 21 → c = s.cipher.outcome (21 - φ)
  kept : 22 ≤ φ → φ ≤ 25 → s.bufferOUT = c
  data : 23 ≤ φ → φ ≤ 26 → s.oFFOutData = getWord c (BitVec.ofNat 3 (φ - 23))

/-- Words of the block under assembly. -/
def partialIn (s : Core) : List Word := (blockWords s.bufferIN).take s.bufferINCounter.toNat

/-- The word that arrives from the input FIFO. -/
def taken (s : Core) (q : Word) : List Word := if s.ffInDataValid then [q] else []

/-- The word written to the output FIFO. -/
def pushed (s : Core) : List Word := if s.oFFOutWriteReq then [s.oFFOutData] else []

/-- Words of block `c` still to be written. -/
def toWrite (φ : ℕ) (c : Block) : List Word := (blockWords c).drop (4 - pending φ)

theorem partialIn_next (h : s.bufferINCounter.toNat ≤ 3) (hlast : s.fetched ≠ 7) :
    (s.next i).partialIn = s.partialIn ++ s.taken i.iFFInData := by
  cases hvalid : s.ffInDataValid
  · simp [partialIn, taken, Core.next, hvalid]
  · have hlow : s.bufferINCounter.toNat ≠ 3 := by
      intro hthree
      rw [Core.fetched, hthree, hvalid] at hlast
      exact hlast rfl
    have hreset : s.bufferINReset = false := by
      rw [bufferINReset_eq h]
      exact decide_eq_false hlow
    have hcounter : (s.next i).bufferINCounter.toNat = s.bufferINCounter.toNat + 1 := by
      have hsame : (s.next i).bufferINCounter = s.bufferINCounter + 1 := by
        simp [Core.next, hvalid, hreset]
      rw [hsame]
      exact toNat_add_one rfl (by omega)
    have hbuffer : (s.next i).bufferIN = putWord s.bufferIN s.bufferINCounter i.iFFInData := by
      simp [Core.next, hvalid]
    rw [partialIn, hcounter, hbuffer, putWord_eq _ _ h, taken, hvalid]
    rfl

/-- The word that completes a block. -/
theorem bufferIN_next (h : s.bufferINCounter.toNat ≤ 3) (hlast : s.fetched = 7) :
    (s.next i).partialIn = [] ∧
      s.partialIn ++ s.taken i.iFFInData = blockWords (s.next i).bufferIN := by
  have hfull : s.bufferINCounter.toNat = 3 ∧ s.ffInDataValid = true := by
    rw [Core.fetched] at hlast
    cases hvalid : s.ffInDataValid
    · rw [hvalid, Bool.toNat_false] at hlast
      omega
    · rw [hvalid, Bool.toNat_true] at hlast
      exact ⟨by omega, rfl⟩
  obtain ⟨hthree, hvalid⟩ := hfull
  have hreset : s.bufferINReset = true := by
    rw [bufferINReset_eq h]
    exact decide_eq_true hthree
  have hcounter : (s.next i).bufferINCounter = 0 := by
    simp [Core.next, hvalid, hreset]
  have hbuffer : (s.next i).bufferIN = putWord s.bufferIN s.bufferINCounter i.iFFInData := by
    simp [Core.next, hvalid]
  constructor
  · rw [partialIn, hcounter]
    rfl
  · have hput := putWord_eq s.bufferIN i.iFFInData h
    rw [hbuffer, partialIn, taken, hvalid, if_pos rfl, ← hput, hthree]
    rfl

theorem toWrite_start {c : Block} : toWrite 0 c = blockWords c := rfl

theorem toWrite_done {c : Block} : toWrite 27 c = [] := rfl

/-- The word written is the first of those still to be written. -/
theorem Holding.toWrite_next (h : s.Holding f φ c) :
    toWrite φ c = s.pushed ++ toWrite (min (φ + 1) 27) c := by
  have hle := h.phase.le
  rw [pushed, h.phase.writeReq]
  by_cases hwrite : 23 ≤ φ ∧ φ ≤ 26
  · have hpending : 4 - pending φ = φ - 23 := by
      rw [pending]
      omega
    have hnext : 4 - pending (min (φ + 1) 27) = φ - 23 + 1 := by
      rw [pending]
      omega
    rw [if_pos (decide_eq_true hwrite), h.data hwrite.1 hwrite.2, toWrite, toWrite, hpending,
      hnext, getWord_eq c (by omega)]
    rfl
  · have hsame : pending (min (φ + 1) 27) = pending φ := by
      rw [pending, pending]
      omega
    rw [decide_eq_false hwrite, toWrite, toWrite, hsame]
    rfl

theorem Keyed.ready (h : s.Keyed e ke kd) (hphase : s.Phase 0) : s.cipher.endec.Ready e :=
  ⟨h.endec, h.blockEndec, h.round, hphase.control⟩

theorem Holding.next (h : s.Holding f φ c) (hkeyed : s.Keyed e ke kd)
    (hf : ∀ b, Cipher.Delivers e ke kd b (f b)) (hlast : s.fetched ≠ 7)
    (hparam : i.iParamLoad = false) (hkey : i.iKeyLoad = false) :
    (s.next i).Holding f (min (φ + 1) 27) c := by
  have hle := h.phase.le
  have hphase := h.phase.next (i := i) (hparam.trans hkey.symm)
  rw [nextPhase, if_neg hlast] at hphase
  have hvalid := h.phase.oDataValid
  have hout : (s.next i).bufferOUT =
      if s.cipher.oDataValid then s.cipher.oData else s.bufferOUT := rfl
  constructor
  · exact hphase
  · omega
  · intro _ hin
    have hstart := h.phase.start
    rcases Nat.eq_zero_or_pos φ with rfl | hpos
    · rw [h.entering rfl]
      have hentry := Cipher.outcome_next (hf s.bufferIN) (hkeyed.ready h.phase) hkeyed.idle hkeyed.ke
        hkeyed.kd (i := s.cipherIn i) hparam hkey hstart rfl
      exact hentry.symm
    · have hstep : (s.next i).cipher = s.cipher.rest :=
        Cipher.next_eq_rest _ hparam hkey (hstart.trans (decide_eq_false (by omega)))
      rw [h.inside hpos (by omega), hstep, Cipher.outcome, Cipher.outcome,
        ← Function.iterate_succ_apply]
      congr 2
      omega
  · intro hlow hhigh
    rw [hout, hvalid]
    by_cases hnow : φ = 21
    · rw [if_pos (decide_eq_true hnow), h.inside (by omega) (by omega), hnow]
      rfl
    · rw [decide_eq_false hnow]
      exact h.kept (by omega) (by omega)
  · intro hlow hhigh
    show getWord s.bufferOUT s.bufferOUTCounter = _
    rw [h.kept (by omega) (by omega), h.phase.counterOUT]
    congr 1
    by_cases hzero : φ = 22
    · rw [hzero]
      rfl
    · rw [if_pos (by omega)]
      congr 1
      omega

/-- A cycle that completes a block. -/
theorem Holding.restart (h : s.Holding f φ c) (hlast : s.fetched = 7)
    (hload : i.iParamLoad = i.iKeyLoad) :
    (s.next i).Holding f 0 (f (s.next i).bufferIN) := by
  have hphase := h.phase.next (i := i) hload
  rw [nextPhase, if_pos hlast] at hphase
  exact ⟨hphase, fun _ => rfl, by omega, by omega, by omega⟩

theorem Holding.words_next (h : s.Holding f φ c) (hkeyed : s.Keyed e ke kd)
    (hf : ∀ b, Cipher.Delivers e ke kd b (f b)) (hparam : i.iParamLoad = false)
    (hkey : i.iKeyLoad = false) :
    ∃ c', (s.next i).Holding f (s.nextPhase φ) c' ∧ ∀ l,
      toWrite φ c ++ cipherWords f (s.partialIn ++ (s.taken i.iFFInData ++ l)) =
        s.pushed ++ (toWrite (s.nextPhase φ) c' ++ cipherWords f ((s.next i).partialIn ++ l)) := by
  have hout := h.toWrite_next
  have hcounter := h.phase.counterIN
  rw [nextPhase]
  by_cases hlast : s.fetched = 7
  · have hlate := h.phase.late hlast
    have hover : min (φ + 1) 27 = 27 := by omega
    obtain ⟨hnil, hblock⟩ := bufferIN_next (i := i) hcounter hlast
    rw [if_pos hlast]
    refine ⟨_, h.restart hlast (hparam.trans hkey.symm), fun l => ?_⟩
    rw [hout, hover, toWrite_done, List.append_nil, ← List.append_assoc s.partialIn, hblock,
      cipherWords_blockWords, hnil, toWrite_start]
    rfl
  · rw [if_neg hlast]
    refine ⟨c, h.next hkeyed hf hlast hparam hkey, fun l => ?_⟩
    rw [hout, partialIn_next hcounter hlast, List.append_assoc, List.append_assoc]

end

end Core

end SocCrypto.Aes

import SocCrypto.Aes.BlockStream
import SocCrypto.Aes.WriteOut
import SocCrypto.Dma.Window

/-!
# A job of the AES engine

`Flowing` lines up everything between memory and memory: the words accepted by the bus, those
on their way out, the blocks in the core, the words on their way in and the reads still to be
made. A cycle moves words along this line, so the line as a whole stays what it was at the start.
-/

namespace SocCrypto.Aes
open AesFunction (Block)
open Clocked
open Dma (addresses addresses_succ addresses_succ_last)

namespace System

/-! ### Bus writes -/

/-- The write the bus accepts in a cycle. -/
def accepted (s : System) (i : In) : List (Word × Word) :=
  if s.qsys.wm.accepts i.wmWait then [(s.qsys.wm.oWMWraddr, s.qsys.wm.oWMWrdata)] else []

/-- The bus writes of the first `t` cycles. -/
def writes (M : Word → Word) (s : System) (i : ℕ → In) : ℕ → List (Word × Word)
  | 0 => []
  | t + 1 => writes M s i t ++ (run (next M) s i t).accepted (i t)

/-- The processor leaves the registers of the job alone. -/
def In.Harmless (i : In) : Prop := i.iWrite = true →
  i.iAddress ≠ 0 ∧ i.iAddress ≠ 10 ∧ i.iAddress ≠ 11 ∧ i.iAddress ≠ 12 ∧ i.iAddress ≠ 13

instance (i : In) : Decidable i.Harmless :=
  inferInstanceAs (Decidable (_ → _))

/-! ### The way in -/

/-- Words in the input FIFO, in front of it and under way. -/
def incoming (M : Word → Word) (s : System) : List Word :=
  s.qsys.aesFifo.fifoIn.words ++
    ((if s.qsys.rWriteFifoIn then [s.qsys.rDataFifoIn] else []) ++ s.inflight.map M)

/-- The word that arrives at the core. -/
def arriving (s : System) : List Word := s.qsys.aesFifo.aes.taken s.qsys.aesFifo.fifoIn.q

section
variable {M : Word → Word} {s : System} {i : In} {startAddr : Word} {total k : ℕ}

/-- The bus accepts a read. -/
def reads (s : System) (i : In) : Bool := s.qsys.rm.oRMRead && !i.rmWait

theorem inflight_eq (s : System) (i : In) (M : Word → Word) :
    s.inflight.map M = (if s.rddatavalid i then [M (s.inflight.headD 0)] else []) ++
      (if i.answer then s.inflight.tail else s.inflight).map M := by
  rw [rddatavalid]
  cases s.inflight <;> cases i.answer <;> rfl

theorem fifoIn_eq (s : System) (i : In) (M : Word → Word) (hreset : s.qsys.resetBit = false) :
    s.qsys.aesFifo.fifoIn.words = (s.next M i).arriving ++
      (if s.qsys.aesFifo.readFifoIn then s.qsys.aesFifo.fifoIn.words.tail
        else s.qsys.aesFifo.fifoIn.words) := by
  have harriving : (s.next M i).arriving = if s.qsys.aesFifo.readFifoIn
      then [(s.qsys.aesFifo.fifoIn.next s.qsys.resetBit s.qsys.rWriteFifoIn s.qsys.rDataFifoIn
        s.qsys.aesFifo.readFifoIn).q] else [] := rfl
  rw [harriving, hreset]
  cases hread : s.qsys.aesFifo.readFifoIn
  · rfl
  · have hne : s.qsys.aesFifo.fifoIn.words ≠ [] := by
      intro hnil
      simp [AesFifo.readFifoIn, Core.oFFInReadReq, FifoFull.empty, hnil] at hread
    obtain ⟨w, l, hwords⟩ := List.exists_cons_of_ne_nil hne
    simp [FifoFull.next, hwords]

theorem incoming_next (hcredited : s.Credited) (hreset : s.qsys.resetBit = false) :
    s.incoming M ++ (if s.reads i then [s.qsys.rm.oRMRdaddr] else []).map M =
      (s.next M i).arriving ++ (s.next M i).incoming M := by
  have hfull : s.qsys.rWriteFifoIn = true → s.qsys.aesFifo.fifoIn.full = false := by
    intro hwrite
    have hroom := hcredited.room
    rw [hwrite, Bool.toNat_true] at hroom
    refine decide_eq_false ?_
    show ¬ 64 ≤ s.qsys.aesFifo.fifoIn.words.length
    omega
  have hfifo : (s.next M i).qsys.aesFifo.fifoIn.words =
      (if s.qsys.aesFifo.readFifoIn then s.qsys.aesFifo.fifoIn.words.tail
        else s.qsys.aesFifo.fifoIn.words) ++
      (if s.qsys.rWriteFifoIn then [s.qsys.rDataFifoIn] else []) := by
    show (s.qsys.aesFifo.fifoIn.next s.qsys.resetBit s.qsys.rWriteFifoIn s.qsys.rDataFifoIn
      s.qsys.aesFifo.readFifoIn).words = _
    rw [hreset]
    cases hwrite : s.qsys.rWriteFifoIn
    · rfl
    · simp [FifoFull.next, hfull hwrite]
  have hlatched : (if (s.next M i).qsys.rWriteFifoIn then [(s.next M i).qsys.rDataFifoIn] else []) =
      if s.rddatavalid i then [M (s.inflight.headD 0)] else [] := by
    show (if s.rddatavalid i then [if s.rddatavalid i then M (s.inflight.headD 0)
      else s.qsys.rDataFifoIn] else []) = _
    cases s.rddatavalid i <;> rfl
  have hinflight : (s.next M i).inflight = (if i.answer then s.inflight.tail else s.inflight) ++
      (if s.reads i then [s.qsys.rm.oRMRdaddr] else []) := rfl
  rw [incoming, incoming, hfifo, hlatched, hinflight, List.map_append]
  conv_lhs => rw [fifoIn_eq s i M hreset, inflight_eq s i M]
  simp only [List.append_assoc]

end

end System

/-! ### The job -/

/-- Read address, write address and length in words as the processor programs them, `START` set,
`RESET` not, and no key load under way. -/
structure Qsys.Programmed (rmAddr wmAddr : Word) (total : ℕ) (s : Qsys) : Prop where
  resetBit : s.resetBit = false
  startBit : s.startBit = true
  rmStartAddr : s.rmStartAddr = rmAddr
  wmStartAddr : s.wmStartAddr = wmAddr
  length : s.length = BitVec.ofNat 32 (4 * total)
  enable : s.enable = false
  load : ((s.ram 0).getLsbD 0 && (s.ram 0).getLsbD 1) = false

theorem System.Programmed_next {rmAddr wmAddr : Word} {total : ℕ} {s : System}
    (h : s.qsys.Programmed rmAddr wmAddr total) {i : In} (hi : i.Harmless) (M : Word → Word) :
    (s.next M i).qsys.Programmed rmAddr wmAddr total := by
  have hkept : ∀ a : BitVec 4, a = 0 ∨ a = 10 ∨ a = 11 ∨ a = 12 ∨ a = 13 →
      (s.next M i).qsys.ram a = s.qsys.ram a := by
    intro a ha
    have hother : (i.iWrite && decide (a = i.iAddress)) = false := by
      cases hw : i.iWrite
      · rfl
      · obtain ⟨h0, h10, h11, h12, h13⟩ := hi hw
        refine decide_eq_false ?_
        rintro rfl
        simp_all
    show (if a = 14 then s.qsys.status else if s.qsys.enable && decide (a = 0) then 0
      else if a = 8 then if s.qsys.aesFifo.fifoOut.empty then 1 else 0
      else if a = 6 then if s.qsys.aesFifo.fifoIn.almostFull then 1 else 0
      else if i.iWrite && decide (a = i.iAddress) then i.iData else s.qsys.ram a) = _
    rw [h.enable, hother]
    obtain rfl | rfl | rfl | rfl | rfl := ha
    all_goals rfl
  constructor
  · show ((s.next M i).qsys.ram 13).getLsbD 1 = false
    rw [hkept 13 (by decide)]
    exact h.resetBit
  · show ((s.next M i).qsys.ram 13).getLsbD 0 = true
    rw [hkept 13 (by decide)]
    exact h.startBit
  · exact (hkept 10 (by decide)).trans h.rmStartAddr
  · exact (hkept 11 (by decide)).trans h.wmStartAddr
  · exact (hkept 12 (by decide)).trans h.length
  · exact h.load
  · rw [hkept 0 (by decide)]
    exact h.load

theorem System.wm_next {rmAddr wmAddr : Word} {total : ℕ} {s : System}
    (h : s.qsys.Programmed rmAddr wmAddr total) (M : Word → Word) (i : In) :
    (s.next M i).qsys.wm = s.qsys.wm.next false wmAddr (BitVec.ofNat 32 (4 * total))
      s.qsys.aesFifo.fifoOut.words.isEmpty s.qsys.aesFifo.fifoOut.q i.wmWait := by
  rw [← h.resetBit, ← h.wmStartAddr, ← h.length]
  rfl

theorem System.rm_next {rmAddr wmAddr : Word} {total : ℕ} {s : System}
    (h : s.qsys.Programmed rmAddr wmAddr total) (M : Word → Word) (i : In) :
    (s.next M i).qsys.rm = s.qsys.rm.next false true rmAddr (BitVec.ofNat 32 (4 * total))
      s.qsys.credit i.rmWait := by
  rw [← h.resetBit, ← h.startBit, ← h.rmStartAddr, ← h.length]
  rfl

/-- The line from memory to memory, `k` reads and `d` writes into the job: `w` are the writes,
`c` is the block started `φ` cycles ago, and `target` the words the line amounts to. -/
structure System.Flowing (M : Word → Word) (f : Block → Block) (e : Bool)
    (ke kd : BitVec 4 → Block) (rmAddr wmAddr : Word) (total : ℕ) (target : List Word)
    (k d φ : ℕ) (c : Block) (w : List (Word × Word)) (s : System) : Prop where
  programmed : s.qsys.Programmed rmAddr wmAddr total
  credited : s.Credited
  bounded : s.qsys.aesFifo.Bounded φ
  keyed : s.qsys.aesFifo.aes.Keyed e ke kd
  holding : s.qsys.aesFifo.aes.Holding f φ c
  used : s.qsys.rm.Used (rmAddr + BitVec.ofNat 32 (4 * total))
  reading : Stepper.At 4 rmAddr (BitVec.ofNat 32 (4 * total)) k s.qsys.rm.toStepper
  serving : s.qsys.wm.Serving wmAddr total d s.qsys.aesFifo.fifoOut.words
  places : w.map Prod.fst = addresses wmAddr d
  words : w.map Prod.snd ++ (s.qsys.wm.inHand s.qsys.aesFifo.fifoOut.q ++
    (s.qsys.aesFifo.fifoOut.words ++ (Core.toWrite φ c ++ cipherWords f
      (s.qsys.aesFifo.aes.partialIn ++ (s.arriving ++ (s.incoming M ++
        (addresses (rmAddr + BitVec.ofNat 32 (4 * k)) (total - k)).map M)))))) = target

namespace System
namespace Flowing

variable {M : Word → Word} {f : Block → Block} {e : Bool} {ke kd : BitVec 4 → Block}
  {rmAddr wmAddr : Word} {total : ℕ} {target : List Word} {k d φ : ℕ} {c : Block}
  {w : List (Word × Word)} {s : System} {i : In}

theorem reads_eq (h : Flowing M f e ke kd rmAddr wmAddr total target k d φ c w s) (i : In) :
    s.reads i = (decide (s.qsys.rm.toStepper.phase = .request) && !i.rmWait) := by
  have hup : s.qsys.rm.oRMRead = decide (s.qsys.rm.toStepper.phase = .request) := by
    rw [Bool.eq_iff_iff, decide_eq_true_iff]
    exact h.used.request_iff.symm
  rw [reads, hup]

theorem lt_of_reads (h : Flowing M f e ke kd rmAddr wmAddr total target k d φ c w s)
    (hlt : 4 * total < 2 ^ 32) (hnow : s.reads i = true) :
    k < total ∧ s.qsys.rm.oRMRdaddr = rmAddr + BitVec.ofNat 32 (4 * k) := by
  rw [h.reads_eq, Bool.and_eq_true, decide_eq_true_eq] at hnow
  have hmore := h.reading.more (by simp [hnow.1])
  rw [BitVec.toNat_ofNat, Nat.mod_eq_of_lt hlt] at hmore
  exact ⟨by omega, h.reading.address (by simp [hnow.1])⟩

theorem addresses_next (h : Flowing M f e ke kd rmAddr wmAddr total target k d φ c w s)
    (hlt : 4 * total < 2 ^ 32) (i : In) :
    addresses (rmAddr + BitVec.ofNat 32 (4 * k)) (total - k) =
      (if s.reads i then [s.qsys.rm.oRMRdaddr] else []) ++
        addresses (rmAddr + BitVec.ofNat 32 (4 * (k + (s.reads i).toNat)))
          (total - (k + (s.reads i).toNat)) := by
  cases hnow : s.reads i
  · rfl
  · obtain ⟨hmore, haddress⟩ := h.lt_of_reads hlt hnow
    obtain ⟨n, hn⟩ : ∃ n, total - k = n + 1 := ⟨total - k - 1, by omega⟩
    have hrest : total - (k + Bool.toNat true) = n := by
      rw [Bool.toNat_true]
      omega
    have hstep : rmAddr + BitVec.ofNat 32 (4 * k) + 4 =
        rmAddr + BitVec.ofNat 32 (4 * (k + Bool.toNat true)) := by
      rw [Bool.toNat_true, BitVec.add_assoc, show 4 * (k + 1) = 4 * k + 4 by omega,
        BitVec.ofNat_add]
      rfl
    rw [hrest, hn, addresses_succ, hstep, haddress]
    rfl

theorem next (h : Flowing M f e ke kd rmAddr wmAddr total target k d φ c w s)
    (hf : ∀ b, Cipher.Delivers e ke kd b (f b)) (hlt : 4 * total < 2 ^ 32) (hi : i.Harmless) :
    ∃ c', Flowing M f e ke kd rmAddr wmAddr total target (k + (s.reads i).toNat)
      (d + (s.qsys.wm.accepts i.wmWait).toNat) (s.qsys.aesFifo.aes.nextPhase φ) c'
      (w ++ s.accepted i) (s.next M i) := by
  have hprogrammed := h.programmed
  have hreset := hprogrammed.resetBit
  have haddresses := h.addresses_next hlt i
  have hincoming := incoming_next (M := M) (i := i) h.credited hreset
  -- the core
  obtain ⟨c', hholding, hcore⟩ := h.holding.words_next (i := s.qsys.aesFifo.aesIn s.qsys.aesFifoIn)
    h.keyed hf hprogrammed.enable hprogrammed.enable
  -- the output FIFO
  have hpush : (s.next M i).qsys.aesFifo.fifoOut.words =
      s.qsys.wm.left s.qsys.aesFifo.fifoOut.words ++ s.qsys.aesFifo.aes.pushed := by
    show (s.qsys.aesFifo.fifoOut.next s.qsys.resetBit s.qsys.aesFifo.aes.oFFOutWriteReq
      s.qsys.aesFifo.aes.oFFOutData s.qsys.wm.rReadFifoOut).words = _
    rw [hreset, WriteMaster.left, Core.pushed]
    cases hwrite : s.qsys.aesFifo.aes.oFFOutWriteReq
    · rfl
    · simp [FifoFull.next, h.bounded.not_full hwrite]
  have hq : (s.next M i).qsys.aesFifo.fifoOut.q =
      if s.qsys.wm.rReadFifoOut then s.qsys.aesFifo.fifoOut.words.headD s.qsys.aesFifo.fifoOut.q
      else s.qsys.aesFifo.fifoOut.q := by
    show (s.qsys.aesFifo.fifoOut.next s.qsys.resetBit _ _ _).q = _
    rw [hreset]
    rfl
  have hwm := wm_next hprogrammed M i
  have hrm := rm_next hprogrammed M i
  have hserve := h.serving.words_next (BitVec.ofNat 32 (4 * total)) s.qsys.aesFifo.fifoOut.q
    i.wmWait
  rw [← hwm, ← hq] at hserve
  obtain ⟨hused, hstepper⟩ := h.used.next (BitVec.ofNat 32 (4 * total))
    ⟨true, s.qsys.credit, i.rmWait⟩
  refine ⟨c', ?_, ?_, ?_, ?_, ?_, ?_, ?_, ?_, ?_, ?_⟩
  · exact Programmed_next hprogrammed hi M
  · exact h.credited.step hreset M i
  · exact h.bounded.next (i := s.qsys.aesFifoIn) rfl
  · exact h.keyed.next (i := s.qsys.aesFifo.aesIn s.qsys.aesFifoIn) hprogrammed.enable
      hprogrammed.enable
  · exact hholding
  · rw [hrm]
    exact hused
  · have hat := h.reading.next (by
      rw [BitVec.toNat_ofNat, Nat.mod_eq_of_lt hlt]
      exact Nat.dvd_mul_right 4 total) (ReadMaster.gates ⟨true, s.qsys.credit, i.rmWait⟩)
    rw [hrm, hstepper, h.reads_eq]
    exact hat
  · rw [hwm, hpush]
    exact h.serving.next rfl hlt
  · rw [List.map_append, h.places, accepted]
    cases hnow : s.qsys.wm.accepts i.wmWait
    · simp
    · have haddress := h.serving.address_of_accepts hnow
      rw [if_pos rfl, Bool.toNat_true, addresses_succ_last, haddress]
      rfl
  · have hdata : (s.accepted i).map Prod.snd =
        if s.qsys.wm.accepts i.wmWait then [s.qsys.wm.oWMWrdata] else [] := by
      rw [accepted]
      cases s.qsys.wm.accepts i.wmWait <;> rfl
    have hline := h.words
    have hmove : ∀ l, Core.toWrite φ c ++
        cipherWords f (s.qsys.aesFifo.aes.partialIn ++ (s.arriving ++ l)) =
          s.qsys.aesFifo.aes.pushed ++ (Core.toWrite (s.qsys.aesFifo.aes.nextPhase φ) c' ++
            cipherWords f ((s.next M i).qsys.aesFifo.aes.partialIn ++ l)) := hcore
    -- the reads, the core and the write master move their words
    rw [haddresses, List.map_append, ← List.append_assoc (s.incoming M), hincoming,
      List.append_assoc, hmove, ← List.append_assoc _ s.qsys.aesFifo.fifoOut.words,
      hserve] at hline
    rw [List.map_append, hdata, hpush, ← hline]
    simp only [List.append_assoc]

end Flowing

/-! ### Progress -/

/-- Words on their way to the input FIFO, with `n` reads to be made. -/
def queued (s : System) (n : ℕ) : ℕ := n + s.inflight.length + s.qsys.rWriteFifoIn.toNat

/-- Work left, with `n` reads and `m` writes to be made. -/
def rank (s : System) (n m φ : ℕ) : ℕ :=
  s.qsys.rm.toStepper.phase.rank n + (n + s.inflight.length) + s.queued n +
    (s.queued n + s.qsys.aesFifo.fifoIn.words.length) +
    28 * (s.queued n + s.qsys.aesFifo.fifoIn.words.length + s.qsys.aesFifo.aes.ffInDataValid.toNat) +
    (27 - φ) + s.qsys.wm.rank m

/-- The terms of the rank after a cycle in which `g` answers, `L` words behind them and `y` words
of the FIFO move, against those before. -/
theorem rank_terms {a a' x L z y g V p p' b b' : ℕ} (ha : a' ≤ a) (hb : b' ≤ b) (hg : g ≤ x)
    (hy : y ≤ z) (hp : p' ≤ 28 * V + p) :
    a' + (x - g) + x + (z - y) + 28 * z + p' + b' ≤
        a + x + (x + L) + z + 28 * (z + V) + p + b ∧
      (a' + (x - g) + x + (z - y) + 28 * z + p' + b' =
          a + x + (x + L) + z + 28 * (z + V) + p + b →
        (a' = a ∧ b' = b ∧ p' = 28 * V + p) ∧ g = 0 ∧ L = 0 ∧ y = 0) := by
  omega

/-- A cycle in which nothing moves. -/
structure Still (total k φ : ℕ) (i : In) (s : System) : Prop where
  reading : (s.qsys.rm.toStepper.phase = .raise ∧ s.qsys.credit = false) ∨
    (s.qsys.rm.toStepper.phase = .request ∧ i.rmWait = true) ∨
      (s.qsys.rm.toStepper.phase = .compare ∧ k = total)
  answer : i.answer = true → s.inflight = []
  latched : s.qsys.rWriteFifoIn = false
  readFifoIn : s.qsys.aesFifo.readFifoIn = false
  arriving : s.qsys.aesFifo.aes.ffInDataValid = false
  phase : φ = 27
  writing : s.qsys.wm.Waits s.qsys.aesFifo.fifoOut.words i.wmWait

theorem Still.wait_of_request {total k φ : ℕ} {i : In} {s : System} (h : s.Still total k φ i)
    (hs : s.qsys.rm.toStepper.phase = .request) : i.rmWait = true := by
  rcases h.reading with ⟨hs', -⟩ | ⟨-, hwait⟩ | ⟨hs', -⟩
  · exact absurd (hs'.symm.trans hs) (by decide)
  · exact hwait
  · exact absurd (hs'.symm.trans hs) (by decide)

namespace Flowing

variable {M : Word → Word} {f : Block → Block} {e : Bool} {ke kd : BitVec 4 → Block}
  {rmAddr wmAddr : Word} {total : ℕ} {target : List Word} {k d φ : ℕ} {c : Block}
  {w : List (Word × Word)} {s : System} {i : In}

theorem length_fifoIn_next (h : Flowing M f e ke kd rmAddr wmAddr total target k d φ c w s) :
    (s.next M i).qsys.aesFifo.fifoIn.words.length + s.qsys.aesFifo.readFifoIn.toNat =
      s.qsys.aesFifo.fifoIn.words.length + s.qsys.rWriteFifoIn.toNat := by
  have hroom := h.credited.room
  have hfull : s.qsys.aesFifo.fifoIn.full = false := by
    refine decide_eq_false ?_
    show ¬ 64 ≤ s.qsys.aesFifo.fifoIn.words.length
    omega
  have hread : s.qsys.aesFifo.readFifoIn.toNat ≤ s.qsys.aesFifo.fifoIn.words.length := by
    rw [AesFifo.readFifoIn, Core.oFFInReadReq, FifoFull.empty]
    cases s.qsys.aesFifo.fifoIn.words with
    | nil => exact Nat.le_of_eq rfl
    | cons a l =>
      refine (Bool.toNat_le _).trans ?_
      simp
  show (s.qsys.aesFifo.fifoIn.next s.qsys.resetBit s.qsys.rWriteFifoIn s.qsys.rDataFifoIn
    s.qsys.aesFifo.readFifoIn).words.length + _ = _
  rw [h.programmed.resetBit, FifoFull.length_next, hfull, Bool.not_false, Bool.and_true]
  omega

/-- What the write master has and will get is not more than what is left of the line. -/
theorem length_inHand_le (h : Flowing M f e ke kd rmAddr wmAddr total target k d φ c w s) :
    (s.qsys.wm.inHand s.qsys.aesFifo.fifoOut.q ++ s.qsys.aesFifo.fifoOut.words).length ≤
      target.length - d := by
  have hplaces := congrArg List.length h.places
  have hline := congrArg List.length h.words
  simp only [List.length_append, List.length_map, Dma.length_addresses] at hplaces hline ⊢
  omega

/-- The rank does not grow, and it falls unless nothing moves. -/
theorem rank_next (h : Flowing M f e ke kd rmAddr wmAddr total target k d φ c w s)
    (hlt : 4 * total < 2 ^ 32) (i : In) :
    let r := (s.next M i).rank (total - (k + (s.reads i).toNat))
      (target.length - (d + (s.qsys.wm.accepts i.wmWait).toNat)) (s.qsys.aesFifo.aes.nextPhase φ)
    r ≤ s.rank (total - k) (target.length - d) φ ∧
      (r = s.rank (total - k) (target.length - d) φ → s.Still total k φ i) := by
  intro r
  have hprogrammed := h.programmed
  have hlength : (BitVec.ofNat 32 (4 * total)).toNat = 4 * total := by
    rw [BitVec.toNat_ofNat, Nat.mod_eq_of_lt hlt]
  obtain ⟨-, hstepper⟩ := h.used.next (BitVec.ofNat 32 (4 * total))
    ⟨true, s.qsys.credit, i.rmWait⟩
  have hreading := h.reading.rank_next hlength (by decide)
    (ReadMaster.gates ⟨true, s.qsys.credit, i.rmWait⟩)
  have hgates : (ReadMaster.gates ⟨true, s.qsys.credit, i.rmWait⟩).accept = !i.rmWait := rfl
  rw [← hstepper, hgates, ← h.reads_eq] at hreading
  have hrm := rm_next hprogrammed M i
  have hwriting := h.serving.rank_next (BitVec.ofNat 32 (4 * total)) s.qsys.aesFifo.fifoOut.q
    i.wmWait h.length_inHand_le
  rw [← wm_next hprogrammed M i, Nat.sub_sub] at hwriting
  have hinflight : (s.next M i).inflight.length + (s.rddatavalid i).toNat =
      s.inflight.length + (s.reads i).toNat := length_inflight_next M
  have hfifo := h.length_fifoIn_next (i := i)
  have hlatched : (s.next M i).qsys.rWriteFifoIn = s.rddatavalid i := rfl
  have harriving : (s.next M i).qsys.aesFifo.aes.ffInDataValid = s.qsys.aesFifo.readFifoIn := rfl
  have hfew : (s.reads i).toNat ≤ total - k := by
    cases hnow : s.reads i
    · exact Nat.zero_le _
    · have hmore := (h.lt_of_reads hlt hnow).1
      rw [Bool.toNat_true]
      omega
  have hphase : 27 - s.qsys.aesFifo.aes.nextPhase φ ≤
      28 * s.qsys.aesFifo.aes.ffInDataValid.toNat + (27 - φ) ∧
    (27 - s.qsys.aesFifo.aes.nextPhase φ =
      28 * s.qsys.aesFifo.aes.ffInDataValid.toNat + (27 - φ) →
        s.qsys.aesFifo.aes.ffInDataValid.toNat = 0 ∧ φ = 27) := by
    have hle := h.holding.phase.le
    have hcounter := h.holding.phase.counterIN
    rw [Core.nextPhase]
    by_cases hlast : s.qsys.aesFifo.aes.fetched = 7
    · -- the block that starts has taken its last word
      have hone := Bool.toNat_le s.qsys.aesFifo.aes.ffInDataValid
      rw [if_pos hlast]
      rw [Core.fetched] at hlast
      omega
    · rw [if_neg hlast]
      omega
  rw [← hrm] at hreading
  have hsum : r = (s.next M i).qsys.rm.toStepper.phase.rank (total - (k + (s.reads i).toNat)) +
      (total - k + s.inflight.length - (s.rddatavalid i).toNat) +
      (total - k + s.inflight.length) +
      (s.queued (total - k) + s.qsys.aesFifo.fifoIn.words.length - s.qsys.aesFifo.readFifoIn.toNat) +
      28 * (s.queued (total - k) + s.qsys.aesFifo.fifoIn.words.length) +
      (27 - s.qsys.aesFifo.aes.nextPhase φ) +
      (s.next M i).qsys.wm.rank (target.length - (d + (s.qsys.wm.accepts i.wmWait).toNat)) := by
    simp only [r, rank, queued, hlatched, harriving]
    omega
  have hqueued : s.queued (total - k) =
    total - k + s.inflight.length + s.qsys.rWriteFifoIn.toNat := rfl
  have hterms := rank_terms (L := s.qsys.rWriteFifoIn.toNat) hreading.1 hwriting.1
    (g := (s.rddatavalid i).toNat) (x := total - k + s.inflight.length) (by omega)
    (y := s.qsys.aesFifo.readFifoIn.toNat)
    (z := s.queued (total - k) + s.qsys.aesFifo.fifoIn.words.length) (by omega) hphase.1
  rw [hsum]
  refine ⟨hterms.1, fun hsame => ?_⟩
  obtain ⟨⟨hread, hwrite, hpend⟩, hanswer, hlatch, hfetch⟩ := hterms.2 hsame
  obtain ⟨harrive, hφ⟩ := hphase.2 hpend
  rw [Bool.toNat_eq_zero] at hanswer hlatch hfetch harrive
  constructor
  · rcases hreading.2 hread with ⟨-, hstart⟩ | ⟨hs, hcredit⟩ | ⟨hs, hwait⟩ | hdone
    · cases hstart
    · exact Or.inl ⟨hs, hcredit⟩
    · exact Or.inr (Or.inl ⟨hs, by simpa using hwait⟩)
    · exact Or.inr (Or.inr hdone)
  · intro hnow
    simpa [rddatavalid, hnow] using hanswer
  · exact hlatch
  · exact hfetch
  · exact harrive
  · exact hφ
  · exact hwriting.2 hwrite

end Flowing

/-! ### Runs -/

/-- The bus and memory hold no request up for ever. -/
structure Serves (M : Word → Word) (s : System) (i : ℕ → In) : Prop where
  read : ∀ t, ∃ u ≥ t, (run (next M) s i u).qsys.rm.oRMRead = true → (i u).rmWait = false
  answer : ∀ t, ∃ u ≥ t, (run (next M) s i u).inflight ≠ [] → (i u).answer = true
  write : ∀ t, ∃ u ≥ t, (run (next M) s i u).qsys.wm.oWMWrite = true → (i u).wmWait = false

/-- Reads accepted in the first `t` cycles. -/
def readCount (M : Word → Word) (s : System) (i : ℕ → In) : ℕ → ℕ
  | 0 => 0
  | t + 1 => readCount M s i t + ((run (next M) s i t).reads (i t)).toNat

/-- Cycles since the last start, `φ` at first. -/
def phaseFrom (φ : ℕ) (M : Word → Word) (s : System) (i : ℕ → In) : ℕ → ℕ
  | 0 => φ
  | t + 1 => (run (next M) s i t).qsys.aesFifo.aes.nextPhase (phaseFrom φ M s i t)

theorem length_accepted (s : System) (i : In) :
    (s.accepted i).length = (s.qsys.wm.accepts i.wmWait).toNat := by
  rw [accepted]
  cases s.qsys.wm.accepts i.wmWait <;> rfl

namespace Flowing

variable {M : Word → Word} {f : Block → Block} {e : Bool} {ke kd : BitVec 4 → Block}
  {rmAddr wmAddr : Word} {total : ℕ} {target : List Word} {φ : ℕ} {c : Block} {s : System}
  {i : ℕ → In}

theorem run (h : Flowing M f e ke kd rmAddr wmAddr total target 0 0 φ c [] s)
    (hf : ∀ b, Cipher.Delivers e ke kd b (f b)) (hlt : 4 * total < 2 ^ 32)
    (hi : ∀ t, (i t).Harmless) (t : ℕ) :
    ∃ c', Flowing M f e ke kd rmAddr wmAddr total target (readCount M s i t)
      (writes M s i t).length (phaseFrom φ M s i t) c' (writes M s i t)
      (Clocked.run (System.next M) s i t) := by
  induction t with
  | zero => exact ⟨c, h⟩
  | succ t ih =>
    obtain ⟨c', hnow⟩ := ih
    obtain ⟨c'', hnext⟩ := hnow.next hf hlt (hi t)
    rw [← length_accepted, ← List.length_append] at hnext
    exact ⟨c'', hnext⟩

/-- The writes are the first words of the line, each in its place. -/
theorem writes_eq (h : Flowing M f e ke kd rmAddr wmAddr total target 0 0 φ c [] s)
    (hf : ∀ b, Cipher.Delivers e ke kd b (f b)) (hlt : 4 * total < 2 ^ 32)
    (hi : ∀ t, (i t).Harmless) (t : ℕ) :
    (writes M s i t).map Prod.fst = addresses wmAddr (writes M s i t).length ∧
      (writes M s i t).map Prod.snd <+: target := by
  obtain ⟨c', hrun⟩ := h.run hf hlt hi t
  refine ⟨hrun.places, ?_⟩
  rw [← hrun.words]
  exact List.prefix_append _ _

section
variable {k d : ℕ} {w : List (Word × Word)} {j : In}

/-- The input side of a line at a standstill, the output FIFO empty: all is read, and nothing
is left on the way in. -/
theorem all_read (h : Flowing M f e ke kd rmAddr wmAddr total target k d φ c w s)
    (hstill : s.Still total k φ j) (hempty : s.qsys.aesFifo.fifoOut.words = [])
    (hnone : s.inflight = []) (hrequest : s.qsys.rm.toStepper.phase ≠ .request) :
    k = total ∧ s.incoming M = [] := by
  obtain rfl := hstill.phase
  have hbusy : s.qsys.aesFifo.aes.busy = false := by
    rw [h.holding.phase.busy]
    rfl
  have hfifo : s.qsys.aesFifo.fifoIn.words = [] := by
    have hread := hstill.readFifoIn
    simpa [AesFifo.readFifoIn, Core.oFFInReadReq, FifoFull.almostFull, FifoFull.almostFullValue,
      hempty, hbusy, hstill.arriving, h.keyed.done, FifoFull.empty] using hread
  refine ⟨?_, by rw [incoming, hfifo, hstill.latched, hnone]; rfl⟩
  rcases hstill.reading with ⟨hraise, hcredit⟩ | ⟨hreq, -⟩ | ⟨-, hdone⟩
  · -- with nothing under way there is credit
    have hread : s.qsys.rm.oRMRead = false := by
      rw [← Bool.not_eq_true, ← h.used.request_iff]
      exact hrequest
    have hguess := h.credited.guess
    rw [hread, hnone, Bool.toNat_false, List.length_nil] at hguess
    have hzero : s.qsys.rFifoGuessStored.toNat = 0 := by
      omega
    have hyes : s.qsys.credit = true := by
      simp [Qsys.credit, FifoFull.usedw, FifoFull.almostFull, FifoFull.almostFullValue, hfifo, hzero]
    rw [hcredit] at hyes
    cases hyes
  · exact absurd hreq hrequest
  · exact hdone

theorem delivered (h : Flowing M f e ke kd rmAddr wmAddr total target k d φ c w s)
    (hlength : target.length = total) (hstill : s.Still total k φ j) (hnone : s.inflight = [])
    (hrequest : s.qsys.rm.toStepper.phase ≠ .request)
    (hbus : s.qsys.wm.rStateDMAWM ≠ .STEP_5) : w.map Prod.snd = target := by
  have hline := h.words
  rcases hstill.writing with ⟨hs, hempty⟩ | ⟨hs, -⟩ | ⟨hs, hend⟩
  · obtain ⟨rfl, hin⟩ := h.all_read hstill hempty hnone hrequest
    obtain rfl := hstill.phase
    have hhand : s.qsys.wm.inHand s.qsys.aesFifo.fifoOut.q = [] := by
      rcases hs with hs | hs <;> simp [WriteMaster.inHand, hs]
    have hshort : s.qsys.aesFifo.aes.partialIn.length < 4 := by
      have hcounter := h.holding.phase.counterIN
      rw [Core.partialIn, List.length_take]
      omega
    rw [hhand, hempty, hin, arriving, Core.taken, hstill.arriving, Core.toWrite_done, Nat.sub_self]
      at hline
    simpa [cipherWords_of_short f hshort] using hline
  · exact absurd hs hbus
  · -- the master stands at its last address
    have hlate := h.serving.total_le hs hend
    have hplaces := congrArg List.length h.places
    have hlen := congrArg List.length hline
    simp only [List.length_append, List.length_map, Dma.length_addresses] at hplaces hlen
    rw [← hline]
    refine (List.append_right_eq_self.mpr ?_).symm
    apply List.eq_nil_of_length_eq_zero
    simp only [List.length_append]
    omega

end

theorem exists_writes (h : Flowing M f e ke kd rmAddr wmAddr total target 0 0 φ c [] s)
    (hf : ∀ b, Cipher.Delivers e ke kd b (f b)) (hlt : 4 * total < 2 ^ 32)
    (hlength : target.length = total) (hi : ∀ t, (i t).Harmless) (hserves : Serves M s i) :
    ∃ T, ∀ t ≥ T, writes M s i t = (addresses wmAddr total).zip target := by
  have hrun := h.run hf hlt hi
  let μ : ℕ → ℕ := fun t => (Clocked.run (System.next M) s i t).rank (total - readCount M s i t)
    (target.length - (writes M s i t).length) (phaseFrom φ M s i t)
  have hrank : ∀ t, μ (t + 1) ≤ μ t ∧ (μ (t + 1) = μ t →
      (Clocked.run (System.next M) s i t).Still total (readCount M s i t) (phaseFrom φ M s i t)
        (i t)) := by
    intro t
    obtain ⟨c', hnow⟩ := hrun t
    have hstep := hnow.rank_next hlt (i t)
    rw [← length_accepted, ← List.length_append] at hstep
    exact hstep
  obtain ⟨T, hT⟩ := exists_stable μ fun t => (hrank t).1
  have hstill : ∀ t ≥ T, (Clocked.run (System.next M) s i t).Still total (readCount M s i t)
      (phaseFrom φ M s i t) (i t) := fun t ht =>
    (hrank t).2 ((hT (t + 1) (by omega)).trans (hT t ht).symm)
  -- what waits for the bus or memory waits on until these serve it
  have hbus : ∀ t ≥ T, ¬ (Clocked.run (System.next M) s i t).qsys.wm.rStateDMAWM = .STEP_5 := by
    refine never_of_persists (fun t ht hs => ?_) fun t ht => ?_
    · obtain ⟨c', hnow⟩ := hrun t
      have hwait := (hstill t ht).writing.wait_of_bus hs
      show (System.next M (Clocked.run (System.next M) s i t) (i t)).qsys.wm.rStateDMAWM = _
      rw [wm_next hnow.programmed, WriteMaster.next, hs, hwait]
      rfl
    · obtain ⟨u, hu, hserved⟩ := hserves.write t
      refine ⟨u, hu, fun hs => ?_⟩
      obtain ⟨c', hnow⟩ := hrun u
      have hup := hnow.serving.write
      rw [hs] at hup
      have hwait := (hstill u (by omega)).writing.wait_of_bus hs
      rw [hserved hup] at hwait
      cases hwait
  have hrequest : ∀ t ≥ T,
      ¬ (Clocked.run (System.next M) s i t).qsys.rm.toStepper.phase = .request := by
    refine never_of_persists (fun t ht hs => ?_) fun t ht => ?_
    · obtain ⟨c', hnow⟩ := hrun t
      have hwait := (hstill t ht).wait_of_request hs
      show (System.next M (Clocked.run (System.next M) s i t) (i t)).qsys.rm.toStepper.phase = _
      rw [rm_next hnow.programmed, hwait]
      refine (congrArg Stepper.State.phase (hnow.used.next _ ⟨true, _, true⟩).2).trans ?_
      rw [Stepper.next, hs]
      exact hs
    · obtain ⟨u, hu, hserved⟩ := hserves.read t
      refine ⟨u, hu, fun hs => ?_⟩
      obtain ⟨c', hnow⟩ := hrun u
      have hwait := (hstill u (by omega)).wait_of_request hs
      rw [hserved (hnow.used.request_iff.mp hs)] at hwait
      cases hwait
  have hnone : ∀ t ≥ T, ¬ (Clocked.run (System.next M) s i t).inflight ≠ [] := by
    refine never_of_persists (fun t ht hne => ?_) fun t ht => ?_
    · have hquiet : (i t).answer = false := by
        rw [← Bool.not_eq_true]
        exact fun hanswer => hne ((hstill t ht).answer hanswer)
      show (if (i t).answer then _ else _) ++ _ ≠ []
      rw [hquiet, if_neg (by decide)]
      exact List.append_ne_nil_of_left_ne_nil hne _
    · obtain ⟨u, hu, hserved⟩ := hserves.answer t
      exact ⟨u, hu, fun hne => hne ((hstill u (by omega)).answer (hserved hne))⟩
  refine ⟨T, fun t ht => ?_⟩
  obtain ⟨c', hnow⟩ := hrun t
  have hdone := hnow.delivered hlength (hstill t ht) (not_not.mp (hnone t ht)) (hrequest t ht)
    (hbus t ht)
  have hplaces := hnow.places
  have hcount : (writes M s i t).length = total := by
    rw [← hlength, ← hdone, List.length_map]
  rw [hcount] at hplaces
  rw [← hplaces, ← hdone]
  exact List.zip_of_prod rfl rfl

end Flowing
end System

end SocCrypto.Aes

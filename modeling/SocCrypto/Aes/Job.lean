import SocCrypto.Aes.Transfer
import SocCrypto.Soft.AesTransfer

/-!
# Starting a job of the AES engine

`RESET` clears the read master, the credit counter and the FIFOs. It does not reach the core,
and the case statement of the write master overrides it. `Clean` is what the engine must be
like when `START` comes for the job to be performed, and `performs_iff` says it is exactly that.
-/

namespace SocCrypto.Aes
open AesFunction (Block encrypt decrypt)
open Clocked
open Dma (addresses)
open Soft (ecb blockAt wordAt)

/-! ### What a job is for -/

/-- AES-128 in a mode. -/
def aes (e : Bool) (K b : Block) : Block := if e then decrypt K b else encrypt K b

theorem delivers_aes {K : Block} {ke kd : BitVec 4 → Block} (h : Makekey.Holds K ke kd) (e : Bool)
    (b : Block) : Cipher.Delivers e ke kd b (aes e K b) := by
  cases e
  · exact Cipher.delivers_encrypt h b
  · exact Cipher.delivers_decrypt h b

theorem aes_aes (e : Bool) (K b : Block) : aes e K (aes (!e) K b) = b := by
  cases e
  · exact AesFunction.encrypt_decrypt K b
  · exact AesFunction.decrypt_encrypt K b

theorem aes_injective (e : Bool) (K : Block) : Function.Injective (aes e K) := by
  refine Function.LeftInverse.injective (g := aes (!e) K) fun b => ?_
  have hback := aes_aes (!e) K b
  rwa [Bool.not_not] at hback

theorem aes_surjective (e : Bool) (K : Block) : Function.Surjective (aes e K) :=
  fun b => ⟨_, aes_aes e K b⟩

/-- The writes of a job of `n` blocks: word `j` of the enciphered source, in its place. -/
def result (f : Block → Block) (M : Word → Word) (rmAddr wmAddr : Word) (n : ℕ) :
    List (Word × Word) :=
  (List.range (4 * n)).map fun j =>
    (wmAddr + BitVec.ofNat 32 (4 * j), ecb f (fun k => M (rmAddr + BitVec.ofNat 32 (4 * k))) j)

section
variable (f : Block → Block)

theorem cipherWords_append {l : List Word} (h : 4 ∣ l.length) (l' : List Word) :
    cipherWords f (l ++ l') = cipherWords f l ++ cipherWords f l' := by
  induction l using cipherWords.induct with
  | case1 a b c d l ih =>
    simp only [List.length_cons] at h
    rw [cipherWords, List.append_assoc, ← ih (by omega)]
    rfl
  | case2 l hno =>
    rcases l with _ | ⟨a, _ | ⟨b, _ | ⟨c, _ | ⟨d, l⟩⟩⟩⟩
    · rfl
    · simp at h
    · simp at h
    · simp at h
    · exact absurd rfl (hno a b c d l)

theorem cipherWords_range (m : ℕ → Word) (n : ℕ) :
    cipherWords f ((List.range (4 * n)).map m) = (List.range (4 * n)).map (ecb f m) := by
  induction n with
  | zero => rfl
  | succ n ih =>
    have hrange : List.range (4 * (n + 1)) =
        List.range (4 * n) ++ [4 * n, 4 * n + 1, 4 * n + 2, 4 * n + 3] := by
      rw [show 4 * (n + 1) = 4 * n + 1 + 1 + 1 + 1 by omega]
      simp only [List.range_succ, List.append_assoc]
      rfl
    have hlast : ∀ j < 4, ecb f m (4 * n + j) = wordAt (f (blockAt m n)) j := by
      intro j hj
      rw [ecb, show (4 * n + j) / 4 = n by omega, show (4 * n + j) % 4 = j by omega]
    rw [hrange, List.map_append, List.map_append, cipherWords_append f (by simp), ih]
    congr 1
    show blockWords (f (blockAt m n)) = _
    simp only [List.map_cons, List.map_nil]
    rw [hlast 1 (by omega), hlast 2 (by omega), hlast 3 (by omega), ← Nat.add_zero (4 * n),
      hlast 0 (by omega)]
    rfl

theorem result_eq (M : Word → Word) (rmAddr wmAddr : Word) (n : ℕ) :
    result f M rmAddr wmAddr n =
      (addresses wmAddr (4 * n)).zip (cipherWords f ((addresses rmAddr (4 * n)).map M)) := by
  rw [addresses, addresses, List.map_map]
  show _ = List.zip _ (cipherWords f ((List.range (4 * n)).map
    fun k => M (rmAddr + BitVec.ofNat 32 (4 * k))))
  rw [cipherWords_range, List.zip_map']
  rfl

theorem result_snd (M : Word → Word) (rmAddr wmAddr : Word) (n : ℕ) :
    (result f M rmAddr wmAddr n).map Prod.snd =
      cipherWords f ((addresses rmAddr (4 * n)).map M) := by
  rw [result_eq, List.map_snd_zip]
  rw [length_cipherWords, List.length_map, Dma.length_addresses, Dma.length_addresses]
  omega

end

/-! ### After `RESET` -/

/-- What a cycle with `RESET` leaves. -/
structure Qsys.Cleared (s : Qsys) : Prop where
  rStateDMARM : s.rm.rStateDMARM = .IDLE
  oRMRead : s.rm.oRMRead = false
  rAddStored : s.rm.rAddStored = false
  rFifoGuessStored : s.rFifoGuessStored = 0
  fifoIn : s.aesFifo.fifoIn.words = []
  fifoOut : s.aesFifo.fifoOut.words = []

theorem Qsys.cleared_next {s : Qsys} (h : s.resetBit = true) (i : In) : (s.next i).Cleared := by
  have hrm : (s.next i).rm = s.rm.next true s.startBit s.rmStartAddr s.length s.credit
      i.iRMWaitrequest := by
    rw [← h]
    rfl
  constructor
  · rw [hrm]
    rfl
  · rw [hrm]
    rfl
  · rw [hrm]
    rfl
  · show s.nextGuess i.iRMRddatavalid = 0
    rw [nextGuess, if_pos h]
  · show (s.aesFifo.fifoIn.next s.resetBit _ _ _).words = []
    rw [h]
    rfl
  · show (s.aesFifo.fifoOut.next s.resetBit _ _ _).words = []
    rw [h]
    rfl

/-- The write master goes on to write `total` words from `startAddr` on: it is in `IDLE`, or it
stands at `startAddr` already and its end address is none of those it passes. -/
def WriteMaster.Aimed (startAddr : Word) (total : ℕ) (m : WriteMaster) : Prop :=
  m.rStateDMAWM = .IDLE ∨ ((m.rStateDMAWM = .STEP_1 ∨ m.rStateDMAWM = .STOP) ∧
    m.oWMWraddr = startAddr ∧ ∀ j < total, m.rStateDMAWM = .STOP ∨ 0 < j →
      m.rWMLastaddr ≠ startAddr + BitVec.ofNat 32 (4 * j))

/-- What its registers have in common in every state. -/
structure WriteMaster.Sound (m : WriteMaster) : Prop where
  write : m.oWMWrite = true → m.rStateDMAWM = .STEP_5
  read : m.rReadFifoOut = decide (m.rStateDMAWM = .STEP_2)

theorem WriteMaster.Sound.silent {m : WriteMaster} (hwrite : m.oWMWrite = false)
    (hread : m.rReadFifoOut = decide (m.rStateDMAWM = .STEP_2)) : m.Sound := by
  refine ⟨?_, hread⟩
  intro hup
  rw [hwrite] at hup
  cases hup

/-- A reset makes them so, and they stay so. -/
theorem WriteMaster.Sound.next {m : WriteMaster} {RESET : Bool} (h : RESET = true ∨ m.Sound)
    (startAddr LENGTH : Word) (empty : Bool) (q : Word) (wait : Bool) :
    (m.next RESET startAddr LENGTH empty q wait).Sound := by
  obtain ⟨state, write, addr, data, last, done, read⟩ := m
  cases RESET with
  | true =>
    cases state with
    | IDLE | STEP_1 => cases empty <;> exact .silent rfl rfl
    | STEP_5 => cases wait <;> exact .silent rfl rfl
    | STOP => by_cases hend : addr = last <;> simp only [WriteMaster.next, hend] <;> exact .silent rfl rfl
    | STEP_2 | STEP_3 => exact .silent rfl rfl
    | STEP_4 => exact ⟨fun _ => rfl, rfl⟩
  | false =>
    obtain ⟨hwrite, hread⟩ := h.resolve_left Bool.false_ne_true
    have hoff : state ≠ .STEP_5 → write = false := by
      intro hne
      rw [← Bool.not_eq_true]
      exact fun hup => hne (hwrite hup)
    cases state with
    | IDLE =>
      obtain rfl := hoff (by decide)
      cases empty <;> exact .silent rfl rfl
    | STEP_1 =>
      obtain rfl := hoff (by decide)
      obtain rfl : read = false := hread
      cases empty <;> exact .silent rfl rfl
    | STEP_2 =>
      obtain rfl := hoff (by decide)
      exact .silent rfl rfl
    | STEP_3 =>
      obtain rfl := hoff (by decide)
      obtain rfl : read = false := hread
      exact .silent rfl rfl
    | STEP_4 =>
      obtain rfl : read = false := hread
      exact ⟨fun _ => rfl, rfl⟩
    | STEP_5 =>
      obtain rfl : read = false := hread
      cases wait
      · exact .silent rfl rfl
      · exact ⟨fun _ => rfl, rfl⟩
    | STOP =>
      obtain rfl := hoff (by decide)
      obtain rfl : read = false := hread
      by_cases hend : addr = last <;> simp only [WriteMaster.next, hend] <;> exact .silent rfl rfl

theorem WriteMaster.Aimed.serving {startAddr : Word} {total : ℕ} {m : WriteMaster}
    (h : m.Aimed startAddr total) (hsound : m.Sound) (htotal : 0 < total) :
    m.Serving startAddr total 0 [] := by
  have hstate : m.rStateDMAWM ≠ .STEP_5 ∧ m.rStateDMAWM ≠ .STEP_2 := by
    rcases h with hs | ⟨hs | hs, -⟩ <;> rw [hs] <;> exact ⟨nofun, nofun⟩
  have hwrite : m.oWMWrite = false := by
    rw [← Bool.not_eq_true]
    exact fun hup => hstate.1 (hsound.write hup)
  refine ⟨by rw [hwrite, decide_eq_false hstate.1], hsound.read, fun _ => rfl, fun hne => ?_,
    fun hne j hpos hj => ?_, fun hs _ => ?_, fun hs => absurd hs hstate.2⟩
  · obtain ⟨-, haddr, -⟩ := h.resolve_left hne
    simpa using haddr
  · obtain ⟨-, -, hfar⟩ := h.resolve_left hne
    exact hfar j hj (Or.inr hpos)
  · obtain ⟨-, -, hfar⟩ := h.resolve_left (by rw [hs]; nofun)
    have hzero := hfar 0 htotal (Or.inl hs)
    rwa [Nat.mul_zero, BitVec.add_zero] at hzero

/-- `Buffer_OUT` is what the output register shows of the last block. -/
def Core.Shown (φ : ℕ) (s : Core) : Prop :=
  23 ≤ φ → φ ≤ 25 → s.oFFOutData = getWord s.bufferOUT (BitVec.ofNat 3 (φ - 23))

theorem Core.Shown.next {φ : ℕ} {s : Core} (hphase : s.Phase φ) (i : In) :
    (s.next i).Shown (s.nextPhase φ) := by
  intro hlow hhigh
  have hle := hphase.le
  have hnot : s.fetched ≠ 7 := by
    intro hlast
    rw [nextPhase, if_pos hlast] at hlow
    omega
  rw [nextPhase, if_neg hnot] at hlow hhigh ⊢
  have hvalid : s.cipher.oDataValid = false := by
    rw [hphase.oDataValid]
    exact decide_eq_false (by omega)
  have hkept : (s.next i).bufferOUT = s.bufferOUT := by
    show (if s.cipher.oDataValid then _ else _) = _
    rw [hvalid]
    rfl
  rw [hkept]
  show getWord s.bufferOUT s.bufferOUTCounter = _
  rw [hphase.counterOUT]
  congr 1
  by_cases hzero : φ = 22
  · rw [hzero]
    rfl
  · rw [if_pos (by omega)]
    congr 1
    omega

/-- The last block to come out. -/
def Core.lastBlock (f : Block → Block) (φ : ℕ) (s : Core) : Block :=
  if φ = 0 then f s.bufferIN
  else if φ ≤ 21 then s.cipher.outcome (21 - φ)
  else if φ ≤ 25 then s.bufferOUT
  else ⟨0, 0, 0, s.oFFOutData⟩

theorem Core.holding_lastBlock {φ : ℕ} {s : Core} (hphase : s.Phase φ) (hshown : s.Shown φ)
    (f : Block → Block) : s.Holding f φ (s.lastBlock f φ) := by
  constructor
  · exact hphase
  · rintro rfl
    rfl
  · intro hlow hhigh
    rw [lastBlock, if_neg (by omega), if_pos hhigh]
  · intro hlow hhigh
    rw [lastBlock, if_neg (by omega), if_neg (by omega), if_pos hhigh]
  · intro hlow hhigh
    by_cases hlast : φ = 26
    · subst hlast
      rfl
    · rw [lastBlock, if_neg (by omega), if_neg (by omega), if_pos (by omega)]
      exact hshown hlow (by omega)

/-! ### Reachable states -/

/-- What a hardware reset leaves: it clears the write master as `RESET` does, and an answer of
memory in its last cycle is latched all the same. -/
structure Qsys.HardwareReset (s : Qsys) : Prop where
  afterReset : ({ s with rWriteFifoIn := false } : Qsys).AfterReset
  wm : ∃ m startAddr LENGTH empty q wait, s.wm = WriteMaster.next m true startAddr LENGTH empty q wait

/-- What holds in every state after a hardware reset. -/
structure Qsys.Regular (s : Qsys) : Prop where
  wm : s.wm.Sound
  core : ∃ φ, s.aesFifo.Bounded φ ∧ s.aesFifo.aes.Shown φ

theorem Qsys.HardwareReset.regular {s : Qsys} (h : s.HardwareReset) : s.Regular := by
  obtain ⟨m, startAddr, LENGTH, empty, q, wait, hwm⟩ := h.wm
  refine ⟨?_, 27, h.afterReset.aesFifo.bounded, fun _ hhigh => absurd hhigh (by decide)⟩
  rw [hwm]
  exact WriteMaster.Sound.next (Or.inl rfl) _ _ _ _ _

theorem Qsys.Regular.next {s : Qsys} (h : s.Regular) (i : In) : (s.next i).Regular := by
  obtain ⟨φ, hbounded, -⟩ := h.core
  exact ⟨WriteMaster.Sound.next (Or.inr h.wm) _ _ _ _ _, _, hbounded.next (i := s.aesFifoIn) rfl,
    Core.Shown.next hbounded.phase _⟩

/-! ### The start -/

/-- The engine holds the expanded key `K` in mode `e`. -/
def Core.HoldsKey (e : Bool) (K : Block) (s : Core) : Prop :=
  ∃ ke kd, s.Keyed e ke kd ∧ Makekey.Holds K ke kd

/-- No block and no part of one is in the core. -/
structure Core.Empty (s : Core) : Prop where
  ffInDataValid : s.ffInDataValid = false
  bufferINCounter : s.bufferINCounter = 0
  start : s.start = false
  control : s.cipher.endec.control = Endec.Control.idle
  rDelay : s.rDelay = false
  oFFOutWriteReq : s.oFFOutWriteReq = false

theorem Core.Empty.phase {φ : ℕ} {s : Core} (h : s.Empty) (hphase : s.Phase φ) : φ = 27 := by
  have hle := hphase.le
  have hstart := hphase.start
  have hdelay := hphase.rDelay
  have hwrite := hphase.writeReq
  rw [h.start, eq_comm, decide_eq_false_iff_not] at hstart
  rw [h.rDelay, eq_comm, decide_eq_false_iff_not] at hdelay
  rw [h.oFFOutWriteReq, eq_comm, decide_eq_false_iff_not] at hwrite
  have hbusy : ∀ a < 22, 1 ≤ a → Endec.Control.idle ≠ Endec.Control.age a := by decide
  have hlate : ¬ φ ≤ 21 := by
    intro hlow
    have hcontrol := hphase.control
    rw [h.control, if_pos hlow] at hcontrol
    exact hbusy φ (by omega) (by omega) hcontrol
  omega

/-- The words ahead of those of the job. -/
def System.stale (s : System) : List Word :=
  s.qsys.aesFifo.aes.partialIn ++ (s.arriving ++
    if s.qsys.rWriteFifoIn then [s.qsys.rDataFifoIn] else [])

/-- After `RESET`, with every read answered, the processor has set `START`. -/
structure System.Starting (rmAddr wmAddr : Word) (n : ℕ) (s : System) : Prop where
  cleared : s.qsys.Cleared
  programmed : s.qsys.Programmed rmAddr wmAddr (4 * n)
  inflight : s.inflight = []

namespace System

section
variable {M : Word → Word} {e : Bool} {ke kd : BitVec 4 → Block} {f : Block → Block}
  {rmAddr wmAddr : Word} {n φ : ℕ} {s : System}

/-- The line at the start, with whatever the engine still has in it. -/
theorem Starting.flowing (h : s.Starting rmAddr wmAddr n) (hpos : 0 < n) (hlt : 16 * n < 2 ^ 32)
    (hbounded : s.qsys.aesFifo.Bounded φ) (hshown : s.qsys.aesFifo.aes.Shown φ)
    (hkeyed : s.qsys.aesFifo.aes.Keyed e ke kd) (hsound : s.qsys.wm.Sound)
    (haimed : s.qsys.wm.Aimed wmAddr (4 * n)) (M : Word → Word) (f : Block → Block) :
    Flowing M f e ke kd rmAddr wmAddr (4 * n)
      (Core.toWrite φ (s.qsys.aesFifo.aes.lastBlock f φ) ++
        cipherWords f (s.stale ++ (addresses rmAddr (4 * n)).map M))
      0 0 φ (s.qsys.aesFifo.aes.lastBlock f φ) [] s := by
  have hread := h.cleared.oRMRead
  have hidle := h.cleared.rStateDMARM
  have hadd := h.cleared.rAddStored
  refine ⟨h.programmed, ?_, hbounded, hkeyed, Core.holding_lastBlock hbounded.phase hshown f, ?_, ?_,
    ?_, rfl, ?_⟩
  · refine ⟨⟨?_, ?_⟩, ?_, ?_⟩
    · rw [hread, hidle]
      rfl
    · rw [hadd]
      nofun
    · rw [h.cleared.rFifoGuessStored, hadd, hread, h.inflight]
      rfl
    · have hone := Bool.toNat_le s.qsys.rWriteFifoIn
      rw [h.cleared.fifoIn, hread, h.inflight]
      simp only [List.length_nil, Bool.toNat_false]
      omega
  · refine ⟨Or.inl hidle, ?_, fun hne => absurd hidle hne⟩
    rw [hread, hidle]
    rfl
  · have hphase : s.qsys.rm.toStepper.phase = .idle := by
      rw [ReadMaster.toStepper, hidle]
      rfl
    have hlength : (BitVec.ofNat 32 (4 * (4 * n))).toNat = 4 * (4 * n) := by
      rw [BitVec.toNat_ofNat, Nat.mod_eq_of_lt (by omega)]
    refine ⟨fun _ => rfl, fun hne => absurd hphase hne, fun _ => ?_, ?_⟩ <;> rw [hlength] <;> omega
  · rw [h.cleared.fifoOut]
    exact haimed.serving hsound (by omega)
  · rw [h.cleared.fifoOut, incoming, h.cleared.fifoIn, h.inflight, stale]
    have hhand : s.qsys.wm.inHand s.qsys.aesFifo.fifoOut.q = [] := by
      rcases haimed with hs | ⟨hs | hs, -⟩ <;> rw [WriteMaster.inHand, hs]
    rw [hhand]
    simp

end

/-- In every run of the job its writes are made in the end. -/
def Writes (f : Block → Block) (rmAddr wmAddr : Word) (n : ℕ) (s : System) : Prop :=
  ∀ (M : Word → Word) (i : ℕ → In), (∀ t, (i t).Harmless) → Serves M s i →
    ∃ T, ∀ t ≥ T, writes M s i t = result f M rmAddr wmAddr n

/-- The job is performed: in the end its writes are made and no others, all of them in the
window, and `r_WM_done` does not read as 1 in the status before that. -/
structure Performs (f : Block → Block) (M : Word → Word) (rmAddr wmAddr : Word) (n : ℕ)
    (s : System) (i : ℕ → In) : Prop where
  writes : ∃ T, ∀ t ≥ T, writes M s i t = result f M rmAddr wmAddr n
  inside : ∀ t, ∀ w ∈ System.writes M s i t, ∃ j < 4 * n, w.1 = wmAddr + BitVec.ofNat 32 (4 * j)
  done : ∀ t, ((run (next M) s i t).qsys.ram 14).getLsbD 2 = true →
    System.writes M s i t = result f M rmAddr wmAddr n

/-- Nothing of an earlier job is left. -/
structure Clean (wmAddr : Word) (n : ℕ) (s : System) : Prop where
  wm : s.qsys.wm.Aimed wmAddr (4 * n)
  core : s.qsys.aesFifo.aes.Empty
  latched : s.qsys.rWriteFifoIn = false
  done : s.qsys.wm.rWMDone = false
  status : (s.qsys.ram 14).getLsbD 2 = false

section
variable {M : Word → Word} {e : Bool} {ke kd : BitVec 4 → Block} {f : Block → Block}
  {rmAddr wmAddr : Word} {total n φ : ℕ} {target : List Word} {c : Block} {s : System} {i : ℕ → In}

theorem status_next (M : Word → Word) (s : System) (i : In) :
    ((s.next M i).qsys.ram 14).getLsbD 2 = s.qsys.wm.rWMDone := by
  show s.qsys.status.getLsbD 2 = _
  rw [Qsys.status]
  cases s.qsys.wm.rWMDone <;> cases s.qsys.rm.rRMDone <;> cases s.qsys.rBusy <;> rfl

theorem Flowing.done (h : Flowing M f e ke kd rmAddr wmAddr total target 0 0 φ c [] s)
    (hf : ∀ b, Cipher.Delivers e ke kd b (f b)) (hlt : 4 * total < 2 ^ 32)
    (hi : ∀ t, (i t).Harmless) (hdone : s.qsys.wm.rWMDone = false) (t : ℕ) :
    (Clocked.run (System.next M) s i t).qsys.wm.rWMDone = true →
      total ≤ (System.writes M s i t).length := by
  induction t with
  | zero =>
    intro hup
    rw [Clocked.run, hdone] at hup
    cases hup
  | succ t ih =>
    intro hup
    obtain ⟨c', hnow⟩ := h.run hf hlt hi t
    have hmono : (System.writes M s i t).length ≤ (System.writes M s i (t + 1)).length := by
      rw [System.writes, List.length_append]
      exact Nat.le_add_right _ _
    have hwm := wm_next hnow.programmed M (i t)
    rw [show Clocked.run (System.next M) s i (t + 1) =
      System.next M (Clocked.run (System.next M) s i t) (i t) from rfl, hwm] at hup
    rcases WriteMaster.done_next _ _ hup with hbefore | ⟨hs, hend⟩
    · exact (ih hbefore).trans hmono
    · exact (hnow.serving.total_le hs hend).trans hmono

/-- As many writes as there are words on the line are all of them. -/
theorem Flowing.writes_full (h : Flowing M f e ke kd rmAddr wmAddr total target 0 0 φ c [] s)
    (hf : ∀ b, Cipher.Delivers e ke kd b (f b)) (hlt : 4 * total < 2 ^ 32)
    (hi : ∀ t, (i t).Harmless) {t : ℕ} (hfull : target.length ≤ (System.writes M s i t).length) :
    System.writes M s i t = (addresses wmAddr target.length).zip target := by
  obtain ⟨hplaces, hprefix⟩ := h.writes_eq hf hlt hi t
  have hdata : (System.writes M s i t).map Prod.snd = target :=
    hprefix.eq_of_length_le (by rwa [List.length_map])
  have hlength : (System.writes M s i t).length = target.length := by
    rw [← hdata, List.length_map]
  rw [hlength] at hplaces
  exact List.zip_of_prod hplaces hdata

theorem stale_of_empty (hcore : s.qsys.aesFifo.aes.Empty) (hlatched : s.qsys.rWriteFifoIn = false) :
    s.stale = [] := by
  rw [stale, Core.partialIn, arriving, Core.taken, hcore.bufferINCounter, hcore.ffInDataValid,
    hlatched]
  rfl

/-- The line at the start of an engine with nothing left in it. -/
theorem Starting.flowing_source (hstart : s.Starting rmAddr wmAddr n) (hpos : 0 < n)
    (hlt : 16 * n < 2 ^ 32) (hregular : s.qsys.Regular)
    (hkeyed : s.qsys.aesFifo.aes.Keyed e ke kd) (haimed : s.qsys.wm.Aimed wmAddr (4 * n))
    (hcore : s.qsys.aesFifo.aes.Empty) (hlatched : s.qsys.rWriteFifoIn = false)
    (M : Word → Word) (f : Block → Block) :
    Flowing M f e ke kd rmAddr wmAddr (4 * n) (cipherWords f ((addresses rmAddr (4 * n)).map M))
      0 0 27 (s.qsys.aesFifo.aes.lastBlock f 27) [] s := by
  obtain ⟨φ, hbounded, hshown⟩ := hregular.core
  obtain rfl := hcore.phase hbounded.phase
  have hflow := hstart.flowing hpos hlt hbounded hshown hkeyed hregular.wm haimed M f
  rwa [Core.toWrite_done, stale_of_empty hcore hlatched, List.nil_append, List.nil_append] at hflow

theorem length_source (f : Block → Block) (M : Word → Word) (rmAddr : Word) (n : ℕ) :
    (cipherWords f ((addresses rmAddr (4 * n)).map M)).length = 4 * n := by
  rw [length_cipherWords, List.length_map, Dma.length_addresses]
  omega

theorem Starting.writes (hstart : s.Starting rmAddr wmAddr n) (hpos : 0 < n)
    (hlt : 16 * n < 2 ^ 32) (hregular : s.qsys.Regular)
    (hkeyed : s.qsys.aesFifo.aes.Keyed e ke kd) (hf : ∀ b, Cipher.Delivers e ke kd b (f b))
    (haimed : s.qsys.wm.Aimed wmAddr (4 * n)) (hcore : s.qsys.aesFifo.aes.Empty)
    (hlatched : s.qsys.rWriteFifoIn = false) : s.Writes f rmAddr wmAddr n := by
  intro M i hi hserves
  have hflow := hstart.flowing_source hpos hlt hregular hkeyed haimed hcore hlatched M f
  rw [result_eq]
  exact hflow.exists_writes hf (by omega) (length_source f M rmAddr n) hi hserves

/-- A clean engine performs its job. -/
theorem Clean.performs (h : s.Clean wmAddr n) (hstart : s.Starting rmAddr wmAddr n) (hpos : 0 < n)
    (hlt : 16 * n < 2 ^ 32) (hregular : s.qsys.Regular)
    (hkeyed : s.qsys.aesFifo.aes.Keyed e ke kd) (hf : ∀ b, Cipher.Delivers e ke kd b (f b))
    (hi : ∀ t, (i t).Harmless) (hserves : Serves M s i) : Performs f M rmAddr wmAddr n s i := by
  have hflow := hstart.flowing_source hpos hlt hregular hkeyed h.wm h.core h.latched M f
  have hlength := length_source f M rmAddr n
  have hlt' : 4 * (4 * n) < 2 ^ 32 := by
    omega
  refine ⟨hstart.writes hpos hlt hregular hkeyed hf h.wm h.core h.latched M i hi hserves,
    fun t w hw => ?_, fun t hstatus => ?_⟩
  · obtain ⟨hplaces, hprefix⟩ := hflow.writes_eq hf hlt' hi t
    have hfew := hprefix.length_le
    rw [List.length_map, hlength] at hfew
    have hplace : w.1 ∈ addresses wmAddr (System.writes M s i t).length :=
      hplaces ▸ List.mem_map_of_mem hw
    obtain ⟨j, hj, heq⟩ := List.mem_map.mp hplace
    exact ⟨j, lt_of_lt_of_le (List.mem_range.mp hj) hfew, heq.symm⟩
  · rcases t with _ | t
    · rw [run, h.status] at hstatus
      cases hstatus
    · have hdone := (status_next M (run (next M) s i t) (i t)).symm.trans hstatus
      have hmany := hflow.done hf hlt' hi h.done t hdone
      have hmore : 4 * n ≤ (System.writes M s i (t + 1)).length := by
        rw [System.writes, List.length_append]
        exact hmany.trans (Nat.le_add_right _ _)
      rw [hflow.writes_full hf hlt' hi (hlength.trans_le hmore), hlength, result_eq]

end

end System

end SocCrypto.Aes

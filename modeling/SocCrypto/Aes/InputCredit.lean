import SocCrypto.Aes.Qsys

/-!
# Credit of the AES read master

`r_fifo_guess_stored` follows the reads under way one cycle late, `r_add_stored` being
the cycle it is late by. Every read is raised with at most 55 words in the input FIFO and
on their way to it, so the FIFO never holds more than 57 of its 64.
-/

namespace SocCrypto.Aes

/-! ### Input FIFO -/

theorem FifoFull.length_next (f : FifoFull) (wrreq : Bool) (data : Word) (rdreq : Bool) :
    (f.next false wrreq data rdreq).words.length =
      (f.words.length - rdreq.toNat) + (wrreq && !f.full).toNat := by
  cases rdreq <;> cases hwrite : (wrreq && !f.full) <;> simp [next, hwrite]

theorem FifoFull.length_next_le (f : FifoFull) (wrreq : Bool) (data : Word) (rdreq : Bool) :
    (f.next false wrreq data rdreq).words.length ≤ f.words.length + wrreq.toNat := by
  rw [length_next]
  cases wrreq <;> cases f.full <;> simp only [Bool.toNat_false, Bool.toNat_true, Bool.not_false,
    Bool.not_true, Bool.and_true, Bool.and_false] <;> omega

theorem FifoFull.toNat_usedw {f : FifoFull} (h : f.words.length < 64) :
    f.usedw.toNat = f.words.length := by
  rw [usedw, BitVec.toNat_setWidth, BitVec.toNat_ofNat, Nat.mod_eq_of_lt h]
  exact Nat.mod_eq_of_lt (by omega)

/-- With credit, the words in the FIFO and those the counter counts are at most 55. -/
theorem Qsys.room_of_credit {s : Qsys} (h : s.credit = true) :
    s.aesFifo.fifoIn.words.length + s.rFifoGuessStored.toNat ≤ 55 := by
  simp only [credit, Bool.and_eq_true, Bool.not_eq_true', decide_eq_true_eq] at h
  obtain ⟨hsum, halmost⟩ := h
  have hlen : s.aesFifo.fifoIn.words.length < 56 :=
    not_le.mp (of_decide_eq_false halmost)
  rw [FifoFull.toNat_usedw (by omega)] at hsum
  omega

/-! ### The counter -/

theorem Qsys.nextGuess_eq {s : Qsys} (hreset : s.resetBit = false) {valid : Bool}
    (hlow : valid = true → 0 < s.rFifoGuessStored.toNat + s.rm.rAddStored.toNat)
    (hhigh : s.rFifoGuessStored.toNat < 255) :
    (s.nextGuess valid).toNat + valid.toNat = s.rFifoGuessStored.toNat + s.rm.rAddStored.toNat := by
  cases hadd : s.rm.rAddStored <;> cases valid
  · simp [nextGuess, hreset, hadd]
  · have hpos : 0 < s.rFifoGuessStored.toNat := by simpa [hadd] using hlow rfl
    have hone : (1 : BitVec 8) ≤ s.rFifoGuessStored := by
      rw [BitVec.le_def]
      exact hpos
    simp only [nextGuess, hreset, hadd, Bool.false_and, Bool.false_eq_true, if_false, if_true,
      BitVec.toNat_sub_of_le hone, Bool.toNat_true, Bool.toNat_false]
    show s.rFifoGuessStored.toNat - 1 + 1 = _
    omega
  · simp only [nextGuess, hreset, hadd, Bool.and_false, Bool.false_eq_true, if_false, if_true,
      Bool.toNat_true, Bool.toNat_false]
    rw [toNat_add_one rfl (by omega)]
  · simp [nextGuess, hreset, hadd]

/-! ### The master -/

/-- `oRM_read` is up in `STEP_2`, and `r_add_stored` in the first cycle of it. -/
structure ReadMaster.Paired (m : ReadMaster) : Prop where
  read : m.oRMRead = decide (m.rStateDMARM = .STEP_2)
  added : m.rAddStored = true → m.rStateDMARM = .STEP_2

/-- A request is raised with credit only, and taken down when the bus has accepted it. -/
theorem ReadMaster.Paired.next {m : ReadMaster} (h : m.Paired) (START : Bool)
    (startAddr LENGTH : Word) (credit wait : Bool) :
    let m' := m.next false START startAddr LENGTH credit wait
    m'.Paired ∧ m'.oRMRead.toNat + (m.oRMRead && !wait).toNat = m.oRMRead.toNat + m'.rAddStored.toNat ∧
      (m'.rAddStored = true → credit = true ∧ m.oRMRead = false ∧ m.rAddStored = false) := by
  obtain ⟨state, read, addr, last, done, add⟩ := m
  obtain ⟨hread, hadd⟩ := h
  dsimp only at hread hadd
  cases state with
  | IDLE =>
    obtain rfl : read = false := hread
    obtain rfl : add = false := by simpa using hadd
    cases START <;> exact ⟨⟨rfl, by simp [ReadMaster.next]⟩, rfl, by simp [ReadMaster.next]⟩
  | STEP_1 =>
    obtain rfl : read = false := hread
    obtain rfl : add = false := by simpa using hadd
    cases credit
    · exact ⟨⟨rfl, by simp [ReadMaster.next]⟩, rfl, by simp [ReadMaster.next]⟩
    · exact ⟨⟨rfl, by simp [ReadMaster.next]⟩, rfl, fun _ => ⟨rfl, rfl, rfl⟩⟩
  | STEP_2 =>
    obtain rfl : read = true := hread
    cases wait <;> exact ⟨⟨rfl, by simp [ReadMaster.next]⟩, rfl, by simp [ReadMaster.next]⟩
  | STOP =>
    obtain rfl : read = false := hread
    obtain rfl : add = false := by simpa using hadd
    by_cases hdone : addr = last
    · simp only [ReadMaster.next, hdone, if_true, Bool.false_eq_true, if_false]
      exact ⟨⟨rfl, by simp⟩, rfl, by simp⟩
    · simp only [ReadMaster.next, hdone, Bool.false_eq_true, if_false]
      exact ⟨⟨rfl, by simp⟩, rfl, by simp⟩
  | STEP_3 | STEP_4 | STEP_5 =>
    obtain rfl : read = false := hread
    obtain rfl : add = false := by simpa using hadd
    exact ⟨⟨rfl, by simp [ReadMaster.next]⟩, rfl, by simp [ReadMaster.next]⟩

/-! ### The invariant -/

namespace System

/-- The counter, the FIFO and the bus agree. -/
structure Credited (s : System) : Prop where
  master : s.qsys.rm.Paired
  guess : s.qsys.rFifoGuessStored.toNat + s.qsys.rm.rAddStored.toNat =
    s.inflight.length + s.qsys.rm.oRMRead.toNat
  room : s.qsys.aesFifo.fifoIn.words.length + s.qsys.rWriteFifoIn.toNat + s.inflight.length +
    s.qsys.rm.oRMRead.toNat ≤ 57

theorem credited_init {s : System} (h : s.qsys.AfterReset) (hin : s.inflight = []) :
    s.Credited := by
  constructor
  · refine ⟨?_, fun hadd => ?_⟩
    · rw [h.oRMRead, h.rStateDMARM]
      rfl
    · rw [h.rAddStored] at hadd
      cases hadd
  · rw [h.rFifoGuessStored, h.rAddStored, h.oRMRead, hin]
    rfl
  · rw [h.aesFifo.fifoIn, h.rWriteFifoIn, h.oRMRead, hin]
    exact Nat.zero_le _

section
variable {s : System} {i : In}

theorem length_inflight_next (M : Word → Word) :
    (s.next M i).inflight.length + (s.rddatavalid i).toNat =
      s.inflight.length + (s.qsys.rm.oRMRead && !i.rmWait).toNat := by
  have hacc : (if s.qsys.rm.oRMRead && !i.rmWait then [s.qsys.rm.oRMRdaddr] else []).length =
      (s.qsys.rm.oRMRead && !i.rmWait).toNat := by
    cases s.qsys.rm.oRMRead && !i.rmWait <;> rfl
  simp only [next, List.length_append, hacc, rddatavalid]
  cases hin : s.inflight with
  | nil => cases i.answer <;> simp
  | cons a l =>
    cases i.answer
    · simp
    · simp
      omega

theorem Credited.guess_lt (h : s.Credited) : s.qsys.rFifoGuessStored.toNat < 255 := by
  have hguess := h.guess
  have hroom := h.room
  omega

/-- The counter does not wrap. -/
theorem Credited.nextGuess (h : s.Credited) (hreset : s.qsys.resetBit = false) (i : In) :
    (s.qsys.nextGuess (s.rddatavalid i)).toNat + (s.rddatavalid i).toNat =
      s.qsys.rFifoGuessStored.toNat + s.qsys.rm.rAddStored.toNat := by
  refine Qsys.nextGuess_eq hreset (fun hvalid => ?_) h.guess_lt
  have hne : s.inflight ≠ [] := by
    intro hnil
    simp [rddatavalid, hnil] at hvalid
  have hlen := List.length_pos_of_ne_nil hne
  have hguess := h.guess
  omega

end

theorem Credited.step {s : System} (h : s.Credited) (hreset : s.qsys.resetBit = false)
    (M : Word → Word) (i : In) : (s.next M i).Credited := by
  obtain ⟨hpair, hmoves, hraise⟩ := h.master.next s.qsys.startBit s.qsys.rmStartAddr s.qsys.length
    s.qsys.credit i.rmWait
  have hrm : (s.next M i).qsys.rm = s.qsys.rm.next false s.qsys.startBit s.qsys.rmStartAddr
      s.qsys.length s.qsys.credit i.rmWait := by
    rw [← hreset]
    rfl
  rw [← hrm] at hpair hmoves hraise
  have hcount := h.nextGuess hreset i
  have hinflight := length_inflight_next (s := s) (i := i) M
  have hfifo : (s.next M i).qsys.aesFifo.fifoIn.words.length ≤
      s.qsys.aesFifo.fifoIn.words.length + s.qsys.rWriteFifoIn.toNat := by
    show (s.qsys.aesFifo.fifoIn.next s.qsys.resetBit s.qsys.rWriteFifoIn s.qsys.rDataFifoIn
      s.qsys.aesFifo.readFifoIn).words.length ≤ _
    rw [hreset]
    exact FifoFull.length_next_le _ _ _ _
  have hguess := h.guess
  have hroom := h.room
  constructor
  · exact hpair
  · show (s.qsys.nextGuess (s.rddatavalid i)).toNat + _ = _
    omega
  · show (s.next M i).qsys.aesFifo.fifoIn.words.length + (s.rddatavalid i).toNat + _ + _ ≤ 57
    cases hadd : (s.next M i).qsys.rm.rAddStored
    · rw [hadd, Bool.toNat_false] at hmoves
      omega
    · -- the FIFO had room for the new request beside those under way
      obtain ⟨hcredit, hlow, hstored⟩ := hraise hadd
      have hcap := Qsys.room_of_credit hcredit
      have hwrite := Bool.toNat_le s.qsys.rWriteFifoIn
      rw [hadd, Bool.toNat_true] at hmoves
      rw [hlow, hstored] at hguess
      rw [hlow] at hmoves hinflight
      simp only [Bool.false_and, Bool.toNat_false] at hmoves hinflight hguess
      omega

theorem Reachable.credited {s : System} (h : Reachable (fun q => q.resetBit = false) s) :
    s.Credited ∧ s.qsys.resetBit = false := by
  induction h with
  | init hreset hin hlow => exact ⟨credited_init hreset hin, hlow⟩
  | step M i _ hlow ih => exact ⟨ih.1.step ih.2 M i, hlow⟩

/-- The credit counter is one cycle late, never wraps, and keeps room for every word under way. -/
theorem Reachable.input_credit {s : System} (h : Reachable (fun q => q.resetBit = false) s) :
    s.qsys.rFifoGuessStored.toNat + s.qsys.rm.rAddStored.toNat =
        s.inflight.length + s.qsys.rm.oRMRead.toNat ∧
      (∀ i, (s.qsys.nextGuess (s.rddatavalid i)).toNat + (s.rddatavalid i).toNat =
        s.qsys.rFifoGuessStored.toNat + s.qsys.rm.rAddStored.toNat) ∧
      s.qsys.aesFifo.fifoIn.words.length + s.inflight.length + s.qsys.rm.oRMRead.toNat +
        s.qsys.rWriteFifoIn.toNat ≤ 64 ∧
      (s.qsys.rWriteFifoIn = true → s.qsys.aesFifo.fifoIn.full = false) := by
  obtain ⟨hs, hreset⟩ := h.credited
  have hroom := hs.room
  refine ⟨hs.guess, hs.nextGuess hreset, by omega, ?_⟩
  intro hwrite
  rw [hwrite, Bool.toNat_true] at hroom
  refine decide_eq_false ?_
  show ¬ 64 ≤ s.qsys.aesFifo.fifoIn.words.length
  omega

/-- `LENGTH` 4, `START`, and two cycles: `oRM_read` has just come up. -/
def raised : System :=
  (((powerUp.next id (.write 12 4)).next id (.write 13 1)).next id .idle).next id .idle

theorem reachable_raised : Reachable (fun q => q.resetBit = false) raised :=
  .step id .idle (.step id .idle (.step id (.write 13 1) (.step id (.write 12 4)
    (.init powerUp_afterReset rfl (by decide)) (by decide)) (by decide)) (by decide)) (by decide)

theorem input_credit_raised :
    raised.qsys.rFifoGuessStored.toNat + raised.qsys.rm.rAddStored.toNat =
        raised.inflight.length + raised.qsys.rm.oRMRead.toNat ∧
      (∀ i, (raised.qsys.nextGuess (raised.rddatavalid i)).toNat + (raised.rddatavalid i).toNat =
        raised.qsys.rFifoGuessStored.toNat + raised.qsys.rm.rAddStored.toNat) ∧
      raised.qsys.aesFifo.fifoIn.words.length + raised.inflight.length +
        raised.qsys.rm.oRMRead.toNat + raised.qsys.rWriteFifoIn.toNat ≤ 64 ∧
      (raised.qsys.rWriteFifoIn = true → raised.qsys.aesFifo.fifoIn.full = false) :=
  reachable_raised.input_credit

/-- In the first cycle of a request the counter does not count it yet. -/
theorem guess_late :
    ¬ ∀ s, Reachable (fun q => q.resetBit = false) s →
      s.qsys.rFifoGuessStored.toNat = s.inflight.length + s.qsys.rm.oRMRead.toNat := by
  intro h
  exact absurd (h raised reachable_raised) (by decide)

end System

end SocCrypto.Aes

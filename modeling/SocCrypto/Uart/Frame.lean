import Mathlib.Data.List.Chain
import SocCrypto.Uart.Engine

/-!
# Characters on the line

`frame` is a character as the format lays it down: a start bit, the data bits, least significant
first, the parity bit if there is one, and the stop bits. The transmitter puts out these bits, one
for each state of a frame, and a receiver that is shown them goes through its states to the
character, with no error.
-/

namespace SocCrypto.Uart

namespace Format

/-- Seven data bits always come with a parity bit. -/
def parity (f : Format) : Bool := f.len || f.parEn

def dataBits (f : Format) : ℕ := if f.len then 7 else 8

def frame (f : Format) (w : BitVec 8) : List Bool :=
  false :: ((List.range f.dataBits).map w.getLsbD ++
    ((if f.parity then [TxSm.parBit f w] else []) ++
      ((if f.numStop then [true] else []) ++ [true])))

/-- The bits of a character that are sent. -/
def character (f : Format) (w : BitVec 8) : BitVec 8 :=
  if f.len then (w.setWidth 7).setWidth 8 else w

/-- Bits of a frame. -/
def size (f : Format) : ℕ :=
  1 + f.dataBits + (if f.parity then 1 else 0) + (if f.numStop then 2 else 1)

theorem length_frame (f : Format) (w : BitVec 8) : (f.frame w).length = f.size := by
  cases h : f.parity <;> cases h' : f.numStop <;> simp [frame, size, h, h'] <;> omega

theorem size_le (f : Format) : f.size ≤ 12 := by
  unfold size dataBits
  split <;> split <;> split <;> omega

theorem size_pos (f : Format) : 0 < f.size := by
  rw [size, Nat.add_assoc, Nat.add_assoc]
  omega

/-! ### States of the transmitter -/

/-- The states of a frame. -/
def txStates (f : Format) : List TxState :=
  [.pStartBit, .pShift0, .pShift1, .pShift2, .pShift3, .pShift4, .pShift5, .pShift6] ++
    ((if f.len then [] else [.pShift7]) ++ ((if f.parity then [.pParityBit] else []) ++
      ((if f.numStop then [.pStopBit2] else []) ++ [.pStopBit1])))

/-- The shift register with a character and its parity. -/
def loaded (f : Format) (w : BitVec 8) : BitVec 9 := BitVec.ofBool (TxSm.parBit f w) ++ w

theorem length_txStates (f : Format) : f.txStates.length = f.size := by
  obtain ⟨len, numStop, parEn, par⟩ := f
  cases len <;> cases numStop <;> cases parEn <;> rfl

theorem getElem_loaded (f : Format) (w : BitVec 8) {i : ℕ} (hi : i < 9) :
    (f.loaded w)[i] = if h : i < 8 then w[i] else TxSm.parBit f w := by
  unfold loaded
  rw [BitVec.getElem_append]
  by_cases h : i < 8
  · simp [h]
  · simp [h, show i - 8 = 0 by omega]

/-- The states put out the bits of the frame. -/
theorem frame_eq (f : Format) (w : BitVec 8) :
    f.frame w = f.txStates.map fun q => TxSm.nextTxD ⟨q, false, f.loaded w, false, 0, false⟩ := by
  obtain ⟨len, numStop, parEn, par⟩ := f
  cases len <;> cases numStop <;> cases parEn <;>
    simp [frame, txStates, parity, dataBits, TxSm.nextTxD, getElem_loaded, List.range_succ]

theorem txStates_bit (f : Format) (w : BitVec 8) {x : TxSm} {k : ℕ}
    (hstate : f.txStates[k]? = some x.txSM) (htsr : x.tsr = f.loaded w) :
    (f.frame w)[k]? = some x.nextTxD := by
  rw [frame_eq, List.getElem?_map, hstate, ← htsr]
  rfl

/-- Each state but the last is followed by the next one of the list. -/
theorem txStates_chain (f : Format) : f.txStates.IsChain fun q q' =>
    ∀ (x : TxSm) (tfEF ctsi : Bool), x.txSM = q → x.nextState f tfEF ctsi = q' := by
  obtain ⟨len, numStop, parEn, par⟩ := f
  cases len <;> cases numStop <;> cases parEn <;>
    simp +contextual [txStates, parity, TxSm.nextState]

theorem txStates_next (f : Format) {x : TxSm} {k : ℕ} (hstate : f.txStates[k]? = some x.txSM)
    (hk : k + 1 < f.size) (tfEF ctsi : Bool) :
    f.txStates[k + 1]? = some (x.nextState f tfEF ctsi) := by
  rw [← length_txStates] at hk
  obtain ⟨_, hget⟩ := List.getElem?_eq_some_iff.mp hstate
  rw [List.getElem?_eq_getElem hk,
    List.isChain_iff_getElem.mp f.txStates_chain k hk x tfEF ctsi hget.symm]

theorem txStates_last (f : Format) {x : TxSm} {k : ℕ} (hstate : f.txStates[k]? = some x.txSM)
    (hk : k + 1 = f.size) : x.txSM = .pStopBit1 := by
  have hlast : f.txStates.getLast? = some .pStopBit1 := by
    rw [txStates, ← List.append_assoc, ← List.append_assoc, ← List.append_assoc]
    exact List.getLast?_concat
  rw [List.getLast?_eq_getElem?, length_txStates, ← hk, Nat.add_sub_cancel, hstate] at hlast
  exact Option.some.inj hlast

/-! ### States of the receiver -/

/-- The first `i` data bits. -/
def gathered (f : Format) (w : BitVec 8) (i : ℕ) : BitVec 8 :=
  ((f.character w).setWidth i).setWidth 8

/-- The states of a frame, with the shift register before the bit is sampled, and the bit. -/
def rxSteps (f : Format) (w r : BitVec 8) : List ((RxState × BitVec 8) × Bool) :=
  [((.pChkStart, r), false), ((.pShift0, f.gathered w 0), w.getLsbD 0),
    ((.pShift1, f.gathered w 1), w.getLsbD 1), ((.pShift2, f.gathered w 2), w.getLsbD 2),
    ((.pShift3, f.gathered w 3), w.getLsbD 3), ((.pShift4, f.gathered w 4), w.getLsbD 4),
    ((.pShift5, f.gathered w 5), w.getLsbD 5), ((.pShift6, f.gathered w 6), w.getLsbD 6)] ++
    ((if f.len then [] else [((.pShift7, f.gathered w 7), w.getLsbD 7)]) ++
      ((if f.parity then [((.pChkParity, f.character w), TxSm.parBit f w)] else []) ++
        ((if f.numStop then [((.pChkStop2, f.character w), true)] else []) ++
          [((.pChkStop1, f.character w), true)])))

/-- The bits sampled are those of the frame. -/
theorem frame_eq_rxSteps (f : Format) (w r : BitVec 8) : f.frame w = (f.rxSteps w r).map Prod.snd := by
  obtain ⟨len, numStop, parEn, par⟩ := f
  cases len <;> cases numStop <;> cases parEn <;>
    simp [frame, rxSteps, parity, dataBits, List.range_succ]

theorem getLsbD_setBit (r : BitVec 8) {i : ℕ} (hi : i < 8) (b : Bool) (j : ℕ) :
    (RxSm.setBit r i b).getLsbD j = if j = i then b else r.getLsbD j := by
  unfold RxSm.setBit
  by_cases hj : j < 8
  · by_cases hij : j = i
    · cases b <;> simp [hij, hi]
    · cases b <;> simp [hij, hj]
  · have hr : r.getLsbD j = false := BitVec.getLsbD_of_ge r j (by omega)
    rw [if_neg (show j ≠ i by omega), hr]
    exact BitVec.getLsbD_of_ge _ j (show 8 ≤ j by omega)

theorem getLsbD_character (f : Format) (w : BitVec 8) (j : ℕ) :
    (f.character w).getLsbD j = (decide (j < f.dataBits) && w.getLsbD j) := by
  unfold character dataBits
  cases f.len
  · by_cases hj : j < 8
    · simp [hj]
    · simp [hj, BitVec.getLsbD_of_ge w j (by omega)]
  · by_cases hj : j < 7
    · simp [hj, show j < 8 by omega]
    · simp [hj]

theorem getLsbD_gathered (f : Format) (w : BitVec 8) (i j : ℕ) :
    (f.gathered w i).getLsbD j = (decide (j < i) && (decide (j < f.dataBits) && w.getLsbD j)) := by
  have hle : f.dataBits ≤ 8 := by
    unfold dataBits
    split <;> omega
  unfold gathered
  rw [BitVec.getLsbD_setWidth, BitVec.getLsbD_setWidth, getLsbD_character]
  by_cases hj : j < f.dataBits
  · simp [hj, show j < 8 by omega]
  · simp [hj]

theorem gathered_succ (f : Format) (w : BitVec 8) {i : ℕ} (hi : i < f.dataBits) :
    RxSm.setBit (f.gathered w i) i (w.getLsbD i) = f.gathered w (i + 1) := by
  have hle : f.dataBits ≤ 8 := by
    unfold dataBits
    split <;> omega
  apply BitVec.eq_of_getLsbD_eq
  intro j hj
  rw [getLsbD_setBit _ (by omega), getLsbD_gathered, getLsbD_gathered]
  by_cases hij : j = i
  · simp [hij, hi]
  · simp [hij, show (j < i + 1) = (j < i) by simp; omega]

theorem gathered_dataBits (f : Format) (w : BitVec 8) : f.gathered w f.dataBits = f.character w := by
  apply BitVec.eq_of_getLsbD_eq
  intro j hj
  rw [getLsbD_gathered, getLsbD_character, ← Bool.and_assoc, Bool.and_self]

theorem reduceXor_setWidth (x : BitVec 7) : reduceXor (x.setWidth 8) = reduceXor x := by
  simp [reduceXor, List.range_succ]

theorem parErr_eq_false (f : Format) (w : BitVec 8) {x : RxSm} (hrsr : x.rsr = f.character w) :
    x.parErr f.par (TxSm.parBit f w) = false := by
  have hparity : reduceXor x.rsr = if f.len then reduceXor (w.setWidth 7) else reduceXor w := by
    rw [hrsr, character]
    split
    · exact reduceXor_setWidth _
    · rfl
  unfold RxSm.parErr TxSm.parBit
  rw [hparity]
  generalize (if f.len then reduceXor (w.setWidth 7) else reduceXor w) = b
  have hcases : f.par = 0 ∨ f.par = 1 ∨ f.par = 2 ∨ f.par = 3 := by
    generalize f.par = par
    revert par
    decide
  rcases hcases with h | h | h | h <;> rw [h] <;> cases b <;> simp

/-- Every sample but the last one leads to the next state and register of the list. -/
theorem rxSteps_chain (f : Format) (w r : BitVec 8) : (f.rxSteps w r).IsChain fun a a' =>
    ∀ x : RxSm, x.rxSM = a.1.1 → x.rsr = a.1.2 →
      (x.nextState f a.2, x.nextRSR a.2) = a'.1 := by
  have hstep : ∀ i (hi : i < 8), i < f.dataBits →
      RxSm.setBit (f.gathered w i) i w[i] = f.gathered w (i + 1) := by
    intro i hi hdata
    rw [← f.gathered_succ w hdata, BitVec.getLsbD_eq_getElem hi]
  have hzero : (0#8 : BitVec 8) = f.gathered w 0 := by
    simp [gathered, BitVec.eq_nil ((f.character w).setWidth 0)]
  have hfull := f.gathered_dataBits w
  have hpar := fun (x : RxSm) => f.parErr_eq_false w (x := x)
  obtain ⟨len, numStop, parEn, par⟩ := f
  cases len <;> cases numStop <;> cases parEn <;> simp [dataBits] at hfull <;>
    simp +contextual [rxSteps, parity, RxSm.nextState, RxSm.nextRSR, hstep, hfull, hpar,
      dataBits] <;>
    intro _ _ _ <;> exact hzero

theorem length_rxSteps (f : Format) (w r : BitVec 8) : (f.rxSteps w r).length = f.size := by
  rw [← f.length_frame w, f.frame_eq_rxSteps w r, List.length_map]

theorem rxSteps_waits (f : Format) (w r : BitVec 8) : ∀ a ∈ f.rxSteps w r,
    a.1.1 ≠ .pWaitMark ∧ a.1.1 ≠ .pChkMark ∧ a.1.1 ≠ .pIdle ∧ a.1.1 ≠ .pRcvError := by
  obtain ⟨len, numStop, parEn, par⟩ := f
  cases len <;> cases numStop <;> cases parEn <;> simp [rxSteps, parity]

theorem rxSteps_last (f : Format) (w r : BitVec 8) :
    (f.rxSteps w r)[f.size - 1]? = some ((.pChkStop1, f.character w), true) := by
  rw [← f.length_rxSteps w r, ← List.getLast?_eq_getElem?, rxSteps, ← List.append_assoc,
    ← List.append_assoc, ← List.append_assoc]
  exact List.getLast?_concat

/-- The state of the last stop bit is that of the last sample only. -/
theorem rxSteps_stop (f : Format) (w r : BitVec 8) {k : ℕ} (hk : k + 1 < f.size)
    {a : (RxState × BitVec 8) × Bool} (ha : (f.rxSteps w r)[k]? = some a) :
    a.1.1 ≠ .pChkStop1 := by
  intro hstop
  rw [← f.length_rxSteps w r] at hk
  obtain ⟨hlt, rfl⟩ := List.getElem?_eq_some_iff.mp ha
  have hchain := List.isChain_iff_getElem.mp (f.rxSteps_chain w r) k hk
    ⟨(f.rxSteps w r)[k].1.1, 0, (f.rxSteps w r)[k].1.2, 0, false⟩ rfl rfl
  obtain ⟨-, -, hidle, herror⟩ := f.rxSteps_waits w r _ (List.getElem_mem hk)
  rw [← hchain] at hidle herror
  simp only [RxSm.nextState, hstop] at hidle herror
  cases hb : (f.rxSteps w r)[k].2 <;> simp [hb] at hidle herror

/-- A data bit is sampled as it is. -/
theorem frame_data (f : Format) (w : BitVec 8) {i : ℕ} (hi : i < f.dataBits) :
    (f.frame w)[i + 1]? = some (w.getLsbD i) := by
  have hlen : i < ((List.range f.dataBits).map w.getLsbD).length := by simpa using hi
  rw [frame, List.getElem?_cons_succ, List.getElem?_append_left hlen, List.getElem?_map,
    List.getElem?_range hi]
  rfl

/-- A wrong parity or stop bit is an error. -/
theorem rxSteps_refused (f : Format) (w r : BitVec 8) :
    ∀ a ∈ (f.rxSteps w r).drop (f.dataBits + 1), ∀ x : RxSm, x.rxSM = a.1.1 → x.rsr = a.1.2 →
      x.nextState f (!a.2) = .pRcvError ∧ x.nextRSR (!a.2) = f.character w := by
  have hpar : ∀ x : RxSm, x.rxSM = .pChkParity → x.rsr = f.character w →
      x.parErr f.par (!TxSm.parBit f w) = true := by
    intro x hstate hrsr
    have hright := f.parErr_eq_false w hrsr
    have hcases : f.par = 0 ∨ f.par = 1 ∨ f.par = 2 ∨ f.par = 3 := by
      generalize f.par = par
      revert par
      decide
    unfold RxSm.parErr at hright ⊢
    rcases hcases with h | h | h | h <;> rw [h] at hright ⊢ <;> simpa [hstate] using hright
  obtain ⟨len, numStop, parEn, par⟩ := f
  cases len <;> cases numStop <;> cases parEn <;>
    simp +contextual [rxSteps, parity, dataBits, RxSm.nextState, RxSm.nextRSR, hpar]

end Format

end SocCrypto.Uart

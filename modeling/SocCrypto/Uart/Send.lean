import Mathlib.Data.Nat.Count
import SocCrypto.Uart.Listen

/-!
# The transmitter as a source of frames

Bits of the transmitter are `16 P` cycles long and counted from the enable that ends the idle
state, so its frames follow each other on one grid. `framed` is the list of characters it has begun
a frame for, `taken` that of the characters it has read from the FIFO; the line carries the first
list.
-/

namespace SocCrypto.Uart

/-- What the transmitter reads beside the clock enable. -/
structure Feed where
  tfEF : Bool
  thr : BitVec 8
  ctsi : Bool

namespace Format

theorem setWidth_loaded (f : Format) (w : BitVec 8) : (f.loaded w).setWidth 8 = w := by
  apply BitVec.eq_of_getLsbD_eq
  intro j hj
  rw [BitVec.getLsbD_setWidth, BitVec.getLsbD_eq_getElem (show j < 9 by omega), getElem_loaded,
    dif_pos hj, decide_eq_true hj, Bool.true_and, BitVec.getLsbD_eq_getElem hj]

theorem txStates_busy (f : Format) : ∀ q ∈ f.txStates,
    q ≠ .pIdle ∧ q ≠ .pStartDelay ∧ q ≠ .pStopDelay := by
  obtain ⟨len, numStop, parEn, par⟩ := f
  cases len <;> cases numStop <;> cases parEn <;> simp [txStates, parity]

/-- Where a state of a frame goes does not depend on the FIFO, but for the last one. -/
theorem txStates_before (f : Format) {x : TxSm} {k : ℕ} (hstate : f.txStates[k]? = some x.txSM)
    (hk : k + 1 < f.size) : x.txSM ≠ .pStopBit1 := by
  intro hstop
  have hempty := f.txStates_next hstate hk true true
  have hfull := f.txStates_next hstate hk false true
  rw [TxSm.nextState, hstop] at hempty hfull
  have hsame := hempty.symm.trans hfull
  simp at hsame

end Format

namespace TxSm

variable {P φ : ℕ} {f : Format} {i : ℕ → Feed} {y : ℕ → TxSm}

/-- The transmitter at work. -/
def Runs (P φ : ℕ) (f : Format) (i : ℕ → Feed) (y : ℕ → TxSm) : Prop :=
  ∀ t, y (t + 1) = (y t).next false (enable P φ t) f (i t).tfEF (i t).thr (i t).ctsi

/-- The characters a frame has been begun for. -/
def framed (y : ℕ → TxSm) : ℕ → List (BitVec 8)
  | 0 => []
  | t + 1 => framed y t ++
      if (y t).txSM ≠ .pStartBit ∧ (y (t + 1)).txSM = .pStartBit then [(y (t + 1)).tsr.setWidth 8]
      else []

/-- The characters read from the FIFO. -/
def taken (ce16x : ℕ → Bool) (i : ℕ → Feed) (y : ℕ → TxSm) : ℕ → List (BitVec 8)
  | 0 => []
  | t + 1 => taken ce16x i y t ++
      if (y t).ldTSR (ce16x t) (i t).tfEF (i t).ctsi then [(i t).thr] else []

theorem taken_prefix {c : ℕ → Bool} {t u : ℕ} (hle : t ≤ u) :
    taken c i y t <+: taken c i y u := by
  induction u, hle using Nat.le_induction with
  | base => exact List.prefix_refl _
  | succ u _ ih => exact ih.trans (List.prefix_append _ _)

/-! ### The bit counter -/

/-- In cycle `t` of a stretch that left the idle state in cycle `τ`. -/
structure Paced (P φ : ℕ) (x : TxSm) (τ t : ℕ) : Prop where
  phase : P ∣ τ + φ
  lt : τ < t
  bit : x.bit.toNat = (t - (τ + 1)) / P % 16
  ceBCnt : x.ceBCnt = decide (τ + 1 < t ∧ 16 * P ∣ t - (τ + 1))

theorem Paced.start {x : TxSm} {τ : ℕ} (hτ : P ∣ τ + φ) (hidle : x.txSM = .pIdle) (b : Feed) :
    Paced P φ (x.next false true f b.tfEF b.thr b.ctsi) τ (τ + 1) := by
  have htxIdle : x.txIdle = true := by simp [txIdle, hidle]
  refine ⟨hτ, by omega, ?_, ?_⟩
  · simp [TxSm.next, htxIdle]
  · simp [TxSm.next, htxIdle]

/-- Sixteen periods are over when the counter is at its last value and a period ends. -/
theorem sixteenth {P u : ℕ} (hP : 0 < P) : (P ∣ u + 1 ∧ u / P % 16 = 15) ↔ 16 * P ∣ u + 1 := by
  have hlast : ∀ q, u + 1 = P * q → u / P + 1 = q := by
    intro q hq
    have hdvd : P ∣ u + 1 := ⟨q, hq⟩
    have hdiv : (u + 1) / P = u / P + 1 := by rw [Nat.succ_div, if_pos hdvd]
    rw [← hdiv, hq, Nat.mul_div_cancel_left q hP]
  constructor
  · rintro ⟨⟨q, hq⟩, h15⟩
    have hone := hlast q hq
    obtain ⟨c, hc⟩ : 16 ∣ q := by omega
    exact ⟨c, by rw [hq, hc]; ring⟩
  · rintro ⟨c, hc⟩
    have hone := hlast (16 * c) (by rw [hc]; ring)
    exact ⟨⟨16 * c, by rw [hc]; ring⟩, by omega⟩

theorem Paced.next {x : TxSm} {τ t : ℕ} (h : Paced P φ x τ t) (hP : 0 < P)
    (hbusy : x.txIdle = false) (b : Feed) :
    Paced P φ (x.next false (enable P φ t) f b.tfEF b.thr b.ctsi) τ (t + 1) := by
  obtain ⟨u, rfl⟩ : ∃ u, t = τ + 1 + u := ⟨t - (τ + 1), by have := h.lt; omega⟩
  have hbit := h.bit
  have htick : enable P φ (τ + 1 + u) = decide (P ∣ u + 1) := by
    rw [show τ + 1 + u = τ + (u + 1) by omega]
    exact enable_add h.phase (u + 1)
  rw [show τ + 1 + u - (τ + 1) = u by omega] at hbit
  have hdiv : (u + 1) / P = u / P + if P ∣ u + 1 then 1 else 0 := Nat.succ_div
  refine ⟨h.phase, by omega, ?_, ?_⟩
  · rw [show τ + 1 + u + 1 - (τ + 1) = u + 1 by omega, hdiv]
    simp only [TxSm.next, hbusy, htick, Bool.false_eq_true, if_false, decide_eq_true_eq]
    by_cases hdvd : P ∣ u + 1
    · rw [if_pos hdvd, if_pos hdvd, BitVec.toNat_add, hbit]
      show (u / P % 16 + 1) % 16 = _
      omega
    · rw [if_neg hdvd, if_neg hdvd, hbit, Nat.add_zero]
  · rw [show τ + 1 + u + 1 - (τ + 1) = u + 1 by omega]
    have h15 : (x.bit == 15) = decide (u / P % 16 = 15) := by
      rw [← hbit, Bool.eq_iff_iff, beq_iff_eq, decide_eq_true_iff, ← BitVec.toNat_inj]
      rfl
    simp only [TxSm.next, hbusy, htick, h15, Bool.false_eq_true, if_false]
    rw [← Bool.decide_and]
    refine decide_eq_decide.mpr ((sixteenth hP).trans ?_)
    constructor
    · intro hdvd
      exact ⟨by omega, hdvd⟩
    · exact And.right

/-! ### One cycle -/

theorem nextState_eq_start {x : TxSm} {tfEF ctsi : Bool}
    (h : x.nextState f tfEF ctsi = .pStartBit) :
    tfEF = false ∧ (x.txSM = .pStopBit1 ∨
      ctsi = true ∧ (x.txSM = .pStartDelay ∨ x.txSM = .pStopDelay)) := by
  unfold nextState at h
  generalize x.txSM = q at h ⊢
  cases q <;> grind

theorem next_hold {x : TxSm} {ce16x : Bool} (hbusy : x.txIdle = false)
    (hce : x.ce ce16x = false) (b : Feed) :
    (x.next false ce16x f b.tfEF b.thr b.ctsi).txSM = x.txSM ∧
      (x.next false ce16x f b.tfEF b.thr b.ctsi).tsr = x.tsr := by
  constructor <;> simp [TxSm.next, ldTSR, hbusy, hce]

theorem next_state {x : TxSm} {ce16x : Bool} (hce : x.ce ce16x = true) (b : Feed) :
    (x.next false ce16x f b.tfEF b.thr b.ctsi).txSM = x.nextState f b.tfEF b.ctsi := by
  simp [TxSm.next, hce]

/-- The shift register changes before a start bit only. -/
theorem next_tsr {x : TxSm} {ce16x : Bool} (hbusy : x.txIdle = false) (b : Feed) :
    (x.next false ce16x f b.tfEF b.thr b.ctsi).tsr =
      if x.ldTSR ce16x b.tfEF b.ctsi then f.loaded b.thr else x.tsr := by
  simp only [TxSm.next, hbusy, Bool.false_eq_true, if_false]
  rfl

/-- Cycle `t` of the frame of `w` that the edge of cycle `σ` began. -/
structure InFrame (P φ : ℕ) (f : Format) (line : ℕ → Bool) (x : TxSm) (t τ σ : ℕ) (w : BitVec 8) :
    Prop where
  pace : Paced P φ x τ t
  grid : τ + 1 ≤ σ ∧ 16 * P ∣ σ - (τ + 1)
  lt : σ < t
  le : t ≤ σ + 16 * P * f.size
  state : f.txStates[(t - (σ + 1)) / (16 * P)]? = some x.txSM
  tsr : x.tsr = f.loaded w
  bits : ∀ d, σ + 2 + d ≤ t → (f.frame w)[d / (16 * P)]? = some (line (σ + 2 + d))

/-- The state machine, the line and the characters begun in cycle `t`. -/
inductive Sends (P φ : ℕ) (f : Format) (line : ℕ → Bool) (x : TxSm) (t : ℕ) :
    List (BitVec 8) → Prop
  | idle {ws : List (BitVec 8)} (hstate : x.txSM = .pIdle)
      (hline : Carries f (Even (16 * P)) line 0 ws (t + 1)) : Sends P φ f line x t ws
  | delay {ws : List (BitVec 8)} {τ : ℕ} (hpace : Paced P φ x τ t)
      (hstate : x.txSM = .pStartDelay ∨ x.txSM = .pStopDelay)
      (hline : Carries f (Even (16 * P)) line 0 ws (t + 1)) : Sends P φ f line x t ws
  | frame {ws : List (BitVec 8)} {τ σ : ℕ} {w : BitVec 8} (h : InFrame P φ f line x t τ σ w)
      (hline : Carries f (Even (16 * P)) line 0 ws (σ + 2)) : Sends P φ f line x t (ws ++ [w])

/-- What a cycle adds to `framed`. -/
def begun (x x' : TxSm) : List (BitVec 8) :=
  if x.txSM ≠ .pStartBit ∧ x'.txSM = .pStartBit then [x'.tsr.setWidth 8] else []

theorem Sends.begin {line : ℕ → Bool} {x x' : TxSm} {τ t : ℕ} {ws : List (BitVec 8)}
    (hP : 0 < P) (hpace : Paced P φ x' τ (t + 1)) (hgrid : τ + 1 ≤ t ∧ 16 * P ∣ t - (τ + 1))
    (hold : x.txSM ≠ .pStartBit) (hstate : x'.txSM = .pStartBit)
    (htsr : ∃ w, x'.tsr = f.loaded w) (hline : Carries f (Even (16 * P)) line 0 ws (t + 2)) :
    Sends P φ f line x' (t + 1) (ws ++ begun x x') := by
  obtain ⟨w, hw⟩ := htsr
  have hpos : 0 < 16 * P * f.size := Nat.mul_pos (by omega) f.size_pos
  have hbegun : begun x x' = [w] := by
    rw [begun, if_pos ⟨hold, hstate⟩, hw, f.setWidth_loaded]
  rw [hbegun]
  refine Sends.frame ⟨hpace, hgrid, by omega, by omega, ?_, hw, fun d hd => ?_⟩ hline
  · rw [Nat.sub_self, Nat.zero_div, hstate]
    rfl
  · omega

theorem begun_eq_nil {x x' : TxSm} (h : x'.txSM ≠ .pStartBit) : begun x x' = [] :=
  if_neg fun hboth => h hboth.2

theorem Sends.next_idle {line : ℕ → Bool} {x : TxSm} {t : ℕ} {ws : List (BitVec 8)} (b : Feed)
    (hnext : line (t + 1) = x.nextTxD) (hstate : x.txSM = .pIdle)
    (hline : Carries f (Even (16 * P)) line 0 ws (t + 1)) :
    Sends P φ f line (x.next false (enable P φ t) f b.tfEF b.thr b.ctsi) (t + 1)
      (ws ++ begun x (x.next false (enable P φ t) f b.tfEF b.thr b.ctsi)) := by
  have hmark : Carries f (Even (16 * P)) line 0 ws (t + 2) :=
    hline.mark (by rw [hnext, nextTxD, hstate])
  by_cases htick : P ∣ t + φ
  · have hen : enable P φ t = true := decide_eq_true htick
    have hstate' := next_state (f := f) (show x.ce true = true by simp [ce, txIdle, hstate]) b
    have hpace := Paced.start (f := f) htick hstate b
    rw [hen]
    rw [nextState, hstate] at hstate'
    cases hempty : b.tfEF with
    | true =>
      rw [hempty] at hstate'
      rw [begun_eq_nil (by rw [hstate']; simp), List.append_nil]
      exact Sends.idle hstate' hmark
    | false =>
      rw [hempty] at hstate' hpace
      rw [begun_eq_nil (by rw [hstate']; simp), List.append_nil]
      exact Sends.delay hpace (Or.inl hstate') hmark
  · have hstate' : (x.next false (enable P φ t) f b.tfEF b.thr b.ctsi).txSM = .pIdle := by
      simp [TxSm.next, ce, txIdle, hstate, enable, htick]
    rw [begun_eq_nil (by rw [hstate']; simp), List.append_nil]
    exact Sends.idle hstate' hmark

theorem Sends.next_delay {line : ℕ → Bool} {x : TxSm} {τ t : ℕ} {ws : List (BitVec 8)}
    (hP : 0 < P) (b : Feed) (hnext : line (t + 1) = x.nextTxD) (hpace : Paced P φ x τ t)
    (hstate : x.txSM = .pStartDelay ∨ x.txSM = .pStopDelay)
    (hline : Carries f (Even (16 * P)) line 0 ws (t + 1)) :
    Sends P φ f line (x.next false (enable P φ t) f b.tfEF b.thr b.ctsi) (t + 1)
      (ws ++ begun x (x.next false (enable P φ t) f b.tfEF b.thr b.ctsi)) := by
  have hmark : Carries f (Even (16 * P)) line 0 ws (t + 2) := by
    refine hline.mark ?_
    rcases hstate with hstate | hstate <;> rw [hnext, nextTxD, hstate]
  have hbusy : x.txIdle = false := by
    rcases hstate with hstate | hstate <;> simp [txIdle, hstate]
  have hpace' := hpace.next (f := f) hP hbusy b
  have hce : x.ce (enable P φ t) = x.ceBCnt := by simp [ce, hbusy]
  have hold : x.txSM ≠ .pStartBit := by
    rcases hstate with hstate | hstate <;> rw [hstate] <;> simp
  rw [hpace.ceBCnt] at hce
  by_cases hgrid : τ + 1 < t ∧ 16 * P ∣ t - (τ + 1)
  · rw [decide_eq_true hgrid] at hce
    have hstate' := next_state (f := f) hce b
    by_cases hstart : x.nextState f b.tfEF b.ctsi = .pStartBit
    · -- the FIFO is not empty and the line is free, so the register is loaded
      have hload : x.ldTSR (enable P φ t) b.tfEF b.ctsi = true := by
        obtain ⟨hempty, hfrom⟩ := nextState_eq_start hstart
        rcases hstate with hstate | hstate <;> rw [hstate] at hfrom <;>
          simp at hfrom <;> simp [ldTSR, hce, hempty, hfrom, hstate]
      refine Sends.begin hP hpace' ⟨hgrid.1.le, hgrid.2⟩ hold (hstate'.trans hstart)
        ⟨b.thr, ?_⟩ hmark
      rw [next_tsr hbusy, hload, if_pos rfl]
    · rw [begun_eq_nil (by rw [hstate']; exact hstart), List.append_nil]
      have hwhere : x.nextState f b.tfEF b.ctsi = .pIdle ∨
          x.nextState f b.tfEF b.ctsi = .pStartDelay := by
        revert hstart
        rcases hstate with hstate | hstate <;> rw [nextState, hstate] <;>
          cases b.tfEF <;> cases b.ctsi <;> simp
      rcases hwhere with hwhere | hwhere
      · exact Sends.idle (hstate'.trans hwhere) hmark
      · exact Sends.delay hpace' (Or.inl (hstate'.trans hwhere)) hmark
  · rw [decide_eq_false hgrid] at hce
    obtain ⟨hstate', -⟩ := next_hold (f := f) hbusy hce b
    rw [begun_eq_nil (by rwa [hstate']), List.append_nil]
    exact Sends.delay hpace' (by rwa [hstate']) hmark

theorem InFrame.busy {line : ℕ → Bool} {x : TxSm} {t τ σ : ℕ} {w : BitVec 8}
    (h : InFrame P φ f line x t τ σ w) : x.txIdle = false := by
  have hne := (f.txStates_busy _ (List.mem_of_getElem? h.state)).1
  simp [txIdle, hne]

theorem InFrame.bits_next {line : ℕ → Bool} {x : TxSm} {t τ σ : ℕ} {w : BitVec 8}
    (h : InFrame P φ f line x t τ σ w) (hnext : line (t + 1) = x.nextTxD) (d : ℕ)
    (hd : σ + 2 + d ≤ t + 1) : (f.frame w)[d / (16 * P)]? = some (line (σ + 2 + d)) := by
  rcases Nat.lt_or_ge (σ + 2 + d) (t + 1) with hbefore | hnow
  · exact h.bits d (by omega)
  · rw [show σ + 2 + d = t + 1 by omega, hnext, show d = t - (σ + 1) by omega]
    exact f.txStates_bit w h.state h.tsr

theorem InFrame.ce_eq {line : ℕ → Bool} {x : TxSm} {t τ σ : ℕ} {w : BitVec 8}
    (h : InFrame P φ f line x t τ σ w) (ce16x : Bool) :
    x.ce ce16x = decide (16 * P ∣ t - (σ + 1) + 1) := by
  have hlt := h.lt
  have hgrid := h.grid
  rw [ce, h.busy, h.pace.ceBCnt]
  simp only [Bool.false_eq_true, if_false]
  refine decide_eq_decide.mpr ?_
  rw [show t - (τ + 1) = σ - (τ + 1) + (t - (σ + 1) + 1) by omega, Nat.dvd_add_right hgrid.2]
  exact ⟨And.right, fun hdvd => ⟨by omega, hdvd⟩⟩

/-- Before its last cycle a frame goes on. -/
theorem InFrame.next {line : ℕ → Bool} {x : TxSm} {t τ σ : ℕ} {w : BitVec 8}
    (h : InFrame P φ f line x t τ σ w) (hP : 0 < P) (b : Feed) (hnext : line (t + 1) = x.nextTxD)
    (hmore : t < σ + 16 * P * f.size) :
    InFrame P φ f line (x.next false (enable P φ t) f b.tfEF b.thr b.ctsi) (t + 1) τ σ w ∧
      begun x (x.next false (enable P φ t) f b.tfEF b.thr b.ctsi) = [] := by
  have hlt := h.lt
  have hpace := h.pace.next (f := f) hP h.busy b
  have hce := h.ce_eq (enable P φ t)
  have hslot : t + 1 - (σ + 1) = t - (σ + 1) + 1 := by omega
  by_cases hdvd : 16 * P ∣ t - (σ + 1) + 1
  · have hdiv := Nat.succ_div_of_dvd hdvd
    rw [decide_eq_true hdvd] at hce
    have hstate := next_state (f := f) hce b
    have hk : (t - (σ + 1)) / (16 * P) + 1 < f.size := by
      rw [← hdiv, Nat.div_lt_iff_lt_mul (by omega), Nat.mul_comm]
      omega
    obtain ⟨-, hstartDelay, hstopDelay⟩ := f.txStates_busy _ (List.mem_of_getElem? h.state)
    have hstop := f.txStates_before h.state hk
    have hload : x.ldTSR (enable P φ t) b.tfEF b.ctsi = false := by
      simp [ldTSR, hstartDelay, hstopDelay, hstop]
    have hne : x.nextState f b.tfEF b.ctsi ≠ .pStartBit := by
      intro hstart
      rcases (nextState_eq_start hstart).2 with hfrom | ⟨-, hfrom | hfrom⟩
      · exact hstop hfrom
      · exact hstartDelay hfrom
      · exact hstopDelay hfrom
    refine ⟨⟨hpace, h.grid, by omega, by omega, ?_, ?_, h.bits_next hnext⟩, ?_⟩
    · rw [hslot, hdiv, f.txStates_next h.state hk b.tfEF b.ctsi, hstate]
    · rw [next_tsr h.busy, hload, h.tsr]
      rfl
    · exact begun_eq_nil (by rwa [hstate])
  · have hdiv := Nat.succ_div_of_not_dvd hdvd
    rw [decide_eq_false hdvd] at hce
    obtain ⟨hstate, htsr⟩ := next_hold (f := f) h.busy hce b
    refine ⟨⟨hpace, h.grid, by omega, by omega, ?_, htsr.trans h.tsr, h.bits_next hnext⟩, ?_⟩
    · rw [hslot, hdiv, hstate, h.state]
    · refine if_neg fun hboth => hboth.1 ?_
      rw [← hstate]
      exact hboth.2

/-- With the last cycle of a frame the line has all of it. -/
theorem InFrame.whole {line : ℕ → Bool} {x : TxSm} {t τ σ : ℕ} {w : BitVec 8}
    {ws : List (BitVec 8)} (h : InFrame P φ f line x t τ σ w)
    (hnext : line (t + 1) = x.nextTxD) (hend : t = σ + 16 * P * f.size)
    (hline : Carries f (Even (16 * P)) line 0 ws (σ + 2)) :
    Carries f (Even (16 * P)) line 0 (ws ++ [w]) (t + 2) := by
  rw [show t + 2 = σ + 2 + 16 * P * f.size by omega]
  refine hline.char w (fun k => 16 * P * k) (fun k => rfl) fun k hk d hle hlt => ?_
  have hslot : d / (16 * P) = k := by
    refine Nat.div_eq_of_lt_le ?_ ?_ <;> rw [Nat.mul_comm]
    · exact hle
    · exact hlt
  have hroom := Nat.mul_le_mul_left (16 * P) (show k + 1 ≤ f.size from hk)
  rw [← hslot]
  exact h.bits_next hnext d (by omega)

/-- The last cycle of a frame is that of a stop bit, and the state machine moves on. -/
theorem InFrame.last {line : ℕ → Bool} {x : TxSm} {t τ σ : ℕ} {w : BitVec 8}
    (h : InFrame P φ f line x t τ σ w) (hP : 0 < P) (hend : t = σ + 16 * P * f.size)
    (ce16x : Bool) : x.txSM = .pStopBit1 ∧ x.ce ce16x = true := by
  have hlt := h.lt
  have hdvd : 16 * P ∣ t - (σ + 1) + 1 := ⟨f.size, by omega⟩
  have hdiv := Nat.succ_div_of_dvd hdvd
  constructor
  · refine f.txStates_last h.state ?_
    rw [← hdiv, show t - (σ + 1) + 1 = 16 * P * f.size by omega, Nat.mul_div_cancel_left _ (by omega)]
  · rw [h.ce_eq, decide_eq_true hdvd]

theorem InFrame.next_last {line : ℕ → Bool} {x : TxSm} {t τ σ : ℕ} {w : BitVec 8}
    {ws : List (BitVec 8)} (h : InFrame P φ f line x t τ σ w) (hP : 0 < P) (b : Feed)
    (hnext : line (t + 1) = x.nextTxD) (hend : t = σ + 16 * P * f.size)
    (hline : Carries f (Even (16 * P)) line 0 ws (σ + 2)) :
    Sends P φ f line (x.next false (enable P φ t) f b.tfEF b.thr b.ctsi) (t + 1)
      (ws ++ [w] ++ begun x (x.next false (enable P φ t) f b.tfEF b.thr b.ctsi)) := by
  have hlt := h.lt
  have hgrid := h.grid
  have hpace := h.pace.next (f := f) hP h.busy b
  have hwhole := h.whole hnext hend hline
  obtain ⟨hstop, hce⟩ := h.last hP hend (enable P φ t)
  have hstate := next_state (f := f) hce b
  by_cases hstart : x.nextState f b.tfEF b.ctsi = .pStartBit
  · refine Sends.begin hP hpace ⟨by omega, ?_⟩ (by rw [hstop]; simp) (hstate.trans hstart) ?_ hwhole
    · rw [show t - (τ + 1) = σ - (τ + 1) + (t - (σ + 1) + 1) by omega]
      exact Nat.dvd_add hgrid.2 ⟨f.size, by omega⟩
    · rw [next_tsr h.busy]
      split
      · exact ⟨b.thr, rfl⟩
      · exact ⟨w, h.tsr⟩
  · rw [begun_eq_nil (by rwa [hstate]), List.append_nil]
    have hwhere : x.nextState f b.tfEF b.ctsi = .pStopDelay := by
      revert hstart
      rw [nextState, hstop]
      cases b.tfEF <;> simp
    exact Sends.delay hpace (Or.inr (hstate.trans hwhere)) hwhole

theorem Sends.next {line : ℕ → Bool} {x : TxSm} {t : ℕ} {ws : List (BitVec 8)}
    (h : Sends P φ f line x t ws) (hP : 0 < P) (b : Feed) (hnext : line (t + 1) = x.nextTxD) :
    Sends P φ f line (x.next false (enable P φ t) f b.tfEF b.thr b.ctsi) (t + 1)
      (ws ++ begun x (x.next false (enable P φ t) f b.tfEF b.thr b.ctsi)) := by
  cases h with
  | idle hstate hline => exact Sends.next_idle b hnext hstate hline
  | delay hpace hstate hline => exact Sends.next_delay hP b hnext hpace hstate hline
  | frame h hline =>
    rcases Nat.lt_or_eq_of_le h.le with hmore | hend
    · obtain ⟨hframe, hnone⟩ := h.next hP b hnext hmore
      rw [hnone, List.append_nil]
      exact Sends.frame hframe hline
    · exact h.next_last hP b hnext hend hline

/-! ### Runs -/

theorem Runs.txD (hy : Runs P φ f i y) (t : ℕ) : (y (t + 1)).txD = (y t).nextTxD := by
  rw [hy]
  rfl

theorem Runs.sends (hP : 0 < P) (hy : Runs P φ f i y) (hidle : (y 0).txSM = .pIdle)
    (hmark : (y 0).txD = true) (t : ℕ) :
    Sends P φ f (fun u => (y u).txD) (y t) t (framed y t) := by
  induction t with
  | zero => exact Sends.idle hidle (Carries.start.mark hmark)
  | succ t ih =>
    have hstep := ih.next hP (i t) (hy.txD t)
    rw [← hy t] at hstep
    exact hstep

/-- A frame that is begun is finished. -/
theorem Runs.frame_end (hP : 0 < P) (hy : Runs P φ f i y) {t τ σ : ℕ} {w : BitVec 8}
    (h : InFrame P φ f (fun u => (y u).txD) (y t) t τ σ w) {n : ℕ}
    (hn : t + n = σ + 16 * P * f.size) :
    InFrame P φ f (fun u => (y u).txD) (y (t + n)) (t + n) τ σ w := by
  induction n generalizing t with
  | zero => exact h
  | succ n ih =>
    have hnext := (h.next hP (i t) (hy.txD t) (by omega)).1
    rw [← hy t] at hnext
    have hrest := ih hnext (by omega)
    rwa [show t + 1 + n = t + (n + 1) by omega] at hrest

/-- From the idle state on, the line carries the characters that a frame has been begun for, each
as one whole frame. -/
theorem sends (hP : 0 < P) (hy : Runs P φ f i y) (hidle : (y 0).txSM = .pIdle)
    (hmark : (y 0).txD = true) (t : ℕ) :
    ∃ e, t < e ∧ e ≤ t + 1 + 16 * P * f.size ∧
      Carries f (Even (16 * P)) (fun u => (y u).txD) 0 (framed y t) e := by
  have hsends := hy.sends hP hidle hmark t
  generalize framed y t = ws at hsends ⊢
  cases hsends with
  | idle _ hline => exact ⟨t + 1, by omega, by omega, hline⟩
  | delay _ _ hline => exact ⟨t + 1, by omega, by omega, hline⟩
  | @frame ws τ σ w h hline =>
    have hlt := h.lt
    have hle := h.le
    have hend := hy.frame_end hP h (n := σ + 16 * P * f.size - t) (by omega)
    refine ⟨σ + 16 * P * f.size + 2, by omega, by omega, ?_⟩
    rw [show t + (σ + 16 * P * f.size - t) = σ + 16 * P * f.size by omega] at hend
    exact hend.whole (hy.txD _) rfl hline

/-! ### Characters from the FIFO -/

/-- The last stop bit is over with a character in the FIFO and CTS low: the next frame begins with
the old shift register. -/
def repeats (x : TxSm) (ce16x tfEF ctsi : Bool) : Bool :=
  x.ce ce16x && x.txSM == .pStopBit1 && !tfEF && !ctsi

/-- A frame is begun for a character from the FIFO or for the one before again. -/
theorem begun_next (x : TxSm) (ce16x : Bool) (b : Feed) :
    begun x (x.next false ce16x f b.tfEF b.thr b.ctsi) =
      if x.ldTSR ce16x b.tfEF b.ctsi then [b.thr]
      else if x.repeats ce16x b.tfEF b.ctsi then [x.tsr.setWidth 8] else [] := by
  cases hce : x.ce ce16x with
  | false =>
    have hsame : (x.next false ce16x f b.tfEF b.thr b.ctsi).txSM = x.txSM := by
      simp [TxSm.next, hce]
    rw [begun, hsame, if_neg fun hboth => hboth.1 hboth.2]
    simp [ldTSR, repeats, hce]
  | true =>
    have hstate := next_state (f := f) hce b
    by_cases hstart : x.nextState f b.tfEF b.ctsi = .pStartBit
    · obtain ⟨hempty, hfrom⟩ := nextState_eq_start hstart
      have hold : x.txSM ≠ .pStartBit ∧ x.txSM ≠ .pIdle := by
        rcases hfrom with hfrom | ⟨-, hfrom | hfrom⟩ <;> rw [hfrom] <;> simp
      rw [begun, if_pos ⟨hold.1, hstate.trans hstart⟩, next_tsr (by simp [txIdle, hold.2])]
      by_cases hload : x.ldTSR ce16x b.tfEF b.ctsi = true
      · rw [if_pos hload, if_pos hload, f.setWidth_loaded]
      · rw [if_neg hload, if_neg hload, if_pos ?_]
        rcases hfrom with hfrom | ⟨hcts, hfrom | hfrom⟩
        · have hcts : b.ctsi = false := by
            simpa [ldTSR, hce, hempty, hfrom] using hload
          simp [repeats, hce, hempty, hfrom, hcts]
        · exact absurd (by simp [ldTSR, hce, hempty, hfrom, hcts]) hload
        · exact absurd (by simp [ldTSR, hce, hempty, hfrom, hcts]) hload
    · rw [begun_eq_nil (by rwa [hstate])]
      have hload : x.ldTSR ce16x b.tfEF b.ctsi = false := by
        by_contra hload
        rw [Bool.not_eq_false] at hload
        simp only [ldTSR, Bool.and_eq_true, Bool.or_eq_true, Bool.not_eq_true', beq_iff_eq] at hload
        obtain ⟨⟨⟨-, hempty⟩, hcts⟩, (hfrom | hfrom) | hfrom⟩ := hload <;>
          exact hstart (by simp [nextState, hfrom, hempty, hcts])
      have hrepeat : x.repeats ce16x b.tfEF b.ctsi = false := by
        by_contra hrepeat
        rw [Bool.not_eq_false] at hrepeat
        simp only [repeats, Bool.and_eq_true, Bool.not_eq_true', beq_iff_eq] at hrepeat
        obtain ⟨⟨⟨-, hfrom⟩, hempty⟩, -⟩ := hrepeat
        exact hstart (by simp [nextState, hfrom, hempty])
      rw [hload, hrepeat]
      rfl

theorem Runs.framed_succ (hy : Runs P φ f i y) (t : ℕ) : framed y (t + 1) = framed y t ++
    if (y t).ldTSR (enable P φ t) (i t).tfEF (i t).ctsi then [(i t).thr]
    else if (y t).repeats (enable P φ t) (i t).tfEF (i t).ctsi then [(y t).tsr.setWidth 8]
    else [] := by
  rw [← begun_next (f := f), ← hy t]
  rfl

theorem Runs.length_framed (hy : Runs P φ f i y) (t : ℕ) : (framed y t).length =
    (taken (enable P φ) i y t).length +
      Nat.count (fun u => (y u).repeats (enable P φ u) (i u).tfEF (i u).ctsi = true) t := by
  induction t with
  | zero => rfl
  | succ t ih =>
    have hload : (y t).ldTSR (enable P φ t) (i t).tfEF (i t).ctsi = true →
        (y t).repeats (enable P φ t) (i t).tfEF (i t).ctsi = false := by
      intro hload
      simp only [ldTSR, Bool.and_eq_true] at hload
      simp [repeats, hload.1.2]
    rw [hy.framed_succ, taken, Nat.count_succ, List.length_append, List.length_append, ih]
    by_cases hld : (y t).ldTSR (enable P φ t) (i t).tfEF (i t).ctsi = true
    · simp [hld, hload hld]
      omega
    · by_cases hrepeat : (y t).repeats (enable P φ t) (i t).tfEF (i t).ctsi = true
      · simp [hld, hrepeat]
        omega
      · simp [hld, hrepeat]

/-- The frames are those of the characters taken as long as CTS is high at the end of each last stop
bit with a character waiting, and no longer. -/
theorem Runs.framed_eq_taken_iff (hy : Runs P φ f i y) (t : ℕ) :
    framed y t = taken (enable P φ) i y t ↔
      ∀ u < t, (y u).repeats (enable P φ u) (i u).tfEF (i u).ctsi = false := by
  constructor
  · intro hsame
    have hlen := hy.length_framed t
    rw [hsame] at hlen
    have hnone := Nat.count_iff_forall_not.mp (left_eq_add.mp hlen)
    exact fun u hu => Bool.eq_false_of_not_eq_true (hnone u hu)
  · intro hnone
    induction t with
    | zero => rfl
    | succ t ih =>
      rw [hy.framed_succ, taken, ih fun u hu => hnone u (by omega), hnone t (by omega)]
      rfl

/-! ### Progress -/

/-- The delay of a bit ends with a load when a character waits and CTS is high. -/
theorem Runs.load_of_delay (hP : 0 < P) (hy : Runs P φ f i y) {t τ : ℕ}
    (hpace : Paced P φ (y t) τ t)
    (hstate : (y t).txSM = .pStartDelay ∨ (y t).txSM = .pStopDelay)
    (hfeed : ∀ u ≥ t, (i u).tfEF = false ∧ (i u).ctsi = true) :
    ∃ u ≥ t, (y u).ldTSR (enable P φ u) (i u).tfEF (i u).ctsi = true := by
  have key : ∀ n q t, t - (τ + 1) + n = 16 * P * q → 0 < q → Paced P φ (y t) τ t →
      ((y t).txSM = .pStartDelay ∨ (y t).txSM = .pStopDelay) →
      (∀ u ≥ t, (i u).tfEF = false ∧ (i u).ctsi = true) →
      ∃ u ≥ t, (y u).ldTSR (enable P φ u) (i u).tfEF (i u).ctsi = true := by
    intro n q
    induction n with
    | zero =>
      intro t hn hq hpace hstate hfeed
      obtain ⟨hempty, hcts⟩ := hfeed t le_rfl
      have hlong : 0 < 16 * P * q := Nat.mul_pos (by omega) hq
      have hce : (y t).ceBCnt = true := by
        rw [hpace.ceBCnt]
        exact decide_eq_true ⟨by omega, q, by omega⟩
      refine ⟨t, le_rfl, ?_⟩
      rcases hstate with hstate | hstate <;>
        simp [ldTSR, ce, txIdle, hstate, hce, hempty, hcts]
    | succ n ih =>
      intro t hn hq hpace hstate hfeed
      obtain ⟨hempty, hcts⟩ := hfeed t le_rfl
      have hlt := hpace.lt
      have hbusy : (y t).txIdle = false := by
        rcases hstate with hstate | hstate <;> simp [txIdle, hstate]
      cases hce : (y t).ceBCnt with
      | true =>
        refine ⟨t, le_rfl, ?_⟩
        rcases hstate with hstate | hstate <;>
          simp [ldTSR, ce, txIdle, hstate, hce, hempty, hcts]
      | false =>
        have hno : (y t).ce (enable P φ t) = false := by simp [ce, hbusy, hce]
        have hhold := (next_hold (f := f) hbusy hno (i t)).1
        have hpace' := hpace.next (f := f) hP hbusy (i t)
        rw [← hy t] at hhold hpace'
        obtain ⟨u, hu, hload⟩ := ih (t + 1) (by omega) hq hpace' (by rwa [hhold])
          fun u hu => hfeed u (by omega)
        exact ⟨u, by omega, hload⟩
  have hdiv := Nat.div_add_mod (t - (τ + 1)) (16 * P)
  have hmod := Nat.mod_lt (t - (τ + 1)) (show 0 < 16 * P by omega)
  refine key (16 * P - (t - (τ + 1)) % (16 * P)) ((t - (τ + 1)) / (16 * P) + 1) t ?_
    (Nat.succ_pos _) hpace hstate hfeed
  rw [Nat.mul_succ]
  omega

theorem Runs.load_of_idle (hP : 0 < P) (hy : Runs P φ f i y) {t : ℕ} (hstate : (y t).txSM = .pIdle)
    (hfeed : ∀ u ≥ t, (i u).tfEF = false ∧ (i u).ctsi = true) :
    ∃ u ≥ t, (y u).ldTSR (enable P φ u) (i u).tfEF (i u).ctsi = true := by
  obtain ⟨m, -, hm, hbetween⟩ := exists_enable hP φ t
  have hidle : ∀ d ≤ m, (y (t + d)).txSM = .pIdle := by
    intro d
    induction d with
    | zero => exact fun _ => hstate
    | succ d ih =>
      intro hle
      have hbefore := ih (by omega)
      rw [← Nat.add_assoc, hy, hbetween d (by omega)]
      simp [TxSm.next, ce, txIdle, hbefore]
  have hlast := hidle m le_rfl
  have hen : enable P φ (t + m) = true := decide_eq_true hm
  have hpace := Paced.start (f := f) hm hlast (i (t + m))
  have hnext := next_state (f := f) (show (y (t + m)).ce true = true by simp [ce, txIdle, hlast])
    (i (t + m))
  rw [← hen, ← hy (t + m)] at hpace hnext
  rw [nextState, hlast, (hfeed (t + m) (by omega)).1] at hnext
  obtain ⟨u, hu, hload⟩ := hy.load_of_delay hP hpace (Or.inl hnext) fun u hu => hfeed u (by omega)
  exact ⟨u, by omega, hload⟩

theorem Runs.loads (hP : 0 < P) (hy : Runs P φ f i y) {t : ℕ} {ws : List (BitVec 8)}
    (h : Sends P φ f (fun u => (y u).txD) (y t) t ws)
    (hfeed : ∀ u ≥ t, (i u).tfEF = false ∧ (i u).ctsi = true) :
    ∃ u ≥ t, (y u).ldTSR (enable P φ u) (i u).tfEF (i u).ctsi = true := by
  cases h with
  | idle hstate _ => exact hy.load_of_idle hP hstate hfeed
  | delay hpace hstate _ => exact hy.load_of_delay hP hpace hstate hfeed
  | @frame _ τ σ w h _ =>
    have hle := h.le
    have hend := hy.frame_end hP h (n := σ + 16 * P * f.size - t) (by omega)
    rw [show t + (σ + 16 * P * f.size - t) = σ + 16 * P * f.size by omega] at hend
    obtain ⟨hstop, hce⟩ := hend.last hP rfl (enable P φ (σ + 16 * P * f.size))
    obtain ⟨hempty, hcts⟩ := hfeed (σ + 16 * P * f.size) (by omega)
    exact ⟨σ + 16 * P * f.size, by omega, by simp [ldTSR, hce, hstop, hempty, hcts]⟩

end TxSm

end SocCrypto.Uart

import SocCrypto.Uart.Line

/-!
# What the receiver accepts

On any line at all, a character that the receiver hands on without an error is spelled by samples a
bit time apart, start bit, parity and stop bits included.
-/

namespace SocCrypto.Uart

theorem exists_byte (g : ℕ → Bool) : ∃ w : BitVec 8, ∀ i < 8, w.getLsbD i = g i := by
  refine ⟨(BitVec.ofBoolListLE ((List.range 8).map g)).setWidth 8, fun i hi => ?_⟩
  rw [BitVec.getLsbD_setWidth, BitVec.getLsbD_ofBoolListLE, decide_eq_true hi, Bool.true_and,
    List.getD_eq_getElem?_getD, List.getElem?_map, List.getElem?_range hi]
  rfl

namespace RxSm

variable {P φ : ℕ} {f : Format} {x : ℕ → RxSm} {rxD : ℕ → Bool}

/-- Sample `k` behind a start bit seen in cycle `τ`. -/
def sampled (P : ℕ) (rxD : ℕ → Bool) (τ k : ℕ) : Bool := rxD (τ + 8 * P + 16 * P * k)

/-- The receiver waits, or the samples so far are those of a character. -/
inductive Reading (P φ : ℕ) (f : Format) (rxD : ℕ → Bool) (x : ℕ → RxSm) (t : ℕ) : Prop
  | wait (h : (x t).wait = true) : Reading P φ f rxD x t
  | frame {w r : BitVec 8} {τ k σ b : ℕ} (h : Before P φ f w r τ k σ b x) (hlt : σ < t)
      (hle : t ≤ σ + (16 - b) * P) (hstart : rxD τ = false) (hk : k < f.size)
      (hspelled : ∀ i < 8, w.getLsbD i = sampled P rxD τ (i + 1))
      (hfits : ∀ j < k, (f.frame w)[j]? = some (sampled P rxD τ j)) : Reading P φ f rxD x t

/-- A sample that does not fit ends the frame. -/
theorem Before.mismatch {w r : BitVec 8} {τ k σ b : ℕ} (h : Before P φ f w r τ k σ b x)
    (hspelled : ∀ i < 8, w.getLsbD i = sampled P rxD τ (i + 1))
    (hbit : (f.frame w)[k]? ≠ some (sampled P rxD τ k)) {y : RxSm}
    (hstate : y.rxSM = (x (σ + 1)).rxSM) (hrsr : y.rsr = (x (σ + 1)).rsr) :
    y.nextState f (sampled P rxD τ k) = .pIdle ∨ y.nextState f (sampled P rxD τ k) = .pRcvError := by
  obtain ⟨v, hv⟩ := h.step
  rw [f.frame_eq_rxSteps w r, List.getElem?_map, hv] at hbit
  have hflip : sampled P rxD τ k = !v := by
    refine Bool.eq_not.mpr fun hsame => hbit ?_
    rw [hsame]
    rfl
  rcases Nat.eq_zero_or_pos k with rfl | hpos
  · -- the line is high again in the middle of the start bit
    obtain ⟨hpair, rfl⟩ := Prod.ext_iff.mp (Option.some.inj hv)
    obtain ⟨hchk, -⟩ : RxState.pChkStart = (x (σ + 1)).rxSM ∧ r = (x (σ + 1)).rsr :=
      Prod.ext_iff.mp hpair
    left
    rw [nextState, hstate, ← hchk, hflip]
    rfl
  · obtain ⟨i, rfl⟩ : ∃ i, k = i + 1 := ⟨k - 1, by omega⟩
    have hle : f.dataBits ≤ 8 := by
      unfold Format.dataBits
      split <;> omega
    rcases Nat.lt_or_ge i f.dataBits with hdata | hcheck
    · have hright := f.frame_data w hdata
      rw [f.frame_eq_rxSteps w r, List.getElem?_map, hv, hspelled i (by omega)] at hright
      exact absurd hright hbit
    · right
      have hmem : (((x (σ + 1)).rxSM, (x (σ + 1)).rsr), v) ∈
          (f.rxSteps w r).drop (f.dataBits + 1) := by
        refine List.mem_of_getElem? (i := i - f.dataBits) ?_
        rw [List.getElem?_drop, show f.dataBits + 1 + (i - f.dataBits) = i + 1 by omega]
        exact hv
      rw [hflip]
      exact (f.rxSteps_refused w r _ hmem y hstate hrsr).1

theorem Reading.next (hP : 0 < P) (hx : Runs P φ f rxD x) {t : ℕ} (h : Reading P φ f rxD x t) :
    Reading P φ f rxD x (t + 1) := by
  cases h with
  | wait hwait =>
    by_cases htick : P ∣ t + φ
    · have hen : enable P φ t = true := decide_eq_true htick
      by_cases hdetect : (x t).rxSM = .pIdle ∧ rxD t = false
      · obtain ⟨hidle, hlow⟩ := hdetect
        obtain ⟨w, hw⟩ := exists_byte fun i => sampled P rxD t (i + 1)
        exact Reading.frame (hx.detect w htick hidle hlow) (by omega) (by omega) hlow f.size_pos hw
          fun j hj => absurd hj (Nat.not_lt_zero j)
      · refine Reading.wait ?_
        have hce : (x t).ce true = true := by simp [ce, hwait]
        have hnext : (x (t + 1)).rxSM = (x t).nextState f (rxD t) := by
          rw [hx t, hen]
          simp [RxSm.next, hce]
        rw [RxSm.wait, hnext]
        simp only [RxSm.wait, Bool.or_eq_true, beq_iff_eq] at hwait
        rcases hwait with ((hwait | hwait) | hwait) | hwait <;> rw [nextState, hwait]
        · cases rxD t <;> rfl
        · cases rxD t <;> rfl
        · have hhigh : rxD t = true := by simpa [hwait] using hdetect
          rw [hhigh]
          rfl
        · rfl
    · refine Reading.wait ?_
      have hen : enable P φ t = false := decide_eq_false htick
      have hnext : (x (t + 1)).rxSM = (x t).rxSM := by
        rw [hx t, hen]
        simp [RxSm.next, ce, hwait]
      rwa [RxSm.wait, hnext]
  | @frame w r τ k σ b h hlt hle hstart hk hspelled hfits =>
    rcases Nat.lt_or_eq_of_le hle with hmore | hend
    · exact Reading.frame h (by omega) hmore hstart hk hspelled hfits
    · obtain ⟨y, hstate, hrsr, h15, hwait, hnext⟩ := hx.sample hP h.phase h.wait h.bCnt
      rw [h.next] at hnext hend
      have hnew := (next_sample (f := f) hwait h15 (rxD (τ + 8 * P + 16 * P * k))).1
      rw [← hnext] at hnew
      by_cases hbit : (f.frame w)[k]? = some (sampled P rxD τ k)
      · rcases Nat.lt_or_ge (k + 1) f.size with hmore | hlast
        · refine Reading.frame (h.step_next hP hx hmore hbit) (by omega) (by omega) hstart hmore
            hspelled fun j hj => ?_
          rcases Nat.lt_or_ge j k with hearlier | hnow
          · exact hfits j hearlier
          · rwa [show j = k by omega]
        · refine Reading.wait ?_
          obtain ⟨v, hv⟩ := h.step
          obtain rfl : k = f.size - 1 := by omega
          have hstop := hv.symm.trans (f.rxSteps_last w r)
          obtain ⟨hpair, rfl⟩ := Prod.ext_iff.mp (Option.some.inj hstop)
          obtain ⟨hchk, -⟩ : (x (σ + 1)).rxSM = .pChkStop1 ∧ (x (σ + 1)).rsr = f.character w :=
            Prod.ext_iff.mp hpair
          rw [RxSm.wait, hend, hnew, nextState, hstate, hchk]
          cases rxD (τ + 8 * P + 16 * P * (f.size - 1)) <;> rfl
      · refine Reading.wait ?_
        rw [RxSm.wait, hend, hnew]
        rcases h.mismatch hspelled hbit hstate hrsr with hidle | herror
        · rw [show y.nextState f (rxD (τ + 8 * P + 16 * P * k)) = .pIdle from hidle]
          rfl
        · rw [show y.nextState f (rxD (τ + 8 * P + 16 * P * k)) = .pRcvError from herror]
          rfl

theorem Runs.reading (hP : 0 < P) (hx : Runs P φ f rxD x) (hwait : (x 0).wait = true) (t : ℕ) :
    Reading P φ f rxD x t := by
  induction t with
  | zero => exact Reading.wait hwait
  | succ t ih => exact ih.next hP hx

/-- A character handed on without an error is the frame that was sampled. -/
theorem Runs.accepted_spelled (hP : 0 < P) (hx : Runs P φ f rxD x) (hwait : (x 0).wait = true) {t : ℕ}
    (hwe : (x (t + 1)).weRHR = true) (hok : (x (t + 1)).rd.getLsbD 8 = false) :
    ∃ τ w, rxD τ = false ∧ t = τ + 8 * P + 16 * P * (f.size - 1) ∧
      (∀ k < f.size, (f.frame w)[k]? = some (sampled P rxD τ k)) ∧
      (x (t + 1)).rd = 0#1 ++ f.character w ∧ ∀ u, τ < u → u ≤ t → (x u).weRHR = false := by
  cases hx.reading hP hwait t with
  | wait hidle =>
    rw [hx t] at hwe hok
    have herror : (x t).rxSM = .pRcvError := by
      simp only [RxSm.next, ceRD, Bool.false_eq_true, if_false, Bool.and_eq_true, Bool.or_eq_true,
        beq_iff_eq] at hwe
      rcases hwe.2 with hstop | herror
      · simp [RxSm.wait, hstop.1] at hidle
      · exact herror
    have hce : (x t).ceRD (enable P φ t) (rxD t) = true := by simpa [RxSm.next] using hwe
    have hrd : ((x t).next false (enable P φ t) f (rxD t)).rd = 1#1 ++ (x t).rsr := by
      simp [RxSm.next, hce, herror]
    rw [hrd, BitVec.getLsbD_append, if_neg (by omega)] at hok
    exact absurd hok (by decide)
  | @frame w r τ k σ b h hlt hle hstart hk hspelled hfits =>
    rcases Nat.lt_or_eq_of_le hle with hmore | hend
    · have hquiet := h.quiet_sample hx (show τ < t + 1 by have := h.after; omega) hmore
      rw [hquiet] at hwe
      exact absurd hwe (by decide)
    · obtain ⟨y, hstate, hrsr, h15, hbusy, hnext⟩ := hx.sample hP h.phase h.wait h.bCnt
      obtain ⟨v, hv⟩ := h.step
      rw [h.next] at hnext hend
      subst hend
      obtain ⟨-, -, -, hwe', hrd⟩ :=
        next_sample (f := f) hbusy h15 (rxD (τ + 8 * P + 16 * P * k))
      rw [← hnext] at hwe' hrd
      have herror : y.rxSM ≠ .pRcvError := by
        intro herror
        simp [RxSm.wait, herror] at hbusy
      obtain ⟨hstop, hhigh⟩ : y.rxSM = .pChkStop1 ∧ rxD (τ + 8 * P + 16 * P * k) = true := by
        rw [hwe'] at hwe
        simpa [herror] using hwe
      have hlast : k = f.size - 1 := by
        by_contra hne
        exact f.rxSteps_stop w r (by omega) hv (hstate.symm.trans hstop)
      subst hlast
      have hpair := hv.symm.trans (f.rxSteps_last w r)
      obtain ⟨hreg, rfl⟩ := Prod.ext_iff.mp (Option.some.inj hpair)
      obtain ⟨-, hchar⟩ : (x (σ + 1)).rxSM = .pChkStop1 ∧ (x (σ + 1)).rsr = f.character w :=
        Prod.ext_iff.mp hreg
      refine ⟨τ, w, hstart, rfl, fun k hk => ?_, ?_, fun u hlow hhigh =>
        h.quiet_sample hx hlow (by rw [h.next]; exact hhigh)⟩
      · rcases Nat.lt_or_ge k (f.size - 1) with hearlier | hnow
        · exact hfits k hearlier
        · obtain rfl : k = f.size - 1 := by omega
          rw [f.frame_eq_rxSteps w r, List.getElem?_map, hv, sampled, hhigh]
          rfl
      · rw [hrd hwe, hstop, hrsr, hchar]
        rfl

end RxSm

namespace SspUart

variable {s : ℕ → SspUart} {e : ℕ → Edge} {f : Format} {ps : BitVec 4} {div : BitVec 8}

/-- Whatever is on the line, a character that the receiver offers to its FIFO without an error is the
frame that the line showed at samples a bit time apart, and no other character is offered meanwhile. -/
theorem Steady.accepts (h : Steady s e f ps div) (hmode : ∀ t, (s t).rs232 = true)
    (hwait : (s 0).rcv.wait = true) (hquiet : (s 0).rcv.weRHR = false) {k : ℕ}
    (hwe : (s (tick e k)).rcv.weRHR = true) (hok : (s (tick e k)).rcv.rd.getLsbD 8 = false) :
    ∃ τ w, k = τ + 8 * Brg.period ps div + 16 * Brg.period ps div * (f.size - 1) + 1 ∧
      (s (tick e k)).rcv.rd = 0#1 ++ f.character w ∧
      (∀ j < f.size, (f.frame w)[j]? = some (e (tick e (τ + (8 * Brg.period ps div - 1) +
        16 * Brg.period ps div * j))).lines.rxD232) ∧
      ∀ j, τ < j → j < k → (s (tick e j)).rcv.weRHR = false := by
  have hP := Brg.period_pos ps div
  obtain ⟨φ, hφ⟩ := h.enable
  have hzero : (s (tick e 0)).rcv = (s 0).rcv :=
    h.first_tick (g := SspUart.rcv) fun u a _ hclk => by simp [step, hclk]
  obtain ⟨t, rfl⟩ : ∃ t, k = t + 1 := by
    refine Nat.exists_eq_succ_of_ne_zero ?_
    rintro rfl
    rw [hzero, hquiet] at hwe
    exact absurd hwe (by decide)
  obtain ⟨τ, w, -, rfl, hfits, hrd, hother⟩ := (h.rcv hφ).accepted_spelled hP
    (show (s (tick e 0)).rcv.wait = true by rw [hzero]; exact hwait) hwe hok
  refine ⟨τ, w, rfl, hrd, fun j hj => ?_, fun j hlow hhigh => hother j hlow (by omega)⟩
  have hreg := h.rxD hmode
    (τ + (8 * Brg.period ps div - 1) + 16 * Brg.period ps div * j)
  rw [show τ + (8 * Brg.period ps div - 1) + 16 * Brg.period ps div * j + 1 =
    τ + 8 * Brg.period ps div + 16 * Brg.period ps div * j by omega] at hreg
  rw [hfits j hj, ← hreg]
  rfl

theorem accepts_oneCharacter :
    (fed restCore oneCharacter 154).rcv.rd = 0x55 ∧ ∃ τ w, 154 = τ + 8 + 16 * 9 + 1 ∧
      (0x55 : BitVec 9) = 0#1 ++ restCore.format.character w ∧
      (∀ j < 10, (restCore.format.frame w)[j]? = some (oneCharacter (τ + 7 + 16 * j))) ∧
      ∀ j, τ < j → j < 154 → (fed restCore oneCharacter j).rcv.weRHR = false := by
  obtain ⟨hsteady, hall⟩ := settled_restCore.steady (s := fed restCore oneCharacter) fun _ => rfl
  have hmode : ∀ t, (fed restCore oneCharacter t).rs232 = true := fun t => by
    rw [rs232, md, (hall t).2]
    rfl
  have hwe : (fed restCore oneCharacter 154).rcv.weRHR = true ∧
      (fed restCore oneCharacter 154).rcv.rd = 0x55 := by
    decide +kernel
  have haccepts := hsteady.accepts hmode rfl rfl (k := 154)
  simp only [tick_quiet] at haccepts
  obtain ⟨τ, w, hk, hrd, hfits, hother⟩ := haccepts hwe.1 (by rw [hwe.2]; decide)
  rw [hwe.2] at hrd
  exact ⟨hwe.2, τ, w, hk, hrd, hfits, hother⟩

end SspUart

end SocCrypto.Uart

import Mathlib.Data.List.Infix
import Mathlib.Tactic.Ring
import SocCrypto.Uart.Frame
import SocCrypto.Word

/-!
# The receiver on a line of frames

`Carries` says which characters a line carries, however long it rests between them and wherever
the bounds of the bits are. A receiver with `16 P` cycles for a bit samples each bit of a frame once
when the bounds are between its samples, and hands on exactly the characters of the line.
-/

namespace SocCrypto.Uart

/-- Cycles of a clock enable of period `P`. -/
def enable (P φ : ℕ) (t : ℕ) : Bool := decide (P ∣ t + φ)

theorem enable_add {P φ τ : ℕ} (hτ : P ∣ τ + φ) (m : ℕ) : enable P φ (τ + m) = decide (P ∣ m) := by
  unfold enable
  rw [show τ + m + φ = (τ + φ) + m by omega]
  exact decide_eq_decide.mpr (Nat.dvd_add_right hτ)

theorem exists_enable {P : ℕ} (hP : 0 < P) (φ t : ℕ) :
    ∃ m < P, P ∣ t + m + φ ∧ ∀ d < m, enable P φ (t + d) = false := by
  have hex : ∃ m, P ∣ t + m + φ := by
    refine ⟨(P - 1) * (t + φ), t + φ, ?_⟩
    obtain ⟨q, rfl⟩ := Nat.exists_eq_add_of_le' hP
    rw [Nat.add_sub_cancel]
    ring
  refine ⟨Nat.find hex, ?_, Nat.find_spec hex, fun d hd => decide_eq_false (Nat.find_min hex hd)⟩
  by_contra hge
  refine Nat.find_min hex (show Nat.find hex - P < Nat.find hex by omega) ?_
  have hspec := Nat.find_spec hex
  rw [show t + Nat.find hex + φ = t + (Nat.find hex - P) + φ + P by omega] at hspec
  exact (Nat.dvd_add_left (dvd_refl P)).mp hspec

/-- From cycle `a` on the line is high but for the frames of a list of characters, bit `k` of a frame
being on the line from cycle `β k` of the frame to `β (k + 1)`. -/
inductive Carries (f : Format) (Fit : (ℕ → ℕ) → Prop) (line : ℕ → Bool) (a : ℕ) :
    List (BitVec 8) → ℕ → Prop
  | start : Carries f Fit line a [] a
  | mark {ws : List (BitVec 8)} {b : ℕ} (h : Carries f Fit line a ws b) (hline : line b = true) :
      Carries f Fit line a ws (b + 1)
  | char {ws : List (BitVec 8)} {b : ℕ} (h : Carries f Fit line a ws b) (w : BitVec 8) (β : ℕ → ℕ)
      (hfit : Fit β)
      (hline : ∀ k < f.size, ∀ d, β k ≤ d → d < β (k + 1) →
        (f.frame w)[k]? = some (line (b + d))) :
      Carries f Fit line a (ws ++ [w]) (b + β f.size)

/-- Bits of the same length. -/
def Even (B : ℕ) (β : ℕ → ℕ) : Prop := ∀ k, β k = B * k

/-- Sample `k` of a receiver that sees the start bit within `P` cycles falls into bit `k`. -/
def Fits (P n : ℕ) (β : ℕ → ℕ) : Prop :=
  β 0 = 0 ∧ ∀ k < n, β k ≤ 8 * P + 16 * P * k ∧ 9 * P + 16 * P * k ≤ β (k + 1)

theorem Even.fits {P : ℕ} {β : ℕ → ℕ} (h : Even (16 * P) β) (n : ℕ) : Fits P n β := by
  refine ⟨h 0, fun k _ => ?_⟩
  rw [h k, h (k + 1), Nat.mul_succ]
  omega

theorem Carries.mono {f : Format} {Fit Fit' : (ℕ → ℕ) → Prop} (hfit : ∀ β, Fit β → Fit' β)
    {line : ℕ → Bool} {a b : ℕ} {ws : List (BitVec 8)} (h : Carries f Fit line a ws b) :
    Carries f Fit' line a ws b := by
  induction h with
  | start => exact Carries.start
  | mark _ hline ih => exact ih.mark hline
  | char _ w β hβ hline ih => exact ih.char w β (hfit β hβ) hline

theorem Carries.le {f : Format} {Fit : (ℕ → ℕ) → Prop} {line : ℕ → Bool} {a b : ℕ}
    {ws : List (BitVec 8)} (h : Carries f Fit line a ws b) : a ≤ b := by
  induction h with
  | start => exact le_rfl
  | mark _ _ ih => omega
  | char _ _ _ _ _ ih => omega

theorem Carries.later {f : Format} {Fit : (ℕ → ℕ) → Prop} {line r : ℕ → Bool}
    (hline : ∀ t, r (t + 1) = line t) {a b : ℕ} {ws : List (BitVec 8)}
    (h : Carries f Fit line a ws b) : Carries f Fit r (a + 1) ws (b + 1) := by
  induction h with
  | start => exact Carries.start
  | mark _ hhigh ih => exact ih.mark ((hline _).trans hhigh)
  | @char ws b _ w β hβ hframe ih =>
    rw [Nat.add_right_comm]
    refine ih.char w β hβ fun k hk d hle hlt => ?_
    rw [Nat.add_right_comm, hline]
    exact hframe k hk d hle hlt

namespace RxSm

variable {P φ : ℕ} {f : Format} {x : ℕ → RxSm} {rxD : ℕ → Bool}

/-- The receiver at work. -/
def Runs (P φ : ℕ) (f : Format) (rxD : ℕ → Bool) (x : ℕ → RxSm) : Prop :=
  ∀ t, x (t + 1) = (x t).next false (enable P φ t) f (rxD t)

/-- What the receiver has handed on up to a cycle. -/
def log (x : ℕ → RxSm) : ℕ → List (BitVec 9)
  | 0 => if (x 0).weRHR then [(x 0).rd] else []
  | t + 1 => log x t ++ if (x (t + 1)).weRHR then [(x (t + 1)).rd] else []

theorem log_prefix {x : ℕ → RxSm} {a b : ℕ} (hle : a ≤ b) : log x a <+: log x b := by
  induction b, hle using Nat.le_induction with
  | base => exact List.prefix_refl _
  | succ b _ ih => exact ih.trans (List.prefix_append _ _)

theorem log_congr {x : ℕ → RxSm} {a : ℕ} {n : ℕ} (h : ∀ t, a < t → t ≤ a + n → (x t).weRHR = false) :
    log x (a + n) = log x a := by
  induction n with
  | zero => rfl
  | succ n ih =>
    rw [← Nat.add_assoc, log, ih fun t hlt hle => h t hlt (by omega),
      h (a + n + 1) (by omega) (by omega)]
    simp

/-- A bit being waited for: nothing changes but the count of enables. -/
theorem Runs.hold (hx : Runs P φ f rxD x) {τ b : ℕ} (hτ : P ∣ τ + φ)
    (hwait : (x (τ + 1)).wait = false) (hb : (x (τ + 1)).bCnt.toNat = b) {m : ℕ}
    (hm : m < (16 - b) * P) :
    (x (τ + 1 + m)).rxSM = (x (τ + 1)).rxSM ∧ (x (τ + 1 + m)).rsr = (x (τ + 1)).rsr ∧
      (x (τ + 1 + m)).bCnt.toNat = b + m / P ∧ (0 < m → (x (τ + 1 + m)).weRHR = false) := by
  induction m with
  | zero =>
    refine ⟨rfl, rfl, ?_, fun h0 => absurd h0 (lt_irrefl 0)⟩
    rw [Nat.zero_div]
    exact hb
  | succ m ih =>
    obtain ⟨hstate, hrsr, hcnt, -⟩ := ih (by omega)
    have htick : enable P φ (τ + 1 + m) = decide (P ∣ m + 1) := by
      rw [show τ + 1 + m = τ + (m + 1) by omega]
      exact enable_add hτ (m + 1)
    have hwait' : (x (τ + 1 + m)).wait = false := by
      unfold wait at hwait ⊢
      rw [hstate]
      exact hwait
    have hdiv : (m + 1) / P = m / P + if P ∣ m + 1 then 1 else 0 := Nat.succ_div
    -- the sixteenth enable of the bit has not come
    have hce : (x (τ + 1 + m)).ce (enable P φ (τ + 1 + m)) = false := by
      rw [ce, hwait', htick]
      simp only [Bool.false_eq_true, if_false, tcBCnt]
      by_cases hdvd : P ∣ m + 1
      · rw [if_pos hdvd] at hdiv
        have hlt : (m + 1) / P < 16 - b := Nat.div_lt_of_lt_mul (by rwa [Nat.mul_comm] at hm)
        have hne : (x (τ + 1 + m)).bCnt ≠ 15 := by
          intro h15
          rw [h15] at hcnt
          have h15' : (15 : BitVec 4).toNat = 15 := rfl
          omega
        rw [beq_eq_false_iff_ne.mpr hne, Bool.and_false]
      · simp [hdvd]
    rw [show τ + 1 + (m + 1) = τ + 1 + m + 1 by omega, hx]
    refine ⟨?_, ?_, ?_, fun _ => ?_⟩
    · simp only [RxSm.next, hce, Bool.false_eq_true, if_false]
      exact hstate
    · simp only [RxSm.next, hce, Bool.false_eq_true, if_false]
      exact hrsr
    · simp only [RxSm.next, hwait', htick, Bool.false_or, Bool.false_eq_true, if_false,
        decide_eq_true_eq]
      by_cases hdvd : P ∣ m + 1
      · rw [if_pos hdvd] at hdiv ⊢
        have hlt : (m + 1) / P < 16 - b := Nat.div_lt_of_lt_mul (by rwa [Nat.mul_comm] at hm)
        rw [toNat_add_one hcnt (by omega)]
        omega
      · rw [if_neg hdvd] at hdiv ⊢
        rw [hcnt]
        omega
    · simp only [RxSm.next, ceRD, hce, Bool.false_and, Bool.false_eq_true, if_false]

theorem Runs.sample (hP : 0 < P) (hx : Runs P φ f rxD x) {τ b : ℕ} (hτ : P ∣ τ + φ)
    (hwait : (x (τ + 1)).wait = false) (hb : (x (τ + 1)).bCnt.toNat = b) :
    ∃ y : RxSm, y.rxSM = (x (τ + 1)).rxSM ∧ y.rsr = (x (τ + 1)).rsr ∧ y.bCnt = 15 ∧ y.wait = false ∧
      x (τ + (16 - b) * P + 1) = y.next false true f (rxD (τ + (16 - b) * P)) := by
  have hpos : 0 < (16 - b) * P := Nat.mul_pos (by omega) hP
  obtain ⟨hstate, hrsr, hcnt, -⟩ :=
    hx.hold hτ hwait hb (show (16 - b) * P - 1 < (16 - b) * P by omega)
  have hat : τ + 1 + ((16 - b) * P - 1) = τ + (16 - b) * P := by omega
  rw [hat] at hstate hrsr hcnt
  have hlast : ((16 - b) * P - 1) / P = 15 - b := by
    rw [show (16 - b) * P - 1 = P - 1 + P * (15 - b) by
      obtain ⟨c, hc⟩ : ∃ c, 16 - b = c + 1 := ⟨15 - b, by omega⟩
      rw [hc, show 15 - b = c by omega, Nat.succ_mul, Nat.mul_comm c P]
      omega]
    rw [Nat.add_mul_div_left _ _ hP, Nat.div_eq_of_lt (by omega), Nat.zero_add]
  have htick : enable P φ (τ + (16 - b) * P) = true := by
    rw [enable_add hτ, decide_eq_true (Nat.dvd_mul_left P _)]
  refine ⟨x (τ + (16 - b) * P), hstate, hrsr, ?_, ?_, ?_⟩
  · refine (eq_ofNat_iff hcnt (show 15 < 2 ^ 4 by decide)).mpr ?_
    omega
  · unfold wait at hwait ⊢
    rw [hstate]
    exact hwait
  · rw [hx, htick]

theorem next_sample {y : RxSm} (hwait : y.wait = false) (h15 : y.bCnt = 15) (b : Bool) :
    (y.next false true f b).rxSM = y.nextState f b ∧ (y.next false true f b).rsr = y.nextRSR b ∧
      (y.next false true f b).bCnt = 0 ∧
      (y.next false true f b).weRHR = (y.rxSM == .pChkStop1 && b || y.rxSM == .pRcvError) ∧
      ((y.next false true f b).weRHR = true →
        (y.next false true f b).rd = BitVec.ofBool (y.rxSM == .pRcvError) ++ y.rsr) := by
  have hce : y.ce true = true := by simp [ce, hwait, tcBCnt, h15]
  have hwe : (y.next false true f b).weRHR =
      (y.rxSM == .pChkStop1 && b || y.rxSM == .pRcvError) := by
    simp [RxSm.next, ceRD, hce]
  refine ⟨by simp [RxSm.next, hce], by simp [RxSm.next, hce], ?_, hwe, fun h => ?_⟩
  · simp [RxSm.next, hwait, h15]
  · rw [hwe] at h
    simp [RxSm.next, ceRD, hce, h]

/-! ### One frame -/

theorem wait_eq_false {y : RxSm} (h : y.rxSM ≠ .pWaitMark ∧ y.rxSM ≠ .pChkMark ∧ y.rxSM ≠ .pIdle ∧
    y.rxSM ≠ .pRcvError) : y.wait = false := by
  obtain ⟨hmark, hcheck, hidle, herror⟩ := h
  simp [wait, hmark, hcheck, hidle, herror]

/-- Before sample `k` of a frame, counting from the cycle `σ` of the last sample. -/
structure Before (P φ : ℕ) (f : Format) (w r : BitVec 8) (τ k σ b : ℕ) (x : ℕ → RxSm) : Prop where
  phase : P ∣ σ + φ
  le : b ≤ 15
  after : τ ≤ σ
  next : σ + (16 - b) * P = τ + 8 * P + 16 * P * k
  bCnt : (x (σ + 1)).bCnt.toNat = b
  step : ∃ v, (f.rxSteps w r)[k]? = some (((x (σ + 1)).rxSM, (x (σ + 1)).rsr), v)
  quiet : ∀ t, τ < t → t ≤ σ + 1 → (x t).weRHR = false

theorem Before.wait {w r : BitVec 8} {τ k σ b : ℕ} (h : Before P φ f w r τ k σ b x) :
    (x (σ + 1)).wait = false := by
  obtain ⟨v, hv⟩ := h.step
  exact wait_eq_false (f.rxSteps_waits w r _ (List.mem_of_getElem? hv))

/-- Up to the sample nothing is handed on. -/
theorem Before.quiet_sample {w r : BitVec 8} {τ k σ b : ℕ} (h : Before P φ f w r τ k σ b x)
    (hx : Runs P φ f rxD x) {t : ℕ} (hlt : τ < t) (hle : t ≤ σ + (16 - b) * P) :
    (x t).weRHR = false := by
  rcases Nat.lt_or_ge (σ + 1) t with hlater | hearlier
  · obtain ⟨-, -, -, hquiet⟩ := hx.hold h.phase h.wait h.bCnt (show t - (σ + 1) < (16 - b) * P by omega)
    rw [show σ + 1 + (t - (σ + 1)) = t by omega] at hquiet
    exact hquiet (by omega)
  · exact h.quiet t hlt hearlier

theorem Before.step_next {w r : BitVec 8} {τ k σ b : ℕ} (h : Before P φ f w r τ k σ b x)
    (hP : 0 < P) (hx : Runs P φ f rxD x) (hk : k + 1 < f.size)
    (hbit : (f.frame w)[k]? = some (rxD (τ + 8 * P + 16 * P * k))) :
    Before P φ f w r τ (k + 1) (τ + 8 * P + 16 * P * k) 0 x := by
  obtain ⟨v, hv⟩ := h.step
  obtain ⟨y, hstate, hrsr, h15, hwait, hnext⟩ := hx.sample hP h.phase h.wait h.bCnt
  rw [h.next] at hnext
  have hlen := f.length_rxSteps w r
  obtain ⟨hlt, hget⟩ := List.getElem?_eq_some_iff.mp hv
  have hlt' : k + 1 < (f.rxSteps w r).length := by omega
  have hv' : v = rxD (τ + 8 * P + 16 * P * k) := by
    rw [f.frame_eq_rxSteps w r, List.getElem?_map, hv] at hbit
    exact Option.some.inj hbit
  have hchain := List.isChain_iff_getElem.mp (f.rxSteps_chain w r) k hlt' y
    (by rw [hget, hstate]) (by rw [hget, hrsr])
  obtain ⟨hstate', hrsr', hcnt', hwe', -⟩ := next_sample (f := f) hwait h15
    (rxD (τ + 8 * P + 16 * P * k))
  rw [← hnext] at hstate' hrsr' hcnt' hwe'
  have hthis : (f.rxSteps w r)[k + 1].1 = ((x (τ + 8 * P + 16 * P * k + 1)).rxSM,
      (x (τ + 8 * P + 16 * P * k + 1)).rsr) := by
    rw [hstate', hrsr', ← hchain, hget, hv']
  refine ⟨?_, by omega, by omega, by rw [Nat.mul_succ]; omega, by rw [hcnt']; rfl,
    ⟨(f.rxSteps w r)[k + 1].2, ?_⟩, fun t hlt ht => ?_⟩
  · rw [← h.next, show σ + (16 - b) * P + φ = σ + φ + (16 - b) * P by omega]
    exact Nat.dvd_add h.phase (Nat.dvd_mul_left P _)
  · rw [List.getElem?_eq_getElem hlt', ← hthis]
  · rcases Nat.lt_or_ge t (τ + 8 * P + 16 * P * k + 1) with hearlier | hlast
    · exact h.quiet_sample hx hlt (by rw [h.next]; omega)
    · obtain rfl : t = τ + 8 * P + 16 * P * k + 1 := by omega
      rw [hwe']
      have hstop : y.rxSM ≠ .pChkStop1 := by
        rw [hstate]
        exact f.rxSteps_stop w r hk hv
      have herror : y.rxSM ≠ .pRcvError := by
        intro herror
        simp [RxSm.wait, herror] at hwait
      simp [hstop, herror]

theorem Runs.detect (hx : Runs P φ f rxD x) (w : BitVec 8) {τ : ℕ} (hτ : P ∣ τ + φ)
    (hidle : (x τ).rxSM = .pIdle) (hstart : rxD τ = false) :
    Before P φ f w (x (τ + 1)).rsr τ 0 τ 8 x := by
  have htick : enable P φ τ = true := decide_eq_true hτ
  have hnext : x (τ + 1) = (x τ).next false true f false := by
    rw [hx τ, htick, hstart]
  have hwait : (x τ).wait = true := by simp [RxSm.wait, hidle]
  have hce : (x τ).ce true = true := by simp [ce, hwait]
  refine ⟨hτ, by omega, le_rfl, by omega, ?_, ⟨false, ?_⟩, fun t hlt hle => ?_⟩
  · rw [hnext]
    simp [RxSm.next, hwait]
  · have hstate : (x (τ + 1)).rxSM = .pChkStart := by
      rw [hnext]
      simp [RxSm.next, hce, nextState, hidle]
    rw [hstate]
    rfl
  · obtain rfl : t = τ + 1 := by omega
    rw [hnext]
    simp [RxSm.next, ceRD, hidle]

theorem Before.iterate (hP : 0 < P) (hx : Runs P φ f rxD x) {w r : BitVec 8} {τ : ℕ}
    (hfirst : Before P φ f w r τ 0 τ 8 x) {k : ℕ} (hk : k < f.size)
    (hbits : ∀ j < k, (f.frame w)[j]? = some (rxD (τ + 8 * P + 16 * P * j))) :
    ∃ σ b, Before P φ f w r τ k σ b x := by
  induction k with
  | zero => exact ⟨τ, 8, hfirst⟩
  | succ k ih =>
    obtain ⟨σ, b, h⟩ := ih (by omega) fun j hj => hbits j (by omega)
    exact ⟨τ + 8 * P + 16 * P * k, 0, h.step_next hP hx hk (hbits k (by omega))⟩

theorem Runs.frame (hP : 0 < P) (hx : Runs P φ f rxD x) (w : BitVec 8) {τ : ℕ} (hτ : P ∣ τ + φ)
    (hidle : (x τ).rxSM = .pIdle) (hstart : rxD τ = false)
    (hbits : ∀ k < f.size, (f.frame w)[k]? = some (rxD (τ + 8 * P + 16 * P * k))) :
    (x (τ + 8 * P + 16 * P * (f.size - 1) + 1)).rxSM = .pIdle ∧
      log x (τ + 8 * P + 16 * P * (f.size - 1) + 1) = log x τ ++ [0#1 ++ f.character w] := by
  have hpos := f.size_pos
  have hsize : f.size - 1 < f.size := by omega
  obtain ⟨σ, b, h⟩ := Before.iterate hP hx (hx.detect w hτ hidle hstart) hsize
    fun j hj => hbits j (by omega)
  obtain ⟨y, hstate, hrsr, h15, hwait, hnext⟩ := hx.sample hP h.phase h.wait h.bCnt
  rw [h.next] at hnext
  obtain ⟨v, hv⟩ := h.step
  have hlast := hv.symm.trans (f.rxSteps_last w (x (τ + 1)).rsr)
  obtain ⟨hpair, -⟩ := Prod.ext_iff.mp (Option.some.inj hlast)
  obtain ⟨hstop, hreg⟩ : (x (σ + 1)).rxSM = .pChkStop1 ∧ (x (σ + 1)).rsr = f.character w :=
    Prod.ext_iff.mp hpair
  -- the last bit of a frame is a stop bit
  have hhigh : rxD (τ + 8 * P + 16 * P * (f.size - 1)) = true := by
    have hbit := hbits (f.size - 1) hsize
    rw [f.frame_eq_rxSteps w (x (τ + 1)).rsr, List.getElem?_map, f.rxSteps_last] at hbit
    exact (Option.some.inj hbit).symm
  obtain ⟨hstate', -, -, hwe', hrd'⟩ := next_sample (f := f) hwait h15
    (rxD (τ + 8 * P + 16 * P * (f.size - 1)))
  rw [← hnext] at hstate' hwe' hrd'
  rw [hhigh] at hstate' hwe'
  have hchk : y.rxSM = .pChkStop1 := hstate.trans hstop
  have hwe : (x (τ + 8 * P + 16 * P * (f.size - 1) + 1)).weRHR = true := by
    rw [hwe', hchk]
    rfl
  refine ⟨by rw [hstate', nextState, hchk]; rfl, ?_⟩
  have hquiet : log x (τ + 8 * P + 16 * P * (f.size - 1)) = log x τ := by
    rw [Nat.add_assoc]
    exact log_congr fun t hlt hle => h.quiet_sample hx hlt (by rw [h.next]; omega)
  rw [log, hwe, if_pos rfl, hquiet, hrd' hwe, hchk, hrsr, hreg]
  rfl

/-- On a line that is high, or without an enable, an idle receiver stays idle. -/
theorem Runs.rest (hx : Runs P φ f rxD x) {t n : ℕ} (hidle : (x t).rxSM = .pIdle)
    (hline : ∀ d < n, rxD (t + d) = true ∨ enable P φ (t + d) = false) :
    (x (t + n)).rxSM = .pIdle ∧ log x (t + n) = log x t := by
  induction n with
  | zero => exact ⟨hidle, rfl⟩
  | succ n ih =>
    obtain ⟨hstate, hlog⟩ := ih fun d hd => hline d (by omega)
    have hcases := hline n (by omega)
    rw [← Nat.add_assoc, log, hlog, hx (t + n)]
    generalize enable P φ (t + n) = en at hcases ⊢
    have hwait : (x (t + n)).wait = true := by simp [RxSm.wait, hstate]
    have hwe : ((x (t + n)).next false en f (rxD (t + n))).weRHR = false := by
      simp [RxSm.next, ceRD, hstate]
    refine ⟨?_, by simp [hwe]⟩
    rcases hcases with hhigh | hen
    · simp [RxSm.next, nextState, hstate, hhigh]
    · simp [RxSm.next, ce, hwait, hen, hstate]

theorem Runs.char (hP : 0 < P) (hx : Runs P φ f rxD x) {β : ℕ → ℕ} (hfit : Fits P f.size β)
    (w : BitVec 8) {b : ℕ} (hidle : (x b).rxSM = .pIdle)
    (hline : ∀ k < f.size, ∀ d, β k ≤ d → d < β (k + 1) →
      (f.frame w)[k]? = some (rxD (b + d))) :
    (x (b + β f.size)).rxSM = .pIdle ∧
      log x (b + β f.size) = log x b ++ [0#1 ++ f.character w] := by
  have hpos := f.size_pos
  obtain ⟨hzero, hwindow⟩ := hfit
  obtain ⟨m, hm, hτ, hbetween⟩ := exists_enable hP φ b
  have hwait := hx.rest hidle fun d hd => Or.inr (hbetween d hd)
  have hstart : rxD (b + m) = false := by
    have hfirst := (hwindow 0 hpos).2
    have hbit := hline 0 hpos m (by omega) (by omega)
    exact (Option.some.inj hbit).symm
  obtain ⟨hstate, hlog⟩ := hx.frame hP w hτ hwait.1 hstart fun k hk => by
    obtain ⟨hearly, hlate⟩ := hwindow k hk
    rw [show b + m + 8 * P + 16 * P * k = b + (m + 8 * P + 16 * P * k) by omega]
    exact hline k hk _ (by omega) (by omega)
  -- the rest of the last stop bit
  obtain ⟨hearly, hlate⟩ := hwindow (f.size - 1) (by omega)
  rw [show f.size - 1 + 1 = f.size by omega] at hlate
  have hend : b + β f.size = b + m + 8 * P + 16 * P * (f.size - 1) + 1 +
      (β f.size - (m + 8 * P + 16 * P * (f.size - 1) + 1)) := by omega
  have hrest := hx.rest hstate (n := β f.size - (m + 8 * P + 16 * P * (f.size - 1) + 1))
    fun d hd => Or.inl ?_
  · rw [hend, hrest.2, hlog, hwait.2]
    exact ⟨hrest.1, rfl⟩
  · have hbit := hline (f.size - 1) (by omega) (m + 8 * P + 16 * P * (f.size - 1) + 1 + d)
      (by omega) (by rw [show f.size - 1 + 1 = f.size by omega]; omega)
    rw [f.frame_eq_rxSteps w 0, List.getElem?_map, f.rxSteps_last] at hbit
    rw [show b + m + 8 * P + 16 * P * (f.size - 1) + 1 + d =
      b + (m + 8 * P + 16 * P * (f.size - 1) + 1 + d) by omega]
    exact (Option.some.inj hbit).symm

/-- A receiver that is idle where the line begins hands on the characters of the line, none
lost, none made up and none with an error, however the enables fall. -/
theorem receives (hP : 0 < P) (hx : Runs P φ f rxD x) {a b : ℕ} {ws : List (BitVec 8)}
    (hidle : (x a).rxSM = .pIdle) (hline : Carries f (Fits P f.size) rxD a ws b) :
    (x b).rxSM = .pIdle ∧ log x b = log x a ++ ws.map fun w => 0#1 ++ f.character w := by
  induction hline with
  | start => exact ⟨hidle, (List.append_nil _).symm⟩
  | @mark ws b _ hhigh ih =>
    have hrest := hx.rest ih.1 (n := 1) fun d hd => Or.inl ?_
    · exact ⟨hrest.1, hrest.2.trans ih.2⟩
    · obtain rfl : d = 0 := by omega
      exact hhigh
  | char _ w β hfit hframe ih =>
    obtain ⟨hstate, hlog⟩ := hx.char hP hfit w ih.1 hframe
    refine ⟨hstate, ?_⟩
    rw [hlog, ih.2, List.map_append, List.append_assoc]
    rfl

end RxSm

end SocCrypto.Uart

import SocCrypto.Uart.Line

/-!
# A break on the line

The receiver takes a line that is low for longer than a frame for one character, zero with the error
bit, however long the line stays low, and is idle again two enables after the line is high.
-/

namespace SocCrypto.Uart

open SocCrypto.Clocked

/-- From cycle `a` on the line is high but for frames and breaks, which the receiver takes for a list
of characters with their error bits. A break is low for a frame and a half bit at least, and two
enables come before the next frame. -/
inductive Heard (P : ℕ) (f : Format) (line : ℕ → Bool) (a : ℕ) : List (BitVec 9) → ℕ → Prop
  | start : Heard P f line a [] a
  | mark {ws : List (BitVec 9)} {b : ℕ} (h : Heard P f line a ws b) (hline : line b = true) :
      Heard P f line a ws (b + 1)
  | char {ws : List (BitVec 9)} {b : ℕ} (h : Heard P f line a ws b) (w : BitVec 8) (β : ℕ → ℕ)
      (hfit : Fits P f.size β)
      (hline : ∀ k < f.size, ∀ d, β k ≤ d → d < β (k + 1) →
        (f.frame w)[k]? = some (line (b + d))) :
      Heard P f line a (ws ++ [0#1 ++ f.character w]) (b + β f.size)
  | lineBreak {ws : List (BitVec 9)} {b : ℕ} (h : Heard P f line a ws b) (n : ℕ)
      (hlong : 10 * P + 16 * P * (f.size - 1) ≤ n) (hlow : ∀ d < n, line (b + d) = false)
      (hhigh : ∀ d < 2 * P, line (b + n + d) = true) :
      Heard P f line a (ws ++ [0x100#9]) (b + n + 2 * P)

theorem Heard.later {P : ℕ} {f : Format} {line r : ℕ → Bool}
    (hline : ∀ t, r (t + 1) = line t) {a b : ℕ} {ws : List (BitVec 9)}
    (h : Heard P f line a ws b) : Heard P f r (a + 1) ws (b + 1) := by
  induction h with
  | start => exact Heard.start
  | mark _ hhigh ih => exact ih.mark ((hline _).trans hhigh)
  | @char ws b _ w β hβ hframe ih =>
    rw [Nat.add_right_comm]
    refine ih.char w β hβ fun k hk d hle hlt => ?_
    rw [Nat.add_right_comm, hline]
    exact hframe k hk d hle hlt
  | @lineBreak ws b _ n hlong hlow hhigh ih =>
    rw [show b + n + 2 * P + 1 = b + 1 + n + 2 * P by omega]
    refine ih.lineBreak n hlong (fun d hd => ?_) fun d hd => ?_
    · rw [Nat.add_right_comm, hline]
      exact hlow d hd
    · rw [show b + 1 + n + d = b + n + d + 1 by omega, hline]
      exact hhigh d hd

theorem Heard.le {P : ℕ} {f : Format} {line : ℕ → Bool} {a b : ℕ} {ws : List (BitVec 9)}
    (h : Heard P f line a ws b) : a ≤ b := by
  induction h with
  | start => exact le_rfl
  | mark _ _ ih => omega
  | char _ _ _ _ _ ih => omega
  | lineBreak _ _ _ _ _ ih => omega

namespace RxSm

variable {P φ : ℕ} {f : Format} {x : ℕ → RxSm} {rxD : ℕ → Bool}

theorem Runs.still (hx : Runs P φ f rxD x) {t n : ℕ} (hwait : (x t).wait = true)
    (hnone : ∀ d < n, enable P φ (t + d) = false) :
    (x (t + n)).rxSM = (x t).rxSM ∧ (x (t + n)).rsr = (x t).rsr ∧ log x (t + n) = log x t := by
  induction n with
  | zero => exact ⟨rfl, rfl, rfl⟩
  | succ n ih =>
    obtain ⟨hstate, hrsr, hlog⟩ := ih fun d hd => hnone d (by omega)
    have hwait' : (x (t + n)).wait = true := by rwa [RxSm.wait, hstate]
    have hce : (x (t + n)).ce false = false := by simp [ce, hwait']
    rw [← Nat.add_assoc, log, hlog, hx (t + n), hnone n (by omega)]
    refine ⟨?_, ?_, ?_⟩
    · simp [RxSm.next, hce, hstate]
    · simp [RxSm.next, hce, hrsr]
    · simp [RxSm.next, ceRD, hce]

theorem Runs.wake (hx : Runs P φ f rxD x) {t : ℕ} (hwait : (x t).wait = true) (ht : P ∣ t + φ) :
    (x (t + 1)).rxSM = (x t).nextState f (rxD t) ∧
      log x (t + 1) = log x t ++ if (x t).rxSM = .pRcvError then [1#1 ++ (x t).rsr] else [] := by
  have hen : enable P φ t = true := decide_eq_true ht
  have hce : (x t).ce true = true := by simp [ce, hwait]
  rw [log, hx t, hen]
  refine ⟨by simp [RxSm.next, hce], ?_⟩
  simp only [RxSm.wait, Bool.or_eq_true, beq_iff_eq] at hwait
  rcases hwait with ((hstate | hstate) | hstate) | hstate <;>
    simp [RxSm.next, ceRD, hce, hstate]

/-- The parity or stop bit of a break is wrong. -/
theorem Runs.refuse (hP : 0 < P) (hx : Runs P φ f rxD x) {τ : ℕ} (hτ : P ∣ τ + φ)
    (hidle : (x τ).rxSM = .pIdle)
    (hlow : ∀ d ≤ 8 * P + 16 * P * (f.size - 1), rxD (τ + d) = false) :
    ∃ n ≤ 8 * P + 16 * P * (f.size - 1), P ∣ n ∧ (x (τ + n + 1)).rxSM = .pRcvError ∧
      (x (τ + n + 1)).rsr = 0 ∧ log x (τ + n + 1) = log x τ := by
  -- the first high bit of the frame of zero is not there
  have hlast : (f.frame 0)[f.size - 1]? = some true := by
    rw [f.frame_eq_rxSteps 0 0, List.getElem?_map, f.rxSteps_last]
    rfl
  have hpos := f.size_pos
  have hex : ∃ k, (f.frame 0)[k]? = some true := ⟨f.size - 1, hlast⟩
  obtain ⟨k, hfind, hfirst⟩ : ∃ k, (f.frame 0)[k]? = some true ∧
      ∀ j < k, (f.frame 0)[j]? ≠ some true :=
    ⟨Nat.find hex, Nat.find_spec hex, fun j hj => Nat.find_min hex hj⟩
  have hk : k < f.size := by
    by_contra hge
    exact hfirst (f.size - 1) (by omega) hlast
  have hroom : 16 * P * k ≤ 16 * P * (f.size - 1) := Nat.mul_le_mul_left _ (by omega)
  have hdata : f.dataBits < k := by
    by_contra hge
    rcases Nat.eq_zero_or_pos k with rfl | hkpos
    · exact absurd hfind (by simp [Format.frame])
    · obtain ⟨i, rfl⟩ : ∃ i, k = i + 1 := ⟨k - 1, by omega⟩
      rw [f.frame_data 0 (by omega)] at hfind
      simp at hfind
  obtain ⟨σ, b, h⟩ := Before.iterate hP hx (hx.detect 0 hτ hidle (by simpa using hlow 0 (by omega)))
    hk fun j hj => by
      have hle : 16 * P * j ≤ 16 * P * (f.size - 1) := Nat.mul_le_mul_left _ (by omega)
      rw [show τ + 8 * P + 16 * P * j = τ + (8 * P + 16 * P * j) by omega, hlow _ (by omega)]
      have hbound : j < (f.frame 0).length := by
        rw [f.length_frame]
        omega
      have hne := hfirst j hj
      rw [List.getElem?_eq_getElem hbound] at hne ⊢
      cases hbit : (f.frame 0)[j] with
      | false => rfl
      | true => exact absurd (congrArg some hbit) hne
  obtain ⟨y, hstate, hrsr, h15, hwait, hnext⟩ := hx.sample hP h.phase h.wait h.bCnt
  rw [h.next, show τ + 8 * P + 16 * P * k = τ + (8 * P + 16 * P * k) by omega,
    hlow _ (by omega)] at hnext
  obtain ⟨hnewState, hnewRsr, -, hwe, -⟩ := next_sample (f := f) hwait h15 false
  rw [← hnext] at hnewState hnewRsr hwe
  obtain ⟨v, hv⟩ := h.step
  have hvtrue : v = true := by
    rw [f.frame_eq_rxSteps 0 (x (τ + 1)).rsr, List.getElem?_map, hv] at hfind
    exact Option.some.inj hfind
  have hmem : (((x (σ + 1)).rxSM, (x (σ + 1)).rsr), v) ∈
      (f.rxSteps 0 (x (τ + 1)).rsr).drop (f.dataBits + 1) := by
    refine List.mem_of_getElem? (i := k - (f.dataBits + 1)) ?_
    rw [List.getElem?_drop, show f.dataBits + 1 + (k - (f.dataBits + 1)) = k by omega]
    exact hv
  obtain ⟨herror, hzero⟩ := f.rxSteps_refused 0 _ _ hmem y hstate hrsr
  rw [hvtrue] at herror hzero
  refine ⟨8 * P + 16 * P * k, by omega, ⟨8 + 16 * k, by ring⟩, hnewState.trans herror, ?_, ?_⟩
  · rw [hnewRsr, show y.nextRSR false = f.character 0 from hzero, Format.character]
    split <;> rfl
  · have herr : y.rxSM ≠ .pRcvError := by
      intro herr
      simp [RxSm.wait, herr] at hwait
    rw [log, hwe]
    simp only [Bool.and_false, Bool.false_or, beq_iff_eq, herr, if_false, List.append_nil]
    exact log_congr fun t hlt hle => h.quiet_sample hx hlt (by rw [h.next]; omega)

theorem Runs.next_enable (hP : 0 < P) (hx : Runs P φ f rxD x) {τ : ℕ} (hτ : P ∣ τ + φ)
    (hwait : (x (τ + 1)).wait = true) :
    P ∣ τ + P + φ ∧ (x (τ + P)).rxSM = (x (τ + 1)).rxSM ∧ (x (τ + P)).rsr = (x (τ + 1)).rsr ∧
      log x (τ + P) = log x (τ + 1) := by
  have hstill := hx.still (n := P - 1) hwait fun d hd => by
    rw [show τ + 1 + d = τ + (1 + d) by omega, enable_add hτ]
    exact decide_eq_false (Nat.not_dvd_of_pos_of_lt (by omega) (by omega))
  rw [show τ + 1 + (P - 1) = τ + P by omega] at hstill
  refine ⟨?_, hstill⟩
  rw [show τ + P + φ = τ + φ + P by omega]
  exact Nat.dvd_add hτ (dvd_refl P)

theorem Runs.unmarked (hx : Runs P φ f rxD x) {t n : ℕ} (hstate : (x t).rxSM = .pWaitMark)
    (hlow : ∀ d < n, rxD (t + d) = false) :
    (x (t + n)).rxSM = .pWaitMark ∧ log x (t + n) = log x t := by
  induction n with
  | zero => exact ⟨hstate, rfl⟩
  | succ n ih =>
    obtain ⟨hstill, hlog⟩ := ih fun d hd => hlow d (by omega)
    rw [← Nat.add_assoc, log, hlog, hx (t + n), hlow n (by omega)]
    constructor
    · simp [RxSm.next, nextState, hstill]
    · simp [RxSm.next, ceRD, hstill]

theorem Runs.marked (hP : 0 < P) (hx : Runs P φ f rxD x) {c : ℕ} (hstate : (x c).rxSM = .pWaitMark)
    (hhigh : ∀ d < 2 * P, rxD (c + d) = true) :
    (x (c + 2 * P)).rxSM = .pIdle ∧ log x (c + 2 * P) = log x c := by
  obtain ⟨m, hm, hfirst, hbefore⟩ := exists_enable hP φ c
  have hwait : (x c).wait = true := by simp [RxSm.wait, hstate]
  obtain ⟨hstill, -, hlog⟩ := hx.still hwait hbefore
  have hchk := hx.wake (t := c + m) (by rwa [RxSm.wait, hstill]) hfirst
  rw [hstill, hstate, nextState, hstill, hstate, hhigh m (by omega)] at hchk
  obtain ⟨hsecond, hstill', -, hlog'⟩ := hx.next_enable hP hfirst (by rw [RxSm.wait, hchk.1]; rfl)
  have hmark := hx.wake (t := c + m + P) (by rw [RxSm.wait, hstill', hchk.1]; rfl) hsecond
  rw [hstill', hchk.1, nextState, hstill', hchk.1,
    show c + m + P = c + (m + P) by omega, hhigh (m + P) (by omega)] at hmark
  have hrest := hx.rest (t := c + (m + P) + 1) (n := 2 * P - (m + P + 1)) hmark.1 fun d hd =>
    Or.inl (by
      rw [show c + (m + P) + 1 + d = c + (m + P + 1 + d) by omega]
      exact hhigh _ (by omega))
  rw [show c + (m + P) + 1 + (2 * P - (m + P + 1)) = c + 2 * P by omega] at hrest
  refine ⟨hrest.1, ?_⟩
  rw [hrest.2, hmark.2, ← show c + m + P = c + (m + P) by omega, hlog', hchk.2, hlog]
  simp

theorem Runs.lineBreak (hP : 0 < P) (hx : Runs P φ f rxD x) {a n : ℕ} (hidle : (x a).rxSM = .pIdle)
    (hlong : 10 * P + 16 * P * (f.size - 1) ≤ n) (hlow : ∀ d < n, rxD (a + d) = false)
    (hhigh : ∀ d < 2 * P, rxD (a + n + d) = true) :
    (x (a + n + 2 * P)).rxSM = .pIdle ∧ log x (a + n + 2 * P) = log x a ++ [0x100#9] := by
  obtain ⟨m, hm, hτ, hbefore⟩ := exists_enable hP φ a
  obtain ⟨hstart, hlog⟩ := hx.rest hidle fun d hd => Or.inr (hbefore d hd)
  obtain ⟨j, hj, hdvd, herror, hzero, hnone⟩ := hx.refuse hP hτ hstart fun d hd => by
    rw [Nat.add_assoc]
    exact hlow _ (by omega)
  have hcheck : P ∣ a + m + j + φ := by
    rw [show a + m + j + φ = a + m + φ + j by omega]
    exact Nat.dvd_add hτ hdvd
  obtain ⟨hnext, hstill, hrsr, hlog'⟩ := hx.next_enable hP hcheck (by rw [RxSm.wait, herror]; rfl)
  have hwake := hx.wake (by rw [RxSm.wait, hstill, herror]; rfl) hnext
  rw [hstill, herror, nextState, hstill, herror, if_pos rfl, hrsr, hzero, hlog', hnone,
    hlog] at hwake
  have hmark := hx.unmarked (n := n - (m + j + P + 1)) hwake.1 fun d hd => by
    rw [show a + m + j + P + 1 + d = a + (m + j + P + 1 + d) by omega]
    exact hlow _ (by omega)
  rw [show a + m + j + P + 1 + (n - (m + j + P + 1)) = a + n by omega, hwake.2] at hmark
  obtain ⟨hback, hsame⟩ := hx.marked hP hmark.1 hhigh
  exact ⟨hback, hsame.trans hmark.2⟩

theorem Runs.hands_on (hP : 0 < P) (hx : Runs P φ f rxD x) {a b : ℕ} {ws : List (BitVec 9)}
    (hidle : (x a).rxSM = .pIdle) (hline : Heard P f rxD a ws b) :
    (x b).rxSM = .pIdle ∧ log x b = log x a ++ ws := by
  induction hline with
  | start => exact ⟨hidle, (List.append_nil _).symm⟩
  | @mark ws b _ hhigh ih =>
    have hrest := hx.rest ih.1 (n := 1) fun d hd => Or.inl ?_
    · exact ⟨hrest.1, hrest.2.trans ih.2⟩
    · obtain rfl : d = 0 := by omega
      exact hhigh
  | char _ w β hfit hframe ih =>
    obtain ⟨hstate, hlog⟩ := hx.char hP hfit w ih.1 hframe
    exact ⟨hstate, by rw [hlog, ih.2, List.append_assoc]⟩
  | lineBreak _ n hlong hlow hhigh ih =>
    obtain ⟨hstate, hlog⟩ := hx.lineBreak hP ih.1 hlong hlow hhigh
    exact ⟨hstate, by rw [hlog, ih.2, List.append_assoc]⟩

end RxSm

namespace SspUart

variable {s : ℕ → SspUart} {e : ℕ → Edge} {f : Format} {ps : BitVec 4} {div : BitVec 8}

/-- A burst of characters and breaks for which the receive FIFO has free cells comes into it whole,
whatever the bus does meanwhile. -/
theorem Steady.hears (h : Steady s e f ps div) (hmode : ∀ t, (s t).rs232 = true)
    (hkept : ∀ t, (s t).red3.pls = false) (hsound : (s 0).rf1.Sound) {a b : ℕ}
    {ws : List (BitVec 9)} (hidle : (s (tick e (a + 1))).rcv.rxSM = .pIdle)
    (hline : Heard (Brg.period ps div) f (fun k => (e (tick e k)).lines.rxD232) a ws b)
    (hfree : (s (tick e (a + 2))).rf1.occupancy + ws.length ≤ 64) :
    received s e (b + 2) = received s e (a + 2) ++ ws := by
  obtain ⟨φ, hφ⟩ := h.enable
  have hle := hline.le
  have hlater := hline.later (r := fun k => (s (tick e k)).rxD) (h.rxD hmode)
  have hlog := ((h.rcv hφ).hands_on (Brg.period_pos ps div) hidle hlater).2
  have hroom := h.room_of_free hkept hsound (a := a + 1) (b := b + 1) (n := ws.length)
    (by rw [hlog, List.length_append]) hfree
  obtain ⟨vs, hvs, hrec⟩ := h.received_log hkept hsound (show a + 1 ≤ b + 1 by omega) hroom
  rw [hlog] at hvs
  rw [hrec, ← List.append_cancel_left hvs]

def brokenOff (t : ℕ) : Bool := if t < 160 then oneCharacter t else decide (400 ≤ t)

theorem heard_brokenOff : Heard (Brg.period 0 0) restCore.format brokenOff 0 [0x55, 0x100] 402 := by
  have hstart : Heard (Brg.period 0 0) restCore.format brokenOff 0 [] 0 := Heard.start
  have hchar := hstart.char 0x55 (fun k => 16 * k) ⟨rfl, fun k _ => ?_⟩ fun k hk d hle hlt => ?_
  · exact hchar.lineBreak 240 (by decide)
      (fun d hd => by
        have hlow : ¬ 160 + d < 160 ∧ ¬ 400 ≤ 160 + d := ⟨by omega, by omega⟩
        show brokenOff (160 + d) = false
        rw [brokenOff, if_neg hlow.1, decide_eq_false hlow.2])
      (fun d hd => by
        have hhigh : ¬ 400 + d < 160 ∧ 400 ≤ 400 + d := ⟨by omega, by omega⟩
        show brokenOff (400 + d) = true
        rw [brokenOff, if_neg hhigh.1, decide_eq_true hhigh.2])
  · show 16 * k ≤ 8 * 1 + 16 * 1 * k ∧ 9 * 1 + 16 * 1 * k ≤ 16 * (k + 1)
    omega
  · have hsize : restCore.format.size = 10 := rfl
    have hslot : d / 16 = k := by omega
    rw [Nat.zero_add, brokenOff, if_pos (by omega), oneCharacter, hslot]
    rw [← restCore.format.length_frame 0x55] at hk
    rw [List.getElem?_eq_getElem hk]
    rfl

theorem hears_brokenOff :
    received (fed restCore brokenOff) (fun t => quiet (brokenOff t)) 404 =
      received (fed restCore brokenOff) (fun t => quiet (brokenOff t)) 2 ++ [0x55, 0x100] := by
  obtain ⟨hsteady, hall⟩ := settled_restCore.steady (s := fed restCore brokenOff) fun _ => rfl
  refine hsteady.hears (a := 0) (b := 402) (fun t => ?_) (fun t => ?_) ?_ ?_ ?_ ?_
  · rw [rs232, md, (hall t).2]
    rfl
  · rw [(hall t).1.red3]
    rfl
  · exact ⟨rfl, fun h => absurd h (by decide), by decide⟩
  · rw [tick_quiet]
    decide
  · simp only [tick_quiet]
    exact heard_brokenOff
  · rw [tick_quiet]
    decide

end SspUart

end SocCrypto.Uart

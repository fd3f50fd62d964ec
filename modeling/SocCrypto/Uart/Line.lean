import SocCrypto.Clocked
import SocCrypto.Uart.Receive
import SocCrypto.Uart.Send

/-!
# The UART on its serial lines

The core between its FIFOs and the lines while the control registers keep their values, whatever the
bus does: edge `k` of `Clk` is the `k`-th one among the edges of both clocks. The baud rate generator
gives an enable every `(Div + 1) (PS + 1)` edges, the receive FIFO gets the characters of the line,
and the line carries those of the transmit FIFO.
-/

namespace SocCrypto.Uart

open SocCrypto.Clocked

/-! ### Enables -/

namespace Brg

/-- Edges until the two counters are at their ends. -/
def left (b : Brg) (ps : BitVec 4) : ℕ := b.divider.toNat * (ps.toNat + 1) + b.psCntr.toNat

def period (ps : BitVec 4) (div : BitVec 8) : ℕ := (div.toNat + 1) * (ps.toNat + 1)

theorem period_pos (ps : BitVec 4) (div : BitVec 8) : 0 < period ps div :=
  Nat.mul_pos (Nat.succ_pos _) (Nat.succ_pos _)

theorem tcDivider_eq (b : Brg) (ps : BitVec 4) : b.tcDivider = decide (b.left ps = 0) := by
  have hzero : ∀ {w : ℕ} (x : BitVec w), x = 0 ↔ x.toNat = 0 := by
    intro w x
    rw [← BitVec.toNat_inj]
    simp
  rw [tcDivider, tcPSCntr, Bool.eq_iff_iff, Bool.and_eq_true, beq_iff_eq, beq_iff_eq,
    decide_eq_true_iff, hzero, hzero, left, Nat.add_eq_zero_iff, Nat.mul_eq_zero]
  constructor
  · rintro ⟨hps, hdiv⟩
    exact ⟨Or.inl hdiv, hps⟩
  · rintro ⟨hdiv | hdiv, hps⟩
    · exact ⟨hps, hdiv⟩
    · omega

/-- The counters have been loaded with the values that are set. -/
structure Locked (b : Brg) (ps : BitVec 4) (div : BitVec 8) : Prop where
  lt : b.left ps < period ps div
  ce : b.ce16x = decide (b.left ps + 1 = period ps div)

theorem left_next (b : Brg) (ps : BitVec 4) (div : BitVec 8) :
    (b.next false ps div).left ps =
      if b.left ps = 0 then period ps div - 1 else b.left ps - 1 := by
  have htc := b.tcDivider_eq ps
  by_cases hend : b.left ps = 0
  · rw [if_pos hend]
    rw [decide_eq_true hend] at htc
    have hps : b.tcPSCntr = true := by
      rw [tcDivider, Bool.and_eq_true] at htc
      exact htc.1
    simp only [left, Brg.next, hps, htc, Bool.false_eq_true, if_false, if_true, period]
    rw [Nat.succ_mul]
    omega
  · rw [if_neg hend]
    rw [decide_eq_false hend] at htc
    by_cases hzero : b.psCntr = 0
    · have hps : b.tcPSCntr = true := beq_iff_eq.mpr hzero
      have hdiv : b.divider ≠ 0 := by
        intro hdiv
        rw [tcDivider, hps, hdiv] at htc
        exact absurd htc (by decide)
      have hpred := toNat_pred hdiv
      simp only [left, Brg.next, hps, htc, Bool.false_eq_true, if_false, if_true, hzero]
      rw [← hpred, Nat.succ_mul]
      simp only [BitVec.ofNat_eq_ofNat, BitVec.toNat_ofNat, Nat.zero_mod]
      omega
    · have hps : b.tcPSCntr = false := beq_eq_false_iff_ne.mpr hzero
      have hpred := toNat_pred hzero
      simp only [left, Brg.next, hps, htc, Bool.false_eq_true, if_false]
      omega

theorem Locked.next {b : Brg} {ps : BitVec 4} {div : BitVec 8} (h : b.Locked ps div) :
    (b.next false ps div).Locked ps div := by
  have hleft := b.left_next ps div
  have hpos := period_pos ps div
  have hlt := h.lt
  have hce : (b.next false ps div).ce16x = decide (b.left ps = 0) := b.tcDivider_eq ps
  refine ⟨?_, ?_⟩
  · rw [hleft]
    split <;> omega
  · rw [hce, hleft]
    refine decide_eq_decide.mpr ?_
    split <;> omega

theorem Locked.enable {ps : BitVec 4} {div : BitVec 8} {b : ℕ → Brg} (h : (b 0).Locked ps div)
    (hb : ∀ k, b (k + 1) = (b k).next false ps div) :
    ∃ φ, ∀ k, (b k).ce16x = enable (period ps div) φ k := by
  have hpos := period_pos ps div
  have hlocked : ∀ k, (b k).Locked ps div := by
    intro k
    induction k with
    | zero => exact h
    | succ k ih =>
      rw [hb]
      exact ih.next
  have hphase : ∀ k, period ps div ∣ k + (period ps div - 1 - (b 0).left ps) + (b k).left ps + 1 := by
    intro k
    induction k with
    | zero =>
      have hlt := h.lt
      rw [show 0 + (period ps div - 1 - (b 0).left ps) + (b 0).left ps + 1 = period ps div by omega]
    | succ k ih =>
      have hleft := (b k).left_next ps div
      rw [← hb] at hleft
      rw [hleft]
      by_cases hend : (b k).left ps = 0
      · rw [hend] at ih
        rw [if_pos hend, show k + 1 + (period ps div - 1 - (b 0).left ps) + (period ps div - 1) + 1 =
          k + (period ps div - 1 - (b 0).left ps) + 0 + 1 + period ps div by omega]
        exact Nat.dvd_add ih (dvd_refl _)
      · rw [if_neg hend, show k + 1 + (period ps div - 1 - (b 0).left ps) + ((b k).left ps - 1) + 1 =
          k + (period ps div - 1 - (b 0).left ps) + (b k).left ps + 1 by omega]
        exact ih
  refine ⟨period ps div - 1 - (b 0).left ps, fun k => ?_⟩
  have hlt := (hlocked k).lt
  rw [(hlocked k).ce, Uart.enable]
  refine decide_eq_decide.mpr ⟨fun hlast => ?_, fun hdvd => ?_⟩
  · have hsum := hphase k
    rw [Nat.add_assoc, hlast] at hsum
    exact (Nat.dvd_add_left (dvd_refl _)).mp hsum
  · have hrest := hphase k
    rw [Nat.add_assoc, Nat.dvd_add_right hdvd] at hrest
    exact le_antisymm (by omega) (Nat.le_of_dvd (by omega) hrest)

end Brg

/-! ### What has gone through a FIFO -/

/-- Strobes and data of a FIFO in one cycle. -/
structure Ports (width : ℕ) where
  we : Bool
  re : Bool
  di : BitVec width

namespace Dpsf
variable {addr width : ℕ} {i : ℕ → Ports width} {q : ℕ → Dpsf addr width}

def Runs (i : ℕ → Ports width) (q : ℕ → Dpsf addr width) : Prop :=
  ∀ k, q (k + 1) = (q k).next false (i k).we (i k).re (i k).di

def entered (i : ℕ → Ports width) (q : ℕ → Dpsf addr width) : ℕ → List (BitVec width)
  | 0 => []
  | k + 1 => entered i q k ++ if (q k).wr (i k).we then [(i k).di] else []

def removed (i : ℕ → Ports width) (q : ℕ → Dpsf addr width) : ℕ → List (BitVec width)
  | 0 => []
  | k + 1 => removed i q k ++ if (q k).rd (i k).re then [(q k).dataOut] else []

theorem Runs.sound (ha : 0 < addr) (hq : Runs i q) (hs : (q 0).Sound) (k : ℕ) : (q k).Sound := by
  induction k with
  | zero => exact hs
  | succ k ih =>
    rw [hq]
    exact ih.next ha false _ _ _

/-- The words of a FIFO leave in the order in which they came, and none is lost. -/
theorem Runs.ledger (ha : 0 < addr) (hq : Runs i q) (hs : (q 0).Sound) (k : ℕ) :
    removed i q k ++ (q k).held = (q 0).held ++ entered i q k := by
  induction k with
  | zero => exact (List.append_nil _).symm
  | succ k ih =>
    rw [removed, entered, ← List.append_assoc, ← ih, List.append_assoc, List.append_assoc, hq,
      (hq.sound ha hs k).held_next ha]

theorem entered_prefix {k m : ℕ} (hle : k ≤ m) : entered i q k <+: entered i q m := by
  induction m, hle using Nat.le_induction with
  | base => exact List.prefix_refl _
  | succ m _ ih => exact ih.trans (List.prefix_append _ _)

theorem removed_prefix {k m : ℕ} (hle : k ≤ m) : removed i q k <+: removed i q m := by
  induction m, hle using Nat.le_induction with
  | base => exact List.prefix_refl _
  | succ m _ ih => exact ih.trans (List.prefix_append _ _)

end Dpsf

/-! ### Edges of the clock -/

namespace SspUart

/-- A run in which the reset is low and the format and the baud rate keep their values, the latter
since the counters were loaded. -/
structure Steady (s : ℕ → SspUart) (e : ℕ → Edge) (f : Format) (ps : BitVec 4) (div : BitVec 8) :
    Prop where
  next : ∀ t, s (t + 1) = (s t).step (e t)
  reset : ∀ t, (e t).iRst = false
  clock : ∀ t, ∃ u ≥ t, (e u).clk = true
  locked : (s 0).brg.Locked ps div
  format : ∀ t, (s t).format = f
  ps : ∀ t, (s t).ps = ps
  div : ∀ t, (s t).div = div

/-- Edge `k` of `Clk`. -/
noncomputable def tick (e : ℕ → Edge) (k : ℕ) : ℕ := Nat.nth (fun t => (e t).clk = true) k

variable {s : ℕ → SspUart} {e : ℕ → Edge} {f : Format} {ps : BitVec 4} {div : BitVec 8}

namespace Steady

theorem at_tick (h : Steady s e f ps div) (k : ℕ) : (e (tick e k)).clk = true :=
  Nat.nth_mem_of_infinite (infinite_edges h.clock) k

/-- A part of the core that moves with `Clk` only. -/
theorem next_tick (h : Steady s e f ps div) {α : Type} {g : SspUart → α}
    (hg : ∀ (u : SspUart) (a : Edge), a.iRst = false → a.clk = false → g (u.step a) = g u) (k : ℕ) :
    g (s (tick e (k + 1))) = g ((s (tick e k)).step (e (tick e k))) := by
  rw [← h.next]
  refine Clocked.nth_succ (g := fun t => g (s t)) h.clock (fun t ht => ?_) k
  rw [h.next]
  exact hg _ _ (h.reset t) (Bool.eq_false_of_not_eq_true ht)

theorem first_tick (h : Steady s e f ps div) {α : Type} {g : SspUart → α}
    (hg : ∀ (u : SspUart) (a : Edge), a.iRst = false → a.clk = false → g (u.step a) = g u) :
    g (s (tick e 0)) = g (s 0) := by
  refine Clocked.nth_zero (g := fun t => g (s t)) h.clock fun t ht => ?_
  rw [h.next]
  exact hg _ _ (h.reset t) (Bool.eq_false_of_not_eq_true ht)

theorem enable (h : Steady s e f ps div) :
    ∃ φ, ∀ k, (s (tick e k)).brg.ce16x = Uart.enable (Brg.period ps div) φ k := by
  have hstill : ∀ (u : SspUart) (a : Edge), a.iRst = false → a.clk = false →
      (u.step a).brg = u.brg := by
    intro u a _ hclk
    simp [step, hclk]
  refine Brg.Locked.enable (b := fun k => (s (tick e k)).brg) ?_ fun k => ?_
  · rw [h.first_tick (g := SspUart.brg) hstill]
    exact h.locked
  · refine (h.next_tick (g := SspUart.brg) hstill k).trans ?_
    simp [step, h.at_tick, h.reset, h.ps, h.div]

theorem rcv (h : Steady s e f ps div) {φ : ℕ}
    (hφ : ∀ k, (s (tick e k)).brg.ce16x = Uart.enable (Brg.period ps div) φ k) :
    RxSm.Runs (Brg.period ps div) φ f (fun k => (s (tick e k)).rxD)
      fun k => (s (tick e k)).rcv := by
  intro k
  refine (h.next_tick (g := SspUart.rcv) (fun u a _ hclk => by simp [step, hclk]) k).trans ?_
  simp [step, h.at_tick, h.reset, h.format, hφ]

end Steady

noncomputable def txFeed (s : ℕ → SspUart) (e : ℕ → Edge) (k : ℕ) : Feed :=
  ⟨(s (tick e k)).tf1.ef || (s (tick e k)).txHold, (s (tick e k)).tf1.dataOut,
    (s (tick e k)).ctsI (e (tick e k)).lines⟩

noncomputable def rxPorts (s : ℕ → SspUart) (e : ℕ → Edge) (k : ℕ) : Ports 9 :=
  ⟨(s (tick e k)).rcv.weRHR, (s (tick e k)).red5.pls, (s (tick e k)).rcv.rd⟩

noncomputable def txPorts (s : ℕ → SspUart) (e : ℕ → Edge) (k : ℕ) : Ports 8 :=
  ⟨(s (tick e k)).red4.pls, (s (tick e k)).xmt.tfRE, (s (tick e k)).tdr⟩

namespace Steady

theorem xmt (h : Steady s e f ps div) {φ : ℕ}
    (hφ : ∀ k, (s (tick e k)).brg.ce16x = Uart.enable (Brg.period ps div) φ k) :
    TxSm.Runs (Brg.period ps div) φ f (txFeed s e) fun k => (s (tick e k)).xmt := by
  intro k
  refine (h.next_tick (g := SspUart.xmt) (fun u a _ hclk => by simp [step, hclk]) k).trans ?_
  simp [step, txFeed, h.at_tick, h.reset, h.format, hφ]

theorem rf1 (h : Steady s e f ps div) (hkept : ∀ t, (s t).red3.pls = false) :
    Dpsf.Runs (rxPorts s e) fun k => (s (tick e k)).rf1 := by
  intro k
  refine (h.next_tick (g := SspUart.rf1) (fun u a _ hclk => by simp [step, hclk]) k).trans ?_
  simp [step, rxPorts, h.at_tick, h.reset, hkept]

theorem tf1 (h : Steady s e f ps div) (hkept : ∀ t, (s t).red2.pls = false) :
    Dpsf.Runs (txPorts s e) fun k => (s (tick e k)).tf1 := by
  intro k
  refine (h.next_tick (g := SspUart.tf1) (fun u a _ hclk => by simp [step, hclk]) k).trans ?_
  simp [step, txPorts, h.at_tick, h.reset, hkept]

end Steady

/-- A `Clk` edge with `SSP_SCK` at rest and no access. -/
def quiet (line : Bool) : Edge := ⟨false, true, .none, idleBus, ⟨line, true, true⟩⟩

/-- No strobe between the clocks is under way and the baud rate is the one that is set. -/
structure Settled (u : SspUart) : Prop where
  red2 : u.red2 = Re1ce.clear
  red3 : u.red3 = Re1ce.clear
  red4 : u.red4 = Re1ce.clear
  red5 : u.red5 = Re1ce.clear
  txHold : u.txHold = false
  locked : u.brg.Locked u.ps u.div

theorem Settled.step {u : SspUart} (h : Settled u) (line : Bool) :
    Settled (u.step (quiet line)) ∧ (u.step (quiet line)).ucr = u.ucr ∧
      (u.step (quiet line)).ps = u.ps ∧ (u.step (quiet line)).div = u.div := by
  have hpulse : ∀ den, Re1ce.clear.next false true false den = Re1ce.clear := by decide
  refine ⟨⟨?_, ?_, ?_, ?_, ?_, h.locked.next⟩, rfl, rfl, rfl⟩
  · show u.red2.next false true false _ = Re1ce.clear
    rw [h.red2, hpulse]
  · show u.red3.next false true false _ = Re1ce.clear
    rw [h.red3, hpulse]
  · show u.red4.next false true false _ = Re1ce.clear
    rw [h.red4, hpulse]
  · show u.red5.next false true false _ = Re1ce.clear
    rw [h.red5, hpulse]
  · show (if u.red4.pls then u.hld else u.txHold) = false
    rw [h.red4, h.txHold]
    rfl

theorem Settled.steady {s : ℕ → SspUart} {line : ℕ → Bool} (h : Settled (s 0))
    (hnext : ∀ t, s (t + 1) = (s t).step (quiet (line t))) :
    Steady s (fun t => quiet (line t)) (s 0).format (s 0).ps (s 0).div ∧
      ∀ t, Settled (s t) ∧ (s t).ucr = (s 0).ucr := by
  have hall : ∀ t, Settled (s t) ∧ (s t).ucr = (s 0).ucr ∧ (s t).ps = (s 0).ps ∧
      (s t).div = (s 0).div := by
    intro t
    induction t with
    | zero => exact ⟨h, rfl, rfl, rfl⟩
    | succ t ih =>
      obtain ⟨hset, hucr, hps, hdiv⟩ := ih
      obtain ⟨hset', hucr', hps', hdiv'⟩ := hset.step (line t)
      rw [hnext]
      exact ⟨hset', hucr'.trans hucr, hps'.trans hps, hdiv'.trans hdiv⟩
  refine ⟨⟨hnext, fun _ => rfl, fun t => ⟨t, le_rfl, rfl⟩, h.locked, fun t => ?_,
    fun t => (hall t).2.2.1, fun t => (hall t).2.2.2⟩, fun t => ⟨(hall t).1, (hall t).2.1⟩⟩
  rw [format, fmt, (hall t).2.1]
  rfl

def fed (u : SspUart) (line : ℕ → Bool) : ℕ → SspUart
  | 0 => u
  | t + 1 => (fed u line t).step (quiet (line t))

/-- A core at rest: 8N1, an enable in every cycle, a character in the transmit FIFO. -/
def restCore : SspUart :=
  { cleared with
    rxD := true
    tf1 := ⟨fun _ => 0x55, 1, 0, 1, true, false⟩
    brg := ⟨0, 0, true⟩
    xmt := ⟨.pIdle, false, 0, true, 0, false⟩
    rcv := ⟨.pIdle, 8, 0, 0, false⟩ }

/-- The line with one character, sixteen cycles for a bit. -/
def oneCharacter (t : ℕ) : Bool := ((restCore.format.frame 0x55)[t / 16]?).getD true

theorem settled_restCore : Settled restCore :=
  ⟨rfl, rfl, rfl, rfl, rfl, by decide, by decide⟩

theorem tick_quiet (line : ℕ → Bool) (k : ℕ) : tick (fun t => quiet (line t)) k = k :=
  Nat.nth_of_forall fun _ _ => rfl

/-! ### The receiving side -/

namespace Steady

theorem rxD (h : Steady s e f ps div) (hmode : ∀ t, (s t).rs232 = true) (k : ℕ) :
    (s (tick e (k + 1))).rxD = (e (tick e k)).lines.rxD232 := by
  have hmd : ∀ m : BitVec 2, (!m.getLsbD 1) = true → m = 0 ∨ m = 1 := by decide
  refine (h.next_tick (g := SspUart.rxD)
    (fun u a hrst hclk => by simp [step, hrst, hclk]) k).trans ?_
  simp only [step, h.at_tick, h.reset, Bool.false_eq_true, if_false, if_true]
  unfold nextRxD
  rcases hmd _ (hmode (tick e k)) with hzero | hone
  · rw [hzero]
    rfl
  · rw [hone]
    rfl

end Steady

/-- The words that the receive FIFO has given out, then those that it holds. -/
noncomputable def received (s : ℕ → SspUart) (e : ℕ → Edge) (k : ℕ) : List (BitVec 9) :=
  Dpsf.removed (rxPorts s e) (fun j => (s (tick e j)).rf1) k ++ (s (tick e k)).rf1.held

/-- No character comes while the FIFO is full. -/
def Room (s : ℕ → SspUart) (e : ℕ → Edge) (a b : ℕ) : Prop :=
  ∀ k, a ≤ k → k < b → (s (tick e k)).rcv.weRHR = true → (s (tick e k)).rf1.ff = false

namespace Steady

theorem received_eq (h : Steady s e f ps div) (hkept : ∀ t, (s t).red3.pls = false)
    (hsound : (s 0).rf1.Sound) (k : ℕ) : received s e k =
      (s (tick e 0)).rf1.held ++ Dpsf.entered (rxPorts s e) (fun j => (s (tick e j)).rf1) k := by
  refine Dpsf.Runs.ledger (by omega) (h.rf1 hkept) ?_ k
  rw [h.first_tick (g := SspUart.rf1) fun u a _ hclk => by simp [step, hclk]]
  exact hsound

theorem received_prefix (h : Steady s e f ps div) (hkept : ∀ t, (s t).red3.pls = false)
    (hsound : (s 0).rf1.Sound) {k m : ℕ} (hle : k ≤ m) : received s e k <+: received s e m := by
  rw [h.received_eq hkept hsound, h.received_eq hkept hsound]
  exact (List.prefix_append_right_inj _).mpr (Dpsf.entered_prefix hle)

/-- With room the FIFO gets what the receiver hands on. -/
theorem received_log (h : Steady s e f ps div) (hkept : ∀ t, (s t).red3.pls = false)
    (hsound : (s 0).rf1.Sound) {a b : ℕ} (hle : a ≤ b) (hroom : Room s e (a + 1) (b + 1)) :
    ∃ ws, RxSm.log (fun k => (s (tick e k)).rcv) b = RxSm.log (fun k => (s (tick e k)).rcv) a ++ ws ∧
      received s e (b + 1) = received s e (a + 1) ++ ws := by
  rw [h.received_eq hkept hsound, h.received_eq hkept hsound]
  induction b, hle using Nat.le_induction with
  | base => exact ⟨[], (List.append_nil _).symm, (List.append_nil _).symm⟩
  | succ b hle ih =>
    obtain ⟨ws, hlog, hrec⟩ := ih fun k ha hb => hroom k ha (by omega)
    have hput : (s (tick e (b + 1))).rf1.wr (s (tick e (b + 1))).rcv.weRHR =
        (s (tick e (b + 1))).rcv.weRHR := by
      cases hwe : (s (tick e (b + 1))).rcv.weRHR with
      | false => rfl
      | true => simp [Dpsf.wr, hroom (b + 1) (by omega) (by omega) hwe]
    refine ⟨ws ++ if (s (tick e (b + 1))).rcv.weRHR then [(s (tick e (b + 1))).rcv.rd] else [],
      ?_, ?_⟩
    · rw [RxSm.log, hlog, List.append_assoc]
    · rw [Dpsf.entered, ← List.append_assoc, hrec, List.append_assoc]
      show _ ++ (ws ++ if (s (tick e (b + 1))).rf1.wr (s (tick e (b + 1))).rcv.weRHR = true then
        [(s (tick e (b + 1))).rcv.rd] else []) = _
      rw [hput]

theorem receives (h : Steady s e f ps div) (hmode : ∀ t, (s t).rs232 = true)
    (hkept : ∀ t, (s t).red3.pls = false) (hsound : (s 0).rf1.Sound) {a b : ℕ}
    {ws : List (BitVec 8)} (hidle : (s (tick e (a + 1))).rcv.rxSM = .pIdle)
    (hline : Carries f (Fits (Brg.period ps div) f.size)
      (fun k => (e (tick e k)).lines.rxD232) a ws b)
    (hroom : Room s e (a + 2) (b + 2)) :
    received s e (b + 2) = received s e (a + 2) ++ ws.map fun w => 0#1 ++ f.character w := by
  obtain ⟨φ, hφ⟩ := h.enable
  have hle := hline.le
  have hlater := hline.later (r := fun k => (s (tick e k)).rxD) (h.rxD hmode)
  have hlog := (RxSm.receives (Brg.period_pos ps div) (h.rcv hφ) hidle hlater).2
  obtain ⟨vs, hvs, hrec⟩ := h.received_log hkept hsound (show a + 1 ≤ b + 1 by omega) hroom
  rw [hlog] at hvs
  rw [hrec, ← List.append_cancel_left hvs]

/-- A FIFO with a free cell for every character of a stretch has room. -/
theorem room_of_free (h : Steady s e f ps div) (hkept : ∀ t, (s t).red3.pls = false)
    (hsound : (s 0).rf1.Sound) {a b n : ℕ}
    (hlog : (RxSm.log (fun k => (s (tick e k)).rcv) b).length ≤
      (RxSm.log (fun k => (s (tick e k)).rcv) a).length + n)
    (hfree : (s (tick e (a + 1))).rf1.occupancy + n ≤ 64) : Room s e (a + 1) (b + 1) := by
  have hrun := h.rf1 hkept
  have hstart : (s (tick e 0)).rf1.Sound := by
    rw [h.first_tick (g := SspUart.rf1) fun u a _ hclk => by simp [step, hclk]]
    exact hsound
  have hledger := fun k => congrArg List.length (hrun.ledger (by omega) hstart k)
  simp only [List.length_append, Dpsf.length_held] at hledger
  -- the FIFO gets no more than the receiver hands on
  have hgrow : ∀ j, a ≤ j →
      (Dpsf.entered (rxPorts s e) (fun k => (s (tick e k)).rf1) (j + 1)).length +
          (RxSm.log (fun k => (s (tick e k)).rcv) a).length ≤
        (Dpsf.entered (rxPorts s e) (fun k => (s (tick e k)).rf1) (a + 1)).length +
          (RxSm.log (fun k => (s (tick e k)).rcv) j).length := by
    intro j hj
    induction j, hj using Nat.le_induction with
    | base => exact le_rfl
    | succ j _ ih =>
      rw [Dpsf.entered, RxSm.log, List.length_append, List.length_append]
      have hone : (if (s (tick e (j + 1))).rf1.wr (rxPorts s e (j + 1)).we then
          [(rxPorts s e (j + 1)).di] else []).length ≤
          (if (s (tick e (j + 1))).rcv.weRHR then [(s (tick e (j + 1))).rcv.rd] else []).length := by
        by_cases hwe : (s (tick e (j + 1))).rcv.weRHR = true
        · rw [if_pos hwe]
          split <;> simp
        · rw [if_neg hwe]
          simp [rxPorts, Dpsf.wr, hwe]
      omega
  intro k hk hb hwe
  obtain ⟨j, rfl⟩ : ∃ j, k = j + 1 := ⟨k - 1, by omega⟩
  have hput := hgrow j (by omega)
  have hgot := (Dpsf.removed_prefix (i := rxPorts s e) (q := fun k => (s (tick e k)).rf1)
    (show a + 1 ≤ j + 1 by omega)).length_le
  have hmore : (RxSm.log (fun k => (s (tick e k)).rcv) j).length + 1 ≤
      (RxSm.log (fun k => (s (tick e k)).rcv) b).length := by
    have hlast := (RxSm.log_prefix (x := fun k => (s (tick e k)).rcv)
      (show j + 1 ≤ b by omega)).length_le
    rw [RxSm.log, if_pos hwe, List.length_append] at hlast
    exact hlast
  have hbefore := hledger (a + 1)
  have hnow := hledger (j + 1)
  rw [(hrun.sound (by omega) hstart (j + 1)).ff_eq]
  exact decide_eq_false (by omega)

/-! ### The sending side -/

/-- A character that has been taken leaves the FIFO in the next cycle. -/
theorem taken_eq (h : Steady s e f ps div) (hkept : ∀ t, (s t).red2.pls = false)
    (hsound : (s 0).tf1.Sound) (hrest : (s 0).xmt.tfRE = false) {φ : ℕ}
    (hφ : ∀ k, (s (tick e k)).brg.ce16x = Uart.enable (Brg.period ps div) φ k) (k : ℕ) :
    (TxSm.taken (Uart.enable (Brg.period ps div) φ) (txFeed s e) (fun j => (s (tick e j)).xmt) k =
      Dpsf.removed (txPorts s e) (fun j => (s (tick e j)).tf1) k ++
        if (s (tick e k)).xmt.tfRE then [(s (tick e k)).tf1.dataOut] else []) ∧
      ((s (tick e k)).xmt.tfRE = true →
        (s (tick e k)).tf1.ef = false ∧ (s (tick e k)).xmt.txSM = .pStartBit) := by
  have hq := h.tf1 hkept
  have hstart : (s (tick e 0)).tf1.Sound := by
    rw [h.first_tick (g := SspUart.tf1) fun u a _ hclk => by simp [step, hclk]]
    exact hsound
  induction k with
  | zero =>
    have htfRE : (s (tick e 0)).xmt.tfRE = false := by
      rw [h.first_tick (g := SspUart.xmt) fun u a _ hclk => by simp [step, hclk]]
      exact hrest
    simp [TxSm.taken, Dpsf.removed, htfRE]
  | succ k ih =>
    obtain ⟨htaken, hread⟩ := ih
    have hs := hq.sound (by omega) hstart k
    have hs' := hq.sound (by omega) hstart (k + 1)
    have hnext : (s (tick e (k + 1))).xmt =
        (s (tick e k)).xmt.next false (Uart.enable (Brg.period ps div) φ k) f (txFeed s e k).tfEF
          (txFeed s e k).thr (txFeed s e k).ctsi := h.xmt hφ k
    have hheld := hs.held_next (by omega) (txPorts s e k).we (txPorts s e k).re (txPorts s e k).di
    rw [← hq k] at hheld
    rw [TxSm.taken, Dpsf.removed, htaken]
    cases hload : (s (tick e k)).xmt.ldTSR (Uart.enable (Brg.period ps div) φ k)
        (txFeed s e k).tfEF (txFeed s e k).ctsi with
    | false =>
      have htfRE : (s (tick e (k + 1))).xmt.tfRE = false := by
        rw [hnext]
        simp [TxSm.next, hload]
      have hpop : (s (tick e k)).tf1.rd (txPorts s e k).re = (s (tick e k)).xmt.tfRE := by
        cases hre : (s (tick e k)).xmt.tfRE with
        | false => simp [Dpsf.rd, txPorts, hre]
        | true => simp [Dpsf.rd, txPorts, hre, (hread hre).1]
      rw [htfRE, hpop]
      simp
    | true =>
      have hstate := hload
      simp only [TxSm.ldTSR, Bool.and_eq_true, Bool.or_eq_true, Bool.not_eq_true', beq_iff_eq] at hstate
      obtain ⟨⟨⟨hce, hempty⟩, hcts⟩, hfrom⟩ := hstate
      have hbusy : (s (tick e k)).xmt.txIdle = false := by
        rcases hfrom with (hfrom | hfrom) | hfrom <;> simp [TxSm.txIdle, hfrom]
      have htfRE : (s (tick e k)).xmt.tfRE = false := by
        by_contra hre
        rw [(hread (Bool.eq_true_of_not_eq_false hre)).2] at hfrom
        simp at hfrom
      have htfRE' : (s (tick e (k + 1))).xmt.tfRE = true := by
        rw [hnext]
        simp [TxSm.next, hbusy, hload]
      have hef : (s (tick e k)).tf1.ef = false := (Bool.or_eq_false_iff.mp hempty).1
      -- the oldest word stays where it is
      have hkeep : (s (tick e k)).tf1.rd (txPorts s e k).re = false := by
        simp [Dpsf.rd, txPorts, htfRE]
      have hne : (s (tick e k)).tf1.held ≠ [] := by
        intro hnil
        rw [hs.ef_iff.mpr hnil] at hef
        exact absurd hef (by decide)
      rw [hkeep] at hheld
      have hne' : (s (tick e (k + 1))).tf1.held ≠ [] := by
        intro hnil
        rw [hnil] at hheld
        exact hne (List.append_eq_nil_iff.mp hheld.symm).1
      have hhead : (s (tick e (k + 1))).tf1.dataOut = (s (tick e k)).tf1.dataOut := by
        have hnew := Dpsf.held_head hne'
        have hold := Dpsf.held_head hne
        simp only [Bool.false_eq_true, if_false, List.nil_append] at hheld
        rw [hheld, List.head?_append_of_ne_nil _ hne, hold] at hnew
        exact (Option.some.inj hnew).symm
      refine ⟨?_, fun _ => ⟨?_, ?_⟩⟩
      · rw [htfRE, htfRE', hkeep, hhead]
        simp [txFeed]
      · by_contra hef'
        exact hne' (hs'.ef_iff.mp (Bool.eq_true_of_not_eq_false hef'))
      · rw [hnext, TxSm.next_state hce (txFeed s e k)]
        rcases hfrom with (hfrom | hfrom) | hfrom <;> simp [TxSm.nextState, hfrom, hempty, hcts]

end Steady

/-- The characters that the transmitter has taken from its FIFO. -/
noncomputable def taken (s : ℕ → SspUart) (e : ℕ → Edge) (k : ℕ) : List (BitVec 8) :=
  TxSm.taken (fun j => (s (tick e j)).brg.ce16x) (txFeed s e) (fun j => (s (tick e j)).xmt) k

/-- The characters that the transmit FIFO held at first and has got since. -/
noncomputable def accepted (s : ℕ → SspUart) (e : ℕ → Edge) (k : ℕ) : List (BitVec 8) :=
  (s (tick e 0)).tf1.held ++ Dpsf.entered (txPorts s e) (fun j => (s (tick e j)).tf1) k

structure TxRest (s : SspUart) : Prop where
  sound : s.tf1.Sound
  idle : s.xmt.txSM = .pIdle
  mark : s.xmt.txD = true
  tfRE : s.xmt.tfRE = false

namespace Steady

/-- What has been accepted is what has been taken, then what waits. -/
theorem accepted_eq (h : Steady s e f ps div) (hkept : ∀ t, (s t).red2.pls = false)
    (hrest : TxRest (s 0)) (k : ℕ) : ∃ ws, accepted s e k = taken s e k ++ ws ∧
      ((s (tick e k)).xmt.tfRE = false → ws = (s (tick e k)).tf1.held) := by
  obtain ⟨φ, hφ⟩ := h.enable
  obtain ⟨htaken, hread⟩ := h.taken_eq hkept hrest.sound hrest.tfRE hφ k
  rw [← funext hφ] at htaken
  have hstart : (s (tick e 0)).tf1.Sound := by
    rw [h.first_tick (g := SspUart.tf1) fun u a _ hclk => by simp [step, hclk]]
    exact hrest.sound
  have hs := (h.tf1 hkept).sound (by omega) hstart k
  have hledger := (h.tf1 hkept).ledger (by omega) hstart k
  rw [accepted, taken, htaken, ← hledger]
  cases hre : (s (tick e k)).xmt.tfRE with
  | false => exact ⟨(s (tick e k)).tf1.held, by simp, fun _ => rfl⟩
  | true =>
    have hne : (s (tick e k)).tf1.held ≠ [] := by
      intro hnil
      have hef := (hread hre).1
      rw [hs.ef_iff.mpr hnil] at hef
      exact absurd hef (by decide)
    obtain ⟨c, cs, hheld⟩ := List.exists_cons_of_ne_nil hne
    have hhead := Dpsf.held_head hne
    rw [hheld] at hhead
    refine ⟨cs, ?_, fun hfalse => absurd hfalse (by decide)⟩
    show _ ++ (s (tick e k)).tf1.held = _
    rw [hheld, ← Option.some.inj hhead]
    simp

theorem carries (h : Steady s e f ps div) (hrest : TxRest (s 0)) (k : ℕ) :
    ∃ b, k < b ∧ b ≤ k + 1 + 16 * Brg.period ps div * f.size ∧
      Carries f (Even (16 * Brg.period ps div)) (fun j => (s (tick e j)).xmt.txD) 0
        (TxSm.framed (fun j => (s (tick e j)).xmt) k) b := by
  obtain ⟨φ, hφ⟩ := h.enable
  have hxmt : (s (tick e 0)).xmt = (s 0).xmt :=
    h.first_tick (g := SspUart.xmt) fun u a _ hclk => by simp [step, hclk]
  refine TxSm.sends (Brg.period_pos ps div) (h.xmt hφ) ?_ ?_ k
  · show (s (tick e 0)).xmt.txSM = .pIdle
    rw [hxmt]
    exact hrest.idle
  · show (s (tick e 0)).xmt.txD = true
    rw [hxmt]
    exact hrest.mark

theorem framed_eq_taken_iff (h : Steady s e f ps div) (k : ℕ) :
    TxSm.framed (fun j => (s (tick e j)).xmt) k = taken s e k ↔
      ∀ j < k, (s (tick e j)).xmt.repeats (s (tick e j)).brg.ce16x (txFeed s e j).tfEF
        (txFeed s e j).ctsi = false := by
  obtain ⟨φ, hφ⟩ := h.enable
  have hiff := (h.xmt hφ).framed_eq_taken_iff k
  rwa [← funext hφ] at hiff

/-- The line carries the characters that a frame has been begun for, and these are the first ones
accepted as long as CTS is not low at the end of a last stop bit with a character waiting, and no
longer. -/
theorem line_carries_taken (h : Steady s e f ps div) (hkept : ∀ t, (s t).red2.pls = false)
    (hrest : TxRest (s 0)) (k : ℕ) :
    (∃ b, k < b ∧ b ≤ k + 1 + 16 * Brg.period ps div * f.size ∧
      Carries f (Even (16 * Brg.period ps div)) (fun j => (s (tick e j)).xmt.txD) 0
        (TxSm.framed (fun j => (s (tick e j)).xmt) k) b) ∧
    taken s e k <+: accepted s e k ∧
    (TxSm.framed (fun j => (s (tick e j)).xmt) k = taken s e k ↔
      ∀ j < k, (s (tick e j)).xmt.repeats (s (tick e j)).brg.ce16x (txFeed s e j).tfEF
        (txFeed s e j).ctsi = false) := by
  refine ⟨h.carries hrest k, ?_, h.framed_eq_taken_iff k⟩
  obtain ⟨ws, hws, -⟩ := h.accepted_eq hkept hrest k
  exact ⟨ws, hws.symm⟩

end Steady

theorem txRest_restCore : TxRest restCore :=
  ⟨⟨rfl, fun h => absurd h (by decide), by decide⟩, rfl, rfl, rfl⟩

theorem line_carries_taken_restCore :
    ∃ b, 20 < b ∧ b ≤ 181 ∧ Carries restCore.format (Even 16)
      (fun j => (fed restCore (fun _ => true) j).xmt.txD) 0 [0x55] b := by
  obtain ⟨hsteady, hall⟩ := settled_restCore.steady (s := fed restCore fun _ => true) fun _ => rfl
  have hkept : ∀ t, (fed restCore (fun _ => true) t).red2.pls = false := fun t => by
    rw [(hall t).1.red2]
    rfl
  obtain ⟨b, hlt, hle, hline⟩ := (hsteady.line_carries_taken hkept txRest_restCore 20).1
  simp only [tick_quiet] at hline
  have hframed : TxSm.framed (fun j => (fed restCore (fun _ => true) j).xmt) 20 = [0x55] := by
    decide +kernel
  rw [hframed] at hline
  exact ⟨b, hlt, hle, hline⟩

end SspUart

end SocCrypto.Uart

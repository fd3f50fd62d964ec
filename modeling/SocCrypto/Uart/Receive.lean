import SocCrypto.Uart.Polling

/-!
# Characters on the line

A line held low from the idle state on ends in `pRcvError` in every frame format, and the
receiver then completes a character with its error bit; a line held high brings it back to
the idle state. Any number of characters can so be sent, which puts the receive FIFO at
any level.
-/

namespace SocCrypto.Uart

/-! ### Ranks -/

namespace Brg

/-- `Clk` edges until `CE_16x`, for any `PS` and `Div`. -/
def rank (b : Brg) : ℕ :=
  if b.ce16x then 0 else 1 + b.psCntr.toNat + 16 * b.divider.toNat

theorem rank_le (b : Brg) : b.rank ≤ 4096 := by
  have hps := b.psCntr.isLt
  have hdiv := b.divider.isLt
  unfold rank
  split <;> omega

theorem toNat_pred {w : ℕ} {x : BitVec w} (h : x ≠ 0) : (x - 1).toNat + 1 = x.toNat := by
  have hw : 0 < w := by
    cases w with
    | zero => exact absurd (BitVec.eq_nil x) (fun hx => h (hx.trans (BitVec.eq_nil _).symm))
    | succ w => exact Nat.succ_pos w
  have hpos : x.toNat ≠ 0 := fun hx => h (BitVec.eq_of_toNat_eq (by rw [hx]; simp))
  have hlt := x.isLt
  rw [BitVec.toNat_sub, Dpsf.toNat_one hw,
    show 2 ^ w - 1 + x.toNat = x.toNat - 1 + 2 ^ w by omega, Nat.add_mod_right,
    Nat.mod_eq_of_lt (by omega)]
  omega

theorem rank_next {b : Brg} (h : b.ce16x = false) (ps : BitVec 4) (div : BitVec 8) :
    (b.next false ps div).rank < b.rank := by
  have hlt := ps.isLt
  have hrank : b.rank = 1 + b.psCntr.toNat + 16 * b.divider.toNat := by simp [rank, h]
  rw [hrank]
  by_cases htc : b.psCntr = 0
  · have hps : b.tcPSCntr = true := beq_iff_eq.mpr htc
    by_cases hzero : b.divider = 0
    · have hce : (b.next false ps div).ce16x = true := by
        simp [next, tcDivider, hps, hzero]
      unfold rank
      rw [if_pos hce]
      omega
    · have hdiv : b.tcDivider = false := by
        rw [tcDivider, hps, beq_eq_false_iff_ne.mpr hzero]
        rfl
      have hnext : b.next false ps div = ⟨ps, b.divider - 1, false⟩ := by
        simp [next, hps, hdiv]
      have hpred := toNat_pred hzero
      rw [hnext]
      simp only [rank, Bool.false_eq_true, if_false]
      omega
  · have hps : b.tcPSCntr = false := beq_eq_false_iff_ne.mpr htc
    have hdiv : b.tcDivider = false := by
      rw [tcDivider, hps]
      rfl
    have hnext : b.next false ps div = ⟨b.psCntr - 1, b.divider, false⟩ := by
      simp [next, hps, hdiv]
    have hpred := toNat_pred htc
    rw [hnext]
    simp only [rank, Bool.false_eq_true, if_false]
    omega

end Brg

namespace RxState

/-- States until `pRcvError` on a low line, until `pIdle` on a high one. -/
def order : RxState → ℕ
  | pIdle => 13
  | pChkStart => 12
  | pShift0 => 11
  | pShift1 => 10
  | pShift2 => 9
  | pShift3 => 8
  | pShift4 => 7
  | pShift5 => 6
  | pShift6 => 5
  | pShift7 => 4
  | pChkParity => 3
  | pChkStop2 => 2
  | pChkStop1 => 1
  | pRcvError => 0
  | pWaitMark => 1
  | pChkMark => 0

/-- The states in which the receiver looks for a mark. -/
def marking (q : RxState) : Bool := q == pWaitMark || q == pChkMark

end RxState

namespace RxSm

/-- `CE_16x` pulses until the next change of state. -/
def ticks (x : RxSm) : ℕ := if x.wait then 15 else 15 - x.bCnt.toNat

def rank (x : RxSm) : ℕ := 16 * x.rxSM.order + x.ticks

theorem ticks_le (x : RxSm) : x.ticks ≤ 15 := by
  unfold ticks
  split <;> omega

theorem next_of_not_ce {x : RxSm} {ce16x : Bool} (h : x.ce ce16x = false) (f : Format)
    (rxD : Bool) :
    (x.next false ce16x f rxD).rxSM = x.rxSM ∧
      (x.next false ce16x f rxD).wait = x.wait := by
  have hsm : (x.next false ce16x f rxD).rxSM = x.rxSM := by simp [next, h]
  refine ⟨hsm, ?_⟩
  unfold wait
  rw [hsm]

/-- Between the pulses of `CE_16x` the rank stays. -/
theorem rank_still (x : RxSm) (f : Format) (rxD : Bool) :
    (x.next false false f rxD).rxSM = x.rxSM ∧ (x.next false false f rxD).rank = x.rank := by
  have hce : x.ce false = false := by simp [ce, tcBCnt]
  obtain ⟨hsm, hwait⟩ := next_of_not_ce hce f rxD
  refine ⟨hsm, ?_⟩
  unfold rank ticks
  rw [hsm, hwait]
  cases hw : x.wait with
  | true => rfl
  | false => simp [next, hw]

/-- At a pulse that ends no bit the rank falls with the bit counter. -/
theorem rank_bit {x : RxSm} (h : x.ce true = false) (f : Format) (rxD : Bool) :
    (x.next false true f rxD).rxSM = x.rxSM ∧ (x.next false true f rxD).rank < x.rank := by
  obtain ⟨hsm, hwait⟩ := next_of_not_ce h f rxD
  refine ⟨hsm, ?_⟩
  have hw : x.wait = false := by
    unfold ce at h
    cases hw : x.wait with
    | false => rfl
    | true => simp [hw] at h
  have hcnt : x.bCnt ≠ 15 := by
    intro h15
    simp [ce, hw, tcBCnt, h15] at h
  have hnext : (x.next false true f rxD).bCnt = x.bCnt + 1 := by simp [next, hw]
  have hlt := x.bCnt.isLt
  have hne : x.bCnt.toNat ≠ 15 := fun hn => hcnt (BitVec.eq_of_toNat_eq hn)
  unfold rank ticks
  rw [hsm, hwait, hw, hnext, BitVec.toNat_add]
  simp only [Bool.false_eq_true, if_false, BitVec.toNat_ofNat, BitVec.ofNat_eq_ofNat]
  omega

/-- At a pulse that changes the state the rank falls if the order of the state does. -/
theorem rank_change {x : RxSm} {f : Format} {rxD : Bool} (h : x.ce true = true)
    (hlt : (x.nextState f rxD).order < x.rxSM.order) :
    (x.next false true f rxD).rxSM = x.nextState f rxD ∧
      (x.next false true f rxD).rank < x.rank := by
  have hsm : (x.next false true f rxD).rxSM = x.nextState f rxD := by simp [next, h]
  refine ⟨hsm, ?_⟩
  have hticks := ticks_le (x.next false true f rxD)
  unfold rank
  rw [hsm]
  omega

/-- A low line leads from any state behind the mark towards `pRcvError`. -/
theorem order_low {x : RxSm} (f : Format) (hmark : x.rxSM.marking = false)
    (herr : x.rxSM ≠ .pRcvError) :
    (x.nextState f false).marking = false ∧
      (x.nextState f false).order < x.rxSM.order := by
  unfold nextState
  cases hsm : x.rxSM <;> rw [hsm] at hmark herr <;> dsimp only
  case pWaitMark => exact absurd hmark (by decide)
  case pChkMark => exact absurd hmark (by decide)
  case pRcvError => exact absurd rfl herr
  case pShift6 => cases f.len <;> decide
  case pShift7 => cases f.parEn <;> cases f.numStop <;> decide
  case pChkParity => cases x.parErr f.par false <;> cases f.numStop <;> decide
  all_goals decide

/-- On a low line a receiver behind the mark comes closer to `pRcvError`. -/
theorem rank_low {x : RxSm} (f : Format) (hmark : x.rxSM.marking = false)
    (herr : x.rxSM ≠ .pRcvError) :
    (x.next false true f false).rxSM.marking = false ∧
      (x.next false true f false).rank < x.rank := by
  cases hce : x.ce true with
  | true =>
    obtain ⟨hmark', horder⟩ := order_low f hmark herr
    obtain ⟨hsm, hrank⟩ := rank_change hce horder
    rw [hsm]
    exact ⟨hmark', hrank⟩
  | false =>
    obtain ⟨hsm, hrank⟩ := rank_bit hce f false
    rw [hsm]
    exact ⟨hmark, hrank⟩

/-- On a high line a receiver that looks for the mark comes closer to `pIdle` or is there. -/
theorem rank_high {x : RxSm} (f : Format) (hmark : x.rxSM.marking = true) :
    (x.next false true f true).rxSM = .pIdle ∨
      (x.next false true f true).rxSM.marking = true ∧
        (x.next false true f true).rank < x.rank := by
  have hce : x.ce true = true := by
    unfold RxState.marking at hmark
    rcases Bool.or_eq_true_iff.mp hmark with h | h <;> simp [ce, wait, beq_iff_eq.mp h]
  unfold RxState.marking at hmark
  rcases Bool.or_eq_true_iff.mp hmark with h | h <;> rw [beq_iff_eq] at h
  · have hnext : x.nextState f true = .pChkMark := by simp [nextState, h]
    have horder : (x.nextState f true).order < x.rxSM.order := by
      rw [hnext, h]
      decide
    obtain ⟨hsm, hrank⟩ := rank_change hce horder
    rw [hsm, hnext]
    exact Or.inr ⟨rfl, hrank⟩
  · have hnext : x.nextState f true = .pIdle := by simp [nextState, h]
    left
    simp [next, hce, hnext]

/-- In `pRcvError` the next pulse completes the character. -/
theorem next_error {x : RxSm} (f : Format) (rxD : Bool) (h : x.rxSM = .pRcvError) :
    (x.next false true f rxD).rxSM = .pWaitMark ∧ (x.next false true f rxD).weRHR = true := by
  have hce : x.ce true = true := by simp [ce, wait, h]
  constructor
  · simp [next, hce, nextState, h]
  · simp [next, ceRD, hce, h]

end RxSm

namespace SspUart

/-! ### The line -/

/-- A `Clk` edge at an edge of `SSP_SCK`, with no access. -/
def wire (up line : Bool) : Edge :=
  ⟨false, true, if up then .rise else .fall, idleBus, ⟨line, true, true⟩⟩

/-- The samples of a list on the line, `SSP_SCK` rising and falling in turn. -/
def drive : Bool → List Bool → List Edge
  | _, [] => []
  | up, l :: ls => wire up l :: drive (!up) ls

theorem drive_append (up : Bool) (ls : List Bool) :
    ∃ up', ∀ ms, drive up (ls ++ ms) = drive up ls ++ drive up' ms := by
  induction ls generalizing up with
  | nil => exact ⟨up, fun _ => rfl⟩
  | cons l ls ih =>
    obtain ⟨up', h⟩ := ih (!up)
    exact ⟨up', fun ms => congrArg (wire up l :: ·) (h ms)⟩

theorem wire_passive (up line : Bool) : Passive (wire up line) := by
  refine ⟨⟨rfl, rfl⟩, rfl⟩

theorem drive_passive (up : Bool) (ls : List Bool) : ∀ e ∈ drive up ls, Passive e := by
  induction ls generalizing up with
  | nil => exact fun e he => absurd he List.not_mem_nil
  | cons l ls ih =>
    intro e he
    rcases List.mem_cons.mp he with rfl | he
    · exact wire_passive up l
    · exact ih (!up) e he

theorem drive_clk (up : Bool) (ls : List Bool) : (drive up ls).countP Edge.clk = ls.length := by
  induction ls generalizing up with
  | nil => rfl
  | cons l ls ih =>
    rw [drive, List.countP_cons, ih]
    rfl

/-- The top two bits of `USR` are those of `UCR`. -/
theorem status_mode (s : SspUart) (l : Lines) : (s.status l).extractLsb' 10 2 = s.md := by
  apply BitVec.eq_of_getLsbD_eq
  intro i hi
  rw [BitVec.getLsbD_extractLsb', decide_eq_true hi, Bool.true_and]
  unfold status
  simp only [BitVec.getLsbD_append]
  rcases (by omega : i = 0 ∨ i = 1) with rfl | rfl <;> rfl

/-- Mode 232 without a removal under way. -/
structure Wired (s : SspUart) : Prop where
  kept : Kept s
  rest : s.red5 = Re1ce.clear
  mode : s.md = 0
  next : s.usr.extractLsb' 10 2 = 0

theorem Wired.step {s : SspUart} (h : Wired s) (up line : Bool) : Wired (step s (wire up line)) := by
  have hp := wire_passive up line
  constructor
  case kept => exact h.kept.step hp.toCalm
  case rest => exact red5_rest h.rest hp.toCalm (by simp [reRDR, hp.elsewhere])
  case mode =>
    have hmode := h.mode
    cases up with
    | true => exact hmode
    | false => exact h.next
  case next =>
    cases up with
    | true =>
      show (s.status _).extractLsb' 10 2 = 0
      rw [status_mode, h.mode]
    | false => exact h.next

theorem rcv_wire (s : SspUart) (up line : Bool) :
    (step s (wire up line)).rcv = s.rcv.next false s.brg.ce16x s.format s.rxD := rfl

theorem brg_wire (s : SspUart) (up line : Bool) :
    (step s (wire up line)).brg = s.brg.next false s.ps s.div := rfl

theorem Wired.rxD {s : SspUart} (h : Wired s) (up line : Bool) :
    (SspUart.step s (wire up line)).rxD = line := by
  show s.nextRxD ⟨line, true, true⟩ = line
  unfold nextRxD
  rw [h.mode]
  rfl

theorem Wired.held_step {s : SspUart} (h : Wired s) (up line : Bool) :
    (SspUart.step s (wire up line)).rf1.held =
      s.rf1.held ++ (if s.rf1.ff then [] else if s.rcv.weRHR then [s.rcv.rd] else []) := by
  have hheld := h.kept.held_step (wire_passive up line).toCalm
  rw [removal_rest h.rest] at hheld
  exact hheld

/-- The FIFO fills by one character at most. -/
theorem Wired.occupancy_step {s : SspUart} (h : Wired s) (up line : Bool) :
    s.rf1.occupancy ≤ (SspUart.step s (wire up line)).rf1.occupancy ∧
      (SspUart.step s (wire up line)).rf1.occupancy ≤ s.rf1.occupancy + 1 := by
  have hheld := congrArg List.length (h.held_step up line)
  rw [List.length_append, Dpsf.length_held, Dpsf.length_held] at hheld
  split at hheld
  · simp at hheld
    omega
  · split at hheld <;> simp at hheld <;> omega

theorem Wired.run {s : SspUart} (h : Wired s) (up : Bool) (ls : List Bool) :
    Wired (run s (drive up ls)) := by
  induction ls generalizing s up with
  | nil => exact h
  | cons l ls ih => exact ih (h.step up l) (!up)

theorem Wired.occupancy_run {s : SspUart} (h : Wired s) (up : Bool) (ls : List Bool) :
    s.rf1.occupancy ≤ (SspUart.run s (drive up ls)).rf1.occupancy ∧
      (SspUart.run s (drive up ls)).rf1.occupancy ≤ s.rf1.occupancy + ls.length := by
  induction ls generalizing s up with
  | nil => exact ⟨le_refl _, le_refl _⟩
  | cons l ls ih =>
    have hstep := h.occupancy_step up l
    have hrest := ih (h.step up l) (!up)
    have hrun : SspUart.run s (drive up (l :: ls)) =
      SspUart.run (SspUart.step s (wire up l)) (drive (!up) ls) := rfl
    rw [hrun, List.length_cons]
    omega

/-- Some samples on the line lead from `s` to `Q`, from either edge of `SSP_SCK` on. -/
def Reaches (s : SspUart) (Q : SspUart → Prop) : Prop :=
  ∀ up, ∃ ls, Q (run s (drive up ls))

theorem Reaches.trans {s : SspUart} {Q R : SspUart → Prop} (h : Reaches s Q)
    (hQ : ∀ up ls, Q (run s (drive up ls)) → Reaches (run s (drive up ls)) R) : Reaches s R := by
  intro up
  obtain ⟨ls, hls⟩ := h up
  obtain ⟨up', hsplit⟩ := drive_append up ls
  obtain ⟨ms, hms⟩ := hQ up ls hls up'
  refine ⟨ls ++ ms, ?_⟩
  rw [hsplit, run_append]
  exact hms

theorem reaches_cons {s : SspUart} {Q : SspUart → Prop} (l : Bool)
    (h : ∀ up, Reaches (step s (wire up l)) Q) : Reaches s Q := by
  intro up
  obtain ⟨ls, hls⟩ := h up (!up)
  exact ⟨l :: ls, hls⟩

theorem reaches_one {s : SspUart} {Q : SspUart → Prop} (l : Bool)
    (h : ∀ up, Q (step s (wire up l))) : Reaches s Q := by
  intro up
  exact ⟨[l], h up⟩

/-! ### One character -/

/-- `Clk` edges until the receiver reaches the state the line leads it to. -/
def rank (s : SspUart) : ℕ := 4097 * s.rcv.rank + s.brg.rank

theorem rank_idle {s : SspUart} (h : s.brg.ce16x = false) (up line : Bool) :
    (step s (wire up line)).rcv.rxSM = s.rcv.rxSM ∧ rank (step s (wire up line)) < rank s := by
  have hbrg := Brg.rank_next h s.ps s.div
  obtain ⟨hsm, hrcv⟩ := s.rcv.rank_still s.format s.rxD
  unfold rank
  rw [rcv_wire, brg_wire, h, hrcv]
  exact ⟨hsm, by omega⟩

theorem rank_pulse {s : SspUart} (up line : Bool)
    (h : (step s (wire up line)).rcv.rank < s.rcv.rank) :
    rank (step s (wire up line)) < rank s := by
  have hbrg := (step s (wire up line)).brg.rank_le
  unfold rank
  omega

/-- The receiver has completed a character on a low line. -/
def Completed (s : SspUart) : Prop :=
  s.rcv.weRHR = true ∧ s.rcv.rxSM = .pWaitMark ∧ s.rxD = false

theorem reaches_completed {s : SspUart} (h : Wired s) (hmark : s.rcv.rxSM.marking = false)
    (hline : s.rxD = false) : Reaches s Completed := by
  -- on the rank, one edge at a time
  induction hn : rank s using Nat.strongRecOn generalizing s with
  | ind n ih =>
    apply reaches_cons false
    intro up
    have hlow := h.rxD up false
    have hrcv := rcv_wire s up false
    rw [hline] at hrcv
    cases hce : s.brg.ce16x with
    | false =>
      obtain ⟨hsm, hless⟩ := rank_idle hce up false
      exact ih _ (by omega) (h.step up false) (by rw [hsm]; exact hmark) hlow rfl
    | true =>
      rw [hce] at hrcv
      by_cases herr : s.rcv.rxSM = .pRcvError
      · obtain ⟨hsm, hwe⟩ := RxSm.next_error s.format false herr
        refine fun _ => ⟨[], ?_, ?_, hlow⟩
        · rw [drive, run_nil, hrcv, hwe]
        · rw [drive, run_nil, hrcv, hsm]
      · obtain ⟨hmark', hless⟩ := RxSm.rank_low s.format hmark herr
        rw [← hrcv] at hmark' hless
        have hrank := rank_pulse up false hless
        exact ih _ (by omega) (h.step up false) hmark' hlow rfl

theorem reaches_idle {s : SspUart} (h : Wired s) (hmark : s.rcv.rxSM.marking = true)
    (hline : s.rxD = true) : Reaches s fun t => t.rcv.rxSM = .pIdle ∧ t.rxD = true := by
  induction hn : rank s using Nat.strongRecOn generalizing s with
  | ind n ih =>
    apply reaches_cons true
    intro up
    have hhigh := h.rxD up true
    have hrcv := rcv_wire s up true
    rw [hline] at hrcv
    cases hce : s.brg.ce16x with
    | false =>
      obtain ⟨hsm, hless⟩ := rank_idle hce up true
      exact ih _ (by omega) (h.step up true) (by rw [hsm]; exact hmark) hhigh rfl
    | true =>
      rw [hce] at hrcv
      rcases RxSm.rank_high s.format hmark with hidle | ⟨hmark', hless⟩
      · refine fun _ => ⟨[], ?_, hhigh⟩
        rw [drive, run_nil, hrcv, hidle]
      · rw [← hrcv] at hmark' hless
        have hrank := rank_pulse up true hless
        exact ih _ (by omega) (h.step up true) hmark' hhigh rfl

theorem RxSm.next_wait {x : RxSm} (ce16x : Bool) (f : Format) (h : x.rxSM = .pWaitMark) :
    (x.next false ce16x f false).rxSM = .pWaitMark ∧
      ∀ rxD, (x.next false ce16x f rxD).rxSM.marking = true := by
  have hce : x.ce ce16x = ce16x := by simp [RxSm.ce, RxSm.wait, h]
  constructor
  · cases ce16x <;> simp [RxSm.next, hce, RxSm.nextState, h]
  · intro rxD
    cases ce16x <;> cases rxD <;> simp [RxSm.next, hce, RxSm.nextState, h, RxState.marking]

theorem RxSm.next_idle {x : RxSm} (ce16x : Bool) (f : Format) (h : x.rxSM = .pIdle) :
    (x.next false ce16x f true).rxSM = .pIdle := by
  have hce : x.ce ce16x = ce16x := by simp [RxSm.ce, RxSm.wait, h]
  cases ce16x <;> simp [RxSm.next, hce, RxSm.nextState, h]

/-- A completed character enters a FIFO that has room. -/
theorem Wired.occupancy_put {s : SspUart} (h : Wired s) (hwe : s.rcv.weRHR = true)
    (hroom : s.rf1.occupancy < 64) (up line : Bool) :
    (SspUart.step s (wire up line)).rf1.occupancy = s.rf1.occupancy + 1 := by
  have hff : s.rf1.ff = false := by
    rw [h.kept.fifo.ff_eq, decide_eq_false_iff_not]
    omega
  have hheld := congrArg List.length (h.held_step up line)
  rw [hff, hwe, List.length_append, Dpsf.length_held, Dpsf.length_held] at hheld
  exact hheld

/-- From the wait for a mark to the next one, with one more character in the FIFO. -/
theorem reaches_character {s : SspUart} (h : Wired s) (hwait : s.rcv.rxSM = .pWaitMark)
    (hroom : s.rf1.occupancy < 64) :
    Reaches s fun t =>
      t.rcv.rxSM = .pWaitMark ∧ t.rxD = false ∧ s.rf1.occupancy < t.rf1.occupancy := by
  apply reaches_cons true
  intro up
  have h1 := h.step up true
  have hocc1 := (h.occupancy_step up true).1
  have hmark : (step s (wire up true)).rcv.rxSM.marking = true := by
    rw [rcv_wire]
    exact (RxSm.next_wait s.brg.ce16x s.format hwait).2 s.rxD
  apply (reaches_idle h1 hmark (h.rxD up true)).trans
  rintro up' ls ⟨hidle, hhigh⟩
  have h2 := h1.run up' ls
  have hocc2 := (h1.occupancy_run up' ls).1
  generalize run (step s (wire up true)) (drive up' ls) = s2 at h2 hocc2 hidle hhigh ⊢
  apply reaches_cons false
  intro up
  have h3 := h2.step up false
  have hocc3 := (h2.occupancy_step up false).1
  have hstart : (step s2 (wire up false)).rcv.rxSM.marking = false := by
    rw [rcv_wire, hhigh, RxSm.next_idle s2.brg.ce16x s2.format hidle]
    rfl
  apply (reaches_completed h3 hstart (h2.rxD up false)).trans
  rintro up' ls ⟨hwe, hsm, hlow⟩
  have h4 := h3.run up' ls
  have hocc4 := (h3.occupancy_run up' ls).1
  generalize run (step s2 (wire up false)) (drive up' ls) = s4 at h4 hocc4 hwe hsm hlow ⊢
  apply reaches_one false
  intro up
  have hocc5 := (h4.occupancy_step up false).1
  refine ⟨?_, h4.rxD up false, ?_⟩
  · rw [rcv_wire, hlow]
    exact (RxSm.next_wait s4.brg.ce16x s4.format hsm).1
  · by_cases hput : s4.rf1.occupancy < 64
    · rw [h4.occupancy_put hwe hput]
      omega
    · omega

theorem reaches_level {s : SspUart} (h : Wired s) (hwait : s.rcv.rxSM = .pWaitMark) {m : ℕ}
    (hm : m ≤ 64) :
    Reaches s fun t => t.rcv.rxSM = .pWaitMark ∧ m ≤ t.rf1.occupancy := by
  induction m with
  | zero => exact fun _ => ⟨[], hwait, Nat.zero_le _⟩
  | succ m ih =>
    apply (ih (by omega)).trans
    rintro up ls ⟨hwait', hocc⟩
    have h' := h.run up ls
    generalize run s (drive up ls) = t at h' hwait' hocc ⊢
    by_cases hroom : t.rf1.occupancy < 64
    · intro up'
      obtain ⟨ms, hsm, -, hmore⟩ := reaches_character h' hwait' hroom up'
      exact ⟨ms, hsm, by omega⟩
    · exact fun _ => ⟨[], hwait', by rw [drive, run_nil]; omega⟩

/-- On the way up no level is skipped. -/
theorem level_between {s : SspUart} (h : Wired s) (up : Bool) (ls : List Bool) {m : ℕ}
    (hlow : s.rf1.occupancy ≤ m) (hhigh : m ≤ (run s (drive up ls)).rf1.occupancy) :
    ∃ ms, (run s (drive up ms)).rf1.occupancy = m := by
  induction ls generalizing s up with
  | nil => exact ⟨[], le_antisymm hlow hhigh⟩
  | cons l ls ih =>
    by_cases hm : s.rf1.occupancy = m
    · exact ⟨[], hm⟩
    · have hstep := (h.occupancy_step up l).2
      obtain ⟨ms, hms⟩ := ih (h.step up l) (!up) (by omega) hhigh
      exact ⟨l :: ms, hms⟩

theorem wired_reset : Wired (step cleared resetEdge) ∧
    (step cleared resetEdge).rcv.rxSM = .pWaitMark ∧
    (step cleared resetEdge).rf1.occupancy = 0 := by
  have horder := inOrder_reset cleared (e := resetEdge) ⟨rfl, rfl⟩
  exact ⟨⟨⟨horder.fifo, rfl, horder.pulse⟩, rfl, rfl, rfl⟩, rfl, rfl⟩

theorem exists_level {m : ℕ} (hm : m ≤ 64) :
    ∃ ls, (run (step cleared resetEdge) (drive true ls)).rf1.occupancy = m := by
  obtain ⟨hwired, hwait, hzero⟩ := wired_reset
  obtain ⟨ls, -, hls⟩ := reaches_level hwired hwait hm true
  exact level_between hwired true ls (by omega) hls

end SspUart

open SspUart

/-! ### A level that the poll misses -/

/-- One period of the read of `USR`, one more of it and two of the read of `RDR` if the test
succeeds, and two without an access. -/
def plainPoll : Poll where
  capture := ⟨false, true, .rise, readBus 1, markLines⟩
  hold := [⟨false, true, .fall, readBus 1, markLines⟩]
  gap := period (readBus 1)
  access := period (readBus 3) ++ period (readBus 3)
  sleep := period idleBus ++ period idleBus
  captures := by decide
  holds := by decide
  spaced := by decide
  reading := by decide
  strobed := by decide
  sleeping := by decide
  settles := by decide

/-- A session whose poll loop starts behind the samples of `ls` and four or five of a mark,
the last of them at a falling edge of `SSP_SCK`. -/
def lineSession (ls : List Bool) : Session where
  powerUp := cleared
  reset := resetEdge
  earlier := drive true ls
  prepare := drive (ls.length % 2 == 0) (List.replicate (4 + ls.length % 2) true)
  polls := fun _ => plainPoll
  resets := by decide
  prepared := drive_passive _ _
  settles := by
    rw [drive_clk, List.length_replicate]
    exact Nat.le_add_right 4 _

theorem lineSession_occupancy (ls : List Bool) :
    (run (step cleared resetEdge) (drive true ls)).rf1.occupancy ≤
        ((lineSession ls).device 0).rf1.occupancy ∧
      ((lineSession ls).device 0).rf1.occupancy ≤
        (run (step cleared resetEdge) (drive true ls)).rf1.occupancy + 5 := by
  have hwired := wired_reset.1.run true ls
  have hocc := hwired.occupancy_run (ls.length % 2 == 0) (List.replicate (4 + ls.length % 2) true)
  have hdevice : (lineSession ls).device 0 =
      run (run (step cleared resetEdge) (drive true ls))
        (drive (ls.length % 2 == 0) (List.replicate (4 + ls.length % 2) true)) :=
    run_append _ _ _
  rw [List.length_replicate] at hocc
  rw [hdevice]
  omega

/-- With 32 characters in the receive FIFO the poll finds bit 6 down and reads nothing. -/
theorem polling_misses_halfFull : ¬ ∀ σ, NeverLeftBehind σ := by
  intro h
  obtain ⟨ls, hls⟩ := exists_level (m := 32) (by omega)
  obtain ⟨hlow, hhigh⟩ := lineSession_occupancy ls
  have hgoing : ((lineSession ls).chars 0).length < 10 := Nat.succ_pos 9
  have hshown := shown_of_neverLeftBehind (h (lineSession ls)) hgoing
  unfold Session.Hidden at hshown
  omega

end SocCrypto.Uart

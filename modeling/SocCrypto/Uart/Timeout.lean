import SocCrypto.Uart.Line

/-!
# The receive timeout

Three counters behind each other count sixteenths of a bit, bits and characters from the last
character on. `Count` is their common value, as an odometer with digits `b`, `c` and `p`.
-/

namespace SocCrypto.Uart

open SocCrypto.Clocked

namespace Rto

/-- Bit, frame and character digit after `n` enables since the last character. -/
structure Count (x : Rto) (cCntVal rtoVal : BitVec 4) (n : ℕ) : Prop where
  rtoArm : x.rtoArm = true
  rcvTimeout : x.rcvTimeout = false
  digits : ∃ b c p, n = 16 * ((cCntVal.toNat + 1) * p + c) + b ∧ x.bCnt.toNat = b ∧
    x.cCnt.toNat + c = cCntVal.toNat ∧ x.rtoCnt.toNat + p = rtoVal.toNat ∧
    x.tcBCnt = decide (b = 15) ∧
    (0 < b → x.tcCCnt = decide (c = cCntVal.toNat) ∧ x.tcRTOCnt = decide (p = rtoVal.toNat))

variable {x : Rto} {cCntVal rtoVal : BitVec 4}

theorem Count.arm (x : Rto) (ce16x : Bool) (cCntVal rtoVal : BitVec 4)
    (hclear : (x.next false ce16x true false cCntVal rtoVal).rcvTimeout = false) :
    Count (x.next false ce16x true false cCntVal rtoVal) cCntVal rtoVal 0 := by
  have hno : x.ceRTO ce16x = false := by
    by_contra hce
    simp [Rto.next, hce] at hclear
  refine ⟨by simp [Rto.next, clrRTOArm, hno], hclear, 0, 0, 0, rfl, ?_, ?_, ?_, ?_, fun h => ?_⟩
  · simp [Rto.next, clrBCnt]
  · simp [Rto.next, clrBCnt]
  · simp [Rto.next, clrBCnt]
  · simp [Rto.next, clrBCnt]
  · omega

theorem Count.hold {n : ℕ} (h : Count x cCntVal rtoVal n) :
    Count (x.next false false false false cCntVal rtoVal) cCntVal rtoVal n := by
  have hno : x.ceRTO false = false := rfl
  have hclr : x.clrBCnt false false false false = false := by
    simp [clrBCnt, clrRTOArm, hno, h.rtoArm]
  refine ⟨by simp [Rto.next, clrRTOArm, hno, h.rtoArm], by simp [Rto.next, hno, h.rcvTimeout], ?_⟩
  simpa [Rto.next, hclr] using h.digits

theorem toNat_eq_ofNat_iff {v : BitVec 4} {m : ℕ} (hm : m < 16) :
    (v == BitVec.ofNat 4 m) = decide (v.toNat = m) := by
  rw [Bool.eq_iff_iff, beq_iff_eq, decide_eq_true_iff, ← BitVec.toNat_inj, BitVec.toNat_ofNat,
    Nat.mod_eq_of_lt hm]

theorem Count.tick {n : ℕ} (h : Count x cCntVal rtoVal n) :
    if n + 1 = 16 * ((cCntVal.toNat + 1) * (rtoVal.toNat + 1)) then
      (x.next false true false false cCntVal rtoVal).rcvTimeout = true
    else Count (x.next false true false false cCntVal rtoVal) cCntVal rtoVal (n + 1) := by
  obtain ⟨b, c, p, hn, hb, hc, hp, htb, htc⟩ := h.digits
  have hlt := x.bCnt.isLt
  rcases Nat.lt_or_ge b 15 with hbit | hlast
  · -- within a bit
    have hno : x.ceRTO true = false := by
      rw [ceRTO, htb, decide_eq_false (by omega)]
      rfl
    have hclr : x.clrBCnt false true false false = false := by
      simp [clrBCnt, clrRTOArm, hno, h.rtoArm]
    have hmore : ¬ n + 1 = 16 * ((cCntVal.toNat + 1) * (rtoVal.toNat + 1)) := by omega
    have hnot : x.tcBCnt = false := by
      rw [htb]
      exact decide_eq_false (by omega)
    rw [if_neg hmore]
    refine ⟨by simp [Rto.next, clrRTOArm, hno, h.rtoArm], by simp [Rto.next, hno, h.rcvTimeout],
      b + 1, c, p, by omega, ?_, ?_, ?_, ?_, fun _ => ⟨?_, ?_⟩⟩
    · simp only [Rto.next, hclr, Bool.false_eq_true, if_false, if_true]
      exact toNat_add_one hb (by omega)
    · simpa [Rto.next, hclr, hnot] using hc
    · simpa [Rto.next, hclr, hnot] using hp
    · simp only [Rto.next, hclr, Bool.false_eq_true, if_false, if_true]
      rw [show (14 : BitVec 4) = BitVec.ofNat 4 14 from rfl, toNat_eq_ofNat_iff (by omega), hb]
      exact decide_eq_decide.mpr (by omega)
    · simp only [Rto.next, hclr, Bool.false_eq_true, if_false, if_true]
      rw [show (0 : BitVec 4) = BitVec.ofNat 4 0 from rfl, toNat_eq_ofNat_iff (by omega)]
      exact decide_eq_decide.mpr (by omega)
    · simp only [Rto.next, hclr, Bool.false_eq_true, if_false, if_true]
      rw [show (0 : BitVec 4) = BitVec.ofNat 4 0 from rfl, toNat_eq_ofNat_iff (by omega)]
      exact decide_eq_decide.mpr (by omega)
  · -- at the end of a bit
    obtain rfl : b = 15 := by omega
    obtain ⟨hframe, hrto⟩ := htc (by omega)
    have hchar := Nat.mul_le_mul_left (cCntVal.toNat + 1) (show p + 1 ≤ rtoVal.toNat + 1 by omega)
    have hsucc := Nat.mul_add_one (cCntVal.toNat + 1) p
    have hend : x.tcBCnt = true := htb
    have hwrap : ∀ y : Rto, x.clrBCnt false true false false = false →
        y = x.next false true false false cCntVal rtoVal →
        y.bCnt.toNat = 0 ∧ y.tcBCnt = decide (0 = 15) := by
      rintro y hclr rfl
      have hbit : x.bCnt = 15 := BitVec.eq_of_toNat_eq hb
      simp [Rto.next, hclr, hbit]
    by_cases hc' : c = cCntVal.toNat
    · by_cases hp' : p = rtoVal.toNat
      · have hce : x.ceRTO true = true := by
          rw [ceRTO, hend, hframe, hrto, decide_eq_true hc', decide_eq_true hp']
          rfl
        rw [if_pos (by rw [hn, hc', hp', Nat.mul_add_one]; omega)]
        simp [Rto.next, hce]
      · have hno : x.ceRTO true = false := by
          rw [ceRTO, hrto, decide_eq_false hp', Bool.and_false]
        have hclr : x.clrBCnt false true false false = false := by
          simp [clrBCnt, clrRTOArm, hno, h.rtoArm]
        have hmore := Nat.mul_le_mul_left (cCntVal.toNat + 1)
          (show p + 1 + 1 ≤ rtoVal.toNat + 1 by omega)
        have hsucc' := Nat.mul_add_one (cCntVal.toNat + 1) (p + 1)
        obtain ⟨hzero, hflag⟩ := hwrap _ hclr rfl
        rw [if_neg (by omega)]
        refine ⟨by simp [Rto.next, clrRTOArm, hno, h.rtoArm],
          by simp [Rto.next, hno, h.rcvTimeout], 0, 0, p + 1, by omega, hzero, ?_, ?_, hflag,
          fun h0 => absurd h0 (lt_irrefl 0)⟩
        · simp [Rto.next, hclr, hend, hframe, hc']
        · have hpos : x.rtoCnt ≠ 0 := by
            intro hzero
            rw [hzero] at hp
            have hnat : (0 : BitVec 4).toNat = 0 := rfl
            omega
          have hpred := Brg.toNat_pred hpos
          simp only [Rto.next, hclr, hend, hframe, hrto, hc', hp', decide_true, decide_false,
            Bool.and_true, Bool.false_eq_true, if_false, if_true]
          omega
    · have hno : x.ceRTO true = false := by
        rw [ceRTO, hframe, decide_eq_false hc', Bool.and_false, Bool.false_and]
      have hclr : x.clrBCnt false true false false = false := by
        simp [clrBCnt, clrRTOArm, hno, h.rtoArm]
      obtain ⟨hzero, hflag⟩ := hwrap _ hclr rfl
      rw [if_neg (by omega)]
      refine ⟨by simp [Rto.next, clrRTOArm, hno, h.rtoArm], by simp [Rto.next, hno, h.rcvTimeout],
        0, c + 1, p, by omega, hzero, ?_, ?_, hflag, fun h0 => absurd h0 (lt_irrefl 0)⟩
      · have hpos : x.cCnt ≠ 0 := by
          intro hzero
          rw [hzero] at hc
          have hnat : (0 : BitVec 4).toNat = 0 := rfl
          omega
        have hpred := Brg.toNat_pred hpos
        simp only [Rto.next, hclr, hend, hframe, hc', decide_false, Bool.and_true,
          Bool.false_eq_true, if_false, if_true]
        omega
      · simpa [Rto.next, hclr, hframe, hc'] using hp

/-! ### Runs -/

structure Strobes where
  ce16x : Bool
  weRHR : Bool
  reRHR : Bool

def Runs (cCntVal rtoVal : BitVec 4) (i : ℕ → Strobes) (x : ℕ → Rto) : Prop :=
  ∀ t, x (t + 1) = (x t).next false (i t).ce16x (i t).weRHR (i t).reRHR cCntVal rtoVal

/-- After a character and with neither a further one nor a read the flag comes with the enable that
completes the count, and stays. -/
theorem Runs.flag_iff {i : ℕ → Strobes} {x : ℕ → Rto} (hx : Runs cCntVal rtoVal i x) {a n : ℕ}
    (hwe : (i a).weRHR = true) (hre : (i a).reRHR = false)
    (hclear : (x (a + 1)).rcvTimeout = false)
    (hquiet : ∀ d < n, (i (a + 1 + d)).weRHR = false ∧ (i (a + 1 + d)).reRHR = false) :
    (x (a + 1 + n)).rcvTimeout = true ↔
      16 * ((cCntVal.toNat + 1) * (rtoVal.toNat + 1)) ≤
        Nat.count (fun d => (i (a + 1 + d)).ce16x = true) n := by
  have hpos : 0 < 16 * ((cCntVal.toNat + 1) * (rtoVal.toNat + 1)) :=
    Nat.mul_pos (by omega) (Nat.mul_pos (by omega) (by omega))
  have key : (Nat.count (fun d => (i (a + 1 + d)).ce16x = true) n <
        16 * ((cCntVal.toNat + 1) * (rtoVal.toNat + 1)) ∧
      Count (x (a + 1 + n)) cCntVal rtoVal
        (Nat.count (fun d => (i (a + 1 + d)).ce16x = true) n)) ∨
      (16 * ((cCntVal.toNat + 1) * (rtoVal.toNat + 1)) ≤
        Nat.count (fun d => (i (a + 1 + d)).ce16x = true) n ∧
      (x (a + 1 + n)).rcvTimeout = true) := by
    induction n with
    | zero =>
      have hfirst := hx a
      rw [hwe, hre] at hfirst
      refine Or.inl ⟨hpos, ?_⟩
      rw [hfirst] at hclear
      show Count (x (a + 1)) cCntVal rtoVal 0
      rw [hfirst]
      exact Count.arm (x a) _ cCntVal rtoVal hclear
    | succ n ih =>
      have hnext := hx (a + 1 + n)
      rw [(hquiet n (by omega)).1, (hquiet n (by omega)).2] at hnext
      rw [← Nat.add_assoc, hnext, Nat.count_succ]
      rcases ih fun d hd => hquiet d (by omega) with ⟨hless, hcount⟩ | ⟨hmore, hset⟩
      · cases hce : (i (a + 1 + n)).ce16x with
        | false =>
          simp only [Bool.false_eq_true, if_false, Nat.add_zero]
          exact Or.inl ⟨hless, hcount.hold⟩
        | true =>
          have htick := hcount.tick
          simp only [if_true]
          split at htick
          case isTrue hlast => exact Or.inr ⟨hlast.ge, htick⟩
          case isFalse hmore => exact Or.inl ⟨by omega, htick⟩
      · refine Or.inr ⟨by omega, ?_⟩
        simp [Rto.next, hset]
  rcases key with ⟨hless, hcount⟩ | ⟨hmore, hset⟩
  · rw [hcount.rcvTimeout]
    exact ⟨fun h => absurd h (by decide), fun h => by omega⟩
  · exact ⟨fun _ => hmore, fun _ => hset⟩

end Rto

namespace SspUart

variable {s : ℕ → SspUart} {e : ℕ → Edge} {f : Format} {ps : BitVec 4} {div : BitVec 8}

/-- Bits of a frame that the timeout counts: one less than there are with seven data bits and two stop
bits. -/
theorem cCntVal_eq (u : SspUart) :
    u.cCntVal.toNat + 1 = if u.fmt.toNat < 14 then u.format.size else u.format.size - 1 := by
  unfold cCntVal format
  generalize u.fmt = m
  revert m
  decide

/-- The timeout comes with the enable that ends three frames of silence after a character. -/
theorem Steady.rcvTimeout_iff (h : Steady s e f ps div) {m : BitVec 4} (hfmt : ∀ t, (s t).fmt = m)
    {a n : ℕ} (hwe : (s (tick e a)).rcv.weRHR = true) (hre : (s (tick e a)).red5.pls = false)
    (hclear : (s (tick e (a + 1))).tmr.rcvTimeout = false)
    (hquiet : ∀ d < n, (s (tick e (a + 1 + d))).rcv.weRHR = false ∧
      (s (tick e (a + 1 + d))).red5.pls = false) :
    (s (tick e (a + 1 + n))).tmr.rcvTimeout = true ↔
      3 * (16 * if m.toNat < 14 then f.size else f.size - 1) ≤
        Nat.count (fun d => (s (tick e (a + 1 + d))).brg.ce16x = true) n := by
  have hrun : Rto.Runs (s 0).cCntVal rtoVal
      (fun k => ⟨(s (tick e k)).brg.ce16x, (s (tick e k)).rcv.weRHR, (s (tick e k)).red5.pls⟩)
      fun k => (s (tick e k)).tmr := by
    intro k
    refine (h.next_tick (g := SspUart.tmr) (fun u a _ hclk => by simp [step, hclk]) k).trans ?_
    have hval : (s (tick e k)).cCntVal = (s 0).cCntVal := by
      unfold cCntVal
      rw [hfmt, hfmt]
    simp [step, h.at_tick, h.reset, hval]
  have hsize := cCntVal_eq (s 0)
  rw [hfmt, h.format] at hsize
  rw [hrun.flag_iff hwe hre hclear hquiet, hsize,
    show 3 * (16 * if m.toNat < 14 then f.size else f.size - 1) =
      16 * ((if m.toNat < 14 then f.size else f.size - 1) * (rtoVal.toNat + 1)) by
        rw [show rtoVal.toNat + 1 = 3 from rfl]
        ring]

theorem rcvTimeout_iff_oneCharacter : (fed restCore oneCharacter 634).tmr.rcvTimeout = false ∧
    (fed restCore oneCharacter 635).tmr.rcvTimeout = true := by
  obtain ⟨hsteady, hall⟩ := settled_restCore.steady (s := fed restCore oneCharacter) fun _ => rfl
  obtain ⟨φ, hφ⟩ := hsteady.enable
  simp only [tick_quiet] at hφ
  have hce : ∀ k, (fed restCore oneCharacter k).brg.ce16x = true := fun k =>
    (hφ k).trans (decide_eq_true (Nat.one_dvd _))
  have hread : ∀ t, (fed restCore oneCharacter t).red5.pls = false := fun t => by
    rw [(hall t).1.red5]
    rfl
  have hlast : (fed restCore oneCharacter 154).rcv.weRHR = true ∧
      (fed restCore oneCharacter 155).tmr.rcvTimeout = false ∧
      ∀ d < 480, (fed restCore oneCharacter (155 + d)).rcv.weRHR = false := by
    decide +kernel
  have hiff : ∀ n ≤ 480, (fed restCore oneCharacter (155 + n)).tmr.rcvTimeout = true ↔ 480 ≤ n := by
    intro n hn
    have htimeout := hsteady.rcvTimeout_iff (m := 0) (a := 154) (n := n) fun t => by
      rw [fmt, (hall t).2]
      rfl
    simp only [tick_quiet, hce] at htimeout
    rw [htimeout hlast.1 (hread _) hlast.2.1 fun d hd => ⟨hlast.2.2 d (by omega), hread _⟩,
      Nat.count_of_forall fun _ _ => trivial]
    rfl
  constructor
  · have hearly := hiff 479 (by omega)
    rw [Bool.eq_false_iff]
    exact fun hset => absurd (hearly.mp hset) (by decide)
  · exact (hiff 480 le_rfl).mpr le_rfl

end SspUart

end SocCrypto.Uart

import SocCrypto.Uart.SspUart

/-!
# The character FIFO as a queue

`held` is what the pointers and the counter of `DPSFnmCE` enclose, oldest first. One
clock without a reset takes the word at `DPRA` off it when `RD` is up and appends the
input when `WR` is up.
-/

namespace SocCrypto.Uart

namespace Dpsf
variable {addr width : ℕ}

/-! ### Cells between two pointers -/

/-- `n` cells from `p` on. -/
def window (ram : BitVec addr → BitVec width) (p : BitVec addr) : ℕ → List (BitVec width)
  | 0 => []
  | n + 1 => ram p :: window ram (p + 1) n

theorem length_window (ram : BitVec addr → BitVec width) (p : BitVec addr) (n : ℕ) :
    (window ram p n).length = n := by
  induction n generalizing p with
  | zero => rfl
  | succ n ih => rw [window, List.length_cons, ih]

theorem window_snoc (ram : BitVec addr → BitVec width) (p : BitVec addr) (n : ℕ) :
    window ram p (n + 1) = window ram p n ++ [ram (p + BitVec.ofNat addr n)] := by
  induction n generalizing p with
  | zero => simp [window]
  | succ n ih =>
    have hp : p + 1 + BitVec.ofNat addr n = p + BitVec.ofNat addr (n + 1) := by
      rw [BitVec.add_assoc, BitVec.add_comm 1, BitVec.ofNat_add]
      rfl
    rw [window, ih, hp]
    rfl

/-- A cell that the window has not reached can be written. -/
theorem window_write (ram : BitVec addr → BitVec width) (p : BitVec addr) (d : BitVec width)
    (k n : ℕ) (hk : k + n < 2 ^ addr) :
    window (fun x => if x = p + BitVec.ofNat addr (k + n) then d else ram x)
      (p + BitVec.ofNat addr k) n = window ram (p + BitVec.ofNat addr k) n := by
  induction n generalizing k with
  | zero => rfl
  | succ n ih =>
    have hcell : ¬ p + BitVec.ofNat addr k = p + BitVec.ofNat addr (k + (n + 1)) := by
      intro h
      have hnat := congrArg BitVec.toNat ((BitVec.add_right_inj p).mp h)
      rw [BitVec.toNat_ofNat, BitVec.toNat_ofNat, Nat.mod_eq_of_lt (by omega),
        Nat.mod_eq_of_lt hk] at hnat
      omega
    have hp : p + BitVec.ofNat addr k + 1 = p + BitVec.ofNat addr (k + 1) := by
      rw [BitVec.add_assoc, BitVec.ofNat_add]
      rfl
    have hrest := ih (k + 1) (by omega)
    rw [show k + 1 + n = k + (n + 1) by omega] at hrest
    rw [window, window, hp, hrest, if_neg hcell]

/-! ### Contents -/

def occupancy (f : Dpsf addr width) : ℕ := f.cnt.toNat

/-- The words that wait, the oldest first. -/
def held (f : Dpsf addr width) : List (BitVec width) := window f.ram f.dpra f.occupancy

/-- The pointers, the counter and the two flags agree. -/
structure Sound (f : Dpsf addr width) : Prop where
  tail : f.a = f.dpra + f.wCnt
  full : f.rFF = true → f.wCnt = 0
  flag : f.nEF = !decide (f.occupancy = 0)

theorem occupancy_eq (f : Dpsf addr width) :
    f.occupancy = (if f.rFF then 2 ^ addr else 0) + f.wCnt.toNat := by
  unfold occupancy cnt ff
  rw [BitVec.toNat_append, ← Nat.shiftLeft_add_eq_or_of_lt f.wCnt.isLt, Nat.shiftLeft_eq]
  cases f.rFF <;> simp

theorem length_held (f : Dpsf addr width) : f.held.length = f.occupancy :=
  length_window _ _ _

theorem Sound.occupancy_full {f : Dpsf addr width} (hs : f.Sound) (h : f.rFF = true) :
    f.occupancy = 2 ^ addr := by
  rw [occupancy_eq, hs.full h, h]
  simp

theorem occupancy_of_not_full {f : Dpsf addr width} (h : f.rFF = false) :
    f.occupancy = f.wCnt.toNat := by
  rw [occupancy_eq, h]
  simp

theorem Sound.ef_eq {f : Dpsf addr width} (hs : f.Sound) :
    f.ef = decide (f.occupancy = 0) := by
  unfold ef
  rw [hs.flag, Bool.not_not]

theorem Sound.ff_eq {f : Dpsf addr width} (hs : f.Sound) :
    f.ff = decide (f.occupancy = 2 ^ addr) := by
  unfold ff
  cases h : f.rFF with
  | true => simp [hs.occupancy_full h]
  | false =>
    have hlt := f.wCnt.isLt
    have hne : ¬ f.occupancy = 2 ^ addr := by
      rw [occupancy_of_not_full h]
      omega
    simp [hne]

theorem Sound.occupancy_le {f : Dpsf addr width} (hs : f.Sound) : f.occupancy ≤ 2 ^ addr := by
  cases h : f.rFF with
  | true => exact (hs.occupancy_full h).le
  | false =>
    rw [occupancy_of_not_full h]
    exact f.wCnt.isLt.le

theorem Sound.ef_iff {f : Dpsf addr width} (hs : f.Sound) : f.ef = true ↔ f.held = [] := by
  rw [hs.ef_eq, ← List.length_eq_zero_iff, length_held, decide_eq_true_iff]

/-- The word on `DO` is the oldest one. -/
theorem held_head {f : Dpsf addr width} (h : f.held ≠ []) :
    f.held.head? = some f.dataOut := by
  unfold held at h ⊢
  cases hn : f.occupancy with
  | zero => exact absurd (by rw [hn]; rfl) h
  | succ n => rfl

/-! ### One clock -/

theorem wr_room {f : Dpsf addr width} {we : Bool} (h : f.wr we = true) :
    we = true ∧ f.rFF = false := by
  unfold wr ff at h
  rw [Bool.and_eq_true, Bool.not_eq_true'] at h
  exact h

theorem Sound.rd_waiting {f : Dpsf addr width} (hs : f.Sound) {re : Bool} (h : f.rd re = true) :
    re = true ∧ 0 < f.occupancy := by
  unfold rd at h
  rw [hs.ef_eq, Bool.and_eq_true, Bool.not_eq_true', decide_eq_false_iff_not] at h
  exact ⟨h.1, by omega⟩

theorem toNat_one (ha : 0 < addr) : (1 : BitVec addr).toNat = 1 := by
  show (BitVec.ofNat addr 1).toNat = 1
  rw [BitVec.toNat_ofNat, Nat.mod_eq_of_lt (Nat.one_lt_two_pow ha.ne')]

/-- A word leaves: `WCnt` of a full FIFO wraps to its last value. -/
theorem Sound.take_cnt {f : Dpsf addr width} (ha : 0 < addr) (hs : f.Sound) {we re : Bool}
    (hw : f.wr we = false) (hr : f.rd re = true) (di : BitVec width) :
    (f.next false we re di).rFF = false ∧
      (f.next false we re di).wCnt.toNat + 1 = f.occupancy := by
  have hpow := Nat.one_lt_two_pow ha.ne'
  have hpos := (hs.rd_waiting hr).2
  have hff : (we && f.wCnt == BitVec.allOnes addr) = false := by
    cases hf : f.rFF with
    | false =>
      unfold wr ff at hw
      rw [hf, Bool.not_false, Bool.and_true] at hw
      rw [hw, Bool.false_and]
    | true =>
      have hne : ¬ f.wCnt = BitVec.allOnes addr := by
        intro h
        have hnat := congrArg BitVec.toNat h
        rw [hs.full hf, BitVec.toNat_allOnes] at hnat
        simp only [BitVec.ofNat_eq_ofNat, BitVec.toNat_ofNat, Nat.zero_mod] at hnat
        omega
      simp [hne]
  refine ⟨by simp [next, ce, hw, hr, hff], ?_⟩
  have hcnt : (f.next false we re di).wCnt = f.wCnt - 1 := by simp [next, hw, hr]
  rw [hcnt, BitVec.toNat_sub, toNat_one ha]
  cases hf : f.rFF with
  | false =>
    rw [occupancy_of_not_full hf] at hpos ⊢
    have hlt := f.wCnt.isLt
    rw [show 2 ^ addr - 1 + f.wCnt.toNat = f.wCnt.toNat - 1 + 2 ^ addr by omega,
      Nat.add_mod_right, Nat.mod_eq_of_lt (by omega)]
    omega
  | true =>
    rw [hs.full hf, hs.occupancy_full hf]
    simp only [BitVec.ofNat_eq_ofNat, BitVec.toNat_ofNat, Nat.zero_mod, Nat.add_zero]
    rw [Nat.mod_eq_of_lt (by omega)]
    omega

/-- A word arrives: `FF` is set as `WCnt` wraps. -/
theorem put_cnt {f : Dpsf addr width} {we re : Bool} (hw : f.wr we = true)
    (hr : f.rd re = false) (di : BitVec width) :
    (f.next false we re di).wCnt = f.wCnt + 1 ∧
      (f.next false we re di).rFF = decide (f.wCnt.toNat + 1 = 2 ^ addr) := by
  refine ⟨by simp [next, hw, hr], ?_⟩
  have hff : (f.next false we re di).rFF = (f.wCnt == BitVec.allOnes addr) := by
    have hwe := (wr_room hw).1
    subst hwe
    simp [next, ce, hw, hr]
  rw [hff, Bool.eq_iff_iff, beq_iff_eq, decide_eq_true_iff, ← BitVec.toNat_inj,
    BitVec.toNat_allOnes]
  have hpow := Nat.two_pow_pos addr
  omega

/-- The counter and `FF` follow `WR` and `RD`. -/
theorem Sound.occupancy_next {f : Dpsf addr width} (ha : 0 < addr) (hs : f.Sound) (we re : Bool)
    (di : BitVec width) :
    (f.next false we re di).occupancy + (f.rd re).toNat = f.occupancy + (f.wr we).toNat := by
  cases hw : f.wr we <;> cases hr : f.rd re
  · simp [occupancy, next, cnt, ff, ce, hw, hr]
  · obtain ⟨hff, hcnt⟩ := hs.take_cnt ha hw hr di
    rw [occupancy_of_not_full hff]
    exact hcnt
  · obtain ⟨hcnt, hff⟩ := put_cnt hw hr di
    rw [occupancy_eq (f.next false we re di), hcnt, hff, occupancy_of_not_full (wr_room hw).2,
      BitVec.toNat_add, toNat_one ha]
    have hlt := f.wCnt.isLt
    by_cases hlast : f.wCnt.toNat + 1 = 2 ^ addr
    · rw [hlast, Nat.mod_self]
      simp [hlast]
    · rw [Nat.mod_eq_of_lt (by omega)]
      simp [hlast]
  · simp [occupancy, next, cnt, ff, ce, hw, hr]

theorem Sound.reset (f : Dpsf addr width) (we re : Bool) (di : BitVec width) :
    (f.next true we re di).Sound ∧ (f.next true we re di).held = [] := by
  have hocc : (f.next true we re di).occupancy = 0 := by simp [occupancy, next, cnt, ff]
  constructor
  · refine ⟨by simp [next], fun h => by simp [next] at h, ?_⟩
    rw [hocc]
    rfl
  · unfold held
    rw [hocc]
    rfl

theorem Sound.tail_next {f : Dpsf addr width} (hs : f.Sound) (we re : Bool) (di : BitVec width) :
    (f.next false we re di).a =
      (f.next false we re di).dpra + (f.next false we re di).wCnt := by
  have htail := hs.tail
  cases hw : f.wr we <;> cases hr : f.rd re
  · simp [next, hw, hr, htail]
  · have hcnt : (f.next false we re di).wCnt = f.wCnt - 1 := by simp [next, hw, hr]
    have hdpra : (f.next false we re di).dpra = f.dpra + 1 := by simp [next, hr]
    have hwrite : (f.next false we re di).a = f.a := by simp [next, hw]
    rw [hwrite, hdpra, hcnt, htail]
    grind
  · rw [(put_cnt hw hr di).1, ← BitVec.add_assoc]
    simp [next, hw, hr, htail]
  · have hcnt : (f.next false we re di).wCnt = f.wCnt := by simp [next, hw, hr]
    have hdpra : (f.next false we re di).dpra = f.dpra + 1 := by simp [next, hr]
    have hwrite : (f.next false we re di).a = f.a + 1 := by simp [next, hw]
    rw [hwrite, hdpra, hcnt, htail]
    grind

theorem Sound.full_next {f : Dpsf addr width} (ha : 0 < addr) (hs : f.Sound) (we re : Bool)
    (di : BitVec width) (h : (f.next false we re di).rFF = true) :
    (f.next false we re di).wCnt = 0 := by
  cases hw : f.wr we <;> cases hr : f.rd re
  · have hff : (f.next false we re di).rFF = f.rFF := by simp [next, ce, hw, hr]
    have hcnt : (f.next false we re di).wCnt = f.wCnt := by simp [next, hw, hr]
    rw [hcnt]
    exact hs.full (hff ▸ h)
  · rw [(hs.take_cnt ha hw hr di).1] at h
    exact absurd h Bool.false_ne_true
  · obtain ⟨hcnt, hff⟩ := put_cnt hw hr di
    rw [hff, decide_eq_true_iff] at h
    rw [hcnt, ← BitVec.toNat_inj, BitVec.toNat_add, toNat_one ha, h, Nat.mod_self]
    simp
  · have hff : (f.next false we re di).rFF = f.rFF := by simp [next, ce, hw, hr]
    rw [hff, (wr_room hw).2] at h
    exact absurd h Bool.false_ne_true

theorem cnt_eq_one {f : Dpsf addr width} : (f.cnt == 1) = decide (f.occupancy = 1) := by
  rw [Bool.eq_iff_iff, beq_iff_eq, decide_eq_true_iff, ← BitVec.toNat_inj,
    toNat_one (by omega : 0 < 1 + addr)]
  rfl

theorem Sound.flag_next {f : Dpsf addr width} (ha : 0 < addr) (hs : f.Sound) (we re : Bool)
    (di : BitVec width) :
    (f.next false we re di).nEF = !decide ((f.next false we re di).occupancy = 0) := by
  have hocc := hs.occupancy_next ha we re di
  have hflag := hs.flag
  cases hw : f.wr we <;> cases hr : f.rd re <;>
    rw [hw, hr] at hocc <;> simp only [Bool.toNat_true, Bool.toNat_false] at hocc
  · rw [show (f.next false we re di).occupancy = f.occupancy by omega, ← hflag]
    simp [next, ce, hw, hr]
  · have hnef : (f.next false we re di).nEF = !(f.cnt == 1) := by
      have hre := (hs.rd_waiting hr).1
      subst hre
      simp [next, ce, hw, hr]
    have hlast : f.occupancy = 1 ↔ (f.next false we re di).occupancy = 0 := by omega
    rw [hnef, cnt_eq_one]
    simp only [hlast]
  · -- a read of an empty FIFO does not count
    have hread : (re && f.cnt == 1) = false := by
      unfold rd at hr
      rw [hs.ef_eq] at hr
      rw [cnt_eq_one]
      cases re with
      | false => rfl
      | true =>
        simp only [Bool.true_and, Bool.not_eq_false', decide_eq_true_iff] at hr
        simp [hr]
    have hnef : (f.next false we re di).nEF = !(re && f.cnt == 1) := by
      simp [next, ce, hw, hr]
    have hne : ¬ (f.next false we re di).occupancy = 0 := by omega
    rw [hnef, hread]
    simp [hne]
  · have hpos := (hs.rd_waiting hr).2
    rw [show (f.next false we re di).occupancy = f.occupancy by omega, ← hflag]
    simp [next, ce, hw, hr]

theorem Sound.next {f : Dpsf addr width} (ha : 0 < addr) (hs : f.Sound) (rst we re : Bool)
    (di : BitVec width) : (f.next rst we re di).Sound := by
  cases rst with
  | true => exact (Sound.reset f we re di).1
  | false => exact ⟨hs.tail_next we re di, hs.full_next ha we re di, hs.flag_next ha we re di⟩

/-- The write lands behind the last word. -/
theorem Sound.window_put {f : Dpsf addr width} (hs : f.Sound) (we re : Bool) (di : BitVec width) :
    window (f.next false we re di).ram f.dpra (f.occupancy + (f.wr we).toNat) =
      f.held ++ (if f.wr we then [di] else []) := by
  cases hw : f.wr we with
  | false => simp [Dpsf.next, hw, held]
  | true =>
    have hff := (wr_room hw).2
    have hocc := occupancy_of_not_full hff
    have hlt : f.occupancy < 2 ^ addr := by
      rw [hocc]
      exact f.wCnt.isLt
    have hcell : f.a = f.dpra + BitVec.ofNat addr f.occupancy := by
      rw [hs.tail, hocc, BitVec.ofNat_toNat, BitVec.setWidth_eq]
    have hkeep := window_write f.ram f.dpra di 0 f.occupancy (by omega)
    rw [Nat.zero_add, BitVec.add_zero] at hkeep
    have hram : (f.next false we re di).ram =
        fun x => if x = f.dpra + BitVec.ofNat addr f.occupancy then di else f.ram x := by
      simp only [Dpsf.next, hw, hcell, if_true]
    rw [hram, Bool.toNat_true, window_snoc, hkeep]
    simp [held]

/-- What leaves and what stays is what was there and what arrived. -/
theorem Sound.held_next {f : Dpsf addr width} (ha : 0 < addr) (hs : f.Sound) (we re : Bool)
    (di : BitVec width) :
    (if f.rd re then [f.dataOut] else []) ++ (f.next false we re di).held =
      f.held ++ (if f.wr we then [di] else []) := by
  have hocc := hs.occupancy_next ha we re di
  rw [← hs.window_put we re di, ← hocc]
  cases hr : f.rd re with
  | false => simp [held, Dpsf.next, hr]
  | true =>
    -- the word that leaves is not the cell that is written
    have hpos := (hs.rd_waiting hr).2
    have hhead : (f.next false we re di).ram f.dpra = f.dataOut := by
      have hput := hs.window_put we re di
      obtain ⟨n, hn⟩ : ∃ n, f.occupancy = n + 1 := ⟨f.occupancy - 1, by omega⟩
      rw [held, hn, Nat.succ_add] at hput
      simp only [window, List.cons_append, List.cons.injEq] at hput
      exact hput.1
    have hdpra : (f.next false we re di).dpra = f.dpra + 1 := by simp [Dpsf.next, hr]
    rw [Bool.toNat_true, window, hhead, held, hdpra]
    rfl

/-- `HF` from half the depth on. -/
theorem Sound.hf_eq {f : Dpsf addr width} (ha : 0 < addr) (hs : f.Sound) :
    f.hf = decide (2 ^ (addr - 1) ≤ f.occupancy) := by
  have htop : f.cnt.getLsbD addr = f.rFF := by
    rw [cnt, BitVec.getLsbD_append, if_neg (by omega), Nat.sub_self, BitVec.getLsbD_ofBool]
    exact Bool.true_and _
  have hhalf : f.cnt.getLsbD (addr - 1) = decide (2 ^ (addr - 1) ≤ f.wCnt.toNat) := by
    rw [cnt, BitVec.getLsbD_append, if_pos (by omega), ← BitVec.msb_eq_getLsbD_last,
      BitVec.msb_eq_decide]
  unfold hf
  rw [htop, hhalf]
  cases h : f.rFF with
  | false => rw [occupancy_of_not_full h, Bool.false_or]
  | true =>
    have hle : 2 ^ (addr - 1) ≤ 2 ^ addr := Nat.pow_le_pow_right (by omega) (by omega)
    rw [hs.occupancy_full h, Bool.true_or, decide_eq_true hle]

end Dpsf

namespace SspUart

/-- The low bit of `RS` is up below half full and when full, and down between. -/
theorem rs_low (s : SspUart) (hs : s.rf1.Sound) :
    s.rs.getLsbD 0 =
      decide (0 < s.rf1.occupancy ∧ (s.rf1.occupancy < 32 ∨ s.rf1.occupancy = 64)) := by
  have hhf := hs.hf_eq (by omega)
  have hff := hs.ff_eq
  have hef := hs.ef_eq
  unfold rs
  rw [hhf, hff, hef]
  by_cases hempty : s.rf1.occupancy = 0
  · simp [hempty]
  by_cases hhalf : 32 ≤ s.rf1.occupancy
  · by_cases hfull : s.rf1.occupancy = 64
    · simp [hfull]
    · have hlt : ¬ s.rf1.occupancy < 32 := by omega
      simp [hempty, hhalf, hfull, hlt]
  · have hne : ¬ s.rf1.occupancy = 64 := by omega
    have hlt : s.rf1.occupancy < 32 := by omega
    have hpos : 0 < s.rf1.occupancy := by omega
    simp [hempty, hhalf, hne, hlt, hpos]

/-- Bit 6 of `USR` is the low bit of `RS`. -/
theorem status_bit (s : SspUart) (l : Lines) : (s.status l).getLsbD 6 = s.rs.getLsbD 0 := by
  unfold status
  simp only [BitVec.getLsbD_append]
  rfl

end SspUart

end SocCrypto.Uart

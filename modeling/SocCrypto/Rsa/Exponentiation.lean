import SocCrypto.Rsa.PowModMon1024

/-!
# Exponentiations from load pulse to valid cycle

The phases of `PowModMon1024` put together: the three engines, the subtraction, the skip of the
leading zeros and the bits of the exponent. `terminates_iff` says for which exponents and after
which resets there is a valid cycle, `givesPower_iff` when it puts out the power.
-/

namespace SocCrypto.Rsa
open WordSerial Clocked ShiftSubtract

namespace PowModMon1024

/-! ### The run of an exponentiation -/

abbrev Reaches (Q : PowModMon1024 → Prop) (n : ℕ) (s : PowModMon1024) : Prop :=
  Leads next hold quiet Q n s

abbrev Gets (Q : PowModMon1024 → Prop) (s : PowModMon1024) : Prop := Ends next hold quiet Q s

/-- What a product of the core makes of two numbers. -/
def product (σ : Mul1024bit.Settlings) (N N₀ x y : ℕ) : ℕ :=
  MonPro1024.result N N₀ (magnitude σ.x x * magnitude σ.y y)

section
variable {σ : Mul1024bit.Settlings} {B N a N₀ r z : ℕ} {s : PowModMon1024} {i : In}

theorem quiet_of_control (h : s.control.oDataValid = false) (i : In) : quiet s i := h

theorem InProduct.gets {st : PowState} {n v : ℕ} (hst : Multiplies st)
    (h : InProduct st σ B N a N₀ r s) (hmul : MonPro1024.Reaches (MonPro1024.Done v) n s.monPro) :
    Gets (fun s => InProduct st σ B N a N₀ r s ∧ MonPro1024.Done v s.monPro) s := by
  refine Leads.ends (n := n) (Leads.wait PowModMon1024.monPro (fun s _ => s.monProIn)
    (InProduct st σ B N a N₀ r) ?_ ?_ h hmul)
  · intro s i h _
    constructor <;> simp [monProIn, h.control, multiplying, h.count]
  · intro s i h hi hquiet
    exact ⟨quiet_of_control (by simp [h.control, multiplying, off]) i,
      inProduct_next hst h hquiet hi, rfl⟩

theorem AtProduct.gets {st : PowState} (hst : Multiplies st) (h : AtProduct st σ B N a N₀ r z s) :
    Gets (fun s => InProduct st σ B N a N₀ r s ∧
      MonPro1024.Done (product σ N N₀ z (factor st a z)) s.monPro) s := by
  have hY : s.monProIn.iY.toNat = factor st a z := by
    rcases hst with rfl | rfl | rfl <;> simp [monProIn, factor, h.state, h.z1, h.frame.ended.a]
  have hreach := h.monPro.ready.reaches_done (i := s.monProIn)
    (by simp [monProIn, h.control, multiplying]) (by simp [monProIn, h.control, multiplying, h.count])
    h.z1 hY h.frame.ended.n h.frame.n0
  have hfresh : ¬ s.monPro.mul.LeavesStale := by
    rintro ⟨hstep, -⟩
    rw [h.monPro.mul] at hstep
    cases hstep
  have hσ : s.monPro.mul.settling = σ := h.frame.settling
  rw [Mul1024bit.nextValue_fresh hfresh, hσ] at hreach
  refine Ends.cons ?_
  intro i hi
  exact ⟨quiet_of_control (by simp [h.control, multiplying, off]) i,
    (inProduct_of_atProduct hst h hi).gets hst hreach⟩

theorem AtProduct.gets_done (h : AtProduct .monPro3 σ B N a N₀ r z s) :
    Gets (Done (product σ N N₀ z 1)) s := by
  refine (h.gets (Or.inr (Or.inr rfl))).seq ?_
  rintro s ⟨h, hv⟩
  refine Ends.cons ?_
  intro i hi
  exact ⟨quiet_of_control (by simp [h.control, multiplying, off]) i,
    Leads.ends (n := 0) (done_of_inProduct h hv hi)⟩

theorem AtShift.gets (h : AtShift σ B N a N₀ (r + 1) z s) :
    Gets (AtProduct (afterBit r) σ B N a N₀ r z) s := by
  refine Ends.cons ?_
  intro i hi
  exact ⟨quiet_of_control (by simp [h.control, shifting, off]) i,
    Leads.ends (n := 0) (atProduct_of_atShift h hi)⟩

/-- The square, and the product by `A` where the bit is one. -/
theorem AtProduct.gets_shift (h : AtProduct .monPro1 σ B N a N₀ (r + 1) z s) :
    Gets (AtShift σ B N a N₀ (r + 1)
      (if B.testBit r then product σ N N₀ (product σ N N₀ z z) a else product σ N N₀ z z)) s := by
  refine (h.gets (Or.inl rfl)).seq ?_
  rintro s ⟨h, hv⟩
  have hquiet : ∀ i, quiet s i := quiet_of_control (by simp [h.control, multiplying, off])
  by_cases hbit : B.testBit r
  · rw [if_pos hbit]
    refine Ends.cons ?_
    intro i hi
    refine ⟨hquiet i, Ends.cons ?_⟩
    have hdelay := atDelay_of_inProduct h hv hbit hi
    intro i' hi'
    refine ⟨quiet_of_control (by simp [hdelay.control, off]) i', ?_⟩
    refine ((atProduct_of_atDelay hdelay hi').gets (Or.inr (Or.inl rfl))).seq ?_
    rintro s ⟨h, hv⟩
    refine Ends.cons ?_
    intro i hi
    exact ⟨quiet_of_control (by simp [h.control, multiplying, off]) i,
      Leads.ends (n := 0) (atShift_of_inProduct (Or.inr rfl) h hv hi)⟩
  · rw [if_neg hbit]
    refine Ends.cons ?_
    intro i hi
    exact ⟨hquiet i, Leads.ends (n := 0)
      (atShift_of_inProduct (Or.inl ⟨rfl, Bool.eq_false_iff.mpr hbit⟩) h hv hi)⟩

/-- The bits of the exponent, from the top one down. -/
theorem AtProduct.gets_power (h : AtProduct .monPro1 σ B N a N₀ (r + 1) z s) :
    Gets (Done (product σ N N₀ (Montgomery.powerLoop (product σ N N₀) a B (r + 1) z) 1)) s := by
  induction r generalizing z s with
  | zero =>
    refine h.gets_shift.seq fun s h => h.gets.seq fun s h => ?_
    exact h.gets_done
  | succ r ih =>
    refine h.gets_shift.seq fun s h => h.gets.seq fun s h => ?_
    exact ih h

theorem InGetBit.gets_power (hB : 0 < B) (hlt : B < 2 ^ r) (h : InGetBit σ B N a N₀ r z s) :
    Gets (Done (product σ N N₀ (Montgomery.powerLoop (product σ N N₀) a B B.size z) 1)) s := by
  induction r generalizing s with
  | zero => omega
  | succ r ih =>
    refine Ends.cons ?_
    intro i hi
    refine ⟨quiet_of_control (by simp [h.control, scanning, off]) i, ?_⟩
    by_cases hbit : B.testBit r
    · have hsize : B.size = r + 1 := by
        have hle := Nat.size_le.mpr hlt
        have hge := Nat.lt_size.mpr (Nat.ge_two_pow_of_testBit hbit)
        omega
      rw [hsize]
      exact (atProduct_of_inGetBit h hbit hi).gets_power
    · have hsmall : B < 2 ^ r := by
        by_contra hge
        have hdiv : B / 2 ^ r = 1 := by
          have hpos := Nat.two_pow_pos r
          rw [pow_succ] at hlt
          exact Nat.div_eq_of_lt_le (by omega) (by omega)
        rw [Nat.testBit_eq_decide_div_mod_eq, hdiv] at hbit
        exact hbit rfl
      exact ih hsmall (inGetBit_next h (Bool.eq_false_iff.mpr hbit) hi)

theorem InSub.gets_getBit {y : ℕ} (hy : y < base ^ 32) (h : InSub B N a z y 0 0 s) :
    Gets (fun s => InGetBit s.settling B N a (negated y) 1024 z s) s := by
  have hloop : Reaches (fun s => ∃ out, InSub B N a z y 63 out s) 63 s := by
    refine Leads.loop (fun k s => ∃ out, InSub B N a z y k out s) 63 ?_ ⟨0, h⟩
    rintro k hk s i ⟨out, h⟩ hi
    exact ⟨quiet_of_control (by simp [h.control, subtracting, off]) i, inSub_next hk h hi⟩
  refine hloop.ends.seq ?_
  rintro s ⟨out, h⟩
  refine Ends.cons ?_
  intro i hi
  exact ⟨quiet_of_control (by simp [h.control, subtracting, off]) i,
    Leads.ends (n := 0) (inGetBit_of_inSub hy h hi)⟩

theorem InMode.gets_getBit {z₁ m₁ z₂ m₂ z₃ m₃ : ℕ} (hz₃ : z₃ < base ^ 32)
    (h : InMode B N z₁ m₁ z₂ m₂ z₃ m₃ 0 s) :
    Gets (fun s => InGetBit s.settling B N (z₁ % 2 ^ 1024) (negated z₃) 1024 (z₂ % 2 ^ 1024) s)
      s := by
  have hquiet : ∀ {k s}, InMode B N z₁ m₁ z₂ m₂ z₃ m₃ k s → ∀ i, quiet s i := by
    intro k s h
    exact quiet_of_control (by simp [h.control, engaged, off])
  have hloop : Reaches (InMode B N z₁ m₁ z₂ m₂ z₃ m₃ (max m₁ (max m₂ m₃) + 1))
      (max m₁ (max m₂ m₃) + 1) s := by
    refine Leads.loop (fun k => InMode B N z₁ m₁ z₂ m₂ z₃ m₃ k) _ ?_ h
    intro k hk s i h hi
    exact ⟨hquiet h i, inMode_next (by omega) h hi⟩
  refine hloop.ends.seq fun s h => Ends.cons fun i hi => ⟨hquiet h i, ?_⟩
  exact (inSub_of_inMode h (by omega) (by omega) (by omega) hi).gets_getBit hz₃

theorem Loaded.gets_getBit (h1 : 1 < N) (hN : N < 2 ^ 1023) (h : Loaded a B N s) :
    Gets (InGetBit s.settling B N (firstResult a N s % 2 ^ 1024) (negated (inverseResult N s)) 1024
      (secondResult N s % 2 ^ 1024)) s := by
  have hon : s.control = engaged := control_mode h.state (Or.inl h.latch)
  have hlt : inverseResult N s < base ^ 32 := by
    rw [base, ← pow_mul]
    exact MonModInverse1024.result_lt N _
  have hgets : Gets (fun u => InGetBit u.settling B N (firstResult a N s % 2 ^ 1024)
      (negated (inverseResult N s)) 1024 (secondResult N s % 2 ^ 1024) u) s := by
    refine Ends.cons ?_
    intro i hi
    obtain ⟨m₁, m₂, m₃, hmode⟩ := exists_inMode h1 hN h hi
    exact ⟨quiet_of_control (by simp [hon, engaged, off]) i, hmode.gets_getBit hlt⟩
  refine (hgets.conserves settling_next).seq ?_
  rintro u ⟨hu, hsame⟩
  rw [hsame] at hu
  exact Leads.ends (n := 0) hu

/-- The number put out, from the state in the first cycle of `State_Mode`. -/
def power (A B N : ℕ) (s : PowModMon1024) : ℕ :=
  product s.settling N (negated (inverseResult N s))
    (Montgomery.powerLoop (product s.settling N (negated (inverseResult N s)))
      (firstResult A N s % 2 ^ 1024) B B.size (secondResult N s % 2 ^ 1024)) 1

theorem Loaded.gets_power (h1 : 1 < N) (hN : N < 2 ^ 1023) (hB : 0 < B) (h : Loaded a B N s) :
    Gets (Done (power a B N s)) s := by
  have hlt : B < 2 ^ 1024 := by
    rw [← h.operands.b]
    exact s.b.isLt
  exact (h.gets_getBit h1 hN).seq fun s h => h.gets_power hB hlt

/-- An exponent zero is scanned for ever. -/
structure Scanning (s : PowModMon1024) : Prop where
  state : s.state = .getBit
  control : s.control = scanning false
  b : s.b = 0

theorem scanning_of_inGetBit (h : InGetBit σ 0 N a N₀ r z s) : Scanning s := by
  have hb : s.b = 0 := by
    refine BitVec.eq_of_toNat_eq ?_
    simp [h.frame.b]
  have hbit : s.fromB = false := by simp [fromB, hb]
  exact ⟨h.state, h.control.trans (congrArg scanning hbit), hb⟩

theorem scanning_next (h : Scanning s) (hi : hold i) : Scanning (s.next i) := by
  have hbit : s.fromB = false := by simp [fromB, h.b]
  have hstate : (s.next i).state = .getBit := by simp [next, hi.1, h.state, getBitDis, hbit]
  have hb : (s.next i).b = 0 := by simp [next, hi.2, h.b]
  have hbit' : (s.next i).fromB = false := by simp [fromB, hb]
  refine ⟨hstate, ?_, hb⟩
  rw [control_getBit hstate (Or.inr h.control), hbit']

/-- An engine that had its valid cycle in `State_Initial` is not loaded, and `State_Mode` waits
for it for ever. -/
structure Blocked (s : PowModMon1024) : Prop where
  state : s.state = .initial ∨ s.state = .mode
  valid : s.oDataValid = false
  engine :
    (s.mod1.state = .initial ∧ s.mod1Count1 = true ∧ s.mod2048_1 = false) ∨
      (s.mod2.state = .initial ∧ s.mod2Count1 = true ∧ s.mod2048_2 = false) ∨
        (s.monModInverse.state = .initial ∧ s.monModInverseCount1 = true ∧
          s.monModInverse_1 = false)

theorem blocked_state (hstate : s.state = .initial ∨ s.state = .mode)
    (hvalid : s.oDataValid = false)
    (hflags : s.state = .mode → (s.mod2048_1 && s.mod2048_2 && s.monModInverse_1) = false)
    (he : i.iEnable = true) :
    ((s.next i).state = .initial ∨ (s.next i).state = .mode) ∧ (s.next i).oDataValid = false := by
  have hlatch : (s.next i).latch.oDataValid = false := hvalid
  have hnext : (s.next i).state = .initial ∨ (s.next i).state = .mode := by
    rcases hstate with hs | hs
    · cases hl : i.iLoad <;> simp [next, he, hl, hs]
    · simp [next, he, hs, hflags hs]
  refine ⟨hnext, ?_⟩
  rcases hnext with hs | hs <;> simp [oDataValid, control, hs, hlatch]

theorem blocked_next (h : Blocked s) (he : i.iEnable = true) : Blocked (s.next i) := by
  have hflags : s.state = .mode →
      (s.mod2048_1 && s.mod2048_2 && s.monModInverse_1) = false := by
    intro _
    rcases h.engine with ⟨-, -, hf⟩ | ⟨-, -, hf⟩ | ⟨-, -, hf⟩ <;> simp [hf]
  obtain ⟨hstate, hvalid⟩ := blocked_state h.state h.valid hflags he
  refine ⟨hstate, hvalid, ?_⟩
  rcases h.engine with ⟨hs, hc, hf⟩ | ⟨hs, hc, hf⟩ | ⟨hs, hc, hf⟩
  · have hquiet : s.mod1.oDataValid = false := by
      simp [Mod2048.oDataValid, Mod2048.control, hs]
    refine Or.inl ?_
    simp [next, he, count1, flag, Mod2048.next, mod1In, hc, hf, hquiet]
  · have hquiet : s.mod2.oDataValid = false := by
      simp [Mod2048.oDataValid, Mod2048.control, hs]
    refine Or.inr (Or.inl ?_)
    simp [next, he, count1, flag, Mod2048.next, mod2In, hc, hf, hquiet]
  · have hquiet : s.monModInverse.oDataValid = false := by
      simp [MonModInverse1024.oDataValid, MonModInverse1024.control, hs]
    refine Or.inr (Or.inr ?_)
    simp [next, he, count1, flag, MonModInverse1024.next, monModInverseIn, hc, hf, hquiet]

theorem blocked_of_valid (hs : s.state = .initial) (hv : ¬ s.NoneValid) (he : i.iEnable = true) :
    Blocked (s.next i) := by
  have hoff : s.control = off := by simp [control, hs, off]
  have hquiet : s.oDataValid = false := by simp [oDataValid, hoff, off]
  have hnot : s.state = .mode →
      (s.mod2048_1 && s.mod2048_2 && s.monModInverse_1) = false := by
    intro hmode
    rw [hs] at hmode
    cases hmode
  obtain ⟨hstate, hvalid⟩ := blocked_state (Or.inl hs) hquiet hnot he
  refine ⟨hstate, hvalid, ?_⟩
  by_cases hv1 : s.mod1.oDataValid
  · refine Or.inl ?_
    simp [next, he, count1, flag, Mod2048.next, mod1In, hoff, off, hs, hv1]
  · by_cases hv2 : s.mod2.oDataValid
    · refine Or.inr (Or.inl ?_)
      simp [next, he, count1, flag, Mod2048.next, mod2In, hoff, off, hs, hv2]
    · have hv3 : s.monModInverse.oDataValid = true := by
        by_contra hv3
        exact hv ⟨Bool.eq_false_iff.mpr hv1, Bool.eq_false_iff.mpr hv2, Bool.eq_false_iff.mpr hv3⟩
      refine Or.inr (Or.inr ?_)
      simp [next, he, count1, flag, MonModInverse1024.next, monModInverseIn, hoff, off, hs, hv3]

end

/-! ### Runs -/

/-- `d` cycles of waiting, a load pulse with `A`, `B` and `N`, then kept enabled. -/
structure Starts (A B N : BitVec 1024) (d : ℕ) (i : ℕ → In) : Prop where
  waits : ∀ t < d, hold (i t)
  enable : (i d).iEnable = true
  load : (i d).iLoad = true
  a : (i d).iA = A
  b : (i d).iB = B
  n : (i d).iN = N
  held : ∀ t, hold (i (d + 1 + t))

/-- Whenever the load pulse comes and whatever the other inputs, there is a valid cycle. -/
def Terminates (s : PowModMon1024) (A B N : BitVec 1024) : Prop :=
  ∀ d i, Starts A B N d i → ∃ T > d, (run next s i T).oDataValid = true

section
variable {A B N : BitVec 1024} {d : ℕ} {i : ℕ → In} {s : PowModMon1024}

theorem initial_run (hi : Starts A B N d i) (hs : s.state = .initial) {t : ℕ} (ht : t ≤ d) :
    (run next s i t).state = .initial := by
  induction t with
  | zero => exact hs
  | succ t ih =>
    have hnow := ih (by omega)
    have hwait := hi.waits t (by omega)
    simp [run, next, hnow, hwait.1, hwait.2]

theorem primed_run (hi : Starts A B N d i) (hs : s.Primed) (hv : s.NoneValid) {t : ℕ}
    (ht : t ≤ d) : (run next s i t).Primed ∧ (run next s i t).NoneValid := by
  induction t with
  | zero => exact ⟨hs, hv⟩
  | succ t ih =>
    obtain ⟨hprimed, hnone⟩ := ih (by omega)
    exact ⟨primed_next hprimed hnone (hi.waits t (by omega)), noneValid_of_initial hprimed.state _⟩

theorem loaded_run (hi : Starts A B N d i) (hs : s.Primed) (hv : s.NoneValid) :
    Loaded A.toNat B.toNat N.toNat (run next s i (d + 1)) := by
  obtain ⟨hprimed, hnone⟩ := primed_run hi hs hv le_rfl
  have hload := loaded_of_load hprimed hnone hi.enable hi.load
  rw [hi.a, hi.b, hi.n] at hload
  exact hload

theorem Ends.run_starts {Q : PowModMon1024 → Prop} (hi : Starts A B N d i)
    (hs : s.state = .initial) (h : Gets Q (run next s i (d + 1))) :
    ∃ n, (∀ t < d + 1 + n, (run next s i t).oDataValid = false) ∧
      Q (run next s i (d + 1 + n)) := by
  obtain ⟨n, hquiet, hQ⟩ := h (fun t => i (d + 1 + t)) hi.held
  refine ⟨n, ?_, ?_⟩
  · intro t ht
    rcases Nat.lt_or_ge t (d + 1) with hlt | hge
    · have hinitial := initial_run hi hs (Nat.lt_succ_iff.mp hlt)
      simp [oDataValid, control, hinitial]
    · obtain ⟨u, rfl⟩ := Nat.exists_eq_add_of_le hge
      rw [run_add]
      exact hquiet u (by omega)
  · rw [run_add]
    exact hQ

theorem starts_now (A B N : BitVec 1024) :
    Starts A B N 0 fun t => ⟨true, decide (t = 0), A, B, N⟩ where
  waits := fun t ht => absurd ht (Nat.not_lt_zero t)
  enable := rfl
  load := rfl
  a := rfl
  b := rfl
  n := rfl
  held := fun t => ⟨rfl, decide_eq_false (by omega)⟩

theorem terminates_of_pos (hs : s.Primed) (hv : s.NoneValid) (h1 : 1 < N.toNat)
    (hN : N.toNat < 2 ^ 1023) (hB : 0 < B.toNat) : Terminates s A B N := by
  intro d i hi
  obtain ⟨n, -, hdone⟩ :=
    Ends.run_starts hi hs.state ((loaded_run hi hs hv).gets_power h1 hN hB)
  exact ⟨d + 1 + n, by omega, hdone.valid⟩

theorem noneValid_of_run (hs : s.state = .initial) (he : ∀ t, (i t).iEnable = true) {T : ℕ}
    (hT : 0 < T) (hvalid : (run next s i T).oDataValid = true) : s.NoneValid := by
  by_contra hv
  have hblocked : ∀ t, Blocked (run next s i (t + 1)) := by
    intro t
    induction t with
    | zero => exact blocked_of_valid hs hv (he 0)
    | succ t ih => exact blocked_next ih (he (t + 1))
  obtain ⟨t, rfl⟩ := Nat.exists_eq_add_of_lt hT
  rw [Nat.zero_add, (hblocked t).valid] at hvalid
  cases hvalid

theorem never_of_zero (hs : s.Primed) (hv : s.NoneValid) (h1 : 1 < N.toNat)
    (hN : N.toNat < 2 ^ 1023) (hi : Starts A 0#1024 N d i) (T : ℕ) :
    (run next s i T).oDataValid = false := by
  have hload := loaded_run hi hs hv
  rw [show (0#1024).toNat = 0 by simp] at hload
  obtain ⟨n, hquiet, hget⟩ := Ends.run_starts hi hs.state (hload.gets_getBit h1 hN)
  rcases Nat.lt_or_ge T (d + 1 + n) with hlt | hge
  · exact hquiet T hlt
  · have hscan : Scanning (run next s i T) := by
      induction T, hge using Nat.le_induction with
      | base => exact scanning_of_inGetBit hget
      | succ T hge ih =>
        have hheld := hi.held (T - (d + 1))
        rw [Nat.add_sub_cancel' (by omega)] at hheld
        exact scanning_next ih hheld
    simp [oDataValid, hscan.control, scanning, off]

end

/-- After a cycle with `iEnable` low: the exponentiation ends for every exponent but zero,
unless the low cycle led an engine into its valid cycle. -/
theorem terminates_iff (s : PowModMon1024) (low : In) (hlow : low.iEnable = false)
    (A B N : BitVec 1024) (h1 : 1 < N.toNat) (hN : N.toNat < 2 ^ 1023) :
    Terminates (s.next low) A B N ↔ B ≠ 0 ∧ (s.next low).NoneValid := by
  have hs := primed_of_low s hlow
  constructor
  · intro h
    obtain ⟨T, hT, hvalid⟩ := h 0 _ (starts_now A B N)
    have hnone := noneValid_of_run hs.state (fun _ => rfl) hT hvalid
    refine ⟨?_, hnone⟩
    rintro rfl
    have hquiet := never_of_zero hs hnone h1 hN (starts_now A 0#1024 N) T
    exact absurd (hquiet.symm.trans hvalid) Bool.false_ne_true
  · rintro ⟨hB, hv⟩
    refine terminates_of_pos hs hv h1 hN (Nat.pos_of_ne_zero ?_)
    exact fun hzero => hB (BitVec.eq_of_toNat_eq (by simpa using hzero))

/-! ### The number put out -/

section
variable {σ : Mul1024bit.Settlings} {A B N N₀ x y a : ℕ} {s : PowModMon1024} {i : In}

/-- The negated inverse finds the multiples of `N`. -/
theorem negated_spec (hlt : y < 2 ^ 1024) (hy : N * y % 2 ^ 1024 = 1) :
    (N * negated y + 1) % base = 0 := by
  have hpow : base ^ 32 = 2 ^ 1024 := by rw [base, ← pow_mul]
  have hdvd : base ∣ 2 ^ 1024 := by
    rw [← hpow]
    exact dvd_pow_self base (by decide)
  rw [negated, hpow]
  exact Montgomery.neg_inverse hdvd (Nat.one_lt_two_pow (by decide)) hlt hy

theorem le_half {v : ℕ} : v ≤ 2 ^ 1023 - 1 ↔ v < 2 ^ 1023 :=
  Nat.le_sub_one_iff_lt (Nat.two_pow_pos 1023)

/-- A product of numbers below `2 ^ 1023`, residues or not, is one again. -/
theorem product_le (hN₀ : (N * N₀ + 1) % base = 0) (hpos : 0 < N) (hN : N < 2 ^ 1023)
    (hx : x ≤ 2 ^ 1023 - 1) (y : ℕ) :
    product σ N N₀ x y ≤ 2 ^ 1023 - 1 ∧
      product σ N N₀ x y * 2 ^ 1024 ≡ x * magnitude σ.y y [MOD N] := by
  have hpow : base ^ 32 = 2 ^ 1024 := by rw [base, ← pow_mul]
  have hfit : 2 ^ 1023 - 1 + N ≤ base ^ 32 := by
    rw [hpow, pow_succ 2 1023, Nat.mul_two]
    exact Nat.add_le_add (Nat.sub_le _ _) hN.le
  have hP : x * magnitude σ.y y ≤ base ^ 32 * (2 ^ 1023 - 1) := by
    rw [Nat.mul_comm (base ^ 32)]
    exact Nat.mul_le_mul hx (magnitude_lt σ.y y).le
  obtain ⟨hlt, hmod⟩ := MonPro1024.result_lt_max hN₀ hpos hfit hP
  rw [hpow] at hmod
  rw [product, magnitude_of_lt (le_half.mp hx)]
  exact ⟨hlt.le.trans (max_le le_rfl (le_half.mpr hN)), hmod⟩

theorem product_isProduct (hN₀ : (N * N₀ + 1) % base = 0) (hpos : 0 < N) (hN : N < 2 ^ 1023) :
    Montgomery.IsProduct N (2 ^ 1023 - 1) (2 ^ 1024) (product σ N N₀) := by
  intro x hx y hy
  have hspec := product_le (σ := σ) hN₀ hpos hN hx y
  rwa [magnitude_of_lt (le_half.mp hy)] at hspec

/-- The multiplier takes the magnitude of its operand. -/
theorem product_actsAs (hN₀ : (N * N₀ + 1) % base = 0) (hpos : 0 < N) (hN : N < 2 ^ 1023)
    (a : ℕ) :
    Montgomery.ActsAs N (2 ^ 1023 - 1) (2 ^ 1024) (product σ N N₀) a (magnitude σ.y a) :=
  fun _ hx => product_le hN₀ hpos hN hx a

theorem product_one (hN₀ : (N * N₀ + 1) % base = 0) (hpos : 0 < N) (hN : N < 2 ^ 1023)
    (hx : x ≤ 2 ^ 1023 - 1) :
    product σ N N₀ x 1 < N ∧ product σ N N₀ x 1 * 2 ^ 1024 ≡ x [MOD N] := by
  have hpow : base ^ 32 = 2 ^ 1024 := by rw [base, ← pow_mul]
  have hhalf : (2 : ℕ) ^ 1023 + 2 ^ 1023 = base ^ 32 := by
    rw [hpow, pow_succ 2 1023, Nat.mul_two]
  have hone : (1 : ℕ) < 2 ^ 1023 := Nat.one_lt_two_pow (by decide)
  have hP : x ≤ base ^ 32 * 1 := by
    rw [Nat.mul_one, ← hhalf]
    exact (le_half.mp hx).le.trans (Nat.le_add_left _ _)
  obtain ⟨hlt, hmod⟩ := MonPro1024.result_lt_max hN₀ hpos
    (le_trans (Nat.add_le_add hone.le hN.le) hhalf.le) hP
  rw [hpow] at hmod
  rw [product, magnitude_of_lt (le_half.mp hx), magnitude_of_lt hone, Nat.mul_one]
  exact ⟨lt_of_lt_of_le hlt (max_le hpos le_rfl), hmod⟩

/-- One in Montgomery form, residue or not: a stale verdict does not matter here. -/
theorem secondResult_spec (h1 : 1 < N) (hN : N < 2 ^ 1023) (s : PowModMon1024) :
    secondResult N s % 2 ^ 1024 ≤ 2 ^ 1023 - 1 ∧
      secondResult N s % 2 ^ 1024 ≡ 2 ^ 1024 [MOD N] := by
  have hnot : ¬ (1 = 1 ∧ 2 ^ 1023 ≤ N) := fun h => absurd hN (Nat.not_lt.mpr h.2)
  have hdouble : (2 : ℕ) ^ 1024 = 2 * 2 ^ 1023 := pow_succ' 2 1023
  have hle : N ≤ 2 ^ 1024 := by
    rw [hdouble]
    exact le_trans hN.le (Nat.le_mul_of_pos_left _ Nat.two_pos)
  have hless : 2 * lessLargest N (2 ^ 1024) < 2 ^ 1024 := two_mul_lessLargest_lt (by omega) hle
  have hmod : 2 ^ 1024 % N < N := Nat.mod_lt _ (by omega)
  rw [secondResult, Mod2048.result, if_neg hnot, Nat.one_mul]
  split
  · have hsmall : lessLargest N (2 ^ 1024) < 2 ^ 1023 := by
      rw [hdouble] at hless ⊢
      exact Nat.lt_of_mul_lt_mul_left hless
    rw [Nat.mod_eq_of_lt (lt_trans hsmall (Nat.pow_lt_pow_right Nat.one_lt_two (by decide)))]
    exact ⟨le_half.mpr hsmall, lessLargest_mod N _⟩
  · have hsmall := lt_trans hmod hN
    rw [Nat.mod_eq_of_lt (lt_trans hsmall (Nat.pow_lt_pow_right Nat.one_lt_two (by decide)))]
    exact ⟨le_half.mpr hsmall, Nat.mod_modEq _ _⟩

/-- With the inverse the number put out is the power of what the first reduction left. -/
theorem power_spec (hodd : N % 2 = 1) (h1 : 1 < N) (hN : N < 2 ^ 1023)
    (hinverse : N * inverseResult N s % 2 ^ 1024 = 1) :
    power A B N s < N ∧ power A B N s * (2 ^ 1024) ^ B ≡
      magnitude s.settling.y (firstResult A N s % 2 ^ 1024) ^ B [MOD N] := by
  have hpos : 0 < N := by omega
  have hco : Nat.Coprime N (2 ^ 1024) :=
    Nat.Coprime.pow_right 1024 (Nat.coprime_two_right.mpr (Nat.odd_iff.mpr hodd))
  have hN₀ := negated_spec (MonModInverse1024.result_lt N _) hinverse
  have hprod := product_isProduct (σ := s.settling) hN₀ hpos hN
  have hacts := product_actsAs (σ := s.settling) hN₀ hpos hN (firstResult A N s % 2 ^ 1024)
  obtain ⟨hz, hone⟩ := secondResult_spec h1 hN s
  have hlt := (Montgomery.powerLoop_spec (e := B) hprod hacts hco B.size hz (by
    rw [Nat.div_eq_of_lt (Nat.lt_size_self B), pow_zero, pow_zero, Nat.mul_one, Nat.mul_one]
    exact hone)).1
  exact ⟨(product_one hN₀ hpos hN hlt).1,
    Montgomery.power_spec hprod hacts hco hz hone (Nat.lt_size_self B)
      fun x hx => (product_one hN₀ hpos hN hx).2⟩

/-- Right exactly when the first reduction left a number with the right power. -/
theorem power_eq_iff (hodd : N % 2 = 1) (h1 : 1 < N) (hN : N < 2 ^ 1023)
    (hinverse : N * inverseResult N s % 2 ^ 1024 = 1) :
    power A B N s = A ^ B % N ↔
      magnitude s.settling.y (firstResult A N s % 2 ^ 1024) ^ B ≡ (A * 2 ^ 1024) ^ B [MOD N] := by
  obtain ⟨hlt, hmod⟩ := power_spec (A := A) (B := B) hodd h1 hN hinverse
  have hco : Nat.Coprime N ((2 ^ 1024) ^ B) :=
    Nat.Coprime.pow_right B
      (Nat.Coprime.pow_right 1024 (Nat.coprime_two_right.mpr (Nat.odd_iff.mpr hodd)))
  rw [mul_pow]
  constructor
  · intro heq
    have hpower : power A B N s ≡ A ^ B [MOD N] := by
      rw [heq]
      exact Nat.mod_modEq _ _
    exact hmod.symm.trans (hpower.mul_right _)
  · intro h
    have hpower := Nat.ModEq.cancel_right_of_coprime hco (hmod.trans h)
    rw [← Nat.mod_eq_of_lt hlt]
    exact hpower

end

/-- Whenever the load pulse comes and whatever the other inputs, the first valid cycle puts out
`A ^ B` modulo `N`. -/
def GivesPower (s : PowModMon1024) (A B N : BitVec 1024) : Prop :=
  ∀ d i, Starts A B N d i → ∃ T, (∀ t < T, (run next s i t).oDataValid = false) ∧
    (run next s i T).oDataValid = true ∧
      (run next s i T).oZ.toNat = A.toNat ^ B.toNat % N.toNat

/-- What a load pulse in the next cycle finds in the multiplier of the inversion does not change
the first step of the inverse. -/
def InverseSound (N : ℕ) (s : PowModMon1024) : Prop :=
  (s.monModInverse.next s.monModInverseIn).mul.LeavesStale →
    ((s.monModInverse.next s.monModInverseIn).mul.buffRegOutput.toNat / base ^ 63 % 4 = 3 ↔
      N % 4 = 3)

/-- A load pulse in the next cycle finds no verdict for equal operands in the comparator of the
first reduction, or one that does not change the power. -/
def ReductionSound (A B N : ℕ) (s : PowModMon1024) : Prop :=
  (s.mod1.next s.mod1In).StaleEqual →
    magnitude s.settling.y (lessLargest N (A * 2 ^ 1024) % 2 ^ 1024) ^ B % N =
      (A * 2 ^ 1024) ^ B % N

section
variable {s : PowModMon1024} {i : In}

theorem inverseResult_iff {N : ℕ} (hodd : N % 2 = 1) (hN : N < 2 ^ 1023) :
    N * inverseResult N (s.next i) % 2 ^ 1024 = 1 ↔ InverseSound N s :=
  (MonModInverse1024.mul_result_mod hodd _).trans (MonModInverse1024.nextValue_mod_four _ hN)

theorem firstResult_iff {A B N : ℕ} (h1 : 1 < N) (hN : N < 2 ^ 1023) :
    magnitude (s.next i).settling.y (firstResult A N (s.next i) % 2 ^ 1024) ^ B ≡
        (A * 2 ^ 1024) ^ B [MOD N] ↔ ReductionSound A B N s := by
  have hnot : ¬ (A = 1 ∧ 2 ^ 1023 ≤ N) := fun h => absurd hN (Nat.not_lt.mpr h.2)
  have hmod : A * 2 ^ 1024 % N < N := Nat.mod_lt _ (by omega)
  have hsmall := lt_trans hmod hN
  have hpow : (2 : ℕ) ^ 1023 < 2 ^ 1024 := Nat.pow_lt_pow_right Nat.one_lt_two (by decide)
  have hmode : (s.next i).mod1.compareMode = 3 ↔ (s.mod1.next s.mod1In).StaleEqual := Iff.rfl
  rw [settling_next, firstResult, Mod2048.result, if_neg hnot, ReductionSound]
  by_cases hstale : (s.next i).mod1.compareMode = 3
  · rw [if_pos (decide_eq_true hstale)]
    exact ⟨fun h _ => h, fun h => h (hmode.mp hstale)⟩
  · rw [if_neg (by simpa using hstale), Nat.mod_eq_of_lt (lt_trans hsmall hpow),
      magnitude_of_lt hsmall]
    exact iff_of_true ((Nat.mod_modEq _ _).pow B) fun h => absurd (hmode.mpr h) hstale

theorem power_next_iff {A B N : ℕ} (hodd : N % 2 = 1) (h1 : 1 < N) (hN : N < 2 ^ 1023)
    (hinverse : s.InverseSound N) :
    power A B N (s.next i) = A ^ B % N ↔ ReductionSound A B N s :=
  (power_eq_iff hodd h1 hN ((inverseResult_iff hodd hN).mpr hinverse)).trans (firstResult_iff h1 hN)

theorem sound_of_wait (hs : s.state = .initial) (A B N : ℕ) :
    (s.next i).InverseSound N ∧ (s.next i).ReductionSound A B N := by
  have hoff : s.control = off := by simp [control, hs, off]
  have hlow : s.mod1In.iEnable = false := by simp [mod1In, hoff, off]
  have hmod1 : (s.next i).mod1.state = .initial := (Mod2048.next_low s.mod1 hlow).1
  have hinverse : (s.next i).monModInverse.state = .initial :=
    (MonModInverse1024.ready_of_disabled s.monModInverse
      (by simp [monModInverseIn, hoff, off])).state
  generalize s.next i = u at hmod1 hinverse
  constructor
  · rintro ⟨hstep, -⟩
    have hidle := Mul1024bit.idle_of_disabled u.monModInverse.mul u.monModInverse.mulIn
      (by simp [MonModInverse1024.mulIn, MonModInverse1024.control, hinverse])
    have hstate : (u.monModInverse.next u.monModInverseIn).mul.control.state = .initial :=
      hidle.state
    rw [hstate] at hstep
    cases hstep
  · intro hstale
    have hzero : (u.mod1.next u.mod1In).compareMode = 0 := by
      refine Mod2048.compareMode_zero ?_
      simp [Mod2048.next, Mod2048.control, hmod1, Mod2048.compare_off]
    rw [Mod2048.StaleEqual, hzero] at hstale
    cases hstale

theorem power_of_givesPower {A B N : BitVec 1024} (hs : s.Primed) (h1 : 1 < N.toNat)
    (hN : N.toNat < 2 ^ 1023) (hB : 0 < B.toNat) (h : GivesPower s A B N) :
    s.NoneValid ∧ power A.toNat B.toNat N.toNat (s.next ⟨true, true, A, B, N⟩) =
      A.toNat ^ B.toNat % N.toNat := by
  obtain ⟨T, hbefore, hvalid, hz⟩ := h 0 _ (starts_now A B N)
  have hT : 0 < T := by
    rcases Nat.eq_zero_or_pos T with rfl | hpos
    · have hlow : s.oDataValid = false := by simp [oDataValid, control, hs.state]
      exact absurd (hlow.symm.trans hvalid) Bool.false_ne_true
    · exact hpos
  have hnone := noneValid_of_run hs.state (fun _ => rfl) hT hvalid
  have hload := loaded_run (starts_now A B N) hs hnone
  obtain ⟨n, hquiet, hdone⟩ :=
    Ends.run_starts (starts_now A B N) hs.state (hload.gets_power h1 hN hB)
  have hright := (first_iff (P := fun T => (run next s _ T).oZ.toNat =
    A.toNat ^ B.toNat % N.toNat) hquiet hdone.valid).mp ⟨T, hbefore, hvalid, hz⟩
  rw [hdone.z] at hright
  exact ⟨hnone, hright⟩

end

/-- After a cycle with `iEnable` low, with an inversion that is not spoilt: the power comes out
unless the low cycle led an engine into its valid cycle, or left a verdict for equal operands
in the first reduction. -/
theorem givesPower_iff (s : PowModMon1024) (low : In) (hlow : low.iEnable = false)
    (A B N : BitVec 1024) (hodd : N.toNat % 2 = 1) (h1 : 1 < N.toNat) (hN : N.toNat < 2 ^ 1023)
    (hB : 1 ≤ B.toNat) (hinverse : (s.next low).InverseSound N.toNat) :
    GivesPower (s.next low) A B N ↔
      (s.next low).NoneValid ∧ (s.next low).ReductionSound A.toNat B.toNat N.toNat := by
  have hs := primed_of_low s hlow
  generalize s.next low = u at hs hinverse
  constructor
  · intro h
    obtain ⟨hnone, hright⟩ := power_of_givesPower hs h1 hN hB h
    exact ⟨hnone, (power_next_iff hodd h1 hN hinverse).mp hright⟩
  · rintro ⟨hnone, hreduction⟩ d i hi
    have hload := loaded_run hi hs hnone
    obtain ⟨n, hquiet, hdone⟩ := Ends.run_starts hi hs.state (hload.gets_power h1 hN hB)
    refine ⟨d + 1 + n, hquiet, hdone.valid, ?_⟩
    have hsound : (run next u i d).InverseSound N.toNat ∧
        (run next u i d).ReductionSound A.toNat B.toNat N.toNat := by
      cases d with
      | zero => exact ⟨hinverse, hreduction⟩
      | succ d => exact sound_of_wait (initial_run hi hs.state (Nat.le_succ d)) _ _ _
    rw [hdone.z]
    exact (power_next_iff hodd h1 hN hsound.1).mpr hsound.2

/-- All registers zero. -/
def cleared : PowModMon1024 where
  state := .initial
  a := 0
  b := 0
  n := 0
  n0 := 0
  z1 := 0
  mod1 := Mod2048.cleared
  mod1Count := false
  mod1Count1 := false
  mod2 := Mod2048.cleared
  mod2Count := false
  mod2Count1 := false
  monModInverse := MonModInverse1024.cleared
  monModInverseCount := false
  monModInverseCount1 := false
  sub := ⟨0, false, false⟩
  subCount := 0
  i := 0
  monPro := MonPro1024.cleared
  monProCount := false
  mod2048_1 := false
  mod2048_2 := false
  monModInverse_1 := false
  latch := off

/-- A cycle with `iEnable` low. -/
def disabled : In := ⟨false, false, 0, 0, 0⟩

theorem terminates_five :
    Terminates (cleared.next disabled) 5#1024 1#1024 3#1024 ↔
      1#1024 ≠ 0 ∧ (cleared.next disabled).NoneValid :=
  terminates_iff cleared disabled rfl 5#1024 1#1024 3#1024 (by decide +kernel) (by decide +kernel)

/-- The exponent zero is scanned without end. -/
theorem not_terminates_zero :
    ¬ ∀ (i : ℕ → In) (t : ℕ) (A B N : BitVec 1024), (i t).iEnable = false → N.toNat % 2 = 1 →
      1 < N.toNat → N.toNat < 2 ^ 1023 → Terminates (run next cleared i (t + 1)) A B N := by
  intro h
  have h1 : 1 < (3#1024).toNat := by decide +kernel
  have hN : (3#1024).toNat < 2 ^ 1023 := by decide +kernel
  have hend := h (fun _ => disabled) 0 5#1024 0#1024 3#1024 rfl (by decide +kernel) h1 hN
  obtain ⟨T, -, hvalid⟩ := hend 0 _ (starts_now 5#1024 0#1024 3#1024)
  have hs : (cleared.next disabled).Primed := primed_of_low cleared rfl
  have hv : (cleared.next disabled).NoneValid := noneValid_of_initial rfl disabled
  have hquiet := never_of_zero hs hv h1 hN (starts_now 5#1024 0#1024 3#1024) T
  exact absurd (hquiet.symm.trans hvalid) Bool.false_ne_true

theorem givesPower_five :
    GivesPower (cleared.next disabled) 5#1024 1#1024 3#1024 ↔
      (cleared.next disabled).NoneValid ∧
        (cleared.next disabled).ReductionSound (5#1024).toNat (1#1024).toNat (3#1024).toNat :=
  givesPower_iff cleared disabled rfl 5#1024 1#1024 3#1024 (by decide +kernel) (by decide +kernel)
    (by decide +kernel) (by decide +kernel)
    (sound_of_wait rfl (5#1024).toNat (1#1024).toNat (3#1024).toNat).1

/-! ### An aborted exponentiation -/

/-- `State_Mode` with the first reduction under way. -/
structure Reduces (s : PowModMon1024) : Prop where
  state : s.state = .mode
  control : s.control = engaged
  count : s.mod1Count = false
  count1 : s.mod1Count1 = false
  flag : s.mod2048_1 = false

section
variable {s : PowModMon1024} {i : In}

theorem mod1In_of_reduces (h : Reduces s) : Mod2048.hold s.mod1In := by
  constructor <;> simp [mod1In, h.control, engaged, h.count, h.count1]

theorem reduces_next (h : Reduces s) (hquiet : s.mod1.oDataValid = false) (hi : hold i) :
    Reduces (s.next i) := by
  have hstate : (s.next i).state = .mode := by simp [next, hi.1, h.state, h.flag]
  constructor
  case state => exact hstate
  case control => exact control_mode hstate (Or.inr h.control)
  case count => simp [next, h.control, engaged, PowModMon1024.count, h.count]
  case count1 => simp [next, hi.1, PowModMon1024.count1, hquiet, h.count1]
  case flag => simp [next, hi.1, PowModMon1024.flag, hquiet, h.flag]

theorem reduces_of_loaded {a B N : ℕ} (h : Loaded a B N s) (hi : hold i) : Reduces (s.next i) := by
  have hon : s.control = engaged := control_mode h.state (Or.inl h.latch)
  have hquiet : s.mod1.oDataValid = false := by
    simp [Mod2048.oDataValid, Mod2048.control, h.mod1]
  have hstate : (s.next i).state = .mode := by simp [next, hi.1, h.state, h.mod1Flag]
  constructor
  case state => exact hstate
  case control => exact control_mode hstate (Or.inr hon)
  case count => simp [next, hon, engaged, PowModMon1024.count, h.mod1Count]
  case count1 => simp [next, hi.1, PowModMon1024.count1, hquiet, h.mod1Count1]
  case flag => simp [next, hi.1, PowModMon1024.flag, hquiet, h.mod1Flag]

theorem Reduces.reaches {Q : Mod2048 → Prop} {n : ℕ} (h : Reduces s)
    (hmod : Mod2048.Reaches Q n s.mod1) : Reaches (fun s => Reduces s ∧ Q s.mod1) n s := by
  refine Leads.wait PowModMon1024.mod1 (fun s _ => s.mod1In) Reduces ?_ ?_ h hmod
  · exact fun s _ h _ => mod1In_of_reduces h
  · intro s i h hi hquiet
    exact ⟨quiet_of_control (by simp [h.control, engaged, off]) i, reduces_next h hquiet hi, rfl⟩

end

/-- From reset, a load pulse with `A = N = 3` after a cycle with `iEnable` low, and `iEnable`
low again in cycle 1154. -/
def aborting : ℕ → In :=
  fun t => ⟨decide (t ≠ 0 ∧ t ≠ 1154), decide (t = 1), 3#1024, 1#1024, 3#1024⟩

/-- The reduction of `3 * 2 ^ 1024` modulo 3 compares two equal numbers first. -/
theorem reaches_equal {e : Bool} {X : ℕ} {s : Mod2048} (hX : X = 3 * 2 ^ 1024)
    (h : Mod2048.InCheck e X 3 0 s) :
    Mod2048.Reaches (Mod2048.InCompare e X X 1025 62) 1151 s := by
  have hpow : base ^ 64 = 2 ^ 2048 := by rw [base, ← pow_mul]
  have hlt : X < 2 ^ 2048 := by
    rw [hX]
    decide +kernel
  have h3 : 3 < 2 ^ 2048 := by decide +kernel
  have hsize : X.size = Nat.size 3 + 1024 := by
    rw [hX]
    exact Mod2048.size_operand (by decide)
  have hpos : 0 < X := by
    rw [hX]
    exact Nat.mul_pos (by decide) (Nat.two_pow_pos 1024)
  have hshifts := Mod2048.shifts_aligned hlt h3 hpos hsize (by decide)
  have hreach := h.reaches_word (k := 62) (Nat.lt_of_lt_of_eq hlt hpow.symm)
    (Nat.lt_of_lt_of_eq h3 hpow.symm) (by decide)
  rw [hshifts, ← hX, Nat.mod_eq_of_lt hlt] at hreach
  exact hreach

/-- The low cycle meets the comparison of the operand with the aligned modulus, its equal, at
the last word but one. -/
theorem aborting_run : (run next cleared aborting (3 + 1151 + 1)).Primed ∧
    ((run next cleared aborting (3 + 1151 + 1)).mod1.next
      (run next cleared aborting (3 + 1151 + 1)).mod1In).StaleEqual := by
  have hprimed : (cleared.next (aborting 0)).Primed := primed_of_low cleared rfl
  have hnone : (cleared.next (aborting 0)).NoneValid := noneValid_of_initial rfl (aborting 0)
  have hload := loaded_of_load (i := aborting 1) hprimed hnone rfl rfl
  have hthree : (3#1024).toNat = 3 := by decide +kernel
  have hheld : ∀ t < 1151, hold (aborting (3 + t)) := by
    intro t ht
    exact ⟨decide_eq_true (show 3 + t ≠ 0 ∧ 3 + t ≠ 1154 by omega),
      decide_eq_false (show ¬ 3 + t = 1 by omega)⟩
  have hfirst : hold (aborting 2) := ⟨rfl, rfl⟩
  have hrun : run next cleared aborting 3 =
      ((cleared.next (aborting 0)).next (aborting 1)).next (aborting 2) := rfl
  generalize (cleared.next (aborting 0)).next (aborting 1) = s at hload hrun
  have hon := control_mode hload.state (Or.inl hload.latch)
  have hX : s.mod1In.iX.toNat = 3 * 2 ^ 1024 := by
    rw [← hthree]
    exact (Mod2048.operand_toNat s.a).trans (congrArg (· * 2 ^ 1024) hload.a)
  have hY : s.mod1In.iY.toNat = 3 := by
    rw [← hthree]
    exact (Mod2048.modulus_toNat s.n).trans hload.operands.n
  have hcheck := Mod2048.inCheck_of_load (i := s.mod1In) hload.mod1 hload.mod1Equal
    (by simp [mod1In, hon, engaged, hload.mod1Count1])
    (by simp [mod1In, hon, engaged, hload.mod1Count])
  rw [hY] at hcheck
  have hreach := (reduces_of_loaded hload hfirst).reaches (reaches_equal hX hcheck)
  rw [← hrun] at hreach
  obtain ⟨-, hreduces, hcompare⟩ := hreach.run (fun t => aborting (3 + t)) hheld
  rw [← run_add next cleared aborting 3 1151] at hreduces hcompare
  have hlast := Mod2048.inCompare_next (by decide) hcompare (mod1In_of_reduces hreduces)
  rw [run_last]
  refine ⟨primed_of_low _ rfl, ?_⟩
  exact Mod2048.staleEqual_of_inCompare (lt_base_2048 s.mod1In.iX) hlast _

theorem power_zero {a N : ℕ} {s : PowModMon1024} (h : firstResult a N s % 2 ^ 1024 = 0) :
    power a 1 N s = 0 := by
  have hzero : ∀ σ, magnitude σ 0 = 0 := fun σ => magnitude_of_lt (Nat.two_pow_pos 1023)
  have hloop : ∀ N₀ z, Montgomery.powerLoop (product s.settling N N₀) 0 1 1 z = 0 := by
    intro N₀ z
    rw [Montgomery.powerLoop, Montgomery.powerLoop, if_pos (by decide), product, hzero,
      Nat.mul_zero, MonPro1024.result_zero]
  rw [power, h, Nat.size_one, hloop, product, hzero, Nat.zero_mul, MonPro1024.result_zero]

/-- Loaded again right after the abort, the machine finds 0 for 5 modulo 3. -/
theorem not_givesPower_aborted :
    ¬ ∀ (i : ℕ → In) (t : ℕ) (A B N : BitVec 1024), (i t).iEnable = false → N.toNat % 2 = 1 →
      1 < N.toNat → N.toNat < 2 ^ 1023 → 1 ≤ B.toNat →
        GivesPower (run next cleared i (t + 1)) A B N := by
  intro h
  have h1 : 1 < (3#1024).toNat := by decide +kernel
  have hN : (3#1024).toNat < 2 ^ 1023 := by decide +kernel
  have hB : 1 ≤ (1#1024).toNat := by decide +kernel
  have hlow : (aborting (3 + 1151)).iEnable = false :=
    decide_eq_false (show ¬ (3 + 1151 ≠ 0 ∧ 3 + 1151 ≠ 1154) by omega)
  have hgives := h aborting (3 + 1151) 5#1024 1#1024 3#1024 hlow (by decide +kernel) h1 hN hB
  obtain ⟨hprimed, hstale⟩ := aborting_run
  generalize run next cleared aborting (3 + 1151 + 1) = u at hgives hprimed hstale
  obtain ⟨-, hright⟩ := power_of_givesPower hprimed h1 hN hB hgives
  have hthree : (3#1024).toNat = 3 := by decide +kernel
  have hfive : (5#1024).toNat = 5 := by decide +kernel
  have hone : (1#1024).toNat = 1 := by decide +kernel
  rw [hthree, hfive, hone] at hright
  have hfirst : firstResult 5 3 (u.next ⟨true, true, 5#1024, 1#1024, 3#1024⟩) % 2 ^ 1024 = 0 := by
    have hmode : (u.next ⟨true, true, 5#1024, 1#1024, 3#1024⟩).mod1.compareMode = 3 := hstale
    have hless : lessLargest 3 (5 * 2 ^ 1024) = 5 * 2 ^ 1024 - 3 * 2 ^ 1024 :=
      lessLargest_eq (by decide) (by decide +kernel) (by decide +kernel)
    have hnot : ¬ (5 = 1 ∧ 2 ^ 1023 ≤ 3) := fun h => absurd h.1 (by decide)
    rw [firstResult, Mod2048.result, if_neg hnot, if_pos (decide_eq_true hmode), hless]
    decide +kernel
  rw [power_zero hfirst] at hright
  exact absurd hright (by decide)

end PowModMon1024

end SocCrypto.Rsa

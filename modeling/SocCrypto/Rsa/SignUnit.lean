import SocCrypto.Rsa.Serial

/-!
# The sign units of the multiplier

`Invert1024.v` and `Invert2048.v`. `oData` and the latch `CheckOne` come from an `always @(*)`
block that reads and sets `CheckOne`, so what a unit puts out depends on when the block runs:
it runs on changes of its inputs only, and a word like the one before it is no change.
-/

namespace SocCrypto.Rsa
open WordSerial

/-- How `always @(*)` and `assign Temp` come to rest when `iData` has changed. Verilog leaves the
order of the two open; a latch in hardware follows its own output until nothing changes. -/
inductive Settling where
  | tempFirst
  | blockFirst
  | feedback
  deriving DecidableEq

/-- A sign unit: its counter, the inputs the block has seen last and what it left. -/
structure Inverter where
  settling : Settling
  step : BitVec 7
  iEnable : Bool
  iSign : Bool
  iData : Word
  checkOne : Bool
  oData : Word
  deriving DecidableEq

namespace Inverter

/-- `~iData + 1`. -/
def temp (iData : Word) : Word := ~~~iData + 1

/-- One run of the block with `iEnable` high: `oData` and `CheckOne`. -/
def block (iSign : Bool) (iData temp : Word) (checkOne : Bool) : Word × Bool :=
  if iSign then
    if iData = 0 then (0, checkOne)
    else if checkOne then (~~~iData, checkOne)
    else (temp, true)
  else (iData, checkOne)

/-- What the runs of the block after a change of its inputs leave. -/
def rerun (u : Inverter) (iSign : Bool) (iData : Word) : Word × Bool :=
  let run := block iSign iData
  match u.settling with
  | .tempFirst => run (temp iData) u.checkOne
  | .blockFirst =>
    -- `Temp` is still that of the old word, and its change starts the block again
    if u.iData = iData then run (temp iData) u.checkOne
    else run (temp iData) (run (temp u.iData) u.checkOne).2
  | .feedback => run (temp iData) (run (temp iData) u.checkOne).2

/-- `oData` and `CheckOne` at the end of the cycle. With `iEnable` low the block has left zeros
whether it has run in this cycle or not. -/
def settle (u : Inverter) (iEnable iSign : Bool) (iData : Word) : Word × Bool :=
  if !iEnable then (0, false)
  else if u.iEnable ∧ u.iSign = iSign ∧ u.iData = iData then (u.oData, u.checkOne)
  else u.rerun iSign iData

/-- One clock; `top` is the word count of the module. -/
def next (top : BitVec 7) (u : Inverter) (iEnable iSign : Bool) (iData : Word) : Inverter where
  settling := u.settling
  step := if !iEnable then 0 else if u.step < top then u.step + 1 else u.step
  iEnable := iEnable
  iSign := iSign
  iData := iData
  checkOne := (u.settle iEnable iSign iData).2
  oData := (u.settle iEnable iSign iData).1

/-- Before the first cycle. -/
def cleared (σ : Settling) : Inverter := ⟨σ, 0, false, false, 0, false, 0⟩

end Inverter

abbrev Invert1024 := Inverter
def Invert1024.next : Invert1024 → Bool → Bool → Word → Invert1024 := Inverter.next 32
def Invert1024.oFinish (u : Invert1024) : Bool := decide (u.step = 31)

abbrev Invert2048 := Inverter
def Invert2048.next : Invert2048 → Bool → Bool → Word → Invert2048 := Inverter.next 64
def Invert2048.oFinish (u : Invert2048) : Bool := decide (u.step = 63)

/-! ### The words put out -/

/-- The first nonzero word gets its `+ 1` if it is word `k`. -/
def Settling.carries : Settling → ℕ → Bool
  | .tempFirst, _ => true
  | .blockFirst, k => decide (k = 0)
  | .feedback, _ => false

/-- Word `k` of a negative `v` after a run of the block. -/
def complemented (σ : Settling) (v k : ℕ) : ℕ :=
  if digit base v k = 0 then 0
  else if v % base ^ k = 0 ∧ σ.carries k then base - digit base v k
  else base - 1 - digit base v k

/-- Word `k` of a negative `v`: without a change of `iData` the last one is put out again. -/
def negatedDigit (σ : Settling) (v : ℕ) : ℕ → ℕ
  | 0 => complemented σ v 0
  | k + 1 => if digit base v (k + 1) = digit base v k then negatedDigit σ v k
    else complemented σ v (k + 1)

/-- Word `k` of what a sign unit puts out for `v`. -/
def invertDigit (σ : Settling) (sign : Bool) (v k : ℕ) : ℕ :=
  if sign then negatedDigit σ v k else digit base v k

/-- The low `k` words a sign unit puts out for `v`. -/
def inverted (σ : Settling) (sign : Bool) (v : ℕ) : ℕ → ℕ
  | 0 => 0
  | k + 1 => inverted σ sign v k + invertDigit σ sign v k * base ^ k

section
variable {σ : Settling} {sign : Bool} {v k n : ℕ}

theorem complemented_lt (σ : Settling) (v k : ℕ) : complemented σ v k < base := by
  have hd := digit_lt base_pos v k
  unfold complemented
  split_ifs <;> omega

theorem negatedDigit_lt (σ : Settling) (v k : ℕ) : negatedDigit σ v k < base := by
  induction k with
  | zero => exact complemented_lt σ v 0
  | succ k ih =>
    rw [negatedDigit]
    split
    · exact ih
    · exact complemented_lt σ v (k + 1)

theorem invertDigit_true : invertDigit σ true v k = negatedDigit σ v k := if_pos rfl

theorem invertDigit_false : invertDigit σ false v k = digit base v k := if_neg Bool.false_ne_true

theorem invertDigit_lt (σ : Settling) (sign : Bool) (v k : ℕ) : invertDigit σ sign v k < base := by
  unfold invertDigit
  split
  · exact negatedDigit_lt σ v k
  · exact digit_lt base_pos v k

theorem inverted_lt (σ : Settling) (sign : Bool) (v k : ℕ) : inverted σ sign v k < base ^ k := by
  induction k with
  | zero => simp [inverted]
  | succ k ih =>
    have hle : invertDigit σ sign v k + 1 ≤ base := invertDigit_lt σ sign v k
    have hmul := Nat.mul_le_mul_right (base ^ k) hle
    rw [inverted, pow_succ']
    nlinarith

/-- Words that come out as they went in. -/
theorem inverted_eq_mod (h : ∀ k < n, invertDigit σ sign v k = digit base v k) :
    inverted σ sign v n = v % base ^ n := by
  induction n with
  | zero => simp [inverted, Nat.mod_one]
  | succ n ih =>
    rw [inverted, ih fun k hk => h k (by omega), h n (by omega), mod_pow_succ]

theorem inverted_nonneg (σ : Settling) (v k : ℕ) : inverted σ false v k = v % base ^ k :=
  inverted_eq_mod fun _ _ => invertDigit_false

theorem mod_pow_succ_ne_zero (v k : ℕ) :
    v % base ^ (k + 1) ≠ 0 ↔ v % base ^ k ≠ 0 ∨ digit base v k ≠ 0 := by
  have hpos : 0 < base ^ k := Nat.pow_pos base_pos
  rw [mod_pow_succ, ne_eq, Nat.add_eq_zero_iff, Nat.mul_eq_zero]
  omega

end

/-! ### A number passing through -/

namespace Inverter

/-- Before word `k` of `v`. The block has seen the word before it, or word 0 with `iEnable` low;
a set latch has seen a nonzero word. -/
structure At (σ : Settling) (sign : Bool) (v k : ℕ) (u : Inverter) : Prop where
  settling : u.settling = σ
  step : u.step.toNat = k
  checkOne : u.checkOne = (sign && decide (v % base ^ k ≠ 0))
  first : k = 0 → u.iEnable = false ∧ u.iData.toNat = digit base v 0
  later : ∀ j, k = j + 1 → u.iEnable = true ∧ u.iSign = sign ∧ u.iData.toNat = digit base v j ∧
    u.oData.toNat = invertDigit σ sign v j

/-- A cycle with `iEnable` low and the number in place. -/
theorem at_start (sign : Bool) (v : ℕ) {u : Inverter} {s : Bool} {d : Word}
    (hd : d.toNat = digit base v 0) :
    At u.settling sign v 0 (Invert1024.next u false s d) := by
  constructor
  case first => exact fun _ => ⟨rfl, hd⟩
  case later => exact fun j hj => absurd hj (by omega)
  all_goals simp [Invert1024.next, next, settle, Nat.mod_one]

theorem temp_toNat {d : Word} (hd : d.toNat ≠ 0) : (temp d).toNat = base - d.toNat := by
  have hlt := d.isLt
  rw [temp, BitVec.toNat_add, BitVec.toNat_not]
  show (2 ^ 32 - 1 - d.toNat + 1) % 2 ^ 32 = 2 ^ 32 - d.toNat
  omega

theorem not_toNat (d : Word) : (~~~d).toNat = base - 1 - d.toNat := BitVec.toNat_not

/-- Without a sign the block passes words on. -/
theorem rerun_nonneg (u : Inverter) (d : Word) : u.rerun false d = (d, u.checkOne) := by
  cases hσ : u.settling <;> simp [rerun, hσ, block]

theorem rerun_zero (u : Inverter) : u.rerun true 0#32 = (0#32, u.checkOne) := by
  cases hσ : u.settling <;> simp [rerun, hσ, block]

theorem rerun_set {u : Inverter} {d : Word} (hd : d ≠ 0#32) (hone : u.checkOne = true) :
    u.rerun true d = (~~~d, true) := by
  cases hσ : u.settling <;> simp [rerun, hσ, block, hd, hone]

/-- The first nonzero word. -/
theorem rerun_first {u : Inverter} {d : Word} {k : ℕ} (hd : d ≠ 0#32) (hone : u.checkOne = false)
    (hseen : u.iData = d ↔ k = 0) :
    u.rerun true d = (if u.settling.carries k then temp d else ~~~d, true) := by
  cases hσ : u.settling <;> by_cases hk : k = 0 <;>
    simp [rerun, hσ, block, hd, hone, hseen, hk, Settling.carries]

section
variable {σ : Settling} {sign : Bool} {v k : ℕ} {u : Inverter} {d : Word}

theorem rerun_toNat (hone : u.checkOne = decide (v % base ^ k ≠ 0)) (hd : d.toNat = digit base v k)
    (hseen : u.iData = d ↔ k = 0) :
    (u.rerun true d).1.toNat = complemented u.settling v k ∧
      (u.rerun true d).2 = decide (v % base ^ (k + 1) ≠ 0) := by
  by_cases hdigit : digit base v k = 0
  · have hzero : d = 0#32 := BitVec.eq_of_toNat_eq (hd.trans hdigit)
    rw [hzero, rerun_zero, complemented, if_pos hdigit, hone]
    exact ⟨rfl, decide_eq_decide.mpr (by rw [mod_pow_succ_ne_zero]; simp [hdigit])⟩
  · have hne : d ≠ 0#32 := fun h => hdigit (by rw [← hd, h]; rfl)
    have hset : decide (v % base ^ (k + 1) ≠ 0) = true :=
      decide_eq_true ((mod_pow_succ_ne_zero v k).mpr (Or.inr hdigit))
    rw [complemented, if_neg hdigit, hset]
    by_cases hlow : v % base ^ k = 0
    · rw [rerun_first hne (by simpa [hlow] using hone) hseen]
      cases u.settling.carries k
      · simpa [hlow, hd] using not_toNat d
      · simpa [hlow, hd] using temp_toNat (hd.trans_ne hdigit)
    · rw [rerun_set hne (by simpa [hlow] using hone)]
      simpa [hlow, hd] using not_toNat d

/-- A word unlike the one before it. -/
theorem At.rerun (h : u.At σ sign v k) (hd : d.toNat = digit base v k)
    (hseen : u.iData = d ↔ k = 0)
    (hchange : ∀ j, k = j + 1 → digit base v (j + 1) ≠ digit base v j) :
    (u.rerun sign d).1.toNat = invertDigit σ sign v k ∧
      (u.rerun sign d).2 = (sign && decide (v % base ^ (k + 1) ≠ 0)) := by
  have hone := h.checkOne
  cases sign with
  | false =>
    rw [rerun_nonneg, invertDigit_false]
    exact ⟨hd, by simpa using hone⟩
  | true =>
    have hspec := rerun_toNat (by simpa using hone) hd hseen
    rw [h.settling] at hspec
    refine ⟨?_, by simpa using hspec.2⟩
    rw [hspec.1, invertDigit_true]
    cases k with
    | zero => rfl
    | succ j => rw [negatedDigit, if_neg (hchange j rfl)]

/-- The word before once more. -/
theorem At.held {j : ℕ} (h : u.At σ sign v (j + 1))
    (hsame : digit base v (j + 1) = digit base v j) :
    u.oData.toNat = invertDigit σ sign v (j + 1) ∧
      u.checkOne = (sign && decide (v % base ^ (j + 1 + 1) ≠ 0)) := by
  obtain ⟨-, -, -, hout⟩ := h.later j rfl
  rw [hout, h.checkOne]
  constructor
  · cases sign
    · rw [invertDigit_false, invertDigit_false, hsame]
    · rw [invertDigit_true, invertDigit_true, negatedDigit, if_pos hsame]
  · have hlow := mod_pow_succ_ne_zero v j
    have hnow := mod_pow_succ_ne_zero v (j + 1)
    rw [hsame] at hnow
    have hiff : v % base ^ (j + 1) ≠ 0 ↔ v % base ^ (j + 1 + 1) ≠ 0 := by
      rw [hnow, hlow]
      exact (or_iff_left_of_imp Or.inr).symm
    rw [decide_eq_decide.mpr hiff]

theorem At.settle (h : u.At σ sign v k) (hd : d.toNat = digit base v k) :
    (u.settle true sign d).1.toNat = invertDigit σ sign v k ∧
      (u.settle true sign d).2 = (sign && decide (v % base ^ (k + 1) ≠ 0)) := by
  cases k with
  | zero =>
    obtain ⟨hlow, hdata⟩ := h.first rfl
    have hrun : u.settle true sign d = u.rerun sign d := by simp [Inverter.settle, hlow]
    rw [hrun]
    exact h.rerun hd ⟨fun _ => rfl, fun _ => BitVec.eq_of_toNat_eq (hdata.trans hd.symm)⟩
      fun j hj => absurd hj (by omega)
  | succ j =>
    obtain ⟨hhigh, hsign, hdata, -⟩ := h.later j rfl
    have hseen : u.iData = d ↔ digit base v (j + 1) = digit base v j := by
      rw [← BitVec.toNat_inj, hdata, hd]
      exact eq_comm
    by_cases hsame : digit base v (j + 1) = digit base v j
    · have hheld : u.settle true sign d = (u.oData, u.checkOne) := by
        simp [Inverter.settle, hhigh, hsign, hseen.mpr hsame]
      rw [hheld]
      exact h.held hsame
    · have hne : ¬ u.iData = d := fun heq => hsame (hseen.mp heq)
      have hrun : u.settle true sign d = u.rerun sign d := by simp [Inverter.settle, hne]
      rw [hrun]
      refine h.rerun hd ⟨fun heq => absurd heq hne, fun hk => absurd hk (by omega)⟩ ?_
      intro j' hj'
      cases hj'
      exact hsame

theorem At.next (h : u.At σ sign v k) (hk : k < 32) (hd : d.toNat = digit base v k) :
    (Invert1024.next u true sign d).At σ sign v (k + 1) := by
  have hlt : u.step < 32 := by
    rw [BitVec.lt_def, h.step]
    exact hk
  constructor
  case settling => exact h.settling
  case step =>
    simp only [Invert1024.next, Inverter.next, Bool.not_true, Bool.false_eq_true, if_false,
      if_pos hlt]
    exact toNat_add_one h.step (by omega)
  case checkOne => exact (h.settle hd).2
  case first => exact fun hz => absurd hz (by omega)
  case later =>
    intro j hj
    obtain rfl : k = j := by omega
    exact ⟨rfl, rfl, hd, (h.settle hd).1⟩

end

end Inverter

/-! ### Operands -/

/-- What the sign unit makes of an operand: its top bit counts as the sign. -/
def magnitude (σ : Settling) (v : ℕ) : ℕ := inverted σ (decide (2 ^ 1023 ≤ v)) v 32

/-- A number that comes through although its top bit is set: all words from the first nonzero one
on are `2 ^ 31`, and the first one gets its `+ 1`. -/
def Symmetric (σ : Settling) (v : ℕ) : Prop :=
  ∃ f ≤ 31, σ.carries f = true ∧ v % base ^ f = 0 ∧
    ∀ j ≤ 31, f ≤ j → digit base v j = 2 ^ 31

section
variable {σ : Settling} {v k : ℕ}

theorem magnitude_lt (σ : Settling) (v : ℕ) : magnitude σ v < base ^ 32 := inverted_lt σ _ v 32

theorem magnitude_of_lt (hv : v < 2 ^ 1023) : magnitude σ v = v := by
  have hbase : base ^ 32 = 2 ^ 1024 := by rw [base, ← pow_mul]
  rw [magnitude, decide_eq_false (Nat.not_le.mpr hv), inverted_nonneg, hbase]
  exact Nat.mod_eq_of_lt (lt_trans hv (Nat.pow_lt_pow_right (by decide) (by decide)))

theorem top_split (hv : v < base ^ 32) :
    v = v % base ^ 31 + digit base v 31 * base ^ 31 ∧
      (2 ^ 1023 ≤ v ↔ 2 ^ 31 ≤ digit base v 31) := by
  have hsplit : v = v % base ^ 31 + digit base v 31 * base ^ 31 := by
    rw [← mod_pow_succ, Nat.mod_eq_of_lt hv]
  have hlow : v % base ^ 31 < base ^ 31 := Nat.mod_lt _ (Nat.pow_pos base_pos)
  have htop : (2 : ℕ) ^ 1023 = 2 ^ 31 * base ^ 31 := by rw [base, ← pow_mul, ← pow_add]
  refine ⟨hsplit, ?_⟩
  rw [htop]
  generalize base ^ 31 = P at *
  generalize digit base v 31 = d at *
  constructor
  · intro hle
    by_contra hd
    have hmul : (d + 1) * P ≤ 2 ^ 31 * P := Nat.mul_le_mul_right P (by omega)
    nlinarith
  · intro hd
    have hmul := Nat.mul_le_mul_right P hd
    omega

theorem complemented_le (hd : digit base v k ≠ 0) :
    complemented σ v k ≤ base - digit base v k := by
  rw [complemented, if_neg hd]
  split <;> omega

theorem negatedDigit_le (hd : digit base v k ≠ 0) :
    negatedDigit σ v k ≤ base - digit base v k := by
  induction k with
  | zero => exact complemented_le hd
  | succ k ih =>
    rw [negatedDigit]
    split
    · rename_i hsame
      rw [hsame] at hd ⊢
      exact ih hd
    · exact complemented_le hd

theorem carries_of_complemented (hd : digit base v k ≠ 0)
    (heq : complemented σ v k = base - digit base v k) :
    v % base ^ k = 0 ∧ σ.carries k = true := by
  have hlt := digit_lt base_pos v k
  rw [complemented, if_neg hd] at heq
  by_contra hnot
  rw [if_neg hnot] at heq
  omega

/-- A word that got the `+ 1` itself, or is the same as the word before it that did. -/
theorem exists_carries (hd : digit base v k ≠ 0)
    (heq : negatedDigit σ v k = base - digit base v k) :
    ∃ f ≤ k, σ.carries f = true ∧ v % base ^ f = 0 ∧
      ∀ j ≤ k, f ≤ j → digit base v j = digit base v k := by
  induction k with
  | zero =>
    obtain ⟨hlow, hcarries⟩ := carries_of_complemented hd heq
    refine ⟨0, le_rfl, hcarries, hlow, fun j hj _ => ?_⟩
    rw [Nat.le_zero.mp hj]
  | succ k ih =>
    by_cases hsame : digit base v (k + 1) = digit base v k
    · rw [negatedDigit, if_pos hsame] at heq
      rw [hsame] at hd heq
      obtain ⟨f, hf, hcarries, hlow, hrest⟩ := ih hd heq
      refine ⟨f, by omega, hcarries, hlow, fun j hj hfj => ?_⟩
      rcases Nat.lt_or_eq_of_le hj with hlt | rfl
      · rw [hsame]
        exact hrest j (by omega) hfj
      · rfl
    · rw [negatedDigit, if_neg hsame] at heq
      obtain ⟨hlow, hcarries⟩ := carries_of_complemented hd heq
      refine ⟨k + 1, le_rfl, hcarries, hlow, fun j hj hfj => ?_⟩
      rw [le_antisymm hj hfj]

theorem digit_eq_zero {f j : ℕ} (hlow : v % base ^ f = 0) (hj : j < f) : digit base v j = 0 := by
  have hdvd : base ^ (j + 1) ∣ v := (pow_dvd_pow base hj).trans (Nat.dvd_of_mod_eq_zero hlow)
  have hsplit := mod_pow_succ base v j
  have hzero := Nat.mod_eq_zero_of_dvd hdvd
  rw [hzero] at hsplit
  have hmul := (Nat.add_eq_zero_iff.mp hsplit.symm).2
  exact (Nat.mul_eq_zero.mp hmul).resolve_right (Nat.pow_pos base_pos).ne'

theorem negatedDigit_eq_zero (hd : digit base v k = 0) : negatedDigit σ v k = 0 := by
  induction k with
  | zero => rw [negatedDigit, complemented, if_pos hd]
  | succ k ih =>
    rw [negatedDigit]
    split
    · rename_i hsame
      exact ih (hsame.symm.trans hd)
    · rw [complemented, if_pos hd]

theorem Symmetric.negatedDigit_eq (h : Symmetric σ v) (hk : k ≤ 31) :
    negatedDigit σ v k = digit base v k := by
  obtain ⟨f, hf, hcarries, hlow, hrest⟩ := h
  rcases Nat.lt_or_ge k f with hlt | hge
  · have hzero := digit_eq_zero hlow hlt
    rw [negatedDigit_eq_zero hzero, hzero]
  · have hfirst : complemented σ v f = 2 ^ 31 := by
      have hd := hrest f hf le_rfl
      rw [complemented, if_neg (by rw [hd]; decide), if_pos ⟨hlow, hcarries⟩, hd]
      rfl
    rw [hrest k hk hge]
    induction k with
    | zero =>
      rw [Nat.le_zero.mp hge] at hfirst
      exact hfirst
    | succ k ih =>
      rw [negatedDigit]
      rcases Nat.lt_or_eq_of_le hge with hlt | rfl
      · rw [if_pos ((hrest _ hk hge).trans (hrest k (by omega) (by omega)).symm)]
        exact ih (by omega) (by omega)
      · have hbelow := digit_eq_zero hlow (Nat.lt_succ_self k)
        rw [if_neg (by rw [hbelow, hrest _ hk le_rfl]; decide)]
        exact hfirst

theorem Symmetric.magnitude_eq (h : Symmetric σ v) (hv : v < base ^ 32) : magnitude σ v = v := by
  have hdigits : ∀ k < 32, invertDigit σ (decide (2 ^ 1023 ≤ v)) v k = digit base v k := by
    intro k hk
    rw [invertDigit]
    split
    · exact h.negatedDigit_eq (by omega)
    · rfl
  rw [magnitude, inverted_eq_mod hdigits, Nat.mod_eq_of_lt hv]

/-- A negative operand comes out smaller unless it is symmetric. -/
theorem magnitude_of_le (hv : v < base ^ 32) (hle : 2 ^ 1023 ≤ v) :
    magnitude σ v < v ∨ Symmetric σ v := by
  obtain ⟨hsplit, htop⟩ := top_split hv
  have hd := htop.mp hle
  have hdlt := digit_lt base_pos v 31
  have hdne : digit base v 31 ≠ 0 := by omega
  have hbase : base = 2 ^ 32 := rfl
  have hdigit := negatedDigit_le (σ := σ) hdne
  rcases Nat.lt_or_ge (negatedDigit σ v 31) (digit base v 31) with hlt | hge
  · left
    have hlow := inverted_lt σ true v 31
    have hmul := Nat.mul_le_mul_right (base ^ 31)
      (show negatedDigit σ v 31 + 1 ≤ digit base v 31 from hlt)
    have hout : magnitude σ v = inverted σ true v 31 + negatedDigit σ v 31 * base ^ 31 := by
      rw [magnitude, decide_eq_true hle]
      rfl
    have htail : digit base v 31 * base ^ 31 ≤ v := le_of_le_of_eq (Nat.le_add_left _ _) hsplit.symm
    rw [Nat.add_mul] at hmul
    omega
  · right
    have hhalf : digit base v 31 = 2 ^ 31 := by omega
    obtain ⟨f, hf, hcarries, hlow, hrest⟩ := exists_carries (σ := σ) hdne (by omega)
    exact ⟨f, hf, hcarries, hlow, fun j hj hfj => (hrest j hj hfj).trans hhalf⟩

theorem magnitude_le (hv : v < base ^ 32) : magnitude σ v ≤ v := by
  rcases Nat.lt_or_ge v (2 ^ 1023) with hlt | hge
  · exact le_of_eq (magnitude_of_lt hlt)
  · rcases magnitude_of_le hv hge with hsmall | hsym
    · exact hsmall.le
    · exact le_of_eq (hsym.magnitude_eq hv)

theorem magnitude_eq_iff (hv : v < base ^ 32) :
    magnitude σ v = v ↔ v < 2 ^ 1023 ∨ Symmetric σ v := by
  constructor
  · intro heq
    rcases Nat.lt_or_ge v (2 ^ 1023) with hlt | hge
    · exact Or.inl hlt
    · exact Or.inr ((magnitude_of_le hv hge).resolve_left (by omega))
  · rintro (hlt | hsym)
    · exact magnitude_of_lt hlt
    · exact hsym.magnitude_eq hv

end

end SocCrypto.Rsa

import Mathlib.Algebra.BigOperators.Group.Finset.Basic
import Mathlib.Tactic.Ring

/-!
# Hexadecimal text

Numbers printed in base 16 by `printf`, with the fewest digits or with a fixed number of
them, and the number a digit string denotes.
-/

namespace SocCrypto.HexText

/-! ### Digits -/

/-- Value of a lower-case digit. -/
def digitValue (c : Char) : ℕ := if c.isDigit then c.toNat - 48 else c.toNat - 87

/-- The sixteen digits. -/
def digits : List Char := "0123456789abcdef".toList

theorem digitValue_digitChar : ∀ d < 16, digitValue (Nat.digitChar d) = d := by decide

/-- A property of the digits is a check of sixteen. -/
theorem forall_digits {p : Char → Prop} [DecidablePred p]
    (h : digits.all (fun c => decide (p c)) = true) : ∀ c ∈ digits, p c := by
  intro c hc
  exact of_decide_eq_true (List.all_eq_true.mp h c hc)

theorem digitValue_lt : ∀ c ∈ digits, digitValue c < 16 := forall_digits (by decide)

theorem digitChar_digitValue : ∀ c ∈ digits, Nat.digitChar (digitValue c) = c :=
  forall_digits (by decide)

/-- The number a digit string denotes, most significant digit first. -/
def value (cs : List Char) : ℕ := cs.foldl (fun v c => 16 * v + digitValue c) 0

@[simp] theorem value_nil : value [] = 0 := rfl

theorem value_append_singleton (cs : List Char) (c : Char) :
    value (cs ++ [c]) = 16 * value cs + digitValue c := by
  rw [value, List.foldl_append]
  rfl

theorem value_append (cs ds : List Char) :
    value (cs ++ ds) = value cs * 16 ^ ds.length + value ds := by
  induction ds using List.reverseRecOn with
  | nil => simp
  | append_singleton ds d ih =>
    rw [← List.append_assoc, value_append_singleton, value_append_singleton, ih,
      List.length_append, List.length_singleton]
    ring

theorem value_cons (c : Char) (cs : List Char) :
    value (c :: cs) = digitValue c * 16 ^ cs.length + value cs := by
  have happend := value_append [c] cs
  rw [List.singleton_append] at happend
  rw [happend]
  simp [value]

/-! ### A fixed number of digits -/

/-- The last `k` digits of `n`. -/
def fixed : ℕ → ℕ → List Char
  | 0, _ => []
  | k + 1, n => fixed k (n / 16) ++ [Nat.digitChar (n % 16)]

theorem fixed_succ (k n : ℕ) :
    fixed (k + 1) n = fixed k (n / 16) ++ [Nat.digitChar (n % 16)] := rfl

@[simp] theorem length_fixed (k n : ℕ) : (fixed k n).length = k := by
  induction k generalizing n with
  | zero => rfl
  | succ k ih =>
    unfold fixed
    rw [List.length_append, ih, List.length_singleton]

theorem value_fixed (k n : ℕ) : value (fixed k n) = n % 16 ^ k := by
  induction k generalizing n with
  | zero => simp [fixed, Nat.mod_one]
  | succ k ih =>
    unfold fixed
    rw [value_append_singleton, ih, digitValue_digitChar _ (Nat.mod_lt n (by decide)),
      Nat.pow_succ', Nat.mod_mul]
    omega

theorem fixed_inj {k n m : ℕ} (hn : n < 16 ^ k) (hm : m < 16 ^ k) (h : fixed k n = fixed k m) :
    n = m := by
  have hvalue := congrArg value h
  rw [value_fixed, value_fixed, Nat.mod_eq_of_lt hn, Nat.mod_eq_of_lt hm] at hvalue
  exact hvalue

theorem fixed_value {cs : List Char} (h : ∀ c ∈ cs, c ∈ digits) :
    fixed cs.length (value cs) = cs := by
  induction cs using List.reverseRecOn with
  | nil => rfl
  | append_singleton cs c ih =>
    have hc := h c (by simp)
    have hlt := digitValue_lt c hc
    have hlow : (16 * value cs + digitValue c) % 16 = digitValue c := by omega
    have hhigh : (16 * value cs + digitValue c) / 16 = value cs := by omega
    rw [value_append_singleton, List.length_append, List.length_singleton]
    unfold fixed
    rw [hhigh, hlow, digitChar_digitValue c hc, ih fun d hd => h d (by simp [hd])]

theorem fixed_add (j k n : ℕ) : fixed (j + k) n = fixed j (n / 16 ^ k) ++ fixed k n := by
  induction k generalizing n with
  | zero => simp [fixed]
  | succ k ih =>
    rw [← Nat.add_assoc, fixed_succ, ih, Nat.div_div_eq_div_mul, ← Nat.pow_succ',
      List.append_assoc, ← fixed_succ]

theorem fixed_mod (k n : ℕ) : fixed k (n % 16 ^ k) = fixed k n := by
  induction k generalizing n with
  | zero => rfl
  | succ k ih =>
    have hlow : n % 16 ^ (k + 1) % 16 = n % 16 := Nat.mod_mod_of_dvd n (Dvd.intro_left _ rfl)
    have hhigh : n % 16 ^ (k + 1) / 16 = n / 16 % 16 ^ k := by
      rw [Nat.pow_succ', Nat.mod_mul_right_div_self]
    unfold fixed
    rw [hlow, hhigh, ih]

/-- Words of `k` digits, most significant first, are the digits of the number they make up. -/
theorem flatMap_fixed {k : ℕ} (w : ℕ → ℕ) (hw : ∀ i, w i < 16 ^ k) (m : ℕ) :
    ∑ i ∈ Finset.range m, w i * 16 ^ (k * i) < 16 ^ (k * m) ∧
      (List.range m).reverse.flatMap (fun i => fixed k (w i)) =
        fixed (k * m) (∑ i ∈ Finset.range m, w i * 16 ^ (k * i)) := by
  induction m with
  | zero => simp [fixed]
  | succ m ih =>
    obtain ⟨hlt, htext⟩ := ih
    generalize hv : ∑ i ∈ Finset.range m, w i * 16 ^ (k * i) = v at hlt htext
    have hpos : 0 < 16 ^ (k * m) := Nat.pow_pos (by decide)
    have hhigh : (v + w m * 16 ^ (k * m)) / 16 ^ (k * m) = w m := by
      rw [Nat.add_mul_div_right _ _ hpos, Nat.div_eq_of_lt hlt, Nat.zero_add]
    have hlow : (v + w m * 16 ^ (k * m)) % 16 ^ (k * m) = v := by
      rw [Nat.add_mul_mod_self_right, Nat.mod_eq_of_lt hlt]
    rw [Finset.sum_range_succ, hv]
    constructor
    · calc v + w m * 16 ^ (k * m) < (w m + 1) * 16 ^ (k * m) := by
            rw [Nat.succ_mul]
            omega
        _ ≤ 16 ^ k * 16 ^ (k * m) := Nat.mul_le_mul_right _ (hw m)
        _ = 16 ^ (k * (m + 1)) := by rw [← Nat.pow_add, Nat.mul_succ, Nat.add_comm]
    · rw [List.range_succ, List.reverse_append, List.reverse_singleton, List.singleton_append,
        List.flatMap_cons, htext, Nat.mul_succ, Nat.add_comm (k * m), fixed_add, hhigh,
        ← fixed_mod (k * m) (v + _), hlow]

/-! ### `printf` -/

/-- `%x` with a precision: at least that many digits. -/
def printHex (precision n : ℕ) : List Char := (Nat.toDigits 16 n).leftpad precision '0'

theorem leftpad_append_singleton {α : Type} (k : ℕ) (a c : α) (cs : List α) :
    (cs ++ [c]).leftpad (k + 1) a = cs.leftpad k a ++ [c] := by
  simp [List.leftpad]

theorem printHex_eq_fixed {k n : ℕ} (hk : 0 < k) (h : n < 16 ^ k) : printHex k n = fixed k n := by
  obtain ⟨k, rfl⟩ := Nat.exists_eq_succ_of_ne_zero hk.ne'
  clear hk
  induction k generalizing n with
  | zero =>
    have hn : n < 16 := h
    rw [printHex, Nat.toDigits_of_lt_base hn]
    unfold fixed
    rw [Nat.mod_eq_of_lt hn]
    rfl
  | succ k ih =>
    unfold fixed
    rw [← ih (Nat.div_lt_of_lt_mul (by rw [← Nat.pow_succ']; exact h)), printHex]
    rcases Nat.lt_or_ge n 16 with hlt | hge
    · rw [Nat.toDigits_of_lt_base hlt, ← List.nil_append [_], leftpad_append_singleton,
        Nat.mod_eq_of_lt hlt, Nat.div_eq_of_lt hlt, printHex, Nat.toDigits_zero]
      simp [List.leftpad, List.replicate_succ']
    · rw [Nat.toDigits_of_base_le (by decide) hge, leftpad_append_singleton]
      rfl

/-- Without a precision a number has no more digits than it needs. -/
theorem printHex_one (n : ℕ) : printHex 1 n = Nat.toDigits 16 n := by
  have hpos := Nat.length_toDigits_pos (b := 16) (n := n)
  rw [printHex, List.leftpad, Nat.sub_eq_zero_of_le hpos]
  rfl

theorem length_printHex_one_le {k n : ℕ} (hk : 0 < k) (h : n < 16 ^ k) :
    (printHex 1 n).length ≤ k := by
  rw [printHex_one]
  exact (Nat.length_toDigits_le_iff (by decide) hk).mpr h

/-- It has `k + 1` digits when its first digit of `k + 1` is not zero. -/
theorem length_printHex_one_iff {k n : ℕ} (hk : 0 < k) (h : n < 16 ^ (k + 1)) :
    (printHex 1 n).length = k + 1 ↔ 16 ^ k ≤ n := by
  have hle := length_printHex_one_le (Nat.succ_pos k) h
  have hfew := Nat.length_toDigits_le_iff (b := 16) (n := n) (by decide) hk
  rw [printHex_one] at hle ⊢
  omega

/-- Then it is printed as with the precision `k + 1`. -/
theorem printHex_one_eq_fixed {k n : ℕ} (hk : 0 < k) (hn : 16 ^ k ≤ n) (h : n < 16 ^ (k + 1)) :
    printHex 1 n = fixed (k + 1) n := by
  have hlen := (length_printHex_one_iff hk h).mpr hn
  rw [← printHex_eq_fixed (Nat.succ_pos k) h, printHex, printHex]
  rw [printHex_one] at hlen
  simp [List.leftpad, hlen]

/-- A text of numbers shows `k + 1` digits of each exactly when none begins with a zero. -/
theorem flatMap_printHex_one_iff {k : ℕ} (hk : 0 < k) (ns : List ℕ) (h : ∀ n ∈ ns, n < 16 ^ (k + 1)) :
    ns.flatMap (printHex 1) = ns.flatMap (fixed (k + 1)) ↔ ∀ n ∈ ns, 16 ^ k ≤ n := by
  have hshort : ∀ ms : List ℕ, (∀ n ∈ ms, n < 16 ^ (k + 1)) →
      (ms.flatMap (printHex 1)).length ≤ (ms.flatMap (fixed (k + 1))).length := by
    intro ms hms
    induction ms with
    | nil => exact le_rfl
    | cons n ms ih =>
      have hn := length_printHex_one_le (Nat.succ_pos k) (hms n List.mem_cons_self)
      have hrest := ih fun m hm => hms m (List.mem_cons_of_mem n hm)
      simp only [List.flatMap_cons, List.length_append, length_fixed]
      omega
  induction ns with
  | nil => simp
  | cons n ns ih =>
    have hn := h n List.mem_cons_self
    have hns : ∀ m ∈ ns, m < 16 ^ (k + 1) := fun m hm => h m (List.mem_cons_of_mem n hm)
    have hih := ih hns
    rw [List.forall_mem_cons, List.flatMap_cons, List.flatMap_cons]
    constructor
    · intro htext
      have hlen := congrArg List.length htext
      have hfirst := length_printHex_one_le (Nat.succ_pos k) hn
      have hrest := hshort ns hns
      simp only [List.length_append, length_fixed] at hlen
      have hfull : (printHex 1 n).length = k + 1 := by omega
      refine ⟨(length_printHex_one_iff hk hn).mp hfull, hih.mp ?_⟩
      exact (List.append_inj htext (by rw [hfull, length_fixed])).2
    · rintro ⟨hge, hrest⟩
      rw [printHex_one_eq_fixed hk hge hn, hih.mpr hrest]

theorem flatMap_fixed_inj {k : ℕ} {ns ms : List ℕ} (hlen : ns.length = ms.length)
    (hn : ∀ n ∈ ns, n < 16 ^ k) (hm : ∀ m ∈ ms, m < 16 ^ k)
    (h : ns.flatMap (fixed k) = ms.flatMap (fixed k)) : ns = ms := by
  induction ns generalizing ms with
  | nil => exact (List.length_eq_zero_iff.mp hlen.symm).symm
  | cons n ns ih =>
    cases ms with
    | nil => cases hlen
    | cons m ms =>
      rw [List.forall_mem_cons] at hn hm
      rw [List.flatMap_cons, List.flatMap_cons] at h
      obtain ⟨hfirst, hrest⟩ := List.append_inj h (by rw [length_fixed, length_fixed])
      rw [fixed_inj hn.1 hm.1 hfirst, ih (Nat.succ_inj.mp hlen) hn.2 hm.2 hrest]

end SocCrypto.HexText

import Mathlib.Data.BitVec
import SocCrypto.HexText
import SocCrypto.Word

/-!
# Keys as text

`RSA_Convert` of `RSA.h`, which reads a 1024-bit key from 256 hexadecimal digits into 32
words, and the loops of `RSA_Show_Result` and `SHA_256_Show_Result`, which print words most
significant first. `int` and `unsigned int` have 32 bits and wrap around.
-/

namespace SocCrypto.Soft
open HexText

/-! ### Printing words -/

/-- The loop from `i = count - 1` down to 0 that prints word `start + i`. -/
def showWords (precision count : ℕ) (mem : Sdram) (start : ℕ) : List Char :=
  (List.range count).reverse.flatMap fun i => printHex precision (mem (start + i)).toNat

def rsaShowResult (mem : Sdram) (offset : ℕ) : List Char :=
  "\nRSA = ".toList ++ showWords 8 32 mem (offset / 4) ++ "\n\n".toList

def sha256ShowResult (mem : Sdram) (offset : ℕ) : List Char :=
  "\nHASH SHA_256: ".toList ++ showWords 1 8 mem (offset / 4)

/-- Eight digits a word are the digits of the number the words make up. -/
theorem showWords_eight (count : ℕ) (mem : Sdram) (start : ℕ) :
    showWords 8 count mem start =
      fixed (8 * count) (∑ i ∈ Finset.range count, (mem (start + i)).toNat * 2 ^ (32 * i)) := by
  have hbound : ∀ i, (mem (start + i)).toNat < 16 ^ 8 := fun i => (mem (start + i)).isLt
  have hbase : ∀ i : ℕ, 2 ^ (32 * i) = 16 ^ (8 * i) := by
    intro i
    rw [show (16 : ℕ) = 2 ^ 4 from rfl, ← Nat.pow_mul]
    congr 1
    omega
  simp only [showWords, printHex_eq_fixed (by decide) (hbound _), hbase]
  exact (flatMap_fixed (fun i => (mem (start + i)).toNat) hbound count).2

/-! ### `RSA_Convert` -/

def rsaHex2Dec : Char → BitVec 32
  | '0' => 0
  | '1' => 1
  | '2' => 2
  | '3' => 3
  | '4' => 4
  | '5' => 5
  | '6' => 6
  | '7' => 7
  | '8' => 8
  | '9' => 9
  | 'a' => 10
  | 'b' => 11
  | 'c' => 12
  | 'd' => 13
  | 'e' => 14
  | 'f' => 15
  | _ => -1

/-- The loop runs `n` times. -/
def rsaPower (a : BitVec 32) : ℕ → BitVec 32
  | 0 => 1
  | n + 1 => rsaPower a n * a

/-- The loop variables and the words stored so far. -/
structure Convert where
  temp : Word
  i : ℤ
  k : ℕ
  a : Sdram

namespace Convert

/-- The body of the inner loop. -/
def digit (key : ℤ → Char) (s : Convert) (j : ℕ) : Convert :=
  let temp := s.temp + rsaHex2Dec (key s.i) * rsaPower 16 j
  if j = 7 then ⟨temp, s.i - 1, s.k + 1, s.a.write s.k temp⟩ else ⟨temp, s.i - 1, s.k, s.a⟩

/-- The body of the outer loop. -/
def word (key : ℤ → Char) (s : Convert) : Convert :=
  (List.range 8).foldl (digit key) { s with temp := 0 }

theorem digit_i (key : ℤ → Char) (s : Convert) (j : ℕ) : (s.digit key j).i = s.i - 1 := by
  unfold digit
  split <;> rfl

theorem foldl_digit_i (key : ℤ → Char) (js : List ℕ) (s : Convert) :
    (js.foldl (digit key) s).i = s.i - js.length := by
  induction js generalizing s with
  | nil => simp
  | cons j js ih =>
    rw [List.foldl_cons, ih, digit_i, List.length_cons]
    omega

theorem word_i (key : ℤ → Char) (s : Convert) : (s.word key).i = s.i - 8 :=
  foldl_digit_i key (List.range 8) _

/-- `while (i >= 0)`. -/
def loop (key : ℤ → Char) (s : Convert) : Convert :=
  if 0 ≤ s.i then loop key (s.word key) else s
termination_by (s.i + 1).toNat
decreasing_by
  rw [word_i]
  omega

end Convert

def rsaConvert (a : Sdram) (key : ℤ → Char) : Sdram := (Convert.loop key ⟨0, 255, 0, a⟩).a

/-! ### Round trip -/

/-- The text of a key: 256 lower-case digits. -/
structure KeyText where
  chars : List Char
  length_eq : chars.length = 256
  isDigit : ∀ c ∈ chars, c ∈ digits

/-- The array that holds it, with its terminator. -/
def KeyText.key (s : KeyText) (i : ℤ) : Char := s.chars.getD i.toNat '\x00'

theorem rsaHex2Dec_eq : ∀ c ∈ digits, rsaHex2Dec c = BitVec.ofNat 32 (digitValue c) :=
  forall_digits (by decide)

theorem rsaPower_eq (n : ℕ) : rsaPower 16 n = BitVec.ofNat 32 (16 ^ n) := by
  induction n with
  | zero => rfl
  | succ n ih =>
    unfold rsaPower
    rw [ih, Nat.pow_succ, BitVec.ofNat_mul]
    rfl

namespace Convert

/-- After `8 k + j` digits: `k` words and the part of the next word that `t` is hold the value
of these digits, and no other word of the array has changed. -/
structure Read (s : KeyText) (a : Sdram) (k j t : ℕ) (c : Convert) : Prop where
  le : 8 * k + j ≤ 256
  i_eq : c.i = 255 - (8 * k + j : ℕ)
  k_eq : c.k = k
  temp_eq : c.temp = BitVec.ofNat 32 t
  lt : t < 16 ^ j
  value : t * 2 ^ (32 * k) + ∑ m ∈ Finset.range k, (c.a m).toNat * 2 ^ (32 * m) =
    HexText.value (s.chars.drop (256 - (8 * k + j)))
  rest : ∀ m ≥ k, c.a m = a m

theorem drop_eq_cons (s : KeyText) {p : ℕ} (hp : p < 256) :
    ∃ c ∈ digits, s.key (255 - p : ℕ) = c ∧
      s.chars.drop (256 - (p + 1)) = c :: s.chars.drop (256 - p) := by
  have hlt : 255 - p < s.chars.length := by
    rw [s.length_eq]
    omega
  refine ⟨s.chars[255 - p], s.isDigit _ (List.getElem_mem hlt), ?_, ?_⟩
  · simp [KeyText.key, hlt]
  · rw [show 256 - (p + 1) = 255 - p by omega, show 256 - p = 255 - p + 1 by omega]
    exact List.drop_eq_getElem_cons hlt

/-- One more digit: what the word and the value grow by. -/
theorem Read.next {s : KeyText} {a : Sdram} {k j t : ℕ} {c : Convert} (h : c.Read s a k j t)
    (hp : 8 * k + j < 256) :
    ∃ d < 16, c.temp + rsaHex2Dec (s.key c.i) * rsaPower 16 j = BitVec.ofNat 32 (t + d * 16 ^ j) ∧
      (t + d * 16 ^ j) * 2 ^ (32 * k) + ∑ m ∈ Finset.range k, (c.a m).toNat * 2 ^ (32 * m) =
        HexText.value (s.chars.drop (256 - (8 * k + (j + 1)))) := by
  obtain ⟨x, hx, hkey, hdrop⟩ := drop_eq_cons s hp
  have hi : c.i = ((255 - (8 * k + j) : ℕ) : ℤ) := by
    rw [h.i_eq]
    omega
  have hlen : (s.chars.drop (256 - (8 * k + j))).length = 8 * k + j := by
    rw [List.length_drop, s.length_eq]
    omega
  have hpow : (16 : ℕ) ^ (8 * k + j) = 16 ^ j * 2 ^ (32 * k) := by
    rw [Nat.pow_add, Nat.mul_comm, show (16 : ℕ) = 2 ^ 4 from rfl, ← Nat.pow_mul 2 4 (8 * k)]
    congr 2
    omega
  refine ⟨digitValue x, digitValue_lt x hx, ?_, ?_⟩
  · rw [hi, hkey, rsaHex2Dec_eq x hx, rsaPower_eq, h.temp_eq, ← BitVec.ofNat_mul, ← BitVec.ofNat_add]
  · rw [← Nat.add_assoc, hdrop, value_cons, hlen, ← h.value, hpow]
    ring

/-- A digit that does not end its word. -/
theorem Read.digit {s : KeyText} {a : Sdram} {k j t : ℕ} {c : Convert} (h : c.Read s a k j t)
    (hk : k < 32) (hj : j < 7) : ∃ t', (c.digit s.key j).Read s a k (j + 1) t' := by
  obtain ⟨d, hd, htemp, hvalue⟩ := h.next (by omega)
  have hlt := h.lt
  have hnext : c.digit s.key j =
      ⟨BitVec.ofNat 32 (t + d * 16 ^ j), c.i - 1, c.k, c.a⟩ := by
    unfold Convert.digit
    rw [if_neg (by omega), htemp]
  rw [hnext]
  refine ⟨t + d * 16 ^ j, by omega, ?_, h.k_eq, rfl, ?_, hvalue, h.rest⟩
  · show c.i - 1 = _
    rw [h.i_eq]
    omega
  · calc t + d * 16 ^ j < (d + 1) * 16 ^ j := by
          rw [Nat.succ_mul]
          omega
      _ ≤ 16 * 16 ^ j := Nat.mul_le_mul_right _ hd
      _ = 16 ^ (j + 1) := (Nat.pow_succ').symm

theorem Read.digits {s : KeyText} {a : Sdram} {k : ℕ} {c : Convert} (h : c.Read s a k 0 0)
    (hk : k < 32) {j : ℕ} (hj : j ≤ 7) :
    ∃ t, ((List.range j).foldl (Convert.digit s.key) c).Read s a k j t := by
  induction j with
  | zero => exact ⟨0, h⟩
  | succ j ih =>
    obtain ⟨t, hread⟩ := ih (by omega)
    rw [List.range_succ, List.foldl_append]
    exact hread.digit hk hj

/-- The last digit of a word stores it. -/
theorem Read.word {s : KeyText} {a : Sdram} {k : ℕ} {c : Convert}
    (h : ({ c with temp := 0 } : Convert).Read s a k 0 0) (hk : k < 32) :
    ({ c.word s.key with temp := 0 } : Convert).Read s a (k + 1) 0 0 := by
  obtain ⟨t, hread⟩ := h.digits hk le_rfl
  have hword : c.word s.key =
      ((List.range 7).foldl (Convert.digit s.key) { c with temp := 0 }).digit s.key 7 := by
    rw [Convert.word, List.range_succ, List.foldl_append]
    rfl
  generalize (List.range 7).foldl (Convert.digit s.key) { c with temp := 0 } = b at hread hword
  obtain ⟨d, hd, htemp, hvalue⟩ := hread.next (by omega)
  have hnext : b.digit s.key 7 = ⟨BitVec.ofNat 32 (t + d * 16 ^ 7), b.i - 1, k + 1,
      b.a.write k (BitVec.ofNat 32 (t + d * 16 ^ 7))⟩ := by
    unfold Convert.digit
    rw [if_pos rfl, htemp, hread.k_eq]
  have hlt : t + d * 16 ^ 7 < 2 ^ 32 := by
    have := hread.lt
    omega
  rw [hword, hnext]
  refine ⟨by omega, ?_, rfl, rfl, by decide, ?_, ?_⟩
  · show b.i - 1 = _
    rw [hread.i_eq]
    omega
  · have hsum : ∑ m ∈ Finset.range k,
        (b.a.write k (BitVec.ofNat 32 (t + d * 16 ^ 7)) m).toNat * 2 ^ (32 * m) =
        ∑ m ∈ Finset.range k, (b.a m).toNat * 2 ^ (32 * m) := by
      apply Finset.sum_congr rfl
      intro m hm
      rw [Sdram.write_other (Finset.mem_range.mp hm).ne]
    show 0 * _ + ∑ m ∈ Finset.range (k + 1),
      (b.a.write k (BitVec.ofNat 32 (t + d * 16 ^ 7)) m).toNat * 2 ^ (32 * m) = _
    rw [Finset.sum_range_succ, hsum, Sdram.write_same, BitVec.toNat_ofNat, Nat.mod_eq_of_lt hlt,
      Nat.zero_mul, Nat.zero_add, Nat.add_comm]
    exact hvalue
  · intro m hm
    show b.a.write k _ m = a m
    rw [Sdram.write_other (by omega)]
    exact hread.rest m (by omega)

/-- The outer loop ends with the whole key read. -/
theorem Read.loop {s : KeyText} {a : Sdram} {k : ℕ} {c : Convert}
    (h : ({ c with temp := 0 } : Convert).Read s a k 0 0) :
    ({ Convert.loop s.key c with temp := 0 } : Convert).Read s a 32 0 0 := by
  have hi : c.i = 255 - (8 * k + 0 : ℕ) := h.i_eq
  have hle := h.le
  induction hn : 32 - k generalizing k c with
  | zero =>
    obtain rfl : k = 32 := by omega
    unfold Convert.loop
    rw [if_neg (by omega)]
    exact h
  | succ n ih =>
    have hnext := h.word (by omega)
    unfold Convert.loop
    rw [if_pos (by omega)]
    exact ih hnext hnext.i_eq hnext.le (by omega)

end Convert

/-- The words hold the number the text denotes, printing them gives the text back, and
nothing behind them is touched. -/
theorem convert_roundTrip (s : KeyText) (a : Sdram) :
    ∑ k ∈ Finset.range 32, (rsaConvert a s.key k).toNat * 2 ^ (32 * k) = value s.chars ∧
      rsaShowResult (rsaConvert a s.key) 0 = "\nRSA = ".toList ++ s.chars ++ "\n\n".toList ∧
      ∀ k ≥ 32, rsaConvert a s.key k = a k := by
  have hstart : Convert.Read s a 0 0 0 ⟨0, 255, 0, a⟩ := by
    refine ⟨by decide, rfl, rfl, rfl, by decide, ?_, fun _ _ => rfl⟩
    rw [show 256 - (8 * 0 + 0) = s.chars.length from s.length_eq.symm, List.drop_length]
    rfl
  have hend := Convert.Read.loop (c := ⟨0, 255, 0, a⟩) hstart
  have hvalue : ∑ k ∈ Finset.range 32, (rsaConvert a s.key k).toNat * 2 ^ (32 * k) =
      value s.chars := by
    have hsum := hend.value
    rw [Nat.zero_mul, Nat.zero_add] at hsum
    exact hsum
  have htext : showWords 8 32 (rsaConvert a s.key) 0 = s.chars := by
    rw [showWords_eight]
    simp only [Nat.zero_add]
    rw [hvalue, show 8 * 32 = s.chars.length from s.length_eq.symm]
    exact fixed_value s.isDigit
  refine ⟨hvalue, ?_, hend.rest⟩
  unfold rsaShowResult
  rw [Nat.zero_div, htext]

/-- The sixteen digits sixteen times over. -/
def allDigits : KeyText where
  chars := (List.replicate 16 digits).flatten
  length_eq := by
    have hlen : digits.length = 16 := by decide
    rw [List.length_flatten, List.map_replicate, List.sum_replicate_nat, hlen]
  isDigit := by
    intro c hc
    obtain ⟨l, hl, hmem⟩ := List.mem_flatten.mp hc
    rwa [List.eq_of_mem_replicate hl] at hmem

theorem convert_roundTrip_allDigits :
    rsaShowResult (rsaConvert (fun _ => 0) allDigits.key) 0 =
      "\nRSA = ".toList ++ (List.replicate 16 digits).flatten ++ "\n\n".toList :=
  (convert_roundTrip allDigits fun _ => 0).2.1

end SocCrypto.Soft

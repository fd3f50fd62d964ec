import SocCrypto.Clocked
import SocCrypto.Sha.Core
import SocCrypto.Soft.Padding

/-!
# The padding machine

`Padding.v` takes a 1024-bit message, drops its leading zero bytes, puts the others into
words with the end mark behind them, and fills up to the length word of the last block.
-/

namespace SocCrypto.Sha
open Clocked Soft

/-! ### The machine -/

/-- `state`, in the order 4'd0 to 4'd13. -/
inductive PaddingState where
  | check
  | strip
  | complement
  | take
  | put
  | retake
  | last
  | mark
  | join
  | number
  | fill
  | size
  | load
  | hold
  deriving DecidableEq

structure Padding where
  M : ℕ → Word
  length : BitVec 8
  data : BitVec 1024
  state : PaddingState
  i : BitVec 6
  j : BitVec 8
  count : BitVec 3
  temp : Word
  oDone : Bool
  oDataValid : Bool
  oBlockValue : BitVec 512
  oNumberBlock : BitVec 2

structure PaddingIn where
  iRst_n : Bool
  iEnable : Bool
  iLoad : Bool
  iIdBlock : BitVec 2
  iMessage : BitVec 1024

/-- `data[1023:1016]`. -/
def topByte (data : BitVec 1024) : Byte := data.extractLsb' 1016 8

/-- The `case` on `count`: one byte of `temp` is replaced. -/
def putByte (temp : Word) (count : BitVec 3) (b : Byte) : Word :=
  match count.toNat with
  | 0 => b ++ temp.extractLsb' 0 24
  | 1 => temp.extractLsb' 24 8 ++ b ++ temp.extractLsb' 0 16
  | 2 => temp.extractLsb' 16 16 ++ b ++ temp.extractLsb' 0 8
  | 3 => temp.extractLsb' 8 24 ++ b
  | _ => temp

/-- `{M[k],…,M[k+15]}`. -/
def blockValue (M : ℕ → Word) (k : ℕ) : BitVec 512 :=
  (List.range 16).foldl (fun b a => pushWord b (M (k + a))) 0

namespace Padding

/-- `M[i] <= v`. -/
def store (s : Padding) (v : Word) : ℕ → Word :=
  if s.i.toNat < 48 then Function.update s.M s.i.toNat v else s.M

/-- Both resets are the same. -/
def reset (s : Padding) (iMessage : BitVec 1024) : Padding :=
  { s with
    length := 0, state := .check, data := iMessage, i := 0, j := 0, count := 0, temp := 0,
    oNumberBlock := 0, oDone := false, oDataValid := false }

/-- `M[i] <= 32'd0` up to the last index, then on to state 11. -/
def fillTo (s : Padding) (last : BitVec 6) : Padding :=
  if s.i ≤ last then { s with i := s.i + 1, M := s.store 0 } else { s with state := .size }

/-- One clock. -/
def step (s : Padding) (x : PaddingIn) : Padding :=
  if !x.iRst_n then s.reset x.iMessage
  else if !x.iEnable then s.reset x.iMessage
  else
    match s.state with
    | .check =>
      if topByte s.data = 0 then { s with length := s.length + 1, state := .strip }
      else { s with state := .complement }
    | .strip => { s with data := s.data <<< 8, state := .check }
    | .complement => { s with length := 128 - s.length, state := .take }
    | .take =>
      { s with
        temp := putByte s.temp s.count (topByte s.data), count := s.count + 1, j := s.j + 1
        state := if s.j = s.length then .last else .put }
    | .put =>
      let s' := { s with data := s.data <<< 8, M := s.store s.temp, state := .take }
      if s.count = 4 then { s' with count := 0, temp := 0, i := s.i + 1 } else s'
    | .retake => { s with state := .take }
    | .last => { s with M := s.store s.temp, j := s.length - s.length / 4 * 4, state := .mark }
    | .mark =>
      if s.j = 0 then { s with M := s.store (0x80 <<< 24), state := .number }
      else if s.j < 3 then
        { s with temp := 0x80 <<< ((3 - s.j) * 8).toNat, state := .join }
      else { s with temp := 0x80, state := .join }
    | .join => { s with M := s.store (s.M s.i.toNat ||| s.temp), state := .number }
    | .number =>
      { s with
        i := s.i + 1, state := .fill
        oNumberBlock :=
          if s.length ≤ 55 then 1
          else if 56 ≤ s.length ∧ s.length ≤ 119 then 2
          else if 120 ≤ s.length ∧ s.length ≤ 183 then 3
          else s.oNumberBlock }
    | .fill =>
      if s.length ≤ 55 then s.fillTo 14
      else if 56 ≤ s.length ∧ s.length ≤ 119 then s.fillTo 30
      else if 120 ≤ s.length ∧ s.length ≤ 183 then s.fillTo 46
      else s
    | .size =>
      { s with M := s.store (s.length.setWidth 32 <<< 3), oDone := true, state := .load }
    | .load =>
      if s.oDone && x.iLoad then
        { s with
          oDataValid := true, state := .hold
          oBlockValue :=
            if x.iIdBlock = 1 then blockValue s.M 0
            else if x.iIdBlock = 2 then blockValue s.M 16
            else if x.iIdBlock = 3 then blockValue s.M 32
            else s.oBlockValue }
      else { s with state := .hold }
    | .hold => { s with oDataValid := false, state := if x.iLoad then .load else .hold }

end Padding

/-! ### The message -/

/-- Byte `k` from the top; zero past the end. -/
def messageByte (m : BitVec 1024) (k : ℕ) : Byte := topByte (m <<< (8 * k))

/-- Leading zero bytes. -/
def leadingZeros (m : BitVec 1024) : ℕ := (List.range 128).findIdx (messageByte m · ≠ 0)

/-- The byte string without them. -/
def stripped (m : BitVec 1024) : Buffer := fun k => messageByte m (leadingZeros m + k)

def strippedLength (m : BitVec 1024) : ℕ := 128 - leadingZeros m

theorem messageByte_end (m : BitVec 1024) {k : ℕ} (hk : 128 ≤ k) : messageByte m k = 0 := by
  apply BitVec.eq_of_getLsbD_eq
  intro b hb
  have hlow : 1016 + b < 8 * k := by omega
  simp [messageByte, topByte, hlow]

theorem leadingZeros_le (m : BitVec 1024) : leadingZeros m ≤ 128 := by
  have hle : leadingZeros m ≤ (List.range 128).length := List.findIdx_le_length
  rwa [List.length_range] at hle

theorem messageByte_leading {m : BitVec 1024} {k : ℕ} (hk : k < leadingZeros m) :
    messageByte m k = 0 := by
  have hlt : k < 128 := lt_of_lt_of_le hk (leadingZeros_le m)
  have hnot := List.not_of_lt_findIdx (p := fun k => decide (messageByte m k ≠ 0)) hk
  simpa using hnot

theorem messageByte_first {m : BitVec 1024} (h : leadingZeros m < 128) :
    messageByte m (leadingZeros m) ≠ 0 := by
  have hlt : leadingZeros m < (List.range 128).length := lt_of_lt_of_eq h List.length_range.symm
  have hfind : decide (messageByte m (List.range 128)[leadingZeros m] ≠ 0) = true :=
    List.findIdx_getElem (w := hlt)
  rw [List.getElem_range] at hfind
  exact of_decide_eq_true hfind

/-- Only the zero message has no byte left. -/
theorem leadingZeros_lt {m : BitVec 1024} (hm : m ≠ 0) : leadingZeros m < 128 := by
  refine lt_of_le_of_ne (leadingZeros_le m) fun hall => hm ?_
  apply BitVec.eq_of_getLsbD_eq
  intro b hb
  have hbyte : messageByte m (127 - b / 8) = 0 := messageByte_leading (by omega)
  have hbit := congrArg (fun c : Byte => c.getLsbD (b % 8)) hbyte
  have hpos : ¬ 1016 + b % 8 < 8 * (127 - b / 8) := by omega
  have hin : 1016 + b % 8 < 1024 := by omega
  have hat : 1016 + b % 8 - 8 * (127 - b / 8) = b := by omega
  have hmod : b % 8 < 8 := Nat.mod_lt b (by omega)
  simpa only [messageByte, topByte, BitVec.getLsbD_extractLsb', BitVec.getLsbD_shiftLeft, hpos,
    hin, hat, hmod, decide_true, decide_false, Bool.true_and, Bool.not_false,
    BitVec.ofNat_eq_ofNat, BitVec.getLsbD_zero] using hbit

theorem beByte_putByte {temp : Word} {count : BitVec 3} {b : Byte} {c p : ℕ}
    (hcount : count.toNat = c) (hc : c < 4) (hp : p < 4) :
    beByte (putByte temp count b) p = if p = c then b else beByte temp p := by
  have hcases : c = 0 ∨ c = 1 ∨ c = 2 ∨ c = 3 := by omega
  have hpcases : p = 0 ∨ p = 1 ∨ p = 2 ∨ p = 3 := by omega
  apply BitVec.eq_of_getLsbD_eq
  intro k hk
  rcases hcases with rfl | rfl | rfl | rfl <;> rcases hpcases with rfl | rfl | rfl | rfl
  all_goals
    simp only [putByte, hcount, beByte, BitVec.getLsbD_append, BitVec.getLsbD_setWidth,
      BitVec.getLsbD_ushiftRight, BitVec.getLsbD_extractLsb', hk, decide_true, Bool.true_and]
  all_goals grind [BitVec.getLsbD_setWidth]

/-- A word is its four bytes. -/
theorem eq_of_beByte {w w' : Word} (h : ∀ p < 4, beByte w p = beByte w' p) : w = w' := by
  apply BitVec.eq_of_getLsbD_eq
  intro b hb
  have hbit := congrArg (fun c : Byte => c.getLsbD (b % 8)) (h (3 - b / 8) (by omega))
  have hmod : b % 8 < 8 := Nat.mod_lt b (by omega)
  have hat : 8 * (3 - (3 - b / 8)) + b % 8 = b := by omega
  simpa only [beByte, BitVec.getLsbD_setWidth, BitVec.getLsbD_ushiftRight, hmod, hat, decide_true,
    Bool.true_and] using hbit

theorem beByte_zero (p : ℕ) : beByte 0 p = 0 := by
  simp [beByte]

/-! ### The phases of a run -/

namespace Padding

/-- Kept enabled, out of reset. -/
def Enabled (x : PaddingIn) : Prop := x.iRst_n = true ∧ x.iEnable = true

def Quiet (s : Padding) (_ : PaddingIn) : Prop := s.oDone = false

/-- `z` zero bytes have been dropped. -/
structure Stripping (m : BitVec 1024) (z : ℕ) (s : Padding) : Prop where
  state : s.state = .check
  length : s.length.toNat = z
  data : s.data = m <<< (8 * z)
  i : s.i = 0
  j : s.j = 0
  count : s.count = 0
  temp : s.temp = 0
  quiet : s.oDone = false

/-- `k` bytes have been taken. -/
structure Taking (m : BitVec 1024) (k : ℕ) (s : Padding) : Prop where
  state : s.state = .take
  length : s.length.toNat = strippedLength m
  data : s.data = m <<< (8 * (leadingZeros m + k))
  i : s.i.toNat = k / 4
  j : s.j.toNat = k
  count : s.count.toNat = k % 4
  temp : ∀ p < 4, beByte s.temp p = if p < k % 4 then stripped m (4 * (k / 4) + p) else 0
  words : ∀ a < k / 4, ∀ p < 4, beByte (s.M a) p = stripped m (4 * a + p)
  quiet : s.oDone = false

/-- Byte `k` is in `temp`. -/
structure Putting (m : BitVec 1024) (k : ℕ) (s : Padding) : Prop where
  state : s.state = .put
  length : s.length.toNat = strippedLength m
  data : s.data = m <<< (8 * (leadingZeros m + k))
  i : s.i.toNat = k / 4
  j : s.j.toNat = k + 1
  count : s.count.toNat = k % 4 + 1
  temp : ∀ p < 4, beByte s.temp p = if p < k % 4 + 1 then stripped m (4 * (k / 4) + p) else 0
  words : ∀ a < k / 4, ∀ p < 4, beByte (s.M a) p = stripped m (4 * a + p)
  quiet : s.oDone = false

/-- All bytes have been taken; the last word is still in `temp`. -/
structure Closing (m : BitVec 1024) (s : Padding) : Prop where
  state : s.state = .last
  length : s.length.toNat = strippedLength m
  i : s.i.toNat = strippedLength m / 4
  temp : ∀ p < 4, beByte s.temp p =
    if p < strippedLength m % 4 then stripped m (4 * (strippedLength m / 4) + p) else 0
  words : ∀ a < strippedLength m / 4, ∀ p < 4, beByte (s.M a) p = stripped m (4 * a + p)
  quiet : s.oDone = false

/-- Bytes written: the message with `c` behind it, then zeros. -/
def Written (m : BitVec 1024) (c : Byte) (n : ℕ) (M : ℕ → Word) : Prop :=
  ∀ a < n, ∀ p < 4, beByte (M a) p =
    if 4 * a + p < strippedLength m then stripped m (4 * a + p)
    else if 4 * a + p = strippedLength m then c else 0

/-- The message is in `M`, the end mark is not. -/
structure Marking (m : BitVec 1024) (s : Padding) : Prop where
  state : s.state = .mark
  length : s.length.toNat = strippedLength m
  i : s.i.toNat = strippedLength m / 4
  j : s.j.toNat = strippedLength m % 4
  words : Written m 0 (strippedLength m / 4 + 1) s.M
  quiet : s.oDone = false

/-- The end mark is in `M`. -/
structure Marked (m : BitVec 1024) (s : Padding) : Prop where
  state : s.state = .number
  length : s.length.toNat = strippedLength m
  i : s.i.toNat = strippedLength m / 4
  words : Written m 0x80 (strippedLength m / 4 + 1) s.M
  quiet : s.oDone = false

/-- The words in front of `M[n]` are done. -/
structure Filling (m : BitVec 1024) (n : ℕ) (s : Padding) : Prop where
  state : s.state = .fill
  length : s.length.toNat = strippedLength m
  i : s.i.toNat = n
  words : Written m 0x80 n s.M
  number : s.oNumberBlock.toNat = fipsBlocks (strippedLength m)
  quiet : s.oDone = false

/-- All but the length word. -/
structure Filled (m : BitVec 1024) (s : Padding) : Prop where
  state : s.state = .size
  length : s.length.toNat = strippedLength m
  i : s.i.toNat = 16 * fipsBlocks (strippedLength m) - 1
  words : Written m 0x80 (16 * fipsBlocks (strippedLength m) - 1) s.M
  number : s.oNumberBlock.toNat = fipsBlocks (strippedLength m)
  quiet : s.oDone = false

/-- `oDone` with the blocks of the standard, which are the words the function `Padding` of
`SHA_256.h` leaves in memory. -/
structure Padded (m : BitVec 1024) (s : Padding) : Prop where
  done : s.oDone = true
  number : s.oNumberBlock.toNat = fipsBlocks (strippedLength m)
  bytes : ∀ i < 64 * fipsBlocks (strippedLength m),
    beByte (s.M (i / 4)) (i % 4) = paddedByte (stripped m) (strippedLength m) i
  soft : ∀ mem, (padding mem (stripped m) (strippedLength m)).2 =
      some (fipsBlocks (strippedLength m)) ∧
    ∀ a < 16 * fipsBlocks (strippedLength m),
      s.M a = (padding mem (stripped m) (strippedLength m)).1 a

section
variable {m : BitVec 1024} {s : Padding}

theorem store_at {a : ℕ} (hi : s.i.toNat = a) (ha : a < 48) (v : Word) :
    s.store v = Function.update s.M a v := by
  rw [store, hi, if_pos ha]

theorem strippedLength_le (m : BitVec 1024) : strippedLength m ≤ 128 := Nat.sub_le _ _

theorem topByte_shift (m : BitVec 1024) (k : ℕ) : topByte (m <<< (8 * k)) = messageByte m k := rfl

theorem shift_succ (m : BitVec 1024) (k : ℕ) :
    m <<< (8 * k) <<< 8 = m <<< (8 * (k + 1)) := by
  rw [← BitVec.shiftLeft_add, Nat.mul_succ]

theorem reset_stripping (s : Padding) (m : BitVec 1024) : Stripping m 0 (s.reset m) := by
  refine ⟨rfl, rfl, ?_, rfl, rfl, rfl, rfl, rfl⟩
  show m = m <<< 0
  simp

theorem Stripping.next_byte {z : ℕ} (h : Stripping m z s) (hz : z < leadingZeros m) :
    Leads step Enabled Quiet (Stripping m (z + 1)) 2 s := by
  intro x hx
  refine ⟨h.quiet, fun x' hx' => ?_⟩
  have hle := leadingZeros_le m
  have htop : topByte s.data = 0 := by
    rw [h.data, topByte_shift, messageByte_leading hz]
  have hstrip : s.step x = { s with length := s.length + 1, state := .strip } := by
    simp [step, hx.1, hx.2, h.state, htop]
  rw [hstrip]
  refine ⟨h.quiet, ?_⟩
  simp only [step, hx'.1, hx'.2, Bool.not_true, Bool.false_eq_true, if_false]
  exact ⟨rfl, toNat_add_one h.length (by omega), by rw [h.data, shift_succ], h.i, h.j, h.count,
    h.temp, h.quiet⟩

theorem Stripping.last (h : Stripping m (leadingZeros m) s) (hm : m ≠ 0) :
    Leads step Enabled Quiet (Taking m 0) 2 s := by
  intro x hx
  refine ⟨h.quiet, fun x' hx' => ?_⟩
  have hlt := leadingZeros_lt hm
  have htop : topByte s.data ≠ 0 := by
    rw [h.data, topByte_shift]
    exact messageByte_first hlt
  have hcheck : s.step x = { s with state := .complement } := by
    simp only [step, hx.1, hx.2, h.state, if_neg htop, Bool.not_true, Bool.false_eq_true, if_false]
  rw [hcheck]
  refine ⟨h.quiet, ?_⟩
  simp only [step, hx'.1, hx'.2, Bool.not_true, Bool.false_eq_true, if_false]
  refine ⟨rfl, ?_, h.data, by rw [h.i]; rfl, by rw [h.j]; rfl, by rw [h.count]; rfl, ?_, ?_,
    h.quiet⟩
  · show (128 - s.length).toNat = _
    have hlength := h.length
    have h128 : (128 : BitVec 8).toNat = 128 := rfl
    rw [BitVec.toNat_sub, hlength, h128, strippedLength]
    omega
  · intro p _
    rw [if_neg (by omega)]
    show beByte s.temp p = 0
    rw [h.temp, beByte_zero]
  · intro a ha
    omega

/-- The byte taken goes into `temp` behind the ones before it. -/
theorem Taking.temp_take {k : ℕ} (h : Taking m k s) {p : ℕ} (hp : p < 4) :
    beByte (putByte s.temp s.count (topByte s.data)) p =
      if p < k % 4 + 1 then stripped m (4 * (k / 4) + p) else 0 := by
  rw [beByte_putByte h.count (Nat.mod_lt k (by omega)) hp, h.data, topByte_shift, h.temp p hp]
  by_cases heq : p = k % 4
  · rw [if_pos heq, if_pos (by omega), stripped]
    congr 1
    omega
  · rw [if_neg heq]
    by_cases hlow : p < k % 4
    · rw [if_pos hlow, if_pos (by omega)]
    · rw [if_neg hlow, if_neg (by omega)]

theorem Taking.put {k : ℕ} (h : Taking m k s) (hk : k < strippedLength m) {x : PaddingIn}
    (hx : Enabled x) : Putting m k (s.step x) := by
  have hle := strippedLength_le m
  have hne : s.j ≠ s.length := by
    intro heq
    have hnat := congrArg BitVec.toNat heq
    rw [h.j, h.length] at hnat
    omega
  simp only [step, hx.1, hx.2, h.state, if_neg hne, Bool.not_true, Bool.false_eq_true, if_false]
  exact ⟨rfl, h.length, h.data, h.i, toNat_add_one h.j (by omega),
    toNat_add_one h.count (by omega), fun p hp => h.temp_take hp, h.words, h.quiet⟩

theorem Putting.take {k : ℕ} (h : Putting m k s) (hk : k < strippedLength m) {x : PaddingIn}
    (hx : Enabled x) : Taking m (k + 1) (s.step x) := by
  have hle := strippedLength_le m
  have hdata : s.data <<< 8 = m <<< (8 * (leadingZeros m + (k + 1))) := by
    rw [h.data, shift_succ]
    rfl
  have hwords : ∀ a < k / 4, ∀ p < 4,
      beByte (Function.update s.M (k / 4) s.temp a) p = stripped m (4 * a + p) := by
    intro a ha p hp
    rw [Function.update_of_ne (by omega)]
    exact h.words a ha p hp
  simp only [step, hx.1, hx.2, h.state, store_at h.i (show k / 4 < 48 by omega), Bool.not_true,
    Bool.false_eq_true, if_false]
  by_cases hfull : k % 4 = 3
  · have h4 : s.count = 4 := by
      apply BitVec.eq_of_toNat_eq
      rw [h.count, hfull]
      rfl
    rw [if_pos h4]
    refine ⟨rfl, h.length, hdata, ?_, h.j, ?_, ?_, ?_, h.quiet⟩
    · have hi : (s.i + 1).toNat = k / 4 + 1 := toNat_add_one h.i (by omega)
      exact hi.trans (by omega)
    · show 0 = (k + 1) % 4
      omega
    · intro p _
      rw [if_neg (by omega)]
      exact beByte_zero p
    · intro a ha p hp
      by_cases hlast : a = k / 4
      · subst hlast
        show beByte (Function.update s.M (k / 4) s.temp (k / 4)) p = _
        rw [Function.update_self, h.temp p hp, if_pos (by omega)]
      · exact hwords a (by omega) p hp
  · have h4 : s.count ≠ 4 := by
      intro heq
      have hnat := congrArg BitVec.toNat heq
      rw [h.count] at hnat
      exact hfull (Nat.succ_injective hnat)
    rw [if_neg h4]
    refine ⟨rfl, h.length, hdata, ?_, h.j, ?_, ?_, ?_, h.quiet⟩
    · exact h.i.trans (by omega)
    · exact h.count.trans (by omega)
    · intro p hp
      rw [show (k + 1) % 4 = k % 4 + 1 by omega, show (k + 1) / 4 = k / 4 by omega]
      exact h.temp p hp
    · intro a ha p hp
      exact hwords a (by omega) p hp

theorem Taking.next_byte {k : ℕ} (h : Taking m k s) (hk : k < strippedLength m) :
    Leads step Enabled Quiet (Taking m (k + 1)) 2 s := by
  intro x hx
  have hput := h.put hk hx
  exact ⟨h.quiet, fun x' hx' => ⟨hput.quiet, hput.take hk hx'⟩⟩

/-- The byte behind the message is zero. -/
theorem Taking.close (h : Taking m (strippedLength m) s) :
    Leads step Enabled Quiet (Closing m) 1 s := by
  intro x hx
  refine ⟨h.quiet, ?_⟩
  have hle := leadingZeros_le m
  have heq : s.j = s.length := by
    apply BitVec.eq_of_toNat_eq
    rw [h.j, h.length]
  simp only [step, hx.1, hx.2, h.state, heq, if_true, Bool.not_true, Bool.false_eq_true, if_false]
  refine ⟨rfl, h.length, h.i, ?_, h.words, h.quiet⟩
  intro p hp
  show beByte (putByte s.temp s.count (topByte s.data)) p = _
  rw [h.temp_take hp]
  by_cases hlow : p < strippedLength m % 4
  · rw [if_pos hlow, if_pos (by omega)]
  · rw [if_neg hlow]
    split
    · rw [stripped]
      exact messageByte_end m (by rw [strippedLength] at *; omega)
    · rfl

/-- A word stored at the end extends what is written. -/
theorem Written.update {c : Byte} {n : ℕ} {M : ℕ → Word} {v : Word} (h : Written m c n M)
    (hv : ∀ p < 4, beByte v p =
      if 4 * n + p < strippedLength m then stripped m (4 * n + p)
      else if 4 * n + p = strippedLength m then c else 0) :
    Written m c (n + 1) (Function.update M n v) := by
  intro a ha p hp
  by_cases hlast : a = n
  · subst hlast
    rw [Function.update_self, hv p hp]
  · rw [Function.update_of_ne hlast, h a (by omega) p hp]

/-- What comes after the message does not matter in the words before its last one. -/
theorem Written.front {c c' : Byte} {n : ℕ} {M : ℕ → Word} (h : Written m c n M)
    (hn : n ≤ strippedLength m / 4) : Written m c' n M := by
  intro a ha p hp
  rw [h a ha p hp, if_pos (by omega), if_pos (by omega)]

theorem Closing.next (h : Closing m s) : Leads step Enabled Quiet (Marking m) 1 s := by
  intro x hx
  refine ⟨h.quiet, ?_⟩
  have hle := strippedLength_le m
  simp only [step, hx.1, hx.2, h.state,
    store_at h.i (show strippedLength m / 4 < 48 by omega), Bool.not_true, Bool.false_eq_true,
    if_false]
  refine ⟨rfl, h.length, h.i, ?_, ?_, h.quiet⟩
  · have hdiv : (s.length / 4).toNat = strippedLength m / 4 := by
      rw [BitVec.toNat_udiv, h.length]
      rfl
    have h4 : (4 : BitVec 8).toNat = 4 := rfl
    show (s.length - s.length / 4 * 4).toNat = _
    rw [BitVec.toNat_sub, BitVec.toNat_mul, hdiv, h.length, h4]
    omega
  · refine Written.update ?_ fun p hp => ?_
    · intro a ha p hp
      rw [h.words a ha p hp, if_pos (by omega)]
    · rw [h.temp p hp, ite_self]
      by_cases hlow : p < strippedLength m % 4
      · rw [if_pos hlow, if_pos (by omega)]
      · rw [if_neg hlow, if_neg (by omega)]

/-- The end mark goes in front of the message's own word or into it. -/
theorem Marking.next (h : Marking m s) :
    Leads step Enabled Quiet (Marked m) (if strippedLength m % 4 = 0 then 1 else 2) s := by
  have hle := strippedLength_le m
  have hin : strippedLength m / 4 < 48 := by omega
  have hfront : Written m 0x80 (strippedLength m / 4) s.M :=
    Written.front (fun a ha => h.words a (by omega)) le_rfl
  split
  · next hzero =>
    intro x hx
    refine ⟨h.quiet, ?_⟩
    have hj : s.j = 0 := by
      apply BitVec.eq_of_toNat_eq
      rw [h.j, hzero]
      rfl
    simp only [step, hx.1, hx.2, h.state, hj, if_true, store_at h.i hin, Bool.not_true,
      Bool.false_eq_true, if_false]
    refine ⟨rfl, h.length, h.i, hfront.update fun p hp => ?_, h.quiet⟩
    rw [if_neg (by omega)]
    have hcases : p = 0 ∨ p = 1 ∨ p = 2 ∨ p = 3 := by omega
    rcases hcases with rfl | rfl | rfl | rfl
    · rw [if_pos (by omega)]
      decide
    all_goals
      rw [if_neg (by omega)]
      decide
  · next hne =>
    intro x hx
    refine ⟨h.quiet, fun x' hx' => ?_⟩
    have hmod : strippedLength m % 4 < 4 := Nat.mod_lt _ (by omega)
    have hj : ¬ s.j = 0 := by
      intro heq
      have hnat := congrArg BitVec.toNat heq
      rw [h.j] at hnat
      exact hne hnat
    have hmark : s.step x =
        { s with
          temp := (0x80 : Byte).setWidth 32 <<< ((3 - strippedLength m % 4) * 8), state := .join } := by
      simp only [step, hx.1, hx.2, h.state, if_neg hj, Bool.not_true, Bool.false_eq_true, if_false]
      have h3 : (3 : BitVec 8).toNat = 3 := rfl
      by_cases hlow : s.j < 3
      · have hnat : s.j.toNat < 3 := hlow
        have h8 : (8 : BitVec 8).toNat = 8 := rfl
        have hshift : ((3 - s.j) * 8).toNat = (3 - strippedLength m % 4) * 8 := by
          rw [h.j] at hnat
          rw [BitVec.toNat_mul, BitVec.toNat_sub, h.j, h3, h8]
          omega
        rw [if_pos hlow, hshift]
        rfl
      · have hnat : ¬ s.j.toNat < 3 := hlow
        rw [h.j] at hnat
        rw [if_neg hlow, show strippedLength m % 4 = 3 by omega]
        rfl
    rw [hmark]
    refine ⟨h.quiet, ?_⟩
    simp only [step, hx'.1, hx'.2, Bool.not_true, Bool.false_eq_true, if_false, store, h.i,
      if_pos hin]
    refine ⟨rfl, h.length, h.i, hfront.update fun p hp => ?_, h.quiet⟩
    rw [beByte_or _ _ hmod hp, h.words _ (by omega) p hp, ite_self]
    by_cases hat : p = strippedLength m % 4
    · rw [if_pos hat, if_neg (by omega), if_neg (by omega), if_pos (by omega)]
      rfl
    · rw [if_neg hat]
      by_cases hlow : 4 * (strippedLength m / 4) + p < strippedLength m
      · rw [if_pos hlow, if_pos hlow]
      · rw [if_neg hlow, if_neg hlow, if_neg (by omega)]

/-- The tests of states 9 and 10 on the length. -/
theorem length_cases {α : Type} {length : BitVec 8} {l : ℕ} (h : length.toNat = l) (hl : l ≤ 128)
    (f : ℕ → α) (d : α) :
    (if length ≤ 55 then f 1
      else if 56 ≤ length ∧ length ≤ 119 then f 2
      else if 120 ≤ length ∧ length ≤ 183 then f 3
      else d) = f (fipsBlocks l) := by
  have hle : ∀ n : BitVec 8, length ≤ n ↔ l ≤ n.toNat := fun n => h ▸ Iff.rfl
  have hge : ∀ n : BitVec 8, n ≤ length ↔ n.toNat ≤ l := fun n => h ▸ Iff.rfl
  simp only [hle, hge, BitVec.reduceToNat]
  rw [fipsBlocks]
  split_ifs with h1 h2 h3
  · rw [show (l + 8) / 64 + 1 = 1 by omega]
  · rw [show (l + 8) / 64 + 1 = 2 by omega]
  · rw [show (l + 8) / 64 + 1 = 3 by omega]
  · omega

theorem Marked.next (h : Marked m s) :
    Leads step Enabled Quiet (Filling m (strippedLength m / 4 + 1)) 1 s := by
  intro x hx
  refine ⟨h.quiet, ?_⟩
  have hle := strippedLength_le m
  simp only [step, hx.1, hx.2, h.state, Bool.not_true, Bool.false_eq_true, if_false]
  refine ⟨rfl, h.length, toNat_add_one h.i (by omega), h.words, ?_, h.quiet⟩
  have hnumber := length_cases h.length hle (BitVec.ofNat 2) s.oNumberBlock
  show (ite _ _ _ : BitVec 2).toNat = _
  refine (congrArg BitVec.toNat hnumber).trans ?_
  rw [BitVec.toNat_ofNat, fipsBlocks]
  omega

theorem Filling.step_eq {n : ℕ} (h : Filling m n s) {x : PaddingIn} (hx : Enabled x) :
    s.step x = s.fillTo (BitVec.ofNat 6 (16 * fipsBlocks (strippedLength m) - 2)) := by
  have hfill := length_cases h.length (strippedLength_le m)
    (fun b => s.fillTo (BitVec.ofNat 6 (16 * b - 2))) s
  simp only [step, hx.1, hx.2, h.state, Bool.not_true, Bool.false_eq_true, if_false]
  exact hfill

theorem fipsBlocks_bounds (m : BitVec 1024) :
    strippedLength m / 4 + 1 ≤ 16 * fipsBlocks (strippedLength m) - 2 ∧
      fipsBlocks (strippedLength m) ≤ 3 := by
  have hle := strippedLength_le m
  rw [fipsBlocks]
  omega

theorem Filling.next {n : ℕ} (h : Filling m n s) (hlow : strippedLength m / 4 < n)
    (hn : n < 16 * fipsBlocks (strippedLength m) - 1) {x : PaddingIn} (hx : Enabled x) :
    Filling m (n + 1) (s.step x) := by
  have hbounds := (fipsBlocks_bounds m).2
  have hle : s.i ≤ BitVec.ofNat 6 (16 * fipsBlocks (strippedLength m) - 2) := by
    show s.i.toNat ≤ _
    rw [h.i, BitVec.toNat_ofNat]
    omega
  rw [h.step_eq hx, fillTo, if_pos hle, store_at h.i (by omega)]
  refine ⟨h.state, h.length, toNat_add_one h.i (by omega), h.words.update fun p hp => ?_,
    h.number, h.quiet⟩
  rw [beByte_zero, if_neg (by omega), if_neg (by omega)]

theorem Filling.last (h : Filling m (16 * fipsBlocks (strippedLength m) - 1) s) :
    Leads step Enabled Quiet (Filled m) 1 s := by
  intro x hx
  refine ⟨h.quiet, ?_⟩
  have hbounds := fipsBlocks_bounds m
  have hgt : ¬ s.i ≤ BitVec.ofNat 6 (16 * fipsBlocks (strippedLength m) - 2) := by
    show ¬ s.i.toNat ≤ _
    rw [h.i, BitVec.toNat_ofNat]
    omega
  rw [h.step_eq hx, fillTo, if_neg hgt]
  exact ⟨rfl, h.length, h.i, h.words, h.number, h.quiet⟩

/-- The length word completes the padded message. -/
theorem Filled.bytes (h : Filled m s) {i : ℕ} (hi : i < 64 * fipsBlocks (strippedLength m)) :
    beByte (Function.update s.M (16 * fipsBlocks (strippedLength m) - 1)
        (s.length.setWidth 32 <<< 3) (i / 4)) (i % 4) =
      paddedByte (stripped m) (strippedLength m) i := by
  have hle := strippedLength_le m
  have hmod : i % 4 < 4 := Nat.mod_lt i (by omega)
  have hlow := (fipsBlocks_bounds m).1
  rw [paddedByte]
  by_cases hlast : i / 4 = 16 * fipsBlocks (strippedLength m) - 1
  · have hword : s.length.setWidth 32 <<< 3 = BitVec.ofNat 32 (8 * strippedLength m) := by
      apply BitVec.eq_of_toNat_eq
      rw [BitVec.toNat_shiftLeft, BitVec.toNat_setWidth, h.length, BitVec.toNat_ofNat,
        Nat.shiftLeft_eq]
      omega
    rw [hlast, Function.update_self, hword, beByte_ofNat _ hmod, if_neg (by omega),
      if_neg (by omega), if_neg (by omega)]
    congr 3
    omega
  · rw [Function.update_of_ne hlast, h.words _ (by omega) _ hmod, Nat.div_add_mod]
    split_ifs
    · rfl
    · rfl
    · rfl
    · exact (highByte_eq_zero (by omega) (by omega)).symm

theorem padded_of_bytes (hdone : s.oDone = true)
    (hnumber : s.oNumberBlock.toNat = fipsBlocks (strippedLength m))
    (hbytes : ∀ i < 64 * fipsBlocks (strippedLength m),
      beByte (s.M (i / 4)) (i % 4) = paddedByte (stripped m) (strippedLength m) i) :
    Padded m s := by
  refine ⟨hdone, hnumber, hbytes, fun mem => ?_⟩
  have hle := strippedLength_le m
  have hpads := (pads_iff mem (stripped m) (strippedLength m) (by omega)).mpr (Or.inl (by omega))
  refine ⟨hpads.1, fun a ha => eq_of_beByte fun p hp => ?_⟩
  have hhard := hbytes (4 * a + p) (by omega)
  have hsoft := hpads.2 (4 * a + p) (by omega)
  rw [show (4 * a + p) / 4 = a by omega, show (4 * a + p) % 4 = p by omega] at hhard hsoft
  rw [hhard, hsoft]

/-- The machine stays where its result is. -/
def Rests (s : Padding) : Prop := s.state = .load ∨ s.state = .hold

theorem Filled.next (h : Filled m s) :
    Leads step Enabled Quiet (fun s => Padded m s ∧ s.Rests) 1 s := by
  intro x hx
  refine ⟨h.quiet, ?_⟩
  have hbounds := (fipsBlocks_bounds m).2
  simp only [step, hx.1, hx.2, h.state, Bool.not_true, Bool.false_eq_true, if_false,
    store_at h.i (show 16 * fipsBlocks (strippedLength m) - 1 < 48 by omega)]
  exact ⟨padded_of_bytes rfl h.number fun i hi => h.bytes hi, Or.inl rfl⟩

theorem Padded.next (h : Padded m s) (hrests : s.Rests) {x : PaddingIn} (hx : Enabled x) :
    Padded m (s.step x) ∧ (s.step x).Rests := by
  rcases hrests with hst | hst
  · simp only [step, hx.1, hx.2, hst, Bool.not_true, Bool.false_eq_true, if_false]
    split
    · exact ⟨⟨h.done, h.number, h.bytes, h.soft⟩, Or.inr rfl⟩
    · exact ⟨⟨h.done, h.number, h.bytes, h.soft⟩, Or.inr rfl⟩
  · simp only [step, hx.1, hx.2, hst, Bool.not_true, Bool.false_eq_true, if_false]
    refine ⟨⟨h.done, h.number, h.bytes, h.soft⟩, ?_⟩
    cases x.iLoad
    · exact Or.inr rfl
    · exact Or.inl rfl

/-! ### Whole runs -/

/-- A message that is not zero is padded in a number of cycles that depends on it only. -/
theorem reset_leads (hm : m ≠ 0) (s : Padding) :
    ∃ n, Leads step Enabled Quiet (fun s => Padded m s ∧ s.Rests) n (s.reset m) := by
  have hlow := (fipsBlocks_bounds m).1
  have hfill : ∀ s, Filling m (strippedLength m / 4 + 1) s →
      Leads step Enabled Quiet (Filling m (16 * fipsBlocks (strippedLength m) - 1))
        (16 * fipsBlocks (strippedLength m) - 1 - (strippedLength m / 4 + 1)) s := by
    intro s hs
    have hstep : ∀ k < 16 * fipsBlocks (strippedLength m) - 1 - (strippedLength m / 4 + 1),
        ∀ s x, Filling m (strippedLength m / 4 + 1 + k) s → Enabled x →
          Quiet s x ∧ Filling m (strippedLength m / 4 + 1 + (k + 1)) (s.step x) :=
      fun k hk s x h hx => ⟨h.quiet, h.next (by omega) (by omega) hx⟩
    have hloop := Leads.loop (fun k => Filling m (strippedLength m / 4 + 1 + k)) _ hstep hs
    rwa [show strippedLength m / 4 + 1 +
      (16 * fipsBlocks (strippedLength m) - 1 - (strippedLength m / 4 + 1)) =
        16 * fipsBlocks (strippedLength m) - 1 by omega] at hloop
  exact ⟨_, Leads.seq (Leads.iterate (Stripping m) (leadingZeros m) 2
    (fun k hk s h => h.next_byte hk) (reset_stripping s m)) fun s h =>
      Leads.seq (h.last hm) fun s h => Leads.seq (Leads.iterate (Taking m) (strippedLength m) 2
        (fun k hk s h => h.next_byte hk) h) fun s h => Leads.seq h.close fun s h =>
          Leads.seq h.next fun s h => Leads.seq h.next fun s h => Leads.seq h.next fun s h =>
            Leads.seq (hfill s h) fun s h => Leads.seq h.last fun s h => h.next⟩

/-- The zero message is never done with: dropping zero bytes has no other end. -/
theorem reset_zero (s : Padding) {x : ℕ → PaddingIn} (hx : ∀ t, Enabled (x t)) (t : ℕ) :
    (run step (s.reset 0) x t).oDone = false ∧ (run step (s.reset 0) x t).data = 0 ∧
      ((run step (s.reset 0) x t).state = .check ∨ (run step (s.reset 0) x t).state = .strip) := by
  induction t with
  | zero => exact ⟨rfl, rfl, Or.inl rfl⟩
  | succ t ih =>
    obtain ⟨hquiet, hdata, hstate⟩ := ih
    have htop : topByte (run step (s.reset 0) x t).data = 0 := by
      rw [hdata]
      simp [topByte]
    rw [run]
    rcases hstate with hst | hst
    · simp only [step, (hx t).1, (hx t).2, hst, htop, if_true, Bool.not_true, Bool.false_eq_true,
        if_false]
      exact ⟨hquiet, hdata, Or.inr trivial⟩
    · simp only [step, (hx t).1, (hx t).2, hst, Bool.not_true, Bool.false_eq_true, if_false]
      refine ⟨hquiet, ?_, Or.inl trivial⟩
      show (run step (s.reset 0) x t).data <<< 8 = 0
      rw [hdata]
      simp

/-- From some cycle on the outputs are those of the padded message, and `oDone` is low
before. -/
def Finishes (m : BitVec 1024) (s : Padding) (x : ℕ → PaddingIn) : Prop :=
  ∃ T, (∀ t < T, (run step s x t).oDone = false) ∧ ∀ t ≥ T, Padded m (run step s x t)

/-- Out of a reset that takes `m`, kept enabled. -/
theorem finishes_iff (s : Padding) (m : BitVec 1024) (x : ℕ → PaddingIn)
    (hx : ∀ t, Enabled (x t)) : Finishes m (s.reset m) x ↔ m ≠ 0 := by
  constructor
  · rintro ⟨T, -, hT⟩ rfl
    have hdone := (hT T le_rfl).done
    rw [(reset_zero s hx T).1] at hdone
    cases hdone
  · intro hm
    obtain ⟨n, hn⟩ := reset_leads hm s
    obtain ⟨hquiet, hend⟩ := Leads.run hn x fun t _ => hx t
    refine ⟨n, hquiet, fun t ht => ?_⟩
    suffices hkept : Padded m (run step (s.reset m) x t) ∧ (run step (s.reset m) x t).Rests from
      hkept.1
    induction t, ht using Nat.le_induction with
    | base => exact hend
    | succ t _ ih => exact ih.1.next ih.2 (hx t)

/-- Kept enabled without a load. -/
def enabled : ℕ → PaddingIn := fun _ => ⟨true, true, false, 0, 0⟩

theorem enabled_enabled (t : ℕ) : Enabled (enabled t) := ⟨rfl, rfl⟩

/-- All registers and `M` zero. -/
def cleared : Padding :=
  ⟨fun _ => 0, 0, 0, .check, 0, 0, 0, 0, false, false, 0, 0⟩

theorem finishes_abc : Finishes 0x616263 (cleared.reset 0x616263) enabled ↔ 0x616263 ≠ 0#1024 :=
  finishes_iff cleared 0x616263 enabled enabled_enabled

theorem not_finishes_zero :
    ¬ ∀ (s : Padding) (m : BitVec 1024) (x : ℕ → PaddingIn), (∀ t, Enabled (x t)) →
      Finishes m (s.reset m) x := by
  intro h
  obtain ⟨T, -, hT⟩ := h cleared 0 enabled enabled_enabled
  have hdone := (hT T le_rfl).done
  rw [(reset_zero cleared enabled_enabled T).1] at hdone
  cases hdone

end

end Padding

end SocCrypto.Sha

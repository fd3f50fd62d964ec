import SocCrypto.Word

/-!
# The message functions of `SHA_256.h`

`getLength` and `Padding`, which lay a message out as SHA-256 blocks in the DRAM
window. Character buffers are functions on indices; the buffers of `main` hold
1024 characters.
-/

namespace SocCrypto.Soft

abbrev Buffer := ℕ → Byte

def bufferSize : ℕ := 1024

/-! ### getLength -/

/-- The loop of `getLength`, which may look at `n` more characters. -/
def getLengthFrom (message : Buffer) : ℕ → ℕ → Option ℕ
  | 0, _ => none
  | n + 1, length =>
    if message length ≠ 10 then getLengthFrom message n (length + 1) else some length

/-- Index of the first newline; `none` when the loop runs past the buffer. -/
def getLength (message : Buffer) : Option ℕ := getLengthFrom message bufferSize 0

theorem getLengthFrom_newline {message : Buffer} {n i length : ℕ}
    (h : getLengthFrom message n i = some length) : message length = 10 := by
  induction n generalizing i with
  | zero => cases h
  | succ n ih =>
    simp only [getLengthFrom] at h
    split at h
    · exact ih h
    · cases h
      exact not_not.mp ‹_›

theorem getLength_newline {message : Buffer} {length : ℕ} (h : getLength message = some length) :
    message length = 10 := getLengthFrom_newline h

/-! ### Padding -/

/-- Loop variables of the byte loop. -/
structure PadLoop where
  mem : Sdram
  j : ℕ
  count : ℕ

def PadLoop.putChar (s : PadLoop) (c : Byte) : PadLoop :=
  let temp : Word := c.setWidth 32
  let temp := if s.count < 3 then temp <<< ((3 - s.count) * 8) else temp
  let mem := s.mem.write s.j (s.mem s.j ||| temp)
  if s.count + 1 = 4 then ⟨mem.write (s.j + 1) 0, s.j + 1, 0⟩ else ⟨mem, s.j, s.count + 1⟩

/-- The byte loop after `l` characters. -/
def putMessage (mem : Sdram) (message : Buffer) : ℕ → PadLoop
  | 0 => ⟨mem.write 0 0, 0, 0⟩
  | l + 1 => (putMessage mem message l).putChar (message l)

/-- The end mark 0x80, with the value `j` has afterwards. -/
def putMark (s : PadLoop) (l : ℕ) : Sdram × ℕ :=
  if l % 4 = 0 then (s.mem.write (l / 4) ((0x80 : Word) <<< 24), s.j)
  else
    let j := l / 4
    let i := l % 4
    let temp := if i < 4 then (0x80 : Word) <<< ((3 - i) * 8) else 0x80
    (s.mem.write j (s.mem j ||| temp), j)

/-- `n` rounds of `mem[i] = 0; i++`. -/
def zeroWords (mem : Sdram) (i : ℕ) : ℕ → Sdram
  | 0 => mem
  | n + 1 => zeroWords (mem.write i 0) (i + 1) n

/-- The chain of length tests: loop bound and `NumberBlock`. -/
def blockRange (l : ℕ) : Option (ℕ × ℕ) :=
  if l ≤ 55 then some (15, 1)
  else if 56 ≤ l ∧ l ≤ 119 then some (31, 2)
  else if 120 ≤ l ∧ l ≤ 183 then some (47, 3)
  else if 184 ≤ l ∧ l ≤ 247 then some (63, 4)
  else if 248 ≤ l ∧ l ≤ 311 then some (79, 5)
  else if 312 ≤ l ∧ l ≤ 375 then some (95, 6)
  else if 376 ≤ l ∧ l ≤ 439 then some (111, 7)
  else if 440 ≤ l ∧ l ≤ 503 then some (127, 8)
  else if 504 ≤ l ∧ l ≤ 567 then some (143, 9)
  else if 568 ≤ l ∧ l ≤ 631 then some (159, 10)
  else if 632 ≤ l ∧ l ≤ 695 then some (175, 11)
  else if 696 ≤ l ∧ l ≤ 759 then some (191, 12)
  else if 760 ≤ l ∧ l ≤ 823 then some (207, 13)
  else if 824 ≤ l ∧ l ≤ 897 then some (223, 14)
  else if 898 ≤ l ∧ l ≤ 951 then some (239, 15)
  else none

/-- `mem[i] = l * 8`, then zeros up to word 63. -/
def putLength (mem : Sdram) (i l : ℕ) : Sdram :=
  zeroWords (mem.write i (BitVec.ofNat 32 (l * 8))) (i + 1) (64 - (i + 1))

/-- Memory after the call and `NumberBlock`, which stays uninitialised when no
zeroing loop assigns it. -/
def padding (mem : Sdram) (message : Buffer) (l : ℕ) : Sdram × Option ℕ :=
  let (mem, j) := putMark (putMessage mem message l) l
  match blockRange l with
  | some (stop, numberBlock) =>
    let mem := zeroWords mem (j + 1) (stop - (j + 1))
    (putLength mem (max (j + 1) stop) l, if j + 1 < stop then some numberBlock else none)
  | none => (putLength mem (if l % 4 = 0 then l else l % 4) l, none)

theorem zeroWords_at (mem : Sdram) (i n a : ℕ) :
    zeroWords mem i n a = if i ≤ a ∧ a < i + n then 0 else mem a := by
  induction n generalizing mem i with
  | zero =>
    rw [if_neg (by omega)]
    rfl
  | succ n ih =>
    rw [zeroWords, ih]
    by_cases hin : i + 1 ≤ a ∧ a < i + 1 + n
    · rw [if_pos hin, if_pos (by omega)]
    · rw [if_neg hin]
      by_cases ha : a = i
      · subst ha
        rw [if_pos (by omega), Sdram.write_same]
      · rw [if_neg (by omega), Sdram.write_other ha]

/-! ### What the byte loop leaves -/

/-- Byte `p` of a word, most significant first. -/
def beByte (w : Word) (p : ℕ) : Byte := (w >>> (8 * (3 - p))).setWidth 8

theorem putMessage_count (mem : Sdram) (message : Buffer) (l : ℕ) :
    (putMessage mem message l).j = l / 4 ∧ (putMessage mem message l).count = l % 4 := by
  induction l with
  | zero => exact ⟨rfl, rfl⟩
  | succ l ih =>
    obtain ⟨hj, hc⟩ := ih
    simp only [putMessage, PadLoop.putChar, hj, hc]
    by_cases hfull : l % 4 + 1 = 4
    · rw [if_pos hfull]
      exact ⟨show l / 4 + 1 = (l + 1) / 4 by omega, show 0 = (l + 1) % 4 by omega⟩
    · rw [if_neg hfull]
      exact ⟨show l / 4 = (l + 1) / 4 by omega, show l % 4 + 1 = (l + 1) % 4 by omega⟩

/-- The loop only looks at the characters it copies and at no word it has not
written. -/
theorem putMessage_congr {mem mem' : Sdram} {message message' : Buffer} {l : ℕ}
    (h : ∀ i < l, message i = message' i) {a : ℕ} (ha : a ≤ l / 4) :
    (putMessage mem message l).mem a = (putMessage mem' message' l).mem a := by
  induction l generalizing a with
  | zero =>
    have hz : a = 0 := by omega
    subst hz
    simp [putMessage]
  | succ l ih =>
    have ih' : ∀ b ≤ l / 4, (putMessage mem message l).mem b = (putMessage mem' message' l).mem b :=
      fun b hb => ih (fun i hi => h i (by omega)) hb
    have hcount := putMessage_count mem message l
    have hcount' := putMessage_count mem' message' l
    simp only [putMessage, PadLoop.putChar, hcount.1, hcount.2, hcount'.1, hcount'.2,
      h l (by omega), ih' (l / 4) le_rfl]
    by_cases hfull : l % 4 + 1 = 4
    · simp only [if_pos hfull]
      by_cases htop : a = l / 4 + 1
      · subst htop
        simp only [Sdram.write_same]
      · simp only [Sdram.write_other htop]
        by_cases hlast : a = l / 4
        · subst hlast
          simp only [Sdram.write_same]
        · simp only [Sdram.write_other hlast]
          exact ih' a (by omega)
    · simp only [if_neg hfull]
      by_cases hlast : a = l / 4
      · subst hlast
        simp only [Sdram.write_same]
      · simp only [Sdram.write_other hlast]
        exact ih' a (by omega)

theorem beByte_or (w : Word) (c : Byte) {k p : ℕ} (hk : k < 4) (hp : p < 4) :
    beByte (w ||| (c.setWidth 32 <<< ((3 - k) * 8))) p =
      if p = k then beByte w p ||| c else beByte w p := by
  apply BitVec.eq_of_getLsbD_eq
  intro b hb
  by_cases heq : p = k
  · subst heq
    have hr : 8 * (3 - p) + b < 32 := by omega
    have hs : ¬ 8 * (3 - p) + b < (3 - p) * 8 := by omega
    have hd : 8 * (3 - p) + b - (3 - p) * 8 = b := by omega
    simp [beByte, hb, hr, hs, hd]
  · rw [if_neg heq]
    simp only [beByte, BitVec.getLsbD_setWidth, BitVec.getLsbD_ushiftRight, BitVec.getLsbD_or,
      BitVec.getLsbD_shiftLeft]
    by_cases hlow : 8 * (3 - p) + b < (3 - k) * 8
    · simp [hlow]
    · have hc : c.getLsbD (8 * (3 - p) + b - (3 - k) * 8) = false :=
        BitVec.getLsbD_of_ge c _ (by omega)
      simp [hc]

/-- Every copied character can be read back, and the bytes of the current word
after the last one are zero. -/
theorem putMessage_bytes (mem : Sdram) (message : Buffer) (l : ℕ) :
    (∀ i < l, beByte ((putMessage mem message l).mem (i / 4)) (i % 4) = message i) ∧
    ∀ p < 4, l % 4 ≤ p → beByte ((putMessage mem message l).mem (l / 4)) p = 0 := by
  induction l with
  | zero => simp [putMessage, beByte]
  | succ l ih =>
    obtain ⟨ihb, ihz⟩ := ih
    obtain ⟨hj, hc⟩ := putMessage_count mem message l
    have htemp : (if l % 4 < 3 then (message l).setWidth 32 <<< ((3 - l % 4) * 8)
        else (message l).setWidth 32) = (message l).setWidth 32 <<< ((3 - l % 4) * 8) := by
      by_cases h3 : l % 4 < 3
      · rw [if_pos h3]
      · rw [if_neg h3, show (3 - l % 4) * 8 = 0 by omega, BitVec.shiftLeft_zero]
    have hnew : ∀ p < 4, _ := fun p hp =>
      beByte_or ((putMessage mem message l).mem (l / 4)) (message l)
        (show l % 4 < 4 from Nat.mod_lt l (by omega)) hp
    obtain ⟨temp, hdef⟩ : ∃ t, (message l).setWidth 32 <<< ((3 - l % 4) * 8) = t := ⟨_, rfl⟩
    replace htemp := htemp.trans hdef
    simp only [hdef] at hnew
    have hword : ∀ i < l + 1, i / 4 = l / 4 →
        beByte ((putMessage mem message l).mem (l / 4) ||| temp) (i % 4) = message i := by
      intro i hi hq
      rw [hnew _ (Nat.mod_lt i (by omega))]
      by_cases hlast : i = l
      · subst hlast
        rw [if_pos rfl, ihz _ (Nat.mod_lt i (by omega)) le_rfl]
        simp
      · rw [if_neg (by omega), ← hq]
        exact ihb i (by omega)
    simp only [putMessage, PadLoop.putChar, hj, hc, htemp]
    by_cases hfull : l % 4 + 1 = 4
    · simp only [if_pos hfull]
      refine ⟨?_, ?_⟩
      · intro i hi
        rw [Sdram.write_other (by omega)]
        by_cases hq : i / 4 = l / 4
        · rw [hq, Sdram.write_same]
          exact hword i hi hq
        · rw [Sdram.write_other hq]
          exact ihb i (by omega)
      · intro p _ _
        rw [show (l + 1) / 4 = l / 4 + 1 by omega, Sdram.write_same]
        simp [beByte]
    · simp only [if_neg hfull]
      refine ⟨?_, ?_⟩
      · intro i hi
        by_cases hq : i / 4 = l / 4
        · rw [hq, Sdram.write_same]
          exact hword i hi hq
        · rw [Sdram.write_other hq]
          exact ihb i (by omega)
      · intro p hp hlow
        rw [show (l + 1) / 4 = l / 4 by omega, Sdram.write_same, hnew p hp, if_neg (by omega)]
        exact ihz p hp (by omega)

theorem putMark_j (mem : Sdram) (message : Buffer) (l : ℕ) :
    (putMark (putMessage mem message l) l).2 = l / 4 := by
  rw [putMark]
  split
  · exact (putMessage_count mem message l).1
  · rfl

theorem putMark_congr {mem mem' : Sdram} {message message' : Buffer} {l : ℕ}
    (h : ∀ i < l, message i = message' i) {a : ℕ} (ha : a ≤ l / 4) :
    (putMark (putMessage mem message l) l).1 a =
      (putMark (putMessage mem' message' l) l).1 a := by
  have hsame : ∀ b ≤ l / 4, (putMessage mem message l).mem b = (putMessage mem' message' l).mem b :=
    fun b hb => putMessage_congr h hb
  simp only [putMark, hsame (l / 4) le_rfl]
  split
  · by_cases hq : a = l / 4
    · subst hq
      simp only [Sdram.write_same]
    · simp only [Sdram.write_other hq, hsame a ha]
  · by_cases hq : a = l / 4
    · subst hq
      simp only [Sdram.write_same]
    · simp only [Sdram.write_other hq, hsame a ha]

/-- The end mark does not touch the message. -/
theorem putMark_bytes (mem : Sdram) (message : Buffer) {l i : ℕ} (hi : i < l) :
    beByte ((putMark (putMessage mem message l) l).1 (i / 4)) (i % 4) = message i := by
  have hbyte := (putMessage_bytes mem message l).1 i hi
  rw [putMark]
  split
  · simp only [Sdram.write_other (show i / 4 ≠ l / 4 by omega)]
    exact hbyte
  · by_cases hq : i / 4 = l / 4
    · have hmark : (if l % 4 < 4 then (0x80 : Word) <<< ((3 - l % 4) * 8) else 0x80) =
          (0x80 : Byte).setWidth 32 <<< ((3 - l % 4) * 8) := by
        rw [if_pos (Nat.mod_lt l (by omega))]
        rfl
      simp only [hmark, hq, Sdram.write_same]
      rw [beByte_or _ _ (Nat.mod_lt l (by omega)) (Nat.mod_lt i (by omega)), if_neg (by omega),
        ← hq]
      exact hbyte
    · simp only [Sdram.write_other hq]
      exact hbyte

/-! ### What the call leaves -/

theorem padding_word {l stop numberBlock : ℕ} (hrange : blockRange l = some (stop, numberBlock))
    (hstop : l / 4 + 1 ≤ stop) (mem : Sdram) (message : Buffer) {a : ℕ} (ha : a ≤ stop) :
    (padding mem message l).1 a =
      if a ≤ l / 4 then (putMark (putMessage mem message l) l).1 a
      else if a = stop then BitVec.ofNat 32 (l * 8) else 0 := by
  have hj := putMark_j mem message l
  have hmax : max (l / 4 + 1) stop = stop := by omega
  simp only [padding, hrange, hj, hmax, putLength, zeroWords_at]
  rw [if_neg (by omega)]
  by_cases hlast : a = stop
  · subst hlast
    rw [if_neg (by omega), if_pos rfl, Sdram.write_same]
  · rw [Sdram.write_other hlast, if_neg hlast, zeroWords_at]
    by_cases hlow : a ≤ l / 4
    · rw [if_pos hlow, if_neg (by omega)]
    · rw [if_neg hlow, if_pos (by omega)]

theorem padding_numberBlock {l stop numberBlock : ℕ}
    (hrange : blockRange l = some (stop, numberBlock)) (mem : Sdram) (message : Buffer) :
    (padding mem message l).2 = if l / 4 + 1 < stop then some numberBlock else none := by
  have hj := putMark_j mem message l
  simp only [padding, hrange, hj]

/-! ### One-block messages -/

theorem padding_block {l : ℕ} (hl : l ≤ 55) (mem : Sdram) (message : Buffer) {a : ℕ} (ha : a < 16) :
    (padding mem message l).1 a =
      if a ≤ l / 4 then (putMark (putMessage mem message l) l).1 a
      else if a = 15 then BitVec.ofNat 32 (l * 8) else 0 :=
  padding_word (if_pos hl) (by omega) mem message (by omega)

theorem padding_blocks {l : ℕ} (hl : l ≤ 55) (mem : Sdram) (message : Buffer) :
    (padding mem message l).2 = some 1 := by
  rw [padding_numberBlock (if_pos hl)]
  exact if_pos (by omega)

/-- Two messages of one length have one block exactly when they are equal, whatever
the memory held before. -/
theorem padding_block_inj {l : ℕ} (hl : l ≤ 55) (mem mem' : Sdram) (message message' : Buffer) :
    (padding mem message l).1.slice 0 16 = (padding mem' message' l).1.slice 0 16 ↔
      ∀ i < l, message i = message' i := by
  constructor
  · intro h i hi
    have hword := congrFun h ⟨i / 4, by omega⟩
    simp only [Sdram.slice, Nat.zero_add] at hword
    rw [padding_block hl _ _ (by omega), padding_block hl _ _ (by omega), if_pos (by omega),
      if_pos (by omega)] at hword
    rw [← putMark_bytes mem message hi, hword, putMark_bytes mem' message' hi]
  · intro h
    funext a
    have ha := a.isLt
    simp only [Sdram.slice, Nat.zero_add]
    rw [padding_block hl _ _ ha, padding_block hl _ _ ha]
    by_cases hlow : a.val ≤ l / 4
    · rw [if_pos hlow, if_pos hlow]
      exact putMark_congr h hlow
    · rw [if_neg hlow, if_neg hlow]

end SocCrypto.Soft

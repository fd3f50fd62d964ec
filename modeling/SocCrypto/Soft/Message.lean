import SocCrypto.Soft.Receiver

/-!
# Packing and unpacking of the message

The first loop of `main` packs `ch` into the words of `AES_Message`, most significant
character first. The loop after the decryption takes the characters from the last word
back to the first, leaves out zeros, and stores them from index 21 downwards, whatever
the length of the message.
-/

namespace SocCrypto.Soft

/-! ### The packing loop -/

/-- Loop variables. -/
structure Pack where
  mem : Word
  j : ℕ
  k : ℕ
  aesMessage : ℕ → Word

def Pack.put (s : Pack) (c : Byte) : Pack :=
  let mem := s.mem ||| c.setWidth 32
  if s.j + 1 = 4 then ⟨0, 0, s.k + 1, Function.update s.aesMessage s.k mem⟩
  else ⟨mem <<< 8, s.j + 1, s.k, s.aesMessage⟩

/-- The loop after `n` characters. -/
def packLoop (ch : Buffer) : ℕ → Pack
  | 0 => ⟨0, 0, 0, fun _ => 0⟩
  | n + 1 => (packLoop ch n).put (ch n)

def pack (ch : Buffer) : ℕ → Word := (packLoop ch bufferSize).aesMessage

/-- `mem` when `r` characters of word `q` are in. -/
def partialWord (ch : Buffer) (q : ℕ) : ℕ → Word
  | 0 => 0
  | r + 1 => (partialWord ch q r ||| (ch (4 * q + r)).setWidth 32) <<< 8

def packedWord (ch : Buffer) (q : ℕ) : Word :=
  partialWord ch q 3 ||| (ch (4 * q + 3)).setWidth 32

theorem packLoop_eq (ch : Buffer) (n : ℕ) :
    (packLoop ch n).j = n % 4 ∧ (packLoop ch n).k = n / 4 ∧
      (packLoop ch n).mem = partialWord ch (n / 4) (n % 4) ∧
      ∀ q < n / 4, (packLoop ch n).aesMessage q = packedWord ch q := by
  induction n with
  | zero => exact ⟨rfl, rfl, rfl, fun q hq => absurd hq (Nat.not_lt_zero q)⟩
  | succ n ih =>
    obtain ⟨hj, hk, hmem, hwords⟩ := ih
    have hn : 4 * (n / 4) + n % 4 = n := by omega
    simp only [packLoop, Pack.put, hj, hk, hmem]
    by_cases hfull : n % 4 + 1 = 4
    · rw [if_pos hfull, show (n + 1) % 4 = 0 by omega, show (n + 1) / 4 = n / 4 + 1 by omega]
      refine ⟨rfl, rfl, rfl, ?_⟩
      intro q hq
      have h3 : n % 4 = 3 := by omega
      by_cases hlast : q = n / 4
      · subst hlast
        rw [h3] at hn
        simp only [Function.update_self, h3, packedWord, hn]
      · simp only [Function.update_of_ne hlast]
        exact hwords q (by omega)
    · rw [if_neg hfull, show (n + 1) % 4 = n % 4 + 1 by omega, show (n + 1) / 4 = n / 4 by omega]
      refine ⟨rfl, rfl, ?_, hwords⟩
      simp only [partialWord, hn]

theorem pack_eq (ch : Buffer) {q : ℕ} (hq : q < 256) : pack ch q = packedWord ch q :=
  (packLoop_eq ch bufferSize).2.2.2 q hq

theorem packedWord_eq (ch : Buffer) (q : ℕ) : packedWord ch q =
    (ch (4 * q)).setWidth 32 <<< ((3 - 0) * 8) ||| (ch (4 * q + 1)).setWidth 32 <<< ((3 - 1) * 8) |||
      (ch (4 * q + 2)).setWidth 32 <<< ((3 - 2) * 8) |||
      (ch (4 * q + 3)).setWidth 32 <<< ((3 - 3) * 8) := by
  simp only [packedWord, partialWord, BitVec.shiftLeft_or_distrib, ← BitVec.shiftLeft_add]
  simp

theorem beByte_packedWord (ch : Buffer) (q : ℕ) {p : ℕ} (hp : p < 4) :
    beByte (packedWord ch q) p = ch (4 * q + p) := by
  have hfirst : beByte ((ch (4 * q)).setWidth 32 <<< ((3 - 0) * 8)) p =
      if p = 0 then ch (4 * q) else 0 := by
    have hor := beByte_or 0 (ch (4 * q)) (show 0 < 4 by omega) hp
    have hzero : beByte 0#32 p = 0#8 := by simp [beByte]
    simpa [hzero] using hor
  have hcases : p = 0 ∨ p = 1 ∨ p = 2 ∨ p = 3 := by omega
  rw [packedWord_eq, beByte_or _ _ (by omega) hp, beByte_or _ _ (by omega) hp,
    beByte_or _ _ (by omega) hp, hfirst]
  rcases hcases with rfl | rfl | rfl | rfl <;> simp

/-! ### The unpacking loop -/

theorem putWord_four (w : Word) (s : Unpack) :
    Unpack.putWord 4 w s = [beByte w 3, beByte w 2, beByte w 1, beByte w 0].foldl Unpack.put s := by
  have h1 : beByte w 2 = (w >>> 8).setWidth 8 := rfl
  have h2 : beByte w 1 = (w >>> 8 >>> 8).setWidth 8 := by
    rw [← BitVec.shiftRight_add]
    rfl
  have h3 : beByte w 0 = (w >>> 8 >>> 8 >>> 8).setWidth 8 := by
    rw [← BitVec.shiftRight_add, ← BitVec.shiftRight_add]
    rfl
  have h0 : beByte w 3 = w.setWidth 8 := by simp [beByte]
  rw [h0, h1, h2, h3]
  rfl

/-- The first `n` characters from the last to the first. -/
def charsDown (ch : Buffer) : ℕ → List Byte
  | 0 => []
  | n + 1 => ch n :: charsDown ch n

/-- Words from the last to the first, each from its last character to its first. -/
theorem foldl_words (ch : Buffer) (n : ℕ) (s : Unpack) :
    (List.range n).reverse.foldl (fun s i =>
      [ch (4 * i + 3), ch (4 * i + 2), ch (4 * i + 1), ch (4 * i)].foldl Unpack.put s) s =
        (charsDown ch (4 * n)).foldl Unpack.put s := by
  induction n generalizing s with
  | zero => rfl
  | succ n ih =>
    have hchars : charsDown ch (4 * (n + 1)) =
        [ch (4 * n + 3), ch (4 * n + 2), ch (4 * n + 1), ch (4 * n)] ++ charsDown ch (4 * n) := rfl
    rw [hchars, List.foldl_append, List.range_succ, List.reverse_append, List.reverse_singleton,
      List.singleton_append, List.foldl_cons]
    exact ih _

/-- The unpacking loop is one pass over the characters from the last to the first. -/
theorem unpack_eq_charsDown (ch : Buffer) :
    unpack (fun i => pack ch i) =
      ((charsDown ch 32).foldl Unpack.put ⟨21, fun _ => 0⟩).decryptChar := by
  have hword : ∀ (s : Unpack) (i : Fin 8), Unpack.putWord 4 (pack ch i) s =
      [ch (4 * i + 3), ch (4 * i + 2), ch (4 * i + 1), ch (4 * i)].foldl Unpack.put s := by
    intro s i
    have hi := i.isLt
    rw [putWord_four, pack_eq ch (by omega)]
    simp only [beByte_packedWord ch i (show 3 < 4 by omega),
      beByte_packedWord ch i (show 2 < 4 by omega), beByte_packedWord ch i (show 1 < 4 by omega),
      beByte_packedWord ch i (show 0 < 4 by omega), Nat.add_zero]
  have hwords : (List.finRange 8).reverse.map Fin.val = (List.range 8).reverse := by decide
  have hpass := foldl_words ch 8 ⟨21, fun _ => 0⟩
  rw [← hwords, List.foldl_map] at hpass
  simp only [unpack, hword]
  rw [hpass]

theorem foldl_charsDown_zero {ch : Buffer} {n m : ℕ} (hnm : n ≤ m)
    (hz : ∀ i, n ≤ i → i < m → ch i = 0) (s : Unpack) :
    (charsDown ch m).foldl Unpack.put s = (charsDown ch n).foldl Unpack.put s := by
  induction m with
  | zero =>
    have hn : n = 0 := by omega
    rw [hn]
  | succ m ih =>
    by_cases heq : n = m + 1
    · rw [heq]
    · have hput : s.put (ch m) = s := by
        rw [hz m (by omega) (by omega)]
        rfl
      rw [charsDown, List.foldl_cons, hput]
      exact ih (by omega) fun i hi hi' => hz i hi (by omega)

/-- `n` characters, none of them zero, downwards from index `mem`. -/
theorem foldl_charsDown {ch : Buffer} {n : ℕ} (hnz : ∀ i < n, ch i ≠ 0) (mem : ℕ)
    (hfit : n ≤ mem + 1) (b : Buffer) :
    (charsDown ch n).foldl Unpack.put ⟨mem, b⟩ = ⟨mem - n, fun a =>
      if mem + 1 ≤ a + n ∧ a ≤ mem then ch (a + n - (mem + 1)) else b a⟩ := by
  induction n generalizing mem b with
  | zero =>
    have hnone : ∀ a, ¬ (mem + 1 ≤ a + 0 ∧ a ≤ mem) := fun a => by omega
    simp only [charsDown, List.foldl_nil, hnone, if_false, Nat.cast_zero, sub_zero]
  | succ n ih =>
    have hput : (⟨mem, b⟩ : Unpack).put (ch n) = ⟨mem - 1, Function.update b mem (ch n)⟩ := by
      rw [Unpack.put, if_pos (hnz n (by omega)), if_pos (show (0 : ℤ) ≤ mem by omega)]
      rfl
    rw [charsDown, List.foldl_cons, hput]
    cases mem with
    | zero =>
      have hn : n = 0 := by omega
      subst hn
      simp only [charsDown, List.foldl_nil]
      congr 1
      funext a
      by_cases ha : a = 0
      · subst ha
        simp
      · rw [Function.update_of_ne ha, if_neg (by omega)]
    | succ mem =>
      show (charsDown ch n).foldl Unpack.put ⟨((mem + 1 : ℕ) : ℤ) - 1, _⟩ = _
      rw [show ((mem + 1 : ℕ) : ℤ) - 1 = (mem : ℤ) by omega,
        ih (fun i hi => hnz i (by omega)) mem (by omega)]
      congr 1
      · omega
      · funext a
        by_cases hlow : mem + 1 ≤ a + n ∧ a ≤ mem
        · rw [if_pos hlow, if_pos (by omega)]
          congr 1
          omega
        · rw [if_neg hlow]
          by_cases ha : a = mem + 1
          · subst ha
            rw [Function.update_self, if_pos (by omega)]
            congr 1
            omega
          · rw [Function.update_of_ne ha, if_neg (by omega)]

/-! ### Round trip -/

theorem getLengthFrom_eq {message : Buffer} {n i length : ℕ} (hi : i ≤ length) (hn : length < i + n)
    (hat : message length = 10) (hbefore : ∀ a < length, message a ≠ 10) :
    getLengthFrom message n i = some length := by
  induction n generalizing i with
  | zero => omega
  | succ n ih =>
    rw [getLengthFrom]
    by_cases heq : i = length
    · rw [heq, if_neg (not_not.mpr hat)]
    · rw [if_pos (hbefore i (by omega))]
      exact ih (by omega) (by omega)

theorem getLengthFrom_before {message : Buffer} {n i length : ℕ}
    (h : getLengthFrom message n i = some length) : ∀ a, i ≤ a → a < length → message a ≠ 10 := by
  induction n generalizing i with
  | zero => cases h
  | succ n ih =>
    intro a hia hal
    rw [getLengthFrom] at h
    split at h
    · next hne =>
      by_cases heq : a = i
      · rw [heq]
        exact hne
      · exact ih h a (by omega) hal
    · cases h
      omega

/-- A newline-terminated message of `len` characters in a cleared `ch`. -/
structure IsMessage (ch : Buffer) (len : ℕ) : Prop where
  pos : 1 ≤ len
  le : len ≤ 32
  newline : ch (len - 1) = 10
  nonzero : ∀ i < len, ch i ≠ 0
  clear : ∀ i, len ≤ i → ch i = 0

/-- Unpacking the packed message gives it back, with its length. -/
def RoundTrips (ch : Buffer) (len : ℕ) : Prop :=
  (∀ i < len, unpack (fun i => pack ch i) i = ch i) ∧
    getLength (unpack fun i => pack ch i) = some (len - 1)

/-- A message of at most 22 characters ends at index 21. -/
theorem IsMessage.unpack_eq {ch : Buffer} {len : ℕ} (h : IsMessage ch len) (hfit : len ≤ 22) :
    unpack (fun i => pack ch i) =
      fun a => if 22 ≤ a + len ∧ a ≤ 21 then ch (a + len - 22) else 0 := by
  rw [unpack_eq_charsDown, foldl_charsDown_zero h.le (fun i hi _ => h.clear i hi)]
  exact congrArg Unpack.decryptChar (foldl_charsDown h.nonzero 21 hfit fun _ => 0)

/-- Index 21 is the place of the last character of a message of 22 characters only. -/
theorem roundTrips_iff {ch : Buffer} {len : ℕ} (h : IsMessage ch len) :
    RoundTrips ch len ↔ len = 22 ∧ ∀ i < len - 1, ch i ≠ 10 := by
  constructor
  · rintro ⟨hsame, hlength⟩
    have hlen : len = 22 := by
      rcases Nat.lt_trichotomy len 22 with hshort | heq | hlong
      · -- the first character is in front of the place it is stored at
        have hfirst := hsame 0 h.pos
        rw [h.unpack_eq (by omega)] at hfirst
        beta_reduce at hfirst
        rw [if_neg (by omega)] at hfirst
        exact absurd hfirst.symm (h.nonzero 0 h.pos)
      · exact heq
      · have hbeyond := unpack_low (fun i => pack ch i) (show 21 < 22 by omega)
        rw [hsame 22 hlong] at hbeyond
        exact absurd hbeyond (h.nonzero 22 hlong)
    refine ⟨hlen, ?_⟩
    intro i hi
    rw [← hsame i (by omega)]
    exact getLengthFrom_before hlength i (Nat.zero_le i) hi
  · rintro ⟨hlen, hinner⟩
    have hb := h.unpack_eq (by omega)
    subst hlen
    have hsame : ∀ i < 22, (if 22 ≤ i + 22 ∧ i ≤ 21 then ch (i + 22 - 22) else 0) = ch i := by
      intro i hi
      rw [if_pos (by omega), Nat.add_sub_cancel]
    rw [RoundTrips, hb]
    refine ⟨hsame, getLengthFrom_eq (Nat.zero_le _) (by decide) ?_ ?_⟩
    · exact (hsame 21 (by omega)).trans h.newline
    · intro a ha
      rw [hsame a (by omega)]
      exact hinner a ha

/-- `n - 1` letters and a newline. -/
def letters (n : ℕ) : Buffer := fun i => if i + 1 < n then 0x61 else if i + 1 = n then 10 else 0

theorem isMessage_letters {n : ℕ} (hpos : 1 ≤ n) (hle : n ≤ 32) : IsMessage (letters n) n where
  pos := hpos
  le := hle
  newline := by
    rw [letters, if_neg (by omega), if_pos (by omega)]
  nonzero := by
    intro i hi
    by_cases hlast : i + 1 < n
    · rw [letters, if_pos hlast]
      decide
    · rw [letters, if_neg hlast, if_pos (by omega)]
      decide
  clear := by
    intro i hi
    rw [letters, if_neg (by omega), if_neg (by omega)]

theorem roundTrips_letters :
    RoundTrips (letters 22) 22 ↔ 22 = 22 ∧ ∀ i < 22 - 1, letters 22 i ≠ 10 :=
  roundTrips_iff (isMessage_letters (by omega) (by omega))

theorem not_roundTrips_two : ¬ ∀ ch len, IsMessage ch len → RoundTrips ch len := by
  intro h
  have hmessage : IsMessage (letters 2) 2 := isMessage_letters (by omega) (by omega)
  obtain ⟨hsame, -⟩ := h _ _ hmessage
  rw [hmessage.unpack_eq (by omega)] at hsame
  exact absurd (hsame 0 (by omega)) (by decide)

end SocCrypto.Soft

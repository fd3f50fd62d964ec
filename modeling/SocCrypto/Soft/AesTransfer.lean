import SocCrypto.AesFunction

/-!
# The AES transfers of `main`

Encryption and decryption of `amount_data` words through the engine. `main` passes
`amount_data*4` to `AES_Init`, which passes four times its argument on as the length in
bytes: the engine works on four times the words of the message. Addresses are byte
offsets in the DRAM window, whose words are `Sdram`; both buffers are word aligned.
-/

namespace SocCrypto.Soft
open AesFunction (Block encrypt decrypt)

/-! ### Blockwise encryption -/

/-- Word `p` of a block. -/
def wordAt (b : Block) : ℕ → Word
  | 0 => b.w1
  | 1 => b.w2
  | 2 => b.w3
  | _ => b.w4

/-- Block `q` of a sequence of words. -/
def blockAt (m : ℕ → Word) (q : ℕ) : Block := ⟨m (4 * q), m (4 * q + 1), m (4 * q + 2), m (4 * q + 3)⟩

/-- Word `i` of the blockwise image of a sequence of words. -/
def ecb (f : Block → Block) (m : ℕ → Word) (i : ℕ) : Word := wordAt (f (blockAt m (i / 4))) (i % 4)

theorem wordAt_blockAt (m : ℕ → Word) (i : ℕ) : wordAt (blockAt m (i / 4)) (i % 4) = m i := by
  have hi : 4 * (i / 4) + i % 4 = i := Nat.div_add_mod i 4
  have hcases : i % 4 = 0 ∨ i % 4 = 1 ∨ i % 4 = 2 ∨ i % 4 = 3 := by omega
  rcases hcases with h | h | h | h <;> rw [h] at hi ⊢ <;> exact congrArg m hi

theorem blockAt_ecb (f : Block → Block) (m : ℕ → Word) (q : ℕ) :
    blockAt (ecb f m) q = f (blockAt m q) := by
  have h0 : 4 * q / 4 = q ∧ 4 * q % 4 = 0 := by omega
  have h1 : (4 * q + 1) / 4 = q ∧ (4 * q + 1) % 4 = 1 := by omega
  have h2 : (4 * q + 2) / 4 = q ∧ (4 * q + 2) % 4 = 2 := by omega
  have h3 : (4 * q + 3) / 4 = q ∧ (4 * q + 3) % 4 = 3 := by omega
  simp only [blockAt, ecb, h0.1, h0.2, h1.1, h1.2, h2.1, h2.2, h3.1, h3.2, wordAt]

theorem ecb_ecb {f g : Block → Block} (h : ∀ b, g (f b) = b) (m : ℕ → Word) (i : ℕ) :
    ecb g (ecb f m) i = m i := by
  rw [ecb, blockAt_ecb, h, wordAt_blockAt]

theorem ecb_congr {f : Block → Block} {m m' : ℕ → Word} {i : ℕ}
    (h : ∀ j, j / 4 = i / 4 → m j = m' j) : ecb f m i = ecb f m' i := by
  have hblock : blockAt m (i / 4) = blockAt m' (i / 4) := by
    rw [blockAt, blockAt, h _ (by omega), h _ (by omega), h _ (by omega), h _ (by omega)]
  rw [ecb, ecb, hblock]

theorem ecb_shift (f : Block → Block) (m : ℕ → Word) (i q : ℕ) :
    ecb f m i = ecb f (fun k => m (k - 4 * q)) (i + 4 * q) := by
  have hq : (i + 4 * q) / 4 = i / 4 + q := by omega
  have hr : (i + 4 * q) % 4 = i % 4 := by omega
  have hsub : ∀ p, 4 * (i / 4 + q) + p - 4 * q = 4 * (i / 4) + p := fun p => by omega
  have hblock : blockAt (fun k => m (k - 4 * q)) (i / 4 + q) = blockAt m (i / 4) := by
    have h0 := hsub 0
    simp only [Nat.add_zero] at h0
    simp only [blockAt, hsub, h0]
  rw [ecb, ecb, hq, hr, hblock]

/-! ### Engine and driver -/

/-- AES-128 in the mode `AES_ENCRYPT` (`false`) or `AES_DECRYPT` (`true`). -/
def aesBlock (mode : Bool) (key : Block) : Block → Block :=
  if mode then decrypt key else encrypt key

/-- The engine: `length` bytes from `readAddress` on go through the cipher and are written
from `writeAddress` on. -/
def aesEngine (mode : Bool) (key : Block) (readAddress writeAddress length : ℕ) (m : Sdram) :
    Sdram := fun a =>
  if writeAddress / 4 ≤ a ∧ a < writeAddress / 4 + length / 4 then
    ecb (aesBlock mode key) (fun j => m (readAddress / 4 + j)) (a - writeAddress / 4)
  else m a

/-- `AES_Init` and the wait for the result: `AES_Configure_Length(aes_base, lengthOfValue * 4)`. -/
def aesInit (mode : Bool) (key : Block) (readAddress writeAddress lengthOfValue : ℕ) (m : Sdram) :
    Sdram :=
  aesEngine mode key readAddress writeAddress (lengthOfValue * 4) m

/-- The store loop of `main` at byte 16000 and its `AES_Init`. -/
def aesPhase (mode : Bool) (key : Block) (amountData : ℕ) (data : ℕ → Word) (m : Sdram) : Sdram :=
  aesInit mode key 16000 20000 (amountData * 4) (m.writeAll 4000 fun i : Fin amountData => data i)

/-- Memory after both phases; the words of the first result are `AES_Encrypted_Message`, those
of the second `AES_Decrypted_Message`. -/
def bothPhases (key : Block) (amountData : ℕ) (aesMessage : ℕ → Word) (m : Sdram) : Sdram :=
  let m := aesPhase false key amountData aesMessage m
  aesPhase true key amountData (fun i => m (5000 + i)) m

/-- The message comes back, and nothing outside the two buffers of `amountData` words is
changed. -/
def TransfersExactly (key : Block) (amountData : ℕ) (aesMessage : ℕ → Word) (m : Sdram) : Prop :=
  (∀ i < amountData, bothPhases key amountData aesMessage m (5000 + i) = aesMessage i) ∧
    ∀ a, (a < 4000 ∨ 4000 + amountData ≤ a) → (a < 5000 ∨ 5000 + amountData ≤ a) →
      bothPhases key amountData aesMessage m a = m a

/-! ### One phase -/

section
variable {mode : Bool} {key : Block} {n : ℕ} {data : ℕ → Word} {m : Sdram}

theorem aesPhase_source {a : ℕ} (ha : a < 5000 ∨ 5000 + 4 * n ≤ a) :
    aesPhase mode key n data m a = m.writeAll 4000 (fun i : Fin n => data i) a := by
  simp only [aesPhase, aesInit, aesEngine, Nat.reduceDiv]
  exact if_neg (by omega)

theorem aesPhase_target {i : ℕ} (hi : i < 4 * n) :
    aesPhase mode key n data m (5000 + i) =
      ecb (aesBlock mode key) (fun j => m.writeAll 4000 (fun i : Fin n => data i) (4000 + j)) i := by
  simp only [aesPhase, aesInit, aesEngine, Nat.reduceDiv]
  rw [if_pos (by omega), Nat.add_sub_cancel_left]

/-- Its first `n` words are the image of the message. -/
theorem aesPhase_data (hn : n % 4 = 0) {i : ℕ} (hi : i < n) :
    aesPhase mode key n data m (5000 + i) = ecb (aesBlock mode key) data i := by
  rw [aesPhase_target (by omega)]
  refine ecb_congr fun j hj => ?_
  exact Sdram.writeAll_at (fun i : Fin n => data i) ⟨j, by omega⟩

end

/-! ### Both phases -/

theorem bothPhases_message {key : Block} {n : ℕ} (hn : n % 4 = 0) (message : ℕ → Word) (m : Sdram)
    {i : ℕ} (hi : i < n) : bothPhases key n message m (5000 + i) = message i := by
  simp only [bothPhases]
  rw [aesPhase_data hn hi]
  have hcipher : ∀ j, j / 4 = i / 4 →
      aesPhase false key n message m (5000 + j) = ecb (encrypt key) message j :=
    fun j hj => aesPhase_data hn (by omega)
  rw [ecb_congr hcipher]
  exact ecb_ecb (AesFunction.decrypt_encrypt key) message i

/-- What the decrypting engine leaves behind the message: the image of whatever follows the
source buffer, which from byte 20000 on is the ciphertext. -/
def overrun (key : Block) (message : ℕ → Word) (m : Sdram) (i : ℕ) : Word :=
  if i < 1000 then ecb (decrypt key) (fun j => m (4000 + j)) i else message (i - 1000)

theorem bothPhases_overrun {key : Block} {n : ℕ} (hn : n % 4 = 0) (hmax : n ≤ 256)
    (message : ℕ → Word) (m : Sdram) {i : ℕ} (hni : n ≤ i) (hi : i < 4 * n) :
    bothPhases key n message m (5000 + i) = overrun key message m i := by
  simp only [bothPhases]
  rw [aesPhase_target hi]
  have hbehind : ∀ j, j / 4 = i / 4 →
      (aesPhase false key n message m).writeAll 4000
        (fun k : Fin n => aesPhase false key n message m (5000 + k)) (4000 + j) =
      aesPhase false key n message m (4000 + j) :=
    fun j hj => Sdram.writeAll_other _ (by omega)
  rw [ecb_congr hbehind, overrun]
  by_cases hlow : i < 1000
  · rw [if_pos hlow]
    refine ecb_congr fun j hj => ?_
    rw [aesPhase_source (by omega)]
    exact Sdram.writeAll_other _ (by omega)
  · rw [if_neg hlow]
    -- the block of word `i` is the ciphertext of the block of word `i - 1000`
    have hcipher : ∀ j, j / 4 = i / 4 → aesPhase false key n message m (4000 + j) =
        ecb (encrypt key) (fun k => message (k - 4 * 250)) j := by
      intro j hj
      obtain ⟨k, rfl⟩ : ∃ k, j = k + 4 * 250 := ⟨j - 1000, by omega⟩
      rw [show 4000 + (k + 4 * 250) = 5000 + k by omega, aesPhase_data hn (by omega)]
      exact ecb_shift _ message k 250
    rw [ecb_congr hcipher]
    exact ecb_ecb (AesFunction.decrypt_encrypt key) _ i

/-- The words behind the target buffer already hold what the engine writes there. -/
theorem transfersExactly_iff (key : Block) (n : ℕ) (hn : n % 4 = 0) (hmax : n ≤ 256)
    (message : ℕ → Word) (m : Sdram) :
    TransfersExactly key n message m ↔
      ∀ i, n ≤ i → i < 4 * n → m (5000 + i) = overrun key message m i := by
  constructor
  · rintro ⟨-, hframe⟩ i hni hi
    rw [← bothPhases_overrun hn hmax message m hni hi]
    exact (hframe (5000 + i) (by omega) (by omega)).symm
  · intro hover
    refine ⟨fun i hi => bothPhases_message hn message m hi, ?_⟩
    intro a hsource htarget
    by_cases hbehind : 5000 + n ≤ a ∧ a < 5000 + 4 * n
    · obtain ⟨i, rfl⟩ : ∃ i, a = 5000 + i := ⟨a - 5000, by omega⟩
      rw [bothPhases_overrun hn hmax message m (by omega) (by omega)]
      exact (hover i (by omega) (by omega)).symm
    · simp only [bothPhases]
      rw [aesPhase_source (by omega), Sdram.writeAll_other _ (by omega),
        aesPhase_source (by omega), Sdram.writeAll_other _ (by omega)]

theorem transfersExactly_iff_four :
    TransfersExactly ⟨1, 2, 3, 4⟩ 4 (fun _ => 5) (fun _ => 0) ↔
      ∀ i, 4 ≤ i → i < 4 * 4 → (0 : Word) = overrun ⟨1, 2, 3, 4⟩ (fun _ => 5) (fun _ => 0) i :=
  transfersExactly_iff _ 4 rfl (by omega) _ _

/-- A cleared memory with the ciphertext of the zero block behind the source buffer and a 1
behind the target buffer. -/
def staleSdram (key : Block) : Sdram := fun a =>
  if a = 5004 then 1
  else if 4004 ≤ a ∧ a < 4008 then ecb (encrypt key) (fun _ => 0) (a - 4000) else 0

/-- The decryption of four words overwrites the word behind the target buffer. -/
theorem not_transfersExactly_four : ¬ ∀ key n message m, n % 4 = 0 → 4 ≤ n → n ≤ 256 →
    TransfersExactly key n message m := by
  intro h
  have hframe := (h ⟨1, 2, 3, 4⟩ 4 (fun _ => 5) (staleSdram ⟨1, 2, 3, 4⟩) rfl le_rfl
    (by omega)).2 (5000 + 4) (by omega) (by omega)
  rw [bothPhases_overrun rfl (by omega) _ _ le_rfl (by omega), overrun, if_pos (by omega)] at hframe
  have hcipher : ∀ j, j / 4 = 4 / 4 → staleSdram ⟨1, 2, 3, 4⟩ (4000 + j) =
      ecb (encrypt ⟨1, 2, 3, 4⟩) (fun _ => 0) j := by
    intro j hj
    rw [staleSdram, if_neg (by omega), if_pos (by omega), Nat.add_sub_cancel_left]
  rw [ecb_congr hcipher, ecb_ecb (AesFunction.decrypt_encrypt _), staleSdram, if_pos rfl] at hframe
  exact absurd hframe (by decide)

end SocCrypto.Soft

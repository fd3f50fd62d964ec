import SocCrypto.Soft.Sha256

/-!
# The receiving half of `main`

From the transmitted ciphertext, encrypted key and signature to the verdict
"SHA match", with every DRAM transfer of `main.c`. The engines are parameters.
`receive` works on the DRAM window; `recoverMessage` is the same computation
without it, and `receive_eq` connects the two.
-/

namespace SocCrypto.Soft

structure Engines where
  rsa : (Fin 32 → Word) → (Fin 32 → Word) → (Fin 32 → Word) → Fin 32 → Word
  aesDecrypt : (Fin 4 → Word) → (Fin 8 → Word) → Fin 8 → Word
  sha256 : List Word → Fin 8 → Word

/-- What the sender transmits; of `AES_Encrypted_Message` the `AES_AMOUNT_DATA`
words that are used. -/
structure Transmitted where
  aesEncryptedMessage : Fin 8 → Word
  keyAesEncrypted : Fin 32 → Word
  signature : Fin 32 → Word

/-- Variables of `main` still in scope: the sender's message and digest, and the
private key with its modulus. -/
structure Scope where
  ch : Buffer
  digit : Fin 32 → Word
  d : Fin 32 → Word
  n : Fin 32 → Word

/-- What a run finds on the stack: the readable bytes behind `decryptChar`, and the value of
`NumberBlock` where `Padding` leaves it unassigned. -/
structure Stack where
  behind : List Byte
  numberBlock : ℕ

/-! ### Engine calls on the DRAM window -/

/-- `RSA_Init(rsa_base, DDR3_HPS_BASE, DDR3_HPS_BASE + 4000, 96*4)` and the wait
for its end. -/
def Engines.runRsa (e : Engines) (m : Sdram) : Sdram :=
  m.writeAll 1000 (e.rsa (m.slice 0 32) (m.slice 32 32) (m.slice 64 32))

/-- `AES_Init` in decrypt mode from byte 16000 to byte 20000. -/
def Engines.runAes (e : Engines) (m : Sdram) (key : Fin 4 → Word) : Sdram :=
  m.writeAll 5000 (e.aesDecrypt key (m.slice 4000 8))

/-- `SHA_256_Intit(sha_base, DDR3_HPS_BASE, DDR3_HPS_BASE + 12000, N)`. -/
def Engines.runSha (e : Engines) (m : Sdram) (numberBlock : ℕ) : Sdram :=
  m.writeAll 3000 (e.sha256 (List.ofFn (m.slice 0 (16 * numberBlock))))

/-! ### The unpacking loop -/

structure Unpack where
  mem : ℤ
  decryptChar : Buffer

/-- One round of the inner loop on the low byte. A store below the buffer is lost. -/
def Unpack.put (s : Unpack) (c : Byte) : Unpack :=
  if c ≠ 0 then
    ⟨s.mem - 1,
      if 0 ≤ s.mem then Function.update s.decryptChar s.mem.toNat c else s.decryptChar⟩
  else s

/-- `n` rounds of the inner loop; each shifts the word right by a byte. -/
def Unpack.putWord : ℕ → Word → Unpack → Unpack
  | 0, _, s => s
  | n + 1, w, s => putWord n (w >>> 8) (s.put (w.setWidth 8))

/-- The outer loop from the last word to the first, with `mem` starting at 21. -/
def unpack (message : Fin 8 → Word) : Buffer :=
  ((List.finRange 8).reverse.foldl (fun s i => Unpack.putWord 4 (message i) s)
    (⟨21, fun _ => 0⟩ : Unpack)).decryptChar

/-- `getLength(decryptChar)`, which goes on behind the buffer; `none` when it runs out of readable
memory. -/
def Stack.getLength (k : Stack) (decryptChar : Buffer) : Option ℕ :=
  getLengthFrom
    (fun i => if i < bufferSize then decryptChar i else k.behind.getD (i - bufferSize) 0)
    (bufferSize + k.behind.length) 0

/-! ### The receiver -/

/-- The final comparison loop: `flag` is still 1 after it. -/
def matchDigest (digit : Fin 32 → Word) (m : Sdram) : Bool :=
  (List.finRange 8).all fun i => digit (i.castLE (by decide)) == m (3000 + i)

def decryptPhase (e : Engines) (t : Transmitted) (v : Scope) (sdram : Sdram) : Sdram :=
  let m := ((sdram.writeAll 0 t.keyAesEncrypted).writeAll 32 v.d).writeAll 64 v.n
  let m := e.runRsa m
  let keyAesDecrypt : Fin 4 → Word := fun i => m (1000 + (3 - i))
  let m := e.runRsa (m.writeAll 0 t.signature)
  e.runAes (m.writeAll 4000 t.aesEncryptedMessage) keyAesDecrypt

/-- Receiving half of `main`, from the line "Transmit To Other Person" on, less
the sender's AES encryption in its middle; the result is `flag`, `none` a fault in `getLength`. -/
def receive (e : Engines) (t : Transmitted) (v : Scope) (k : Stack) (sdram : Sdram) :
    Option Bool := do
  let m := decryptPhase e t v sdram
  let decryptChar := unpack (m.slice 5000 8)
  let length ← k.getLength decryptChar
  let padded := padding m v.ch length
  let numberBlock := padded.2.getD k.numberBlock
  return matchDigest v.digit (e.runSha padded.1 numberBlock)

def Accepts (e : Engines) (t : Transmitted) (v : Scope) (k : Stack) (sdram : Sdram) : Prop :=
  receive e t v k sdram = some true

/-! ### The receiver without memory -/

def recoverKey (e : Engines) (t : Transmitted) (v : Scope) : Fin 4 → Word :=
  fun i => e.rsa t.keyAesEncrypted v.d v.n ⟨3 - i, by omega⟩

/-- Message and length recovered from the ciphertext; there is none without a newline. -/
def recoverMessage (e : Engines) (t : Transmitted) (v : Scope) : Option (Buffer × ℕ) :=
  let decryptChar := unpack (e.aesDecrypt (recoverKey e t v) t.aesEncryptedMessage)
  (getLength decryptChar).map fun length => (decryptChar, length)

def signedDigest (e : Engines) (t : Transmitted) (v : Scope) : Fin 8 → Word :=
  fun i => e.rsa t.signature v.d v.n (i.castLE (by decide))

def digest (e : Engines) (message : Buffer) (length : ℕ) : Option (Fin 8 → Word) :=
  let padded := padding (fun _ => 0) message length
  padded.2.map fun numberBlock => e.sha256 (List.ofFn (padded.1.slice 0 (16 * numberBlock)))

/-! ### Bounds of the unpacking loop -/

def Unpack.Low (s : Unpack) : Prop := s.mem ≤ 21 ∧ ∀ a, 21 < a → s.decryptChar a = 0

theorem Unpack.Low.put {s : Unpack} (h : s.Low) (c : Byte) : (s.put c).Low := by
  obtain ⟨hmem, hzero⟩ := h
  unfold Unpack.put
  split
  · refine ⟨by show s.mem - 1 ≤ 21; omega, ?_⟩
    intro a ha
    by_cases hpos : 0 ≤ s.mem
    · have hne : a ≠ s.mem.toNat := by omega
      simp only [if_pos hpos, Function.update_of_ne hne]
      exact hzero a ha
    · simp only [if_neg hpos]
      exact hzero a ha
  · exact ⟨hmem, hzero⟩

theorem Unpack.Low.putWord {s : Unpack} (h : s.Low) (n : ℕ) (w : Word) :
    (Unpack.putWord n w s).Low := by
  induction n generalizing s w with
  | zero => exact h
  | succ n ih => exact ih (h.put _) _

theorem Unpack.Low.foldl {s : Unpack} (h : s.Low) (message : Fin 8 → Word) (l : List (Fin 8)) :
    (l.foldl (fun s i => Unpack.putWord 4 (message i) s) s).Low := by
  induction l generalizing s with
  | nil => exact h
  | cons i l ih => exact ih (h.putWord 4 _)

theorem unpack_low (message : Fin 8 → Word) {a : ℕ} (ha : 21 < a) : unpack message a = 0 := by
  have hlow : (⟨21, fun _ => 0⟩ : Unpack).Low := ⟨le_rfl, fun _ _ => rfl⟩
  exact (hlow.foldl message _).2 a ha

theorem recoverMessage_length {e : Engines} {t : Transmitted} {v : Scope} {b : Buffer} {l : ℕ}
    (h : recoverMessage e t v = some (b, l)) : l ≤ 21 := by
  obtain ⟨l', hl, heq⟩ := Option.map_eq_some_iff.mp h
  cases heq
  by_contra hlong
  have hnl := getLength_newline hl
  rw [unpack_low _ (by omega)] at hnl
  exact absurd hnl (by decide)

/-! ### getLength on the stack -/

theorem getLengthFrom_congr {b b' : Buffer} {n i : ℕ} (h : ∀ a < i + n, b a = b' a) :
    getLengthFrom b n i = getLengthFrom b' n i := by
  induction n generalizing i with
  | zero => rfl
  | succ n ih =>
    rw [getLengthFrom, getLengthFrom, h i (by omega), ih fun a ha => h a (by omega)]

theorem getLengthFrom_add (b : Buffer) (n m i : ℕ) :
    getLengthFrom b (n + m) i = (getLengthFrom b n i).or (getLengthFrom b m (i + n)) := by
  induction n generalizing i with
  | zero =>
    rw [Nat.zero_add]
    rfl
  | succ n ih =>
    rw [show n + 1 + m = n + m + 1 by omega, getLengthFrom, getLengthFrom]
    split
    · rw [ih, show i + 1 + n = i + (n + 1) by omega]
    · rfl

theorem Stack.getLength_eq (k : Stack) (b : Buffer) :
    k.getLength b = (Soft.getLength b).or (getLengthFrom
      (fun i => if i < bufferSize then b i else k.behind.getD (i - bufferSize) 0)
      k.behind.length bufferSize) := by
  have hbuffer : getLengthFrom
      (fun i => if i < bufferSize then b i else k.behind.getD (i - bufferSize) 0) bufferSize 0 =
        getLengthFrom b bufferSize 0 := getLengthFrom_congr fun a ha => if_pos (by omega)
  rw [Stack.getLength, getLengthFrom_add, hbuffer, Nat.zero_add]
  rfl

/-! ### What the verdict compares -/

theorem digest_block {l : ℕ} (hl : l ≤ 55) (e : Engines) (message : Buffer) (m : Sdram) :
    digest e message l = some (e.sha256 (List.ofFn ((padding m message l).1.slice 0 16))) := by
  have hsame := (padding_block_inj hl (fun _ => 0) m message message).mpr fun _ _ => rfl
  rw [← hsame]
  simp only [digest, padding_blocks hl, Option.map_some]

theorem decryptPhase_message (e : Engines) (t : Transmitted) (v : Scope) (sdram : Sdram) :
    (decryptPhase e t v sdram).slice 5000 8 =
      e.aesDecrypt (recoverKey e t v) t.aesEncryptedMessage := by
  have hkey : (((sdram.writeAll 0 t.keyAesEncrypted).writeAll 32 v.d).writeAll 64 v.n).slice 0 32 =
      t.keyAesEncrypted := by
    rw [Sdram.slice_writeAll_other _ (by omega), Sdram.slice_writeAll_other _ (by omega),
      Sdram.slice_writeAll]
  have hd : (((sdram.writeAll 0 t.keyAesEncrypted).writeAll 32 v.d).writeAll 64 v.n).slice 32 32 =
      v.d := by
    rw [Sdram.slice_writeAll_other _ (by omega), Sdram.slice_writeAll]
  have hn : (((sdram.writeAll 0 t.keyAesEncrypted).writeAll 32 v.d).writeAll 64 v.n).slice 64 32 =
      v.n := Sdram.slice_writeAll _
  simp only [decryptPhase, Engines.runAes, Sdram.slice_writeAll]
  congr 1
  funext i
  simp only [Engines.runRsa, hkey, hd, hn]
  exact Sdram.writeAll_at _ ⟨3 - i, by omega⟩

/-- The verdict without the DRAM window: the digest compared is that of the first
`length` characters of the sender's buffer `ch`. -/
theorem accepts_iff {e : Engines} {t : Transmitted} {v : Scope} {r : Buffer × ℕ}
    (hr : recoverMessage e t v = some r) (k : Stack) (sdram : Sdram) :
    Accepts e t v k sdram ↔
      digest e v.ch r.2 = some fun i => v.digit (i.castLE (by decide)) := by
  obtain ⟨b, l⟩ := r
  have hlength := recoverMessage_length hr
  have hl55 : l ≤ 55 := by omega
  obtain ⟨l', hl, heq⟩ := Option.map_eq_some_iff.mp hr
  cases heq
  have hstack : k.getLength (unpack ((decryptPhase e t v sdram).slice 5000 8)) = some l := by
    rw [decryptPhase_message, Stack.getLength_eq, hl]
    rfl
  rw [digest_block hl55 e v.ch (decryptPhase e t v sdram), Option.some_inj, Accepts]
  simp only [receive, hstack, Option.bind_eq_bind, Option.bind_some, padding_blocks hl55,
    Option.getD_some, Option.pure_def, Option.some_inj, matchDigest, Engines.runSha,
    Sdram.writeAll_at, List.all_eq_true, List.mem_finRange, true_implies, beq_iff_eq,
    Nat.mul_one]
  exact ⟨fun h => funext fun i => (h i).symm, fun h i => (congrFun h i).symm⟩

/-- Without a newline in the buffer `getLength` takes the first one behind it, `NumberBlock` stays
unassigned, and the verdict is that on whatever block the engine is started on. -/
theorem accepts_behind {e : Engines} {t : Transmitted} {v : Scope}
    (hr : recoverMessage e t v = none)
    (he : ∀ block, e.sha256 block = fun i => v.digit (i.castLE (by decide))) (sdram : Sdram) :
    Accepts e t v ⟨[10], 0⟩ sdram := by
  have hnone : getLength (unpack (e.aesDecrypt (recoverKey e t v) t.aesEncryptedMessage)) = none :=
    Option.map_eq_none_iff.mp hr
  have hbehind : ∀ b : Buffer, getLengthFrom
      (fun i => if i < bufferSize then b i else [10].getD (i - bufferSize) 0) 1 bufferSize =
        some bufferSize := by
    intro b
    simp [getLengthFrom]
  have hstack : Stack.getLength ⟨[10], 0⟩ (unpack ((decryptPhase e t v sdram).slice 5000 8)) =
      some bufferSize := by
    rw [decryptPhase_message, Stack.getLength_eq, hnone]
    exact hbehind _
  simp only [Accepts, receive, hstack, Option.bind_eq_bind, Option.bind_some, Option.pure_def,
    Option.some_inj, matchDigest, Engines.runSha, Sdram.writeAll_at, List.all_eq_true,
    List.mem_finRange, beq_iff_eq, he, implies_true]

/-! ### Soundness of the verdict -/

def Sound (e : Engines) (t : Transmitted) (v : Scope) (k : Stack) (sdram : Sdram) : Prop :=
  Accepts e t v k sdram → ∃ r, recoverMessage e t v = some r ∧
    digest e r.1 r.2 = some (signedDigest e t v)

section
variable {e : Engines} {t : Transmitted} {v : Scope}

theorem sound_of_recovered {r : Buffer × ℕ} (hr : recoverMessage e t v = some r)
    (hch : ∀ i < r.2, v.ch i = r.1 i)
    (hdigit : ∀ i : Fin 8, v.digit (i.castLE (by decide)) = signedDigest e t v i) (k : Stack)
    (sdram : Sdram) : Sound e t v k sdram := by
  intro haccept
  have hl55 : r.2 ≤ 55 := by
    have := recoverMessage_length (b := r.1) (l := r.2) hr
    omega
  have hdig := (accepts_iff hr k sdram).mp haccept
  have hsame := (padding_block_inj hl55 (fun _ => 0) (fun _ => 0) v.ch r.1).mpr hch
  refine ⟨r, hr, ?_⟩
  rw [digest_block hl55 _ r.1 fun _ => 0, ← hsame, ← digest_block hl55 _ v.ch fun _ => 0, hdig]
  exact congrArg some (funext hdigit)

theorem recovered_of_sound {r : Buffer × ℕ} (hr : recoverMessage e t v = some r) (k : Stack)
    (sdram : Sdram) (h : ∀ sha256, Sound { e with sha256 := sha256 } t v k sdram) :
    (∀ i < r.2, v.ch i = r.1 i) ∧
      ∀ i : Fin 8, v.digit (i.castLE (by decide)) = signedDigest e t v i := by
  have hl55 : r.2 ≤ 55 := by
    have := recoverMessage_length (b := r.1) (l := r.2) hr
    omega
  -- an engine that answers the sender's digest on the sender's block only
  let own : List Word := List.ofFn ((padding (fun _ => 0) v.ch r.2).1.slice 0 16)
  let dig : Fin 8 → Word := fun i => v.digit (i.castLE (by decide))
  let sha256 : List Word → Fin 8 → Word := fun block =>
    if block = own then dig else fun i => signedDigest e t v i + 1
  have hrec : recoverMessage { e with sha256 := sha256 } t v = some r := hr
  have haccept : Accepts { e with sha256 := sha256 } t v k sdram := by
    refine (accepts_iff hrec k sdram).mpr ?_
    rw [digest_block hl55 _ v.ch fun _ => 0]
    exact congrArg some (if_pos rfl)
  obtain ⟨r', hr', hdig⟩ := h sha256 haccept
  rw [hrec] at hr'
  cases hr'
  rw [digest_block hl55 _ r.1 fun _ => 0] at hdig
  have hvalue : sha256 (List.ofFn ((padding (fun _ => 0) r.1 r.2).1.slice 0 16)) =
      signedDigest e t v := Option.some.inj hdig
  by_cases hblock : List.ofFn ((padding (fun _ => 0) r.1 r.2).1.slice 0 16) = own
  · simp only [sha256, if_pos hblock] at hvalue
    have hslice := List.ofFn_injective hblock
    refine ⟨?_, fun i => congrFun hvalue i⟩
    intro i hi
    exact ((padding_block_inj hl55 _ _ r.1 v.ch).mp hslice i hi).symm
  · simp only [sha256, if_neg hblock] at hvalue
    have hbad := congrFun hvalue 0
    exact absurd hbad (by simp)

end

/-- For which transmitted values the verdict is sound whatever the SHA-256 engine computes and
the stack holds: a message has to be recovered, the sender's buffer has to hold it, and the
sender's digest has to be the one the signature recovers to. -/
theorem receive_sound_iff (e : Engines) (t : Transmitted) (v : Scope) (sdram : Sdram) :
    (∀ sha256 k, Sound { e with sha256 := sha256 } t v k sdram) ↔
      ∃ r, recoverMessage e t v = some r ∧ (∀ i < r.2, v.ch i = r.1 i) ∧
        ∀ i : Fin 8, v.digit (i.castLE (by decide)) = signedDigest e t v i := by
  constructor
  · intro h
    cases hr : recoverMessage e t v with
    | none =>
      let sha256 : List Word → Fin 8 → Word := fun _ i => v.digit (i.castLE (by decide))
      obtain ⟨r, hrec, -⟩ := h sha256 _
        (accepts_behind (e := { e with sha256 := sha256 }) hr (fun _ => rfl) sdram)
      exact absurd (hr.symm.trans hrec) (by simp)
    | some r => exact ⟨r, rfl, recovered_of_sound hr ⟨[], 0⟩ sdram fun sha256 => h sha256 _⟩
  · rintro ⟨r, hr, hch, hdigit⟩ sha256 k
    exact sound_of_recovered (e := { e with sha256 := sha256 }) hr hch hdigit k sdram

/-- Transparent engines: RSA and AES return their data, SHA-256 the first eight
words of the block. -/
def transparent : Engines where
  rsa a _ _ := a
  aesDecrypt _ c := c
  sha256 block i := block.getD i 0

/-- The demo message "kiet_demo_sha_rsa_aes" with its newline, transmitted with an
all-zero signature. -/
def forged : Transmitted where
  aesEncryptedMessage i :=
    [0x6b696574, 0x5f64656d, 0x6f5f7368, 0x615f7273, 0x615f6165,
     0x730a0000, 0x00000000, 0x00000000].getD i 0
  keyAesEncrypted _ := 0
  signature _ := 0

def demoScope : Scope where
  ch i :=
    [0x6b, 0x69, 0x65, 0x74, 0x5f, 0x64, 0x65, 0x6d, 0x6f, 0x5f, 0x73,
     0x68, 0x61, 0x5f, 0x72, 0x73, 0x61, 0x5f, 0x61, 0x65, 0x73, 0x0a].getD i 0
  digit i :=
    [0x6b696574, 0x5f64656d, 0x6f5f7368, 0x615f7273, 0x615f6165,
     0x73800000, 0x00000000, 0x00000000].getD i 0
  d _ := 1
  n _ := 1

theorem forged_accepted_not_sound : ¬ Sound transparent forged demoScope ⟨[], 0⟩ fun _ => 0 := by
  intro h
  have haccept : Accepts transparent forged demoScope ⟨[], 0⟩ fun _ => 0 := by
    show receive transparent forged demoScope ⟨[], 0⟩ (fun _ => 0) = some true
    decide +kernel
  obtain ⟨r, hr, hdig⟩ := h haccept
  have hother : ((recoverMessage transparent forged demoScope).bind fun r =>
      (digest transparent r.1 r.2).map fun dig =>
        dig 0 == signedDigest transparent forged demoScope 0) = some false := by
    decide +kernel
  rw [hr] at hother
  simp [hdig] at hother

end SocCrypto.Soft

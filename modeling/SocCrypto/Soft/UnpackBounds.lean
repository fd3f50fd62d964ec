import SocCrypto.Soft.Message

/-!
# Bounds of the unpacking loop

`mem` starts at 21 and is decremented for every byte that is not zero, so the loop stays
in `decryptChar` for 22 such bytes. `getLength` then looks for a newline, which only the
decrypted bytes can have put there.
-/

namespace SocCrypto.Soft

/-! ### Indices of the stores -/

/-- The loop variable `mem` and the indices stored at so far. -/
structure StoreTrace where
  mem : ℤ
  indices : List ℤ
  deriving DecidableEq

/-- One round of the inner loop on the low byte. -/
def StoreTrace.put (s : StoreTrace) (c : Byte) : StoreTrace :=
  if c ≠ 0 then ⟨s.mem - 1, s.indices ++ [s.mem]⟩ else s

def StoreTrace.putWord : ℕ → Word → StoreTrace → StoreTrace
  | 0, _, s => s
  | n + 1, w, s => putWord n (w >>> 8) (s.put (w.setWidth 8))

/-- Every index `decryptChar` is written at. -/
def storeIndices (message : Fin 8 → Word) : List ℤ :=
  ((List.finRange 8).reverse.foldl (fun s i => StoreTrace.putWord 4 (message i) s)
    (⟨21, []⟩ : StoreTrace)).indices

/-- The bytes of a word in the order of the loop. -/
def bytesDown (w : Word) : List Byte := [beByte w 3, beByte w 2, beByte w 1, beByte w 0]

/-- The decrypted bytes in the order of the loop. -/
def messageBytes (message : Fin 8 → Word) : List Byte :=
  (List.finRange 8).reverse.flatMap fun i => bytesDown (message i)

/-- Bytes that are stored. -/
def nonzeroBytes (cs : List Byte) : ℕ := cs.countP (· ≠ 0)

theorem bytesDown_eq (w : Word) : bytesDown w =
    [w.setWidth 8, (w >>> 8).setWidth 8, (w >>> 8 >>> 8).setWidth 8,
      (w >>> 8 >>> 8 >>> 8).setWidth 8] := by
  have h0 : beByte w 3 = w.setWidth 8 := by simp [beByte]
  rw [bytesDown, h0, ← BitVec.shiftRight_add, ← BitVec.shiftRight_add]
  rfl

theorem StoreTrace.putWord_four (w : Word) (s : StoreTrace) :
    StoreTrace.putWord 4 w s = (bytesDown w).foldl StoreTrace.put s := by
  rw [bytesDown_eq]
  rfl

theorem storeIndices_eq_foldl (message : Fin 8 → Word) :
    storeIndices message = ((messageBytes message).foldl StoreTrace.put ⟨21, []⟩).indices := by
  simp only [storeIndices, messageBytes, StoreTrace.putWord_four, List.foldl_flatMap]

theorem nonzeroBytes_cons (c : Byte) (cs : List Byte) :
    nonzeroBytes (c :: cs) = if c ≠ 0 then nonzeroBytes cs + 1 else nonzeroBytes cs := by
  by_cases hc : c = 0
  · rw [nonzeroBytes, List.countP_cons_of_neg (by simp [hc]), if_neg (not_not.mpr hc)]
    rfl
  · rw [nonzeroBytes, List.countP_cons_of_pos (by simpa using hc), if_pos hc]
    rfl

/-- The indices go down from `mem`, one for each byte that is not zero. -/
theorem mem_foldl_put (cs : List Byte) (s : StoreTrace) (i : ℤ) :
    i ∈ (cs.foldl StoreTrace.put s).indices ↔
      i ∈ s.indices ∨ i ≤ s.mem ∧ s.mem < i + nonzeroBytes cs := by
  induction cs generalizing s with
  | nil =>
    have hnone : ¬ (i ≤ s.mem ∧ s.mem < i + nonzeroBytes []) := by
      rw [nonzeroBytes, List.countP_nil]
      omega
    simp [hnone]
  | cons c cs ih =>
    rw [List.foldl_cons, ih, nonzeroBytes_cons]
    by_cases hc : c = 0
    · simp [StoreTrace.put, hc]
    · rw [StoreTrace.put, if_pos hc, if_pos hc]
      simp only [List.mem_append, List.mem_singleton, or_assoc]
      refine or_congr Iff.rfl ?_
      push_cast
      omega

/-! ### The buffer -/

theorem unpack_eq_foldl (message : Fin 8 → Word) : unpack message =
    ((messageBytes message).foldl Unpack.put ⟨21, fun _ => 0⟩).decryptChar := by
  have hword : ∀ (s : Unpack) (i : Fin 8), Unpack.putWord 4 (message i) s =
      (bytesDown (message i)).foldl Unpack.put s := fun s i => putWord_four _ s
  simp only [unpack, messageBytes, hword, List.foldl_flatMap]

/-- As long as the stores stay in the buffer, a newline in it is one of the bytes stored. -/
theorem foldl_put_newline {cs : List Byte} {s : Unpack} (hfit : nonzeroBytes cs ≤ s.mem + 1)
    (hclear : ∀ a : ℕ, a ≤ s.mem → s.decryptChar a ≠ 10) :
    (∃ a, (cs.foldl Unpack.put s).decryptChar a = 10) ↔
      (∃ a, s.decryptChar a = 10) ∨ 10 ∈ cs := by
  induction cs generalizing s with
  | nil => simp
  | cons c cs ih =>
    rw [nonzeroBytes_cons] at hfit
    rw [List.foldl_cons, Unpack.put]
    split at hfit
    · next hc =>
      push_cast at hfit
      have hlow : 0 ≤ s.mem := by omega
      rw [if_pos hc, if_pos hlow]
      have hclear' : ∀ a : ℕ, a ≤ s.mem - 1 →
          Function.update s.decryptChar s.mem.toNat c a ≠ 10 := by
        intro a ha
        rw [Function.update_of_ne (by omega)]
        exact hclear a (by omega)
      rw [ih (by show _ ≤ s.mem - 1 + 1; omega) hclear', List.mem_cons]
      have hstore : (∃ a, Function.update s.decryptChar s.mem.toNat c a = 10) ↔
          (∃ a, s.decryptChar a = 10) ∨ 10 = c := by
        constructor
        · rintro ⟨a, ha⟩
          by_cases heq : a = s.mem.toNat
          · subst heq
            rw [Function.update_self] at ha
            exact Or.inr ha.symm
          · rw [Function.update_of_ne heq] at ha
            exact Or.inl ⟨a, ha⟩
        · rintro (⟨a, ha⟩ | rfl)
          · have hne : a ≠ s.mem.toNat := by
              rintro rfl
              exact hclear _ (by omega) ha
            exact ⟨a, by rw [Function.update_of_ne hne, ha]⟩
          · exact ⟨_, Function.update_self _ _ _⟩
      rw [hstore, or_assoc]
    · next hc =>
      have hzero : c = 0 := not_not.mp hc
      have hne : ¬ (10 : Byte) = c := by
        rw [hzero]
        decide
      rw [if_neg hc, ih hfit hclear, List.mem_cons, or_iff_right hne]

theorem getLengthFrom_isSome {message : Buffer} {n i : ℕ} :
    (getLengthFrom message n i).isSome ↔ ∃ a, i ≤ a ∧ a < i + n ∧ message a = 10 := by
  induction n generalizing i with
  | zero => exact iff_of_false Bool.false_ne_true fun ⟨a, hle, hlt, _⟩ => by omega
  | succ n ih =>
    rw [getLengthFrom]
    by_cases hi : message i = 10
    · rw [if_neg (not_not.mpr hi)]
      exact iff_of_true rfl ⟨i, le_rfl, by omega, hi⟩
    · rw [if_pos hi, ih]
      constructor
      · rintro ⟨a, hle, hlt, ha⟩
        exact ⟨a, by omega, by omega, ha⟩
      · rintro ⟨a, hle, hlt, ha⟩
        have hne : a ≠ i := by
          rintro rfl
          exact hi ha
        exact ⟨a, by omega, by omega, ha⟩

/-- `getLength` stops in the buffer when one of the decrypted bytes is a newline. -/
theorem getLength_unpack {message : Fin 8 → Word}
    (hfew : nonzeroBytes (messageBytes message) ≤ 22) :
    (getLength (unpack message)).isSome ↔ 10 ∈ messageBytes message := by
  have hzero : (0 : Byte) ≠ 10 := by decide
  have hnewline := @foldl_put_newline (messageBytes message) ⟨21, fun _ => 0⟩
    (by show _ ≤ (21 : ℤ) + 1; omega) fun _ _ => hzero
  have hnone : ¬ ∃ a : ℕ, (fun _ : ℕ => (0 : Byte)) a = 10 := by
    rintro ⟨_, ha⟩
    exact hzero ha
  rw [← unpack_eq_foldl, or_iff_right hnone] at hnewline
  rw [getLength, getLengthFrom_isSome, ← hnewline]
  constructor
  · rintro ⟨a, -, -, ha⟩
    exact ⟨a, ha⟩
  · rintro ⟨a, ha⟩
    refine ⟨a, Nat.zero_le a, ?_, ha⟩
    by_contra hfar
    rw [unpack_low message (by simp only [bufferSize] at hfar; omega)] at ha
    exact hzero ha

/-! ### In bounds -/

/-- The loop writes inside `decryptChar`, and `getLength` stops inside it. -/
def InBounds (message : Fin 8 → Word) : Prop :=
  (∀ i ∈ storeIndices message, 0 ≤ i ∧ i < bufferSize) ∧ (getLength (unpack message)).isSome

theorem storeIndices_inside (message : Fin 8 → Word) :
    (∀ i ∈ storeIndices message, 0 ≤ i ∧ i < bufferSize) ↔
      nonzeroBytes (messageBytes message) ≤ 22 := by
  simp only [storeIndices_eq_foldl, mem_foldl_put, List.not_mem_nil, false_or, bufferSize]
  constructor
  · intro h
    by_contra hmany
    have hbelow := (h (-1) (by omega)).1
    omega
  · intro hfew i hi
    omega

/-- At most 22 of the 32 bytes are stored, and a newline is among them. -/
theorem inBounds_iff (message : Fin 8 → Word) :
    InBounds message ↔
      nonzeroBytes (messageBytes message) ≤ 22 ∧ 10 ∈ messageBytes message := by
  rw [InBounds, storeIndices_inside]
  exact and_congr_right getLength_unpack

theorem not_inBounds_letters : ¬ ∀ message, InBounds message := by
  intro h
  have hfew := (storeIndices_inside _).mp (h fun _ => 0x61616161).1
  exact absurd hfew (by decide)

end SocCrypto.Soft

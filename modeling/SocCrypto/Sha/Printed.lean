import SocCrypto.Dma.Memory
import SocCrypto.Sha.Job
import SocCrypto.Soft.KeyText

/-!
# The printed hash

What `SHA_256_Show_Result` prints from the words the controller writes for the digest in the
compressor. The words are printed with `%x`, so a word that begins with zero digits is printed
without them.
-/

namespace SocCrypto.Sha
open Dma Clocked HexText Sha256Function Soft

/-! ### Text of a digest -/

/-- `H[0]` to `H[7]`. -/
def hashWords (h : Hash) : List ℕ := [h.a, h.b, h.c, h.d, h.e, h.f, h.g, h.h].map BitVec.toNat

/-- The 64 digits of a digest. -/
def hashHex (h : Hash) : List Char := (hashWords h).flatMap (fixed 8)

/-- What is printed for it. -/
def hashText (h : Hash) : List Char := (hashWords h).flatMap (printHex 1)

/-- No word begins with a zero digit. -/
def FullWords (h : Hash) : Prop := ∀ n ∈ hashWords h, 2 ^ 28 ≤ n

instance (h : Hash) : Decidable (FullWords h) := by
  unfold FullWords
  infer_instance

theorem hashWords_lt (h : Hash) : ∀ n ∈ hashWords h, n < 16 ^ 8 := by
  intro n hn
  obtain ⟨w, -, rfl⟩ := List.mem_map.mp hn
  exact w.isLt

theorem hashText_eq_hashHex_iff (h : Hash) : hashText h = hashHex h ↔ FullWords h :=
  flatMap_printHex_one_iff (by decide) (hashWords h) (hashWords_lt h)

theorem hashHex_inj {h h' : Hash} (heq : hashHex h = hashHex h') : h = h' := by
  have hlen : (hashWords h).length = (hashWords h').length := rfl
  have hwords := flatMap_fixed_inj hlen (hashWords_lt h) (hashWords_lt h') heq
  rcases h with ⟨a, b, c, d, e, f, g, x⟩
  rcases h' with ⟨a', b', c', d', e', f', g', x'⟩
  simpa [hashWords, BitVec.toNat_inj] using hwords

/-! ### Memory as the processor sees it -/

/-- The mapping of memory from `base` on. -/
def window (base : Word) (mem : Word → Word) : Sdram := fun i => mem (base + BitVec.ofNat 32 (4 * i))

theorem map_resultWord_digestValue (h : Hash) :
    (List.range 8).reverse.map (fun k => (resultWord (digestValue h) k).toNat) = hashWords h := by
  simp [List.range_succ, hashWords, digestValue, resultWord_append_zero, resultWord_append_succ,
    resultWord_self]

theorem sha256ShowResult_window (mem : Word → Word) (base : Word) (n : ℕ) (h : Hash) :
    sha256ShowResult (window base
        (stored mem (digestWrites (base + BitVec.ofNat 32 (4 * n)) h))) (4 * n) =
      "\nHASH SHA_256: ".toList ++ hashText h := by
  generalize hstart : base + BitVec.ofNat 32 (4 * n) = writeStart
  have hwords : ∀ k ∈ (List.range 8).reverse,
      printHex 1 (window base (stored mem (digestWrites writeStart h)) (n + k)).toNat =
        printHex 1 (resultWord (digestValue h) k).toNat := by
    intro k hk
    rw [List.mem_reverse, List.mem_range] at hk
    have haddr : base + BitVec.ofNat 32 (4 * (n + k)) = writeStart + BitVec.ofNat 32 (4 * k) := by
      rw [← hstart, Nat.mul_add, BitVec.ofNat_add, BitVec.add_assoc]
    unfold window
    rw [haddr, ← resultWrites_digestValue]
    exact congrArg (fun w : Word => printHex 1 w.toNat)
      (stored_block mem writeStart (by decide) (resultWord (digestValue h)) hk)
  unfold sha256ShowResult showWords hashText
  rw [Nat.mul_div_cancel_left n (by decide), List.flatMap_congr hwords,
    ← map_resultWord_digestValue, List.flatMap_map]

/-! ### Writing the digest -/

namespace Controller

variable {M : Word → Word} {s : Controller} {i : In} {H : Hash} {writeStart : Word}

/-- The core is done with `H` in its registers, and the controller is out of reset. -/
structure Finished (H : Hash) (writeStart : Word) (s : Controller) : Prop where
  resetn : s.config.resetn = true
  writeStart : s.config.writeStart = writeStart
  shaEnable : s.drain.shaEnable = true
  state : s.core.compressor.state = .done
  digest : s.core.compressor.H = H

theorem Finished.oDone (h : s.Finished H writeStart) : s.core.oDone = true := by
  unfold Core.oDone Compressor.oDone
  rw [h.state]
  rfl

theorem Finished.oHashValue (h : s.Finished H writeStart) :
    s.core.oHashValue = digestValue H := by
  have hdone : s.core.compressor.oDone = true := h.oDone
  unfold Core.oHashValue Compressor.oHashDigit
  rw [if_pos hdone, h.digest]
  rfl

theorem Assembler.shaEnable_next {d : Assembler} (h : d.shaEnable = true) (empty : Bool)
    (data : Word) (readBlock : Bool) : (d.next true empty data readBlock).shaEnable = true := by
  unfold Assembler.next
  rw [if_neg (by decide)]
  cases d.state with
  | poll => simp only; split <;> exact h
  | request => exact h
  | store => simp only; split <;> first | rfl | exact h
  | offer => simp only; split <;> exact h

theorem Finished.step (h : s.Finished H writeStart) (hcpu : i.cpu = none) :
    (s.step M i).Finished H writeStart := by
  have hconfig : (s.step M i).config = s.config := by
    rw [step_config, hcpu]
    exact ite_self _
  have hcore : (s.step M i).core.compressor = s.core.compressor := by
    rw [step_core]
    split
    · show s.core.compressor.next s.drain.shaEnable _ _ _ = _
      unfold Compressor.next
      rw [h.shaEnable, if_neg (by decide), h.state]
    · rfl
  refine ⟨by rw [hconfig, h.resetn], by rw [hconfig, h.writeStart], ?_, by rw [hcore, h.state],
    by rw [hcore, h.digest]⟩
  rw [step_drain, h.resetn]
  split
  · exact Assembler.shaEnable_next h.shaEnable _ _ _
  · exact h.shaEnable

/-- `k` words of the digest have been written since the log was `before`. -/
structure Writing (H : Hash) (writeStart : Word) (before : List (Word × Word)) (s : Controller) :
    Prop where
  finished : s.Finished H writeStart
  sent : ∃ k, s.write.Sent writeStart (digestValue H) k ∧
    s.writes = before ++ resultWrites writeStart (digestValue H) k

theorem Writing.step {before : List (Word × Word)} (h : s.Writing H writeStart before)
    (hcpu : i.cpu = none) : (s.step M i).Writing H writeStart before := by
  obtain ⟨k, hsent, hwrites⟩ := h.sent
  refine ⟨h.finished.step hcpu, ?_⟩
  cases hclk : i.clk
  · refine ⟨k, ?_, ?_⟩
    · rw [step_write, hclk]
      exact hsent
    · rw [step_writes, hclk]
      exact hwrites
  · refine ⟨if s.write.moves i.waitWrite then k + 1 else k, ?_, ?_⟩
    · rw [step_write, if_pos hclk, h.finished.resetn, h.finished.oDone, h.finished.oHashValue,
        endAddressWrite, h.finished.writeStart]
      exact hsent.next (by decide) true i.waitWrite
    · rw [step_writes, hclk, Bool.true_and, hwrites, ← hsent.resultWrites_next]
      split
      · exact List.append_assoc _ _ _
      · rfl

theorem Writing.run {before : List (Word × Word)} (h : s.Writing H writeStart before)
    {i : ℕ → In} (hcpu : ∀ t, (i t).cpu = none) (t : ℕ) :
    (Clocked.run (Controller.step M) s i t).Writing H writeStart before := by
  induction t with
  | zero => exact h
  | succ t ih =>
    rw [run_last]
    exact ih.step (hcpu t)

/-- When the eight words are written, what is printed for them is the hash in hexadecimal
exactly when no word of it begins with a zero digit, and among such hashes no two look alike. -/
theorem showResult_standard_iff (M : Word → Word) (s : Controller) (i : ℕ → In) (T n : ℕ)
    (H : Hash) (base : Word) (mem : Word → Word)
    (hs : s.Finished H (base + BitVec.ofNat 32 (4 * n)))
    (hidle : s.write.state = .start ∧ s.write.oWrite = false) (hcpu : ∀ t, (i t).cpu = none)
    (hwritten : (Clocked.run (step M) s i T).writes.length = s.writes.length + 8) :
    let text := sha256ShowResult
      (window base (stored mem (Clocked.run (step M) s i T).writes)) (4 * n)
    (text = "\nHASH SHA_256: ".toList ++ hashHex H ↔ FullWords H) ∧
      (FullWords H → ∀ H', FullWords H' →
        text = "\nHASH SHA_256: ".toList ++ hashText H' → H = H') := by
  have hstart : s.Writing H (base + BitVec.ofNat 32 (4 * n)) s.writes := by
    refine ⟨hs, 0, ⟨Nat.zero_le _, ?_, fun _ => rfl, fun h0 => ?_, ?_, ?_, ?_⟩, ?_⟩
    · rw [hidle.2, hidle.1]
      rfl
    · cases h0
    · exact fun hne => absurd hidle.1 hne
    · exact fun hne => absurd hidle.1 hne
    · exact fun hne => absurd hidle.1 hne
    · exact (List.append_nil _).symm
  obtain ⟨k, -, hwrites⟩ := (hstart.run hcpu T).sent
  have hk : k = 8 := by
    rw [hwrites, List.length_append, resultWrites, List.length_map, List.length_range] at hwritten
    omega
  rw [hk, resultWrites_digestValue] at hwrites
  simp only [hwrites, stored_append, sha256ShowResult_window, List.append_cancel_left_eq]
  refine ⟨hashText_eq_hashHex_iff H, fun hH H' hH' htext => ?_⟩
  rw [(hashText_eq_hashHex_iff H).mpr hH, (hashText_eq_hashHex_iff H').mpr hH'] at htext
  exact hashHex_inj htext

/-- The core of `powerUp` done with the digest `H`, the write address 12000 set. -/
def holding (H : Hash) : Controller :=
  { powerUp with
    config := ⟨3, 0, 12000, 64⟩
    drain := { powerUp.drain with shaEnable := true }
    core := { powerUp.core with compressor := ⟨H, H, .done, 0, 0⟩ } }

theorem holding_finished (H : Hash) : (holding H).Finished H (0 + BitVec.ofNat 32 (4 * 3000)) :=
  ⟨show Config.resetn ⟨3, 0, 12000, 64⟩ = true by decide, rfl, rfl, rfl, rfl⟩

/-- Both clocks, no register write, a bus that takes every word at once. -/
def quietBus : ℕ → In := fun _ => ⟨true, true, none, true, false, false⟩

/-- Words that all begin with a one. -/
def fullHash : Hash := ⟨2 ^ 28, 2 ^ 28, 2 ^ 28, 2 ^ 28, 2 ^ 28, 2 ^ 28, 2 ^ 28, 2 ^ 28⟩

/-- What is printed once they are written. -/
def printed (H : Hash) : List Char :=
  sha256ShowResult (window 0 (stored (fun _ => 0)
    (Clocked.run (step id) (holding H) quietBus 25).writes)) (4 * 3000)

theorem showResult_standard_full :
    printed fullHash = "\nHASH SHA_256: ".toList ++ hashHex fullHash :=
  (showResult_standard_iff id (holding fullHash) quietBus 25 3000 fullHash 0 (fun _ => 0)
    (holding_finished _) ⟨rfl, rfl⟩ (fun _ => rfl) (by decide +kernel)).1.mpr (by decide)

/-- `H[0]` is 1 and `H[1]` is 0x11, or the other way round. -/
def lookalikes : Hash × Hash :=
  (⟨1, 0x11, 2 ^ 28, 2 ^ 28, 2 ^ 28, 2 ^ 28, 2 ^ 28, 2 ^ 28⟩,
    ⟨0x11, 1, 2 ^ 28, 2 ^ 28, 2 ^ 28, 2 ^ 28, 2 ^ 28, 2 ^ 28⟩)

/-- Two digests are printed alike, and not as the 64 digits of the first. -/
theorem showResult_lookalikes :
    lookalikes.1 ≠ lookalikes.2 ∧ printed lookalikes.1 = printed lookalikes.2 ∧
      printed lookalikes.1 ≠ "\nHASH SHA_256: ".toList ++ hashHex lookalikes.1 := by
  have hwrites₁ : (Clocked.run (step id) (holding lookalikes.1) quietBus 25).writes =
      digestWrites (0 + BitVec.ofNat 32 (4 * 3000)) lookalikes.1 := by decide +kernel
  have hwrites₂ : (Clocked.run (step id) (holding lookalikes.2) quietBus 25).writes =
      digestWrites (0 + BitVec.ofNat 32 (4 * 3000)) lookalikes.2 := by decide +kernel
  unfold printed
  rw [hwrites₁, hwrites₂, sha256ShowResult_window, sha256ShowResult_window]
  decide

end Controller

end SocCrypto.Sha

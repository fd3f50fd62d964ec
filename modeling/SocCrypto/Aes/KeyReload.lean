import SocCrypto.Aes.KeyLoad

/-!
# Key loads beside the blocks

A block reads round key `r` in the cycle `2 * r` after its start, and a key load rewrites the
key RAMs while it expands: word `j` of encryption entry `r` in its cycle `9 * r + j`, the
decryption entries from the other end. `Governs` says when every round key a block reads is
still that of the last load which was over at its start.
-/

namespace SocCrypto.Aes
open AesFunction (Block roundKey inverseRoundKey encrypt layers)
open Clocked

/-! ### Entries not yet rewritten -/

namespace Makekey.Control

theorem hitsKe_early : ∀ r < 11, ∀ a < (if r = 0 then 2 else 9 * r), ∀ j,
    (age a).hitsKe (BitVec.ofNat 4 r) j = false := by
  decide +kernel

theorem hitsKd_early : ∀ a < 2, ∀ r < 11, ∀ j,
    (age a).hitsKd (BitVec.ofNat 4 r) j = false := by
  decide +kernel

end Makekey.Control

namespace Core
open Makekey (Control)

/-- Where a load `a` cycles ago has not written yet, the key RAMs are as they were then. -/
structure Replacing (ke kd : BitVec 4 → Block) (a : ℕ) (s : Core) : Prop where
  ke : ∀ r j, (∀ b < a, (Control.age b).hitsKe r j = false) →
    lane (s.cipher.ke.mem r) j = lane (ke r) j
  kd : ∀ r j, (∀ b, b + 1 < a → (Control.age b).hitsKd r j = false) →
    lane (s.cipher.kd.mem r) j = lane (kd r) j

theorem Replacing.start (s : Core) : s.Replacing s.cipher.ke.mem s.cipher.kd.mem 0 :=
  ⟨fun _ _ _ => rfl, fun _ _ _ => rfl⟩

theorem Replacing.next {ke kd : BitVec 4 → Block} {a : ℕ} {s : Core} (h : s.Replacing ke kd a)
    (hke : ∀ r j, s.cipher.makekey.oRAMKe.hits r j = (Control.age a).hitsKe r j)
    (hkd : ∀ r j, s.cipher.makekey.oRAMKd.hits r j = (Control.age (a - 1)).hitsKd r j)
    (i : In) : (s.next i).Replacing ke kd (a + 1) := by
  constructor
  · intro r j hno
    show lane (KeyRam.store s.cipher.ke.mem s.cipher.makekey.oRAMKe r) j = _
    rw [lane_store, hke, hno a (Nat.lt_succ_self a)]
    exact h.ke r j fun b hb => hno b (by omega)
  · intro r j hno
    show lane (KeyRam.store s.cipher.kd.mem s.cipher.makekey.oRAMKd r) j = _
    have hnow : (Control.age (a - 1)).hitsKd r j = false := by
      rcases Nat.eq_zero_or_pos a with rfl | hpos
      · rfl
      · exact hno (a - 1) (by omega)
    rw [lane_store, hkd, hnow]
    exact h.kd r j fun b hb => hno b (by omega)

theorem Loaded.hits {e : Bool} {K : Block} {a : ℕ} {s : Core} (h : s.Loaded e K a) (ha : a ≤ 95) :
    (∀ r j, s.cipher.makekey.oRAMKe.hits r j = (Control.age a).hitsKe r j) ∧
      ∀ r j, s.cipher.makekey.oRAMKd.hits r j = (Control.age (a - 1)).hitsKd r j := by
  have hexp := h.expanding ha
  refine ⟨fun r j => ?_, hexp.kdHits⟩
  rw [Makekey.oRAMKe_hits hexp.firstAddr, hexp.control]

end Core

/-! ### Loads of a run -/

namespace Qsys

/-- Register 0 holds a 3: the pulse on `enable` follows. -/
def armed (s : Qsys) : Bool := (s.ram 0).getLsbD 0 && (s.ram 0).getLsbD 1

/-- A load begins in cycle `A`: a 3 stands in register 0, and there was none for three cycles. -/
structure Begins (x : ℕ → Qsys) (A : ℕ) : Prop where
  armed : (x A).armed = true
  first : ∀ u < A, (x u).armed = true → u + 4 ≤ A

/-- A load begins in cycle `A` with the expansion idle, and up to cycle `T` every load keeps its
key and mode while it is taken up and begins when the one before it is over. -/
structure Orderly (x : ℕ → Qsys) (A T : ℕ) : Prop where
  begins : Begins x A
  idle : (x (A + 1)).aesFifo.aes.cipher.makekey.Idle
  held : ∀ u, A ≤ u → u < T → (x u).armed = true →
    ∃ A', A ≤ A' ∧ A' ≤ u ∧ u < A' + 4 ∧ Begins x A' ∧
      (x (u + 1)).keyData = (x A').keyData ∧ (x (u + 1)).mode = (x A').mode
  apart : ∀ A₁ A₂, A ≤ A₁ → A₁ < A₂ → A₂ < T → Begins x A₁ → Begins x A₂ → A₁ + 95 ≤ A₂

/-- The last load that has been taken up by cycle `u`. -/
structure Last (x : ℕ → Qsys) (u A : ℕ) : Prop where
  begins : Begins x A
  taken : A + 2 ≤ u
  last : ∀ A', Begins x A' → A' + 2 ≤ u → A' ≤ A

section
variable {x : ℕ → Qsys} {j : ℕ → In} {A T u : ℕ}

theorem enable_succ (hx : ∀ t, x (t + 1) = (x t).next (j t)) (t : ℕ) :
    (x (t + 1)).enable = (x t).armed := by
  rw [hx]
  rfl

/-- The last load decides the state of the core. -/
theorem Orderly.loaded (h : Orderly x A T) (hx : ∀ t, x (t + 1) = (x t).next (j t))
    (hu : A + 2 ≤ u) (hT : u ≤ T) :
    ∃ A', A ≤ A' ∧ Last x u A' ∧
      (x u).aesFifo.aes.Loaded (x A').mode (x A').keyData (u - A' - 1) := by
  induction u, hu using Nat.le_induction with
  | base =>
    obtain ⟨A', hle, hge, -, -, hkey, hmode⟩ := h.held A le_rfl (by omega) h.begins.armed
    obtain rfl : A' = A := by omega
    refine ⟨A', le_rfl, ⟨h.begins, le_rfl, fun A'' _ hA'' => by omega⟩, ?_⟩
    have hload : (x (A' + 1)).enable = true := (enable_succ hx A').trans h.begins.armed
    have hloaded := Core.loaded_of_load h.idle
      (i := (x (A' + 1)).aesFifo.aesIn (x (A' + 1)).aesFifoIn) hload hload
    rw [← hkey, ← hmode, hx (A' + 1), show A' + 1 + 1 - A' - 1 = 1 by omega]
    exact hloaded
  | succ u hu ih =>
    obtain ⟨A', hle, hlast, hloaded⟩ := ih (by omega)
    have htaken := hlast.taken
    have hpulse : (x u).enable = (x (u - 1)).armed := by
      obtain ⟨v, rfl⟩ : ∃ v, u = v + 1 := ⟨u - 1, by omega⟩
      exact enable_succ hx v
    rw [hx u]
    cases harm : (x (u - 1)).armed with
    | false =>
      rw [harm] at hpulse
      refine ⟨A', hle, ⟨hlast.begins, by omega, fun A'' hA'' htwo => ?_⟩, ?_⟩
      · by_cases hnew : A'' + 2 ≤ u
        · exact hlast.last A'' hA'' hnew
        · have hnow := hA''.armed
          rw [show A'' = u - 1 by omega, harm] at hnow
          cases hnow
      · have hnext := hloaded.next (i := (x u).aesFifo.aesIn (x u).aesFifoIn) (by omega) rfl
          (fun hup => absurd (hpulse.symm.trans hup) Bool.false_ne_true)
        rw [show u + 1 - A' - 1 = u - A' - 1 + 1 by omega]
        exact hnext
    | true =>
      rw [harm] at hpulse
      obtain ⟨A₁, hle₁, hbefore, hclose, hbegins, hkey, hmode⟩ :=
        h.held (u - 1) (by omega) (by omega) harm
      rw [show u - 1 + 1 = u by omega] at hkey hmode
      by_cases hnew : A₁ = u - 1
      · -- the expansion before is over
        have hspace := h.apart A' A₁ hle (by omega) (by omega) hlast.begins hbegins
        have hfresh := Core.loaded_of_load (hloaded.idle (by omega))
          (i := (x u).aesFifo.aesIn (x u).aesFifoIn) hpulse hpulse
        refine ⟨A₁, hle₁, ⟨hbegins, by omega, fun A'' _ _ => by omega⟩, ?_⟩
        rw [← hkey, ← hmode, show u + 1 - A₁ - 1 = 1 by omega]
        exact hfresh
      · -- the pulse of the last load is still up
        have hsame : A₁ = A' := by
          have hmost := hlast.last A₁ hbegins (by omega)
          by_contra hne
          have hspace := h.apart A₁ A' hle₁ (by omega) (by omega) hbegins hlast.begins
          omega
        subst hsame
        have hnext := hloaded.next (i := (x u).aesFifo.aesIn (x u).aesFifoIn) (by omega) rfl
          (fun _ => ⟨by omega, hkey, hmode⟩)
        refine ⟨A₁, hle, ⟨hbegins, by omega, fun A'' hA'' htwo => ?_⟩, ?_⟩
        · by_cases hold : A'' + 2 ≤ u
          · exact hlast.last A'' hA'' hold
          · have hgap := hA''.first A₁ (by omega) hbegins.armed
            omega
        · rw [show u + 1 - A₁ - 1 = u - A₁ - 1 + 1 by omega]
          exact hnext

/-- A load that begins behind another finds its round keys in the RAMs. -/
theorem Orderly.before (h : Orderly x A T) (hx : ∀ t, x (t + 1) = (x t).next (j t)) {A' : ℕ}
    (hA' : A < A') (hT : A' < T) (hbegins : Begins x A') :
    (x (A' + 1)).aesFifo.aes.cipher.makekey.Idle ∧
      ∃ A₀, A ≤ A₀ ∧ A₀ + 95 ≤ A' ∧ Begins x A₀ ∧
        Makekey.Holds (x A₀).keyData (x (A' + 1)).aesFifo.aes.cipher.ke.mem
          (x (A' + 1)).aesFifo.aes.cipher.kd.mem := by
  obtain ⟨A₀, hle, hlast, hloaded⟩ := h.loaded hx (u := A' + 1) (by omega) (by omega)
  have htaken := hlast.taken
  have hspace := h.apart A₀ A' hle (by omega) hT hlast.begins hbegins
  exact ⟨hloaded.idle (by omega), A₀, hle, hspace, hlast.begins, hloaded.holds (by omega)⟩

/-- While it expands it rewrites the RAMs of its beginning. -/
theorem Orderly.replacing (h : Orderly x A T) (hx : ∀ t, x (t + 1) = (x t).next (j t)) {A' : ℕ}
    (hA' : A < A') (hbegins : Begins x A') {a : ℕ} (ha : a ≤ 95) (hT : A' + 1 + a ≤ T) :
    (x (A' + 1 + a)).aesFifo.aes.Replacing (x (A' + 1)).aesFifo.aes.cipher.ke.mem
      (x (A' + 1)).aesFifo.aes.cipher.kd.mem a := by
  induction a with
  | zero => exact Core.Replacing.start _
  | succ a ih =>
    have hbefore := ih (by omega) (by omega)
    have hnext := fun hke hkd => hbefore.next hke hkd
      ((x (A' + 1 + a)).aesFifo.aesIn (x (A' + 1 + a)).aesFifoIn)
    rw [← Nat.add_assoc, hx (A' + 1 + a)]
    rcases Nat.eq_zero_or_pos a with rfl | hpos
    · have hidle := (h.before hx hA' (by omega) hbegins).1
      exact hnext (fun r j => (hidle.hits r j).1) (fun r j => hidle.kdHits r j)
    · obtain ⟨A₂, hle, hlast, hloaded⟩ := h.loaded hx (u := A' + 1 + a) (by omega) (by omega)
      have htaken := hlast.taken
      have hmost := hlast.last A' hbegins (by omega)
      have hsame : A₂ = A' := by
        by_contra hne
        have hspace := h.apart A' A₂ (by omega) (by omega) (by omega) hbegins hlast.begins
        omega
      rw [hsame, show A' + 1 + a - A' - 1 = a by omega] at hloaded
      obtain ⟨hke, hkd⟩ := hloaded.hits (by omega)
      exact hnext hke hkd

end

/-! ### Round keys of a block -/

/-- The entry of the key RAM of mode `e`. -/
def keyEntry (e : Bool) (s : Qsys) (r : ℕ) : Block :=
  if e then s.aesFifo.aes.cipher.kd.mem (BitVec.ofNat 4 r)
  else s.aesFifo.aes.cipher.ke.mem (BitVec.ofNat 4 r)

/-- The round keys of key `K` in mode `e`. -/
def keyOf (e : Bool) (K : Block) (r : ℕ) : Block :=
  if e then inverseRoundKey K r else roundKey K r

theorem cipher_keyOf (e : Bool) (K b : Block) : (layersOf e).cipher 10 (keyOf e K) b = aes e K b := by
  cases e <;> rfl

theorem keyEntry_of_holds {e : Bool} {K : Block} {s : Qsys}
    (h : Makekey.Holds K s.aesFifo.aes.cipher.ke.mem s.aesFifo.aes.cipher.kd.mem) {r : ℕ}
    (hr : r ≤ 10) : keyEntry e s r = keyOf e K r := by
  cases e
  · exact (h r hr).1
  · exact (h r hr).2

/-- The load that begins in cycle `A` governs the block that starts in cycle `t`: it is over, and
a load behind it keeps the mode and begins late enough for the block. -/
structure Governs (x : ℕ → Qsys) (A t : ℕ) : Prop extends Orderly x A (t + 20) where
  complete : A + 97 ≤ t
  clear : ∀ A', A < A' → A' < t + 20 → Begins x A' →
    (x A').mode = (x A).mode ∧ if (x A).mode then t + 16 ≤ A' else t ≤ A' + 3

section
variable {x : ℕ → Qsys} {j : ℕ → In} {A t : ℕ}

theorem Governs.alone (h : Governs x A t) {A₁ A₂ : ℕ} (h₁ : A < A₁) (h₂ : A₁ + 95 ≤ A₂)
    (ht : A₂ < t + 20) : ¬ Begins x A₁ := by
  intro hbegins
  have hclear := (h.clear A₁ h₁ (by omega) hbegins).2
  split at hclear <;> omega

theorem Governs.mode_eq (h : Governs x A t) {A' : ℕ} (hle : A ≤ A') (hlt : A' < t + 20)
    (hbegins : Begins x A') : (x A').mode = (x A).mode := by
  rcases Nat.lt_or_eq_of_le hle with hmore | rfl
  · exact (h.clear A' hmore hlt hbegins).1
  · rfl

/-- Round key `r` is in its place in the cycle in which it is read. -/
theorem Governs.key (h : Governs x A t) (hx : ∀ t, x (t + 1) = (x t).next (j t)) {r : ℕ}
    (hr : r < 11) :
    keyEntry (x A).mode (x (t + 2 * r)) r = keyOf (x A).mode (x A).keyData r := by
  have hcomplete := h.complete
  obtain ⟨A', hle, hlast, hloaded⟩ := h.loaded hx (u := t + 2 * r) (by omega) (by omega)
  have htaken := hlast.taken
  rcases Nat.lt_or_eq_of_le hle with hmore | rfl
  · -- the entry is not rewritten yet, and the keys before are those of the load
    have hclear := (h.clear A' hmore (by omega) hlast.begins).2
    obtain ⟨-, A₀, hle₀, hspace, hbegins₀, hholds⟩ := h.before hx hmore (by omega) hlast.begins
    have hsame : A₀ = A := by
      by_contra hne
      exact h.alone (by omega) hspace (by omega) hbegins₀
    subst hsame
    rw [← keyEntry_of_holds hholds (by omega)]
    obtain ⟨a, ha⟩ : ∃ a, t + 2 * r = A' + 1 + a := ⟨t + 2 * r - A' - 1, by omega⟩
    cases hmode : (x A₀).mode with
    | false =>
      simp only [hmode, Bool.false_eq_true, if_false] at hclear
      have hold := h.replacing hx hmore hlast.begins (a := a) (by omega) (by omega)
      rw [ha]
      refine lane_ext fun j => hold.ke _ j fun b hb => ?_
      refine Makekey.Control.hitsKe_early r hr b ?_ j
      split <;> omega
    | true =>
      simp only [hmode, if_true] at hclear
      have hold := h.replacing hx hmore hlast.begins (a := a) (by omega) (by omega)
      rw [ha]
      refine lane_ext fun j => hold.kd _ j fun b hb => ?_
      exact Makekey.Control.hitsKd_early b (by omega) r hr j
  · exact keyEntry_of_holds (hloaded.holds (by omega)) (by omega)

end

/-! ### The block beside the loads -/

section
variable {s : Qsys} {i : ℕ → In} {e : Bool} {k : ℕ → Block} {t : ℕ}

/-- A block in a run meets the entries of the key RAM in the cycles in which it reads them. -/
theorem AfterReset.inFlight (h : s.AfterReset) (hstart : (coreAt s i t).start = true)
    (hready : (coreAt s i t).cipher.endec.Ready e)
    (hmode : ∀ a < 21, (run next s i (t + a)).enable = true → (run next s i (t + a)).mode = e)
    (hkeys : ∀ r < 11, keyEntry e (run next s i (t + 2 * r)) r = k r) {a : ℕ} (ha : a ≤ 21) :
    InFlight e k (coreAt s i t).bufferIN a (coreAt s i (t + a)).cipher.endec
      ((coreAt s i (t + a)).cipher.endec.ramData (coreAt s i (t + a)).cipher.ke.q
        (coreAt s i (t + a)).cipher.kd.q) := by
  induction a with
  | zero => exact hready.inFlight _ _ _
  | succ a ih =>
    have hbefore := ih (by omega)
    have hphase := h.phaseAt_add ((h.start_iff t).mp hstart) (k := a) (by omega)
    have hvalid : (coreAt s i (t + a)).start = (a == 0) := by
      rw [(h.phase_run (t + a)).start, hphase]
      rfl
    have hin : a = 0 → (coreAt s i (t + a)).bufferIN = (coreAt s i t).bufferIN := by
      rintro rfl
      rfl
    have hmem : ∀ r < 11, a = 2 * r →
        (if e then (coreAt s i (t + a)).cipher.kd.mem (BitVec.ofNat 4 r)
          else (coreAt s i (t + a)).cipher.ke.mem (BitVec.ofNat 4 r)) = k r := by
      rintro r hr rfl
      exact hkeys r hr
    have hstep := hbefore.step (by omega) (hmode a (by omega)) hin
      (fun b => if e then (coreAt s i (t + a)).cipher.kd.mem b
        else (coreAt s i (t + a)).cipher.ke.mem b) hmem
    rw [← hvalid] at hstep
    have hq : (coreAt s i (t + a + 1)).cipher.endec.ramData (coreAt s i (t + a + 1)).cipher.ke.q
        (coreAt s i (t + a + 1)).cipher.kd.q =
        if e then (coreAt s i (t + a)).cipher.kd.mem (coreAt s i (t + a)).cipher.endec.oRAMAddr
        else (coreAt s i (t + a)).cipher.ke.mem (coreAt s i (t + a)).cipher.endec.oRAMAddr := by
      have hsame : (coreAt s i (t + a + 1)).cipher.endec.endec = e := hstep.endec
      rw [Endec.ramData, hsame]
      rfl
    rw [← Nat.add_assoc, hq]
    exact hstep

/-- The four words of a block are enciphered under the round keys it has read. -/
theorem AfterReset.words (h : s.AfterReset) (hstart : (coreAt s i t).start = true)
    (hready : (coreAt s i t).cipher.endec.Ready e)
    (hmode : ∀ a < 21, (run next s i (t + a)).enable = true → (run next s i (t + a)).mode = e)
    (hkeys : ∀ r < 11, keyEntry e (run next s i (t + 2 * r)) r = k r) {j : ℕ} (hj : j < 4) :
    (coreAt s i (t + 23 + j)).oFFOutWriteReq = true ∧
      (coreAt s i (t + 23 + j)).oFFOutData =
        getWord ((layersOf e).cipher 10 k (coreAt s i t).bufferIN) (BitVec.ofNat 3 j) := by
  have hwrites := h.writes ((h.start_iff t).mp hstart) (i := i) hj
  have hout := (h.inFlight hstart hready hmode hkeys (a := 21) le_rfl).oData
  have hdata : (coreAt s i (t + 21)).cipher.oData =
      (layersOf e).cipher 10 k (coreAt s i t).bufferIN := hout
  rw [hdata] at hwrites
  exact hwrites

end

/-- The block that starts in cycle `t` leaves under the last key whose expansion was over then. -/
def UnderLatestKey (s : Qsys) (i : ℕ → In) (t : ℕ) : Prop :=
  ∃ A, Begins (run next s i) A ∧ A + 97 ≤ t ∧
    (∀ A', Begins (run next s i) A' → A' + 97 ≤ t → A' ≤ A) ∧
    ∀ j < 4, (coreAt s i (t + 23 + j)).oFFOutWriteReq = true ∧
      (coreAt s i (t + 23 + j)).oFFOutData =
        getWord (aes (run next s i A).mode (run next s i A).keyData (coreAt s i t).bufferIN)
          (BitVec.ofNat 3 j)

theorem underLatestKey_of_governs {s : Qsys} (h : s.AfterReset) (i : ℕ → In) {A t : ℕ}
    (hstart : (coreAt s i t).start = true) (hgoverns : Governs (run next s i) A t) :
    UnderLatestKey s i t := by
  have hx : ∀ u, run next s i (u + 1) = (run next s i u).next (i u) := fun _ => rfl
  have hcomplete := hgoverns.complete
  obtain ⟨A', hle, hlast, hloaded⟩ := hgoverns.loaded hx (u := t) (by omega) (by omega)
  have htaken := hlast.taken
  have hsame := hgoverns.mode_eq hle (by omega) hlast.begins
  have hphase := h.phase_run (i := i) t
  rw [(h.start_iff t).mp hstart] at hphase
  have hready : (coreAt s i t).cipher.endec.Ready (run next s i A).mode :=
    ⟨hloaded.endec.trans hsame, hloaded.blockEndec.trans hsame, hloaded.round, hphase.control⟩
  have hmode : ∀ a < 21, (run next s i (t + a)).enable = true →
      (run next s i (t + a)).mode = (run next s i A).mode := by
    intro a ha hup
    obtain ⟨u, hu⟩ : ∃ u, t + a = u + 1 := ⟨t + a - 1, by omega⟩
    rw [hu] at hup ⊢
    have harm : (run next s i u).armed = true := (enable_succ hx u).symm.trans hup
    obtain ⟨A₁, hle₁, hbefore, -, hbegins, -, hpulse⟩ := hgoverns.held u (by omega) (by omega) harm
    exact hpulse.trans (hgoverns.mode_eq hle₁ (by omega) hbegins)
  refine ⟨A, hgoverns.begins, hcomplete, fun A₁ hA₁ hover => ?_, fun j hj => ?_⟩
  · by_contra hlate
    have hclear := (hgoverns.clear A₁ (by omega) (by omega) hA₁).2
    split at hclear <;> omega
  · have hwords := h.words hstart hready hmode (fun r hr => hgoverns.key hx hr) hj
    rw [cipher_keyOf] at hwords
    exact hwords

/-! ### The block under two keys -/

/-- Two encryption loads, and a start from the third to the seventh cycle of the second. -/
structure Overtakes (x : ℕ → Qsys) (A A' t : ℕ) : Prop extends Orderly x A (t + 20) where
  behind : A < A'
  second : Begins x A'
  only : ∀ A₁, A ≤ A₁ → A₁ < t + 20 → Begins x A₁ → A₁ = A ∨ A₁ = A'
  near : A' + 4 ≤ t ∧ t ≤ A' + 8
  modes : (x A).mode = false ∧ (x A').mode = false

section
variable {x : ℕ → Qsys} {j : ℕ → In} {A A' t : ℕ}

theorem Overtakes.loaded_second (h : Overtakes x A A' t)
    (hx : ∀ t, x (t + 1) = (x t).next (j t)) :
    (x t).aesFifo.aes.Loaded false (x A').keyData (t - A' - 1) := by
  have hnear := h.near
  have hbehind := h.behind
  obtain ⟨A₁, hle, hlast, hloaded⟩ := h.loaded hx (u := t) (by omega) (by omega)
  have htaken := hlast.taken
  have hmost := hlast.last A' h.second (by omega)
  have hsame : A₁ = A' := by
    rcases h.only A₁ hle (by omega) hlast.begins with rfl | hsame
    · omega
    · exact hsame
  rw [hsame, h.modes.2] at hloaded
  exact hloaded

theorem Overtakes.key (h : Overtakes x A A' t) (hx : ∀ t, x (t + 1) = (x t).next (j t)) {r : ℕ}
    (hr : r < 11) :
    keyEntry false (x (t + 2 * r)) r =
      if r = 0 then (x A').keyData else roundKey (x A).keyData r := by
  have hnear := h.near
  have hbehind := h.behind
  split
  · next hzero =>
    subst hzero
    have hfilled := ((h.loaded_second hx).expanding (by omega)).keFilled 0
    exact lane_ext fun j => hfilled j ⟨2, by omega, (Makekey.covered 0 (by omega) j).1⟩
  · next hpos =>
    obtain ⟨-, A₀, hle, hspace, hbegins₀, hholds⟩ :=
      h.before hx hbehind (by omega) h.second
    have hsame : A₀ = A := by
      rcases h.only A₀ hle (by omega) hbegins₀ with hsame | rfl
      · exact hsame
      · omega
    subst hsame
    obtain ⟨a, ha⟩ : ∃ a, t + 2 * r = A' + 1 + a := ⟨t + 2 * r - A' - 1, by omega⟩
    have hold := h.replacing hx hbehind h.second (a := a) (by omega) (by omega)
    rw [ha, ← (hholds r (by omega)).1]
    refine lane_ext fun j => hold.ke _ j fun b hb => ?_
    refine Makekey.Control.hitsKe_early r hr b ?_ j
    rw [if_neg hpos]
    omega

end

/-- With another first round key the block is one that has met both. -/
theorem cipher_overtaken (K K' b : Block) :
    (layersOf false).cipher 10 (fun r => if r = 0 then K' else roundKey K r) b =
      aes false K ((b.addKey K').addKey K) := by
  rw [← cipher_keyOf]
  apply (layersOf false).cipher_whitened (by omega)
  · rw [addKey_layersOf, addKey_layersOf, if_pos rfl]
    exact (layers.addKey_addKey (b.addKey K') K).symm
  · exact fun r _ hpos => if_neg (by omega)

/-- Such a block is enciphered under the first key after it has met both. -/
theorem AfterReset.words_overtaken {s : Qsys} (h : s.AfterReset) {i : ℕ → In} {A A' t : ℕ}
    (hstart : (coreAt s i t).start = true) (hboth : Overtakes (run next s i) A A' t) {j : ℕ}
    (hj : j < 4) :
    (coreAt s i (t + 23 + j)).oFFOutData =
      getWord (aes false (run next s i A).keyData
        (((coreAt s i t).bufferIN.addKey (run next s i A').keyData).addKey
          (run next s i A).keyData)) (BitVec.ofNat 3 j) := by
  have hx : ∀ u, run next s i (u + 1) = (run next s i u).next (i u) := fun _ => rfl
  have hnear := hboth.near
  have hbehind := hboth.behind
  have hloaded := hboth.loaded_second hx
  have hphase := h.phase_run (i := i) t
  rw [(h.start_iff t).mp hstart] at hphase
  have hready : (coreAt s i t).cipher.endec.Ready false :=
    ⟨hloaded.endec, hloaded.blockEndec, hloaded.round, hphase.control⟩
  have hmode : ∀ a < 21, (run next s i (t + a)).enable = true →
      (run next s i (t + a)).mode = false := by
    intro a ha hup
    obtain ⟨u, hu⟩ : ∃ u, t + a = u + 1 := ⟨t + a - 1, by omega⟩
    rw [hu] at hup ⊢
    have harm : (run next s i u).armed = true := (enable_succ hx u).symm.trans hup
    obtain ⟨A₁, hle₁, hbefore, -, hbegins, -, hpulse⟩ := hboth.held u (by omega) (by omega) harm
    rcases hboth.only A₁ hle₁ (by omega) hbegins with rfl | rfl
    · exact hpulse.trans hboth.modes.1
    · exact hpulse.trans hboth.modes.2
  rw [← cipher_overtaken]
  exact (h.words hstart hready hmode (fun r hr => hboth.key hx hr) hj).2

theorem getWord_ext {b c : Block} (h : ∀ j < 4, getWord b (BitVec.ofNat 3 j) =
    getWord c (BitVec.ofNat 3 j)) : b = c :=
  Block.ext (h 0 (by omega)) (h 1 (by omega)) (h 2 (by omega)) (h 3 (by omega))

end Qsys

/-! ### A second load -/

namespace System

theorem qsys_run (M : Word → Word) (s : System) (j : ℕ → In) (t : ℕ) :
    (run (next M) s j t).qsys =
      run Qsys.next s.qsys (fun u => (run (next M) s j u).qsysIn M (j u)) t := by
  induction t with
  | zero => rfl
  | succ t ih =>
    rw [run_last, run_last, ← ih]
    rfl

/-- Key 0 is loaded and a job of one block started; in cycle `w` the processor writes another
first key word and then a 3. -/
def rekeyed (w t : ℕ) : In :=
  if t = 0 then In.write 0 3
  else if t = 2 then In.write 12 16
  else if t = 3 then In.write 13 1
  else if t = w then In.write 2 5
  else if t = w + 1 then In.write 0 3
  else { In.idle with answer := true }

/-- What the engine sees in this run, over a memory of zeros. -/
def rekeyedIn (w t : ℕ) : Qsys.In :=
  (run (next fun _ => 0) powerUp (rekeyed w) t).qsysIn (fun _ => 0) (rekeyed w t)

theorem rekeyed_registers : ∀ w ∈ [98, 102],
    let x := fun t => (run (next fun _ => 0) powerUp (rekeyed w) t).qsys
    (∀ t < 126, (x t).armed = decide (t = 1 ∨ t = 2 ∨ t = w + 2 ∨ t = w + 3)) ∧
    (∀ t ∈ [1, 2, 3], (x t).keyData = ⟨0, 0, 0, 0⟩ ∧ (x t).mode = false) ∧
    (∀ t ∈ [w + 2, w + 3, w + 4], (x t).keyData = ⟨5, 0, 0, 0⟩ ∧ (x t).mode = false) ∧
    (x 106).aesFifo.aes.start = true := by
  decide +kernel

section
variable {w : ℕ}

theorem rekeyed_armed (hw : w ∈ [98, 102]) {t : ℕ} (ht : t < 126) :
    (run Qsys.next powerUp.qsys (rekeyedIn w) t).armed = true ↔
      t = 1 ∨ t = 2 ∨ t = w + 2 ∨ t = w + 3 := by
  have harmed := (rekeyed_registers w hw).1 t ht
  simp only [qsys_run] at harmed
  exact ⟨fun h => of_decide_eq_true (harmed.symm.trans h), fun h => harmed.trans (decide_eq_true h)⟩

theorem rekeyed_begins (hw : w ∈ [98, 102]) {t : ℕ} (ht : t < 126) :
    Qsys.Begins (run Qsys.next powerUp.qsys (rekeyedIn w)) t ↔ t = 1 ∨ t = w + 2 := by
  have hlate : 98 ≤ w := by
    simp only [List.mem_cons, List.not_mem_nil, or_false] at hw
    omega
  constructor
  · intro hbegins
    have hnow := (rekeyed_armed hw ht).mp hbegins.armed
    have hnot : ∀ u, u < t → t < u + 4 → (u = 1 ∨ u = w + 2) → False := by
      intro u hu hclose hcases
      have hup := (rekeyed_armed hw (by omega : u < 126)).mpr (by omega)
      have hgap := hbegins.first u hu hup
      omega
    rcases hnow with rfl | rfl | rfl | rfl
    · exact Or.inl rfl
    · exact (hnot 1 (by omega) (by omega) (Or.inl rfl)).elim
    · exact Or.inr rfl
    · exact (hnot (w + 2) (by omega) (by omega) (Or.inr rfl)).elim
  · intro hcases
    refine ⟨(rekeyed_armed hw ht).mpr (by omega), fun u hu hup => ?_⟩
    have hbefore := (rekeyed_armed hw (by omega)).mp hup
    omega

theorem rekeyed_held (hw : w ∈ [98, 102]) :
    let x := run Qsys.next powerUp.qsys (rekeyedIn w)
    (∀ t ∈ [1, 2, 3], (x t).keyData = ⟨0, 0, 0, 0⟩ ∧ (x t).mode = false) ∧
      (∀ t ∈ [w + 2, w + 3, w + 4], (x t).keyData = ⟨5, 0, 0, 0⟩ ∧ (x t).mode = false) ∧
      (Qsys.coreAt powerUp.qsys (rekeyedIn w) 106).start = true := by
  have hregisters := (rekeyed_registers w hw).2
  simp only [qsys_run] at hregisters
  exact hregisters

theorem rekeyed_idle (hw : w ∈ [98, 102]) :
    (run Qsys.next powerUp.qsys (rekeyedIn w) 2).aesFifo.aes.cipher.makekey.Idle := by
  have hquiet : ∀ t < 2, (run Qsys.next powerUp.qsys (rekeyedIn w) t).enable = false := by
    intro t ht
    rcases (by omega : t = 0 ∨ t = 1) with rfl | rfl
    · rfl
    · have hnot := mt (rekeyed_armed hw (by omega : 0 < 126)).mp (by omega)
      rw [Bool.not_eq_true] at hnot
      exact hnot
  have hstep : ∀ t < 2, (run Qsys.next powerUp.qsys (rekeyedIn w) t).aesFifo.aes.cipher.makekey.Idle →
      (run Qsys.next powerUp.qsys (rekeyedIn w) (t + 1)).aesFifo.aes.cipher.makekey.Idle := by
    intro t ht hidle
    show ((run Qsys.next powerUp.qsys (rekeyedIn w) t).aesFifo.aes.cipher.makekey.next _
      (run Qsys.next powerUp.qsys (rekeyedIn w) t).enable _).Idle
    rw [hquiet t ht]
    exact (hidle.next _ _).1
  exact hstep 1 (by omega) (hstep 0 (by omega) Makekey.idle_reset)

theorem rekeyed_orderly (hw : w ∈ [98, 102]) :
    Qsys.Orderly (run Qsys.next powerUp.qsys (rekeyedIn w)) 1 126 := by
  obtain ⟨hfirst, hsecond, -⟩ := rekeyed_held hw
  have hlate : 98 ≤ w ∧ w + 3 < 126 := by
    simp only [List.mem_cons, List.not_mem_nil, or_false] at hw
    omega
  constructor
  case begins => exact (rekeyed_begins hw (by omega)).mpr (Or.inl rfl)
  case idle => exact rekeyed_idle hw
  case held =>
    intro u _ hT hup
    have hkey₁ := fun t ht => (hfirst t ht).1.trans (hfirst 1 (by decide)).1.symm
    have hmode₁ := fun t ht => (hfirst t ht).2.trans (hfirst 1 (by decide)).2.symm
    have hkey₂ := fun t ht => (hsecond t ht).1.trans (hsecond (w + 2) (by simp)).1.symm
    have hmode₂ := fun t ht => (hsecond t ht).2.trans (hsecond (w + 2) (by simp)).2.symm
    have hbegins₁ := (rekeyed_begins hw (by omega : 1 < 126)).mpr (Or.inl rfl)
    have hbegins₂ := (rekeyed_begins hw (by omega : w + 2 < 126)).mpr (Or.inr rfl)
    rcases (rekeyed_armed hw hT).mp hup with rfl | rfl | rfl | rfl
    · exact ⟨1, le_rfl, le_rfl, by omega, hbegins₁, hkey₁ 2 (by decide), hmode₁ 2 (by decide)⟩
    · exact ⟨1, le_rfl, by omega, by omega, hbegins₁, hkey₁ 3 (by decide), hmode₁ 3 (by decide)⟩
    · exact ⟨w + 2, by omega, le_rfl, by omega, hbegins₂, hkey₂ (w + 3) (by simp),
        hmode₂ (w + 3) (by simp)⟩
    · exact ⟨w + 2, by omega, by omega, by omega, hbegins₂, hkey₂ (w + 4) (by simp),
        hmode₂ (w + 4) (by simp)⟩
  case apart =>
    intro A₁ A₂ _ hlt hT hbegins₁ hbegins₂
    have h₁ := (rekeyed_begins hw (by omega : A₁ < 126)).mp hbegins₁
    have h₂ := (rekeyed_begins hw hT).mp hbegins₂
    omega

end

/-- A block that starts two cycles after the pulse of a second load leaves under the first key. -/
theorem underLatestKey_rekeyed :
    Qsys.UnderLatestKey powerUp.qsys (rekeyedIn 102) 106 := by
  have hw : 102 ∈ [98, 102] := by decide
  obtain ⟨hfirst, hsecond, hstart⟩ := rekeyed_held hw
  refine Qsys.underLatestKey_of_governs powerUp_afterReset (rekeyedIn 102) hstart
    ⟨rekeyed_orderly hw, by decide, fun A' hlow hhigh hbegins => ?_⟩
  have hcases := (rekeyed_begins hw hhigh).mp hbegins
  have hmode := (hfirst 1 (by decide)).2
  obtain rfl : A' = 104 := by omega
  refine ⟨(hsecond 104 (by decide)).2.trans hmode.symm, ?_⟩
  rw [hmode]
  decide

/-- A block that starts five cycles after the second pulse came up meets both keys. -/
theorem mixedKeys_rekeyed :
    ¬ ∀ (s : Qsys) (i : ℕ → Qsys.In), s.AfterReset → ∀ t, (Qsys.coreAt s i t).start = true →
      Qsys.UnderLatestKey s i t := by
  intro h
  have hw : 98 ∈ [98, 102] := by decide
  obtain ⟨hfirst, hsecond, hstart⟩ := rekeyed_held hw
  have hbegins : ∀ {A : ℕ}, A < 126 →
      (Qsys.Begins (run Qsys.next powerUp.qsys (rekeyedIn 98)) A ↔ A = 1 ∨ A = 98 + 2) :=
    fun hA => rekeyed_begins hw hA
  have hboth : Qsys.Overtakes (run Qsys.next powerUp.qsys (rekeyedIn 98)) 1 (98 + 2) 106 :=
    ⟨rekeyed_orderly hw, by omega, (hbegins (by omega)).mpr (Or.inr rfl),
      fun A₁ _ hA₁ hbegins₁ => (hbegins hA₁).mp hbegins₁, by omega,
      (hfirst 1 (by decide)).2, (hsecond (98 + 2) (by simp)).2⟩
  obtain ⟨A, hA, hcomplete, -, hlatest⟩ :=
    h powerUp.qsys (rekeyedIn 98) powerUp_afterReset 106 hstart
  have hcases := (hbegins (by omega)).mp hA
  obtain rfl : A = 1 := by omega
  have hkey := (hfirst 1 (by decide)).1
  have hkey' := (hsecond (98 + 2) (by simp)).1
  have hmode := (hfirst 1 (by decide)).2
  have hsame := Qsys.getWord_ext fun j hj =>
    (hlatest j hj).2.symm.trans (powerUp_afterReset.words_overtaken hstart hboth hj)
  rw [hmode, hkey, hkey'] at hsame
  have hblock := aes_injective false ⟨0, 0, 0, 0⟩ hsame
  generalize (Qsys.coreAt powerUp.qsys (rekeyedIn 98) 106).bufferIN = b at hblock
  have hword : b.w1 ^^^ 0#32 = b.w1 ^^^ 5#32 :=
    BitVec.xor_zero.trans ((congrArg Block.w1 hblock).trans BitVec.xor_zero)
  exact absurd ((BitVec.xor_right_inj b.w1).mp hword) (by decide)

end System

end SocCrypto.Aes

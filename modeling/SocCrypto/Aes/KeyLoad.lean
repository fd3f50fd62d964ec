import SocCrypto.Aes.Job

/-!
# Key loads of the AES engine

A key load is the pulse on `enable` that follows the write of 3 to register 0. `Loaded` is the
core some cycles after the pulse began, however many these are: the expansion under way for the
first 95 of them, its round keys in the key RAMs from then on.
-/

namespace SocCrypto.Aes
open AesFunction (Block)
open Clocked

namespace Core

/-- Key `K` in mode `e` is the last one loaded, `a` cycles ago. -/
structure Loaded (e : Bool) (K : Block) (a : ℕ) (s : Core) : Prop where
  endec : s.cipher.endec.endec = e
  blockEndec : s.cipher.endec.block.endec = e
  round : s.cipher.endec.block.round = 10
  expanding : a ≤ 95 → Makekey.Expanding K a s.cipher.makekey s.cipher.ke.mem s.cipher.kd.mem
  idle : 95 ≤ a → s.cipher.makekey.Idle
  holds : 95 ≤ a → Makekey.Holds K s.cipher.ke.mem s.cipher.kd.mem
  done : 96 ≤ a → s.makekeyDoneReg = true

section
variable {e : Bool} {K : Block} {a : ℕ} {s : Core} {i : In}

theorem loaded_of_load (hidle : s.cipher.makekey.Idle) (hkey : i.iKeyLoad = true)
    (hparam : i.iParamLoad = true) : (s.next i).Loaded i.iEndec i.iKeyData 1 := by
  refine ⟨?_, ?_, ?_, fun _ => ?_, by omega, by omega, by omega⟩
  · show (if i.iParamLoad then i.iEndec else s.cipher.endec.endec) = _
    rw [hparam]
    rfl
  · show (if i.iParamLoad then i.iEndec else s.cipher.endec.block.endec) = _
    rw [hparam]
    rfl
  · show (if i.iParamLoad then Makekey.round else s.cipher.endec.block.round) = 10
    rw [hparam]
    rfl
  · show Makekey.Expanding i.iKeyData 1 (s.cipher.makekey.next i.iParamLoad i.iKeyLoad i.iKeyData)
      (KeyRam.store s.cipher.ke.mem s.cipher.makekey.oRAMKe)
      (KeyRam.store s.cipher.kd.mem s.cipher.makekey.oRAMKd)
    rw [hkey]
    exact hidle.load (Or.inl hparam) i.iKeyData _ _

/-- The cycles after it, with the load still up at most in the first of them. -/
theorem Loaded.next (h : s.Loaded e K a) (hpos : 0 < a) (hload : i.iParamLoad = i.iKeyLoad)
    (hheld : i.iKeyLoad = true → a < 4 ∧ i.iKeyData = K ∧ i.iEndec = e) :
    (s.next i).Loaded e K (a + 1) := by
  have hmode : ∀ b : Bool, b = e → (if i.iParamLoad then i.iEndec else b) = e := by
    rintro b rfl
    rw [hload]
    split
    · next hkey => exact (hheld hkey).2.2
    · rfl
  have hstep : a ≤ 94 → Makekey.Expanding K (a + 1) (s.next i).cipher.makekey
      (s.next i).cipher.ke.mem (s.next i).cipher.kd.mem := by
    intro ha
    exact (h.expanding (by omega)).step hpos (by omega) fun hkey =>
      ⟨(hheld hkey).1, (hheld hkey).2.1⟩
  have hquiet : 95 ≤ a → i.iKeyLoad = false := by
    intro ha
    rw [← Bool.not_eq_true]
    intro hkey
    have hearly := (hheld hkey).1
    omega
  refine ⟨hmode _ h.endec, hmode _ h.blockEndec, ?_, fun ha => hstep (by omega), fun ha => ?_,
    fun ha => ?_, fun ha => ?_⟩
  · show (if i.iParamLoad then Makekey.round else s.cipher.endec.block.round) = 10
    rw [h.round]
    exact ite_self _
  · by_cases hlast : a = 94
    · subst hlast
      exact (hstep le_rfl).idle
    · show (s.cipher.makekey.next i.iParamLoad i.iKeyLoad i.iKeyData).Idle
      rw [hquiet (by omega)]
      exact ((h.idle (by omega)).next _ _).1
  · by_cases hlast : a = 94
    · subst hlast
      exact (hstep le_rfl).holds le_rfl
    · have hidle := h.idle (by omega)
      show Makekey.Holds K (KeyRam.store s.cipher.ke.mem s.cipher.makekey.oRAMKe)
        (KeyRam.store s.cipher.kd.mem s.cipher.makekey.oRAMKd)
      rw [Makekey.store_of_not_hits (fun r j => (hidle.hits r j).1),
        Makekey.store_of_not_hits hidle.kdHits]
      exact h.holds (by omega)
  · show (if s.cipher.makekey.oDone then true else s.makekeyDoneReg) = true
    by_cases hlast : a = 95
    · have hcontrol := (h.expanding hlast.le).control
      have hdone : s.cipher.makekey.oDone = (Makekey.Control.age 95).sboxReset := by
        rw [← hlast, ← hcontrol]
        rfl
      have hup : (Makekey.Control.age 95).sboxReset = true := by
        decide +kernel
      rw [hdone, hup]
      rfl
    · rw [h.done (by omega), ite_self]

theorem Loaded.holdsKey (h : s.Loaded e K a) (ha : 96 ≤ a) : s.HoldsKey e K :=
  ⟨s.cipher.ke.mem, s.cipher.kd.mem, ⟨h.idle (by omega), rfl, rfl, h.endec, h.blockEndec, h.round,
    h.done ha⟩, h.holds (by omega)⟩

end

end Core

/-! ### Loads in a run -/

namespace Qsys

/-- The key and the mode that a load in this cycle takes. -/
def keyData (s : Qsys) : Block := s.aesFifoIn.iKeyData
def mode (s : Qsys) : Bool := s.aesFifoIn.iEndec

/-- The states `x` load key `K` in mode `e` in cycle `L`, and no other key up to cycle `T`. -/
structure LoadsKey (x : ℕ → Qsys) (e : Bool) (K : Block) (L T : ℕ) : Prop where
  load : (x L).enable = true
  held : ∀ t ≤ T, (x t).enable = true →
    L ≤ t ∧ t < L + 4 ∧ (x t).keyData = K ∧ (x t).mode = e

section
variable {x : ℕ → Qsys} {j : ℕ → In} {e : Bool} {K : Block} {L T : ℕ}

theorem LoadsKey.idle (h : LoadsKey x e K L T) (hx : ∀ t, x (t + 1) = (x t).next (j t))
    (hreset : (x 0).aesFifo.aes.cipher.makekey = Makekey.reset) {t : ℕ} (ht : t ≤ L) (hT : t ≤ T) :
    (x t).aesFifo.aes.cipher.makekey.Idle := by
  induction t with
  | zero =>
    rw [hreset]
    exact Makekey.idle_reset
  | succ t ih =>
    have hquiet : (x t).enable = false := by
      rw [← Bool.not_eq_true]
      intro hup
      have hlate := (h.held t (by omega) hup).1
      omega
    rw [hx]
    show ((x t).aesFifo.aes.cipher.makekey.next (x t).enable (x t).enable (x t).keyData).Idle
    rw [hquiet]
    exact ((ih (by omega) (by omega)).next _ _).1

theorem LoadsKey.loaded (h : LoadsKey x e K L T) (hx : ∀ t, x (t + 1) = (x t).next (j t))
    (hreset : (x 0).aesFifo.aes.cipher.makekey = Makekey.reset) (a : ℕ) (hT : L + a ≤ T) :
    (x (L + a + 1)).aesFifo.aes.Loaded e K (a + 1) := by
  induction a with
  | zero =>
    obtain ⟨-, -, rfl, rfl⟩ := h.held L (by omega) h.load
    rw [hx]
    exact Core.loaded_of_load (h.idle hx hreset le_rfl (by omega))
      (i := (x L).aesFifo.aesIn (x L).aesFifoIn) h.load h.load
  | succ a ih =>
    have hnow := ih (by omega)
    rw [hx]
    refine hnow.next (i := (x (L + a + 1)).aesFifo.aesIn (x (L + a + 1)).aesFifoIn) (by omega) rfl ?_
    intro hup
    obtain ⟨-, hearly, hkey, hmode⟩ := h.held (L + a + 1) (by omega) hup
    exact ⟨by omega, hkey, hmode⟩

theorem LoadsKey.holdsKey (h : LoadsKey x e K L T) (hx : ∀ t, x (t + 1) = (x t).next (j t))
    (hreset : (x 0).aesFifo.aes.cipher.makekey = Makekey.reset) (hover : L + 95 ≤ T) :
    (x (T + 1)).aesFifo.aes.HoldsKey e K := by
  obtain ⟨a, rfl⟩ : ∃ a, T = L + a := ⟨T - L, by omega⟩
  exact (h.loaded hx hreset a le_rfl).holdsKey (by omega)

end

end Qsys

end SocCrypto.Aes

import SocCrypto.Aes.KeyExpansion
import SocCrypto.Clocked

/-!
# Decryption undoes encryption

What a key load leaves in the two key RAMs, what the datapath makes of a block
over these RAMs in either mode, and that the two modes are inverse.
-/

namespace SocCrypto.Aes
open AesFunction (Block encrypt decrypt roundKey inverseRoundKey)
open Clocked

namespace Cipher

/-! ### Loading a key -/

/-- `iKey_load` comes up with key `K` and is down again within four cycles. -/
structure KeyLoad (K : Block) (i : ℕ → In) : Prop where
  load : (i 0).iKeyLoad = true
  param : (i 0).iParamLoad = true
  held : ∀ t, (i t).iKeyLoad = true → t < 4 ∧ (i t).iKeyData = K

section
variable {K : Block} {s : Cipher} {i : ℕ → In}

theorem KeyLoad.expanding (hload : KeyLoad K i) (h : s.makekey.Idle) {t : ℕ} (hpos : 0 < t)
    (ht : t ≤ 96) : Makekey.Expanding K t (run next s i t).makekey (run next s i t).ke.mem
      (run next s i t).kd.mem := by
  induction t with
  | zero => omega
  | succ t ih =>
    rcases Nat.eq_zero_or_pos t with rfl | ht0
    · have hkey := (hload.held 0 hload.load).2
      show Makekey.Expanding K 1 (s.makekey.next (i 0).iParamLoad (i 0).iKeyLoad (i 0).iKeyData)
        (KeyRam.store s.ke.mem s.makekey.oRAMKe) (KeyRam.store s.kd.mem s.makekey.oRAMKd)
      rw [hload.load, hkey]
      exact h.load (Or.inl hload.param) K _ _
    · exact (ih ht0 (by omega)).step ht0 (by omega) (hload.held t)

theorem KeyLoad.expanded (hload : KeyLoad K i) (h : s.makekey.Idle) {t : ℕ} (ht : 95 ≤ t) :
    (run next s i t).makekey.Idle ∧
      Makekey.Holds K (run next s i t).ke.mem (run next s i t).kd.mem := by
  induction t, ht using Nat.le_induction with
  | base =>
    have hend := hload.expanding h (t := 95) (by decide) (by decide)
    exact ⟨hend.idle, hend.holds le_rfl⟩
  | succ t ht ih =>
    obtain ⟨hidle, hholds⟩ := ih
    have hno : (i t).iKeyLoad = false := by
      by_contra hon
      have := (hload.held t (by simpa using hon)).1
      omega
    have hke := Makekey.store_of_not_hits (fun r j => (hidle.hits r j).1) (run next s i t).ke.mem
    have hkd := Makekey.store_of_not_hits hidle.kdHits (run next s i t).kd.mem
    constructor
    · show ((run next s i t).makekey.next (i t).iParamLoad (i t).iKeyLoad (i t).iKeyData).Idle
      rw [hno]
      exact (hidle.next _ _).1
    · show Makekey.Holds K (KeyRam.store (run next s i t).ke.mem (run next s i t).makekey.oRAMKe)
        (KeyRam.store (run next s i t).kd.mem (run next s i t).makekey.oRAMKd)
      rw [hke, hkd]
      exact hholds

end

/-- No load is under way: after reset, or after a load whose expansion is over. -/
inductive AtRest : Cipher → Prop
  | reset {s : Cipher} : s.makekey = Makekey.reset → AtRest s
  | expanded {K : Block} {s : Cipher} {i : ℕ → In} {t : ℕ} :
      AtRest s → KeyLoad K i → 95 ≤ t → AtRest (run next s i t)

theorem AtRest.idle {s : Cipher} (h : s.AtRest) : s.makekey.Idle := by
  induction h with
  | reset hreset =>
    rw [hreset]
    exact Makekey.idle_reset
  | expanded _ hload ht ih => exact (hload.expanded ih ht).1

theorem age_sboxReset : ∀ a < 96, 0 < a →
    (Makekey.Control.age a).sboxReset = decide (a = 95) := by
  decide +kernel

theorem KeyLoad.oDone {K : Block} {s : Cipher} {i : ℕ → In} (hload : KeyLoad K i)
    (h : s.makekey.Idle) {t : ℕ} (hpos : 0 < t) (ht : t ≤ 95) :
    (run next s i t).makekey.oDone = decide (t = 95) := by
  have hcontrol := (hload.expanding h hpos (by omega)).control
  rw [← age_sboxReset t (by omega) hpos, ← hcontrol]
  rfl

/-- A load on an expansion at rest: `oDone` rises after 95 cycles, and then the one RAM holds the
round keys in order, the other holds them in the opposite order, mixed between the ends. -/
theorem key_expansion {s : Cipher} (hs : s.AtRest) {K : Block} {i : ℕ → In} (hload : KeyLoad K i) :
    (∀ t, 0 < t → t ≤ 95 → (run next s i t).makekey.oDone = decide (t = 95)) ∧
      ∀ r ≤ 10, (run next s i 95).ke.mem (BitVec.ofNat 4 r) = roundKey K r ∧
        (run next s i 95).kd.mem (BitVec.ofNat 4 (10 - r)) =
          if r = 0 ∨ r = 10 then roundKey K r else (roundKey K r).map AesFunction.invMixColumn := by
  have hidle := hs.idle
  refine ⟨fun t hpos ht => hload.oDone hidle hpos ht, fun r hr => ?_⟩
  have hholds := (hload.expanded hidle (t := 95) le_rfl).2
  refine ⟨(hholds r hr).1, ?_⟩
  rw [(hholds (10 - r) (by omega)).2, inverseRoundKey, Layers.inverseKeys,
    show 10 - (10 - r) = r by omega]
  by_cases hend : r = 0 ∨ r = 10
  · rw [if_pos hend, if_pos (by omega)]
  · rw [if_neg hend, if_neg (by omega)]
    rfl

/-- A load of two cycles after the load of another key. -/
theorem key_expansion_again :
    let s : Cipher :=
      ⟨Makekey.reset, ⟨fun _ => ⟨0, 0, 0, 0⟩, ⟨0, 0, 0, 0⟩⟩, ⟨fun _ => ⟨0, 0, 0, 0⟩, ⟨0, 0, 0, 0⟩⟩,
        Endec.reset⟩
    let i : Block → ℕ → In := fun K t =>
      ⟨decide (t < 2), false, decide (t < 2), K, false, ⟨0, 0, 0, 0⟩⟩
    let s' := run next s (i ⟨1, 2, 3, 4⟩) 100
    (∀ t, 0 < t → t ≤ 95 → (run next s' (i ⟨5, 6, 7, 8⟩) t).makekey.oDone = decide (t = 95)) ∧
      ∀ r ≤ 10, (run next s' (i ⟨5, 6, 7, 8⟩) 95).ke.mem (BitVec.ofNat 4 r) =
          roundKey ⟨5, 6, 7, 8⟩ r ∧
        (run next s' (i ⟨5, 6, 7, 8⟩) 95).kd.mem (BitVec.ofNat 4 (10 - r)) =
          if r = 0 ∨ r = 10 then roundKey ⟨5, 6, 7, 8⟩ r
          else (roundKey ⟨5, 6, 7, 8⟩ r).map AesFunction.invMixColumn := by
  intro s i s'
  have hload : ∀ K, KeyLoad K (i K) := fun K =>
    ⟨rfl, rfl, fun t ht => ⟨by have := of_decide_eq_true ht; omega, rfl⟩⟩
  have hrest : s'.AtRest := .expanded (.reset rfl) (hload _) (by decide)
  exact key_expansion hrest (hload _)

/-! ### Running a block -/

/-- Round keys the datapath reads in a mode. -/
def modeKeys (e : Bool) (ke kd : BitVec 4 → Block) (r : ℕ) : Block :=
  if e then kd (BitVec.ofNat 4 r) else ke (BitVec.ofNat 4 r)

/-- In mode `e`, over key RAMs of contents `ke` and `kd`, the datapath turns `b` into
`c`: from any state between blocks, 21 cycles later and not earlier. -/
def Delivers (e : Bool) (ke kd : BitVec 4 → Block) (b c : Block) : Prop :=
  ∀ (s : Cipher) (i : ℕ → In), s.endec.Ready e → s.makekey.Idle → s.ke.mem = ke → s.kd.mem = kd →
    (∀ t, (i t).iKeyLoad = false ∧ (i t).iParamLoad = false ∧ (i t).iDataValid = (t == 0)) →
    (i 0).iData = b →
    (∀ t ≤ 21, (run next s i t).oDataValid = decide (t = 21)) ∧ (run next s i 21).oData = c

theorem delivers_cipher (e : Bool) (ke kd : BitVec 4 → Block) (b : Block) :
    Delivers e ke kd b ((layersOf e).cipher 10 (modeKeys e ke kd) b) := by
  intro s i hready hidle hke hkd hquiet hb
  have hfixed : ∀ t, (run next s i t).makekey.Idle ∧ (run next s i t).ke.mem = ke ∧
      (run next s i t).kd.mem = kd := by
    intro t
    induction t with
    | zero => exact ⟨hidle, hke, hkd⟩
    | succ t ih =>
      obtain ⟨hi, hk, hd⟩ := ih
      refine ⟨?_, ?_, ?_⟩
      · show ((run next s i t).makekey.next (i t).iParamLoad (i t).iKeyLoad (i t).iKeyData).Idle
        rw [(hquiet t).1]
        exact (hi.next _ _).1
      · exact (Makekey.store_of_not_hits (fun r j => (hi.hits r j).1) _).trans hk
      · exact (Makekey.store_of_not_hits hi.kdHits _).trans hd
  have hflight : ∀ t ≤ 22, InFlight e (modeKeys e ke kd) b t (run next s i t).endec
      ((run next s i t).endec.ramData (run next s i t).ke.q (run next s i t).kd.q) := by
    intro t
    induction t with
    | zero => exact fun _ => hready.inFlight _ _ _
    | succ t ih =>
      intro ht
      have hmode : (i t).iParamLoad = true → (i t).iEndec = e := by
        rw [(hquiet t).2.1]
        intro hp
        cases hp
      have hin : t = 0 → (i t).iData = b := by
        rintro rfl
        exact hb
      have hstep := (ih (by omega)).step (by omega) hmode hin
        (fun r => if e then kd r else ke r) (fun r _ _ => by cases e <;> rfl)
      rw [← (hquiet t).2.2] at hstep
      have hq : (run next s i (t + 1)).endec.ramData (run next s i (t + 1)).ke.q
          (run next s i (t + 1)).kd.q =
          if e then kd (run next s i t).endec.oRAMAddr else ke (run next s i t).endec.oRAMAddr := by
        have hmode : (run next s i (t + 1)).endec.endec = e := hstep.endec
        rw [Endec.ramData, hmode]
        show (if e then (run next s i t).kd.mem _ else (run next s i t).ke.mem _) = _
        rw [(hfixed t).2.1, (hfixed t).2.2]
      rw [hq]
      exact hstep
  constructor
  · intro t ht
    exact (hflight t (by omega)).oDataValid (by omega)
  · exact (hflight 21 (by decide)).oData

theorem delivers_encrypt {K : Block} {ke kd : BitVec 4 → Block} (h : Makekey.Holds K ke kd)
    (b : Block) : Delivers false ke kd b (encrypt K b) := by
  have hkeys : (layersOf false).cipher 10 (modeKeys false ke kd) b = encrypt K b :=
    (layersOf false).cipher_congr b fun r hr => (h r hr).1
  rw [← hkeys]
  exact delivers_cipher false ke kd b

theorem delivers_decrypt {K : Block} {ke kd : BitVec 4 → Block} (h : Makekey.Holds K ke kd)
    (b : Block) : Delivers true ke kd b (decrypt K b) := by
  have hkeys : (layersOf true).cipher 10 (modeKeys true ke kd) b = decrypt K b :=
    (layersOf true).cipher_congr b fun r hr => (h r hr).2
  rw [← hkeys]
  exact delivers_cipher true ke kd b

/-! ### The two modes -/

/-- Over the key RAMs a load of `K` leaves, either mode undoes the other. -/
theorem modes_inverse {s : Cipher} (h : s.makekey.Idle) {K : Block} {i : ℕ → In}
    (hload : KeyLoad K i) {t : ℕ} (ht : 95 ≤ t) (P : Block) :
    let ke := (run next s i t).ke.mem
    let kd := (run next s i t).kd.mem
    (Delivers false ke kd P (encrypt K P) ∧ Delivers true ke kd (encrypt K P) P) ∧
      Delivers true ke kd P (decrypt K P) ∧ Delivers false ke kd (decrypt K P) P := by
  intro ke kd
  have hholds : Makekey.Holds K ke kd := (hload.expanded h ht).2
  refine ⟨⟨delivers_encrypt hholds P, ?_⟩, delivers_decrypt hholds P, ?_⟩
  · have hback := delivers_decrypt hholds (encrypt K P)
    rwa [AesFunction.decrypt_encrypt] at hback
  · have hback := delivers_encrypt hholds (decrypt K P)
    rwa [AesFunction.encrypt_decrypt] at hback

/-- After reset, with the key up for two cycles. -/
theorem modes_inverse_afterReset :
    let s : Cipher :=
      ⟨Makekey.reset, ⟨fun _ => ⟨0, 0, 0, 0⟩, ⟨0, 0, 0, 0⟩⟩, ⟨fun _ => ⟨0, 0, 0, 0⟩, ⟨0, 0, 0, 0⟩⟩,
        Endec.reset⟩
    let K : Block := ⟨1, 2, 3, 4⟩
    let i : ℕ → In := fun t =>
      ⟨decide (t < 2), false, decide (t < 2), K, false, ⟨0, 0, 0, 0⟩⟩
    let ke := (run next s i 95).ke.mem
    let kd := (run next s i 95).kd.mem
    (Delivers false ke kd ⟨5, 6, 7, 8⟩ (encrypt K ⟨5, 6, 7, 8⟩) ∧
        Delivers true ke kd (encrypt K ⟨5, 6, 7, 8⟩) ⟨5, 6, 7, 8⟩) ∧
      Delivers true ke kd ⟨5, 6, 7, 8⟩ (decrypt K ⟨5, 6, 7, 8⟩) ∧
        Delivers false ke kd (decrypt K ⟨5, 6, 7, 8⟩) ⟨5, 6, 7, 8⟩ := by
  intro s K i
  have hload : KeyLoad K i :=
    ⟨rfl, rfl, fun t ht => ⟨by have := of_decide_eq_true ht; omega, rfl⟩⟩
  exact modes_inverse Makekey.idle_reset hload le_rfl ⟨5, 6, 7, 8⟩

end Cipher

end SocCrypto.Aes

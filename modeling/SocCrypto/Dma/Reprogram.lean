import SocCrypto.Clocked
import SocCrypto.Dma.WriteMaster

/-!
# Reprogramming the masters

Registers and masters of a controller while the processor writes the read
address, the write address and the length and then drops the soft reset. Both
masters compare against the live registers, so a finished master leaves its last
state when a register it compares with changes under it.
-/

namespace SocCrypto.Dma
open Clocked

/-- The processor-side part of a controller with `2 ^ w` result words. -/
structure Masters (w : ℕ) where
  config : Config
  read : MasterRead
  write : MasterWrite w

namespace Masters

/-- One step: `tick` is an edge of the bus clock. -/
structure In (N : ℕ) where
  tick : Bool
  cpu : Option Config.Write
  waitRead : Bool
  fifoFull : Bool
  startWrite : Bool
  value : BitVec N
  waitWrite : Bool

variable {w N : ℕ}

def endAddressWrite (m : Masters w) : Word := m.config.writeStart + BitVec.ofNat 32 (4 * 2 ^ w)

def next (m : Masters w) (i : In N) : Masters w :=
  if i.tick then
    { config := m.config.next i.cpu
      read := m.read.next m.config.resetn m.config.startRead m.config.readStart
        m.config.endAddressRead i.waitRead i.fifoFull
      write := m.write.next m.config.resetn i.startWrite m.config.writeStart m.endAddressWrite
        i.value i.waitWrite }
  else m

/-- Each request line is high exactly in its master's state 2. -/
structure Handshake (m : Masters w) : Prop where
  read : m.read.oRead = decide (m.read.state = .accept)
  write : m.write.oWrite = decide (m.write.state = .accept)

theorem Handshake.next {m : Masters w} (h : m.Handshake) (i : In N) : (m.next i).Handshake := by
  have hread : ∀ r sr a e wt ff, (m.read.next r sr a e wt ff).oRead =
      decide ((m.read.next r sr a e wt ff).state = .accept) := by
    intro r sr a e wt ff
    have hm := h.read
    unfold MasterRead.next
    cases r
    · rfl
    · cases hs : m.read.state <;> simp only [hs] at hm ⊢
      · cases sr <;> simp [hm, hs]
      · simp
      · cases wt <;> cases ff <;> simp [hm, hs]
      · by_cases he : m.read.oAddress = e <;> simp [he, hm, hs]
  have hwrite : ∀ r sw a e (v : BitVec N) wt, (m.write.next r sw a e v wt).oWrite =
      decide ((m.write.next r sw a e v wt).state = .accept) := by
    intro r sw a e v wt
    have hm := h.write
    unfold MasterWrite.next
    cases r
    · rfl
    · cases hs : m.write.state <;> simp only [hs] at hm ⊢
      · cases sw <;> simp [hm, hs]
      · simp
      · cases wt <;> simp [hm, hs]
      · by_cases he : m.write.oAddress = e <;> simp [he, hm, hs]
  unfold Masters.next
  split
  · exact ⟨hread _ _ _ _ _ _, hwrite _ _ _ _ _ _⟩
  · exact h

theorem Handshake.run {m : Masters w} (h : m.Handshake) (i : ℕ → In N) (t : ℕ) :
    (Clocked.run Masters.next m i t).Handshake :=
  run_invariant (fun _ i h => h.next i) h i t

/-- All result words are written and the write master is in state 3. -/
structure Complete (m : Masters w) : Prop where
  resetn : m.config.resetn = true
  state : m.write.state = .check
  address : m.write.oAddress = m.endAddressWrite

/-- Register writes of `RSA_Init` and `SHA_256_Intit` up to the one that drops
`resetn`, in steps `a`, `b`, `d` and `c`, with any steps between; `e` is the next
edge of the bus clock, at which the masters see the reset. -/
structure Reprograms (newRead newWrite newLength newControl : Word) (a b d c e : ℕ)
    (tick : ℕ → Bool) (cpu : ℕ → Option Config.Write) : Prop where
  ab : a < b
  bd : b < d
  dc : d < c
  ce : c < e
  readStart : tick a = true ∧ cpu a = some (1, newRead)
  writeStart : tick b = true ∧ cpu b = some (2, newWrite)
  length : tick d = true ∧ cpu d = some (3, newLength)
  control : tick c = true ∧ cpu c = some (0, newControl)
  edge : tick e = true
  drop : newControl.getLsbD 0 = false
  others : ∀ t < c, t ≠ a → t ≠ b → t ≠ d → cpu t = none
  between : ∀ t, c < t → t < e → tick t = false

/-- No request line is up until the masters have seen the reset. -/
def Silent (m : Masters w) (i : ℕ → In N) (e : ℕ) : Prop :=
  ∀ t ≤ e, (run next m i t).read.oRead = false ∧ (run next m i t).write.oWrite = false

variable {newRead newWrite newLength newControl : Word} {a b d c e : ℕ} {i : ℕ → In N}
  {m : Masters w}

theorem next_idle {i : In N} (h : i.tick = false) : m.next i = m := by
  simp [next, h]

/-- Registers in step `t`. -/
def configAt (m : Masters w) (newRead newWrite newLength : Word) (a b d t : ℕ) : Config where
  control := m.config.control
  readStart := if t ≤ a then m.config.readStart else newRead
  writeStart := if t ≤ b then m.config.writeStart else newWrite
  length := if t ≤ d then m.config.length else newLength

theorem Reprograms.config_run (h : Reprograms newRead newWrite newLength newControl a b d c e
    (fun t => (i t).tick) fun t => (i t).cpu)
    (m : Masters w) : ∀ t ≤ c, (run next m i t).config =
      m.configAt newRead newWrite newLength a b d t := by
  intro t
  induction t with
  | zero =>
    intro _
    simp [run, configAt]
  | succ t ih =>
    intro ht
    have hprev := ih (by omega)
    have hab := h.ab
    have hbd := h.bd
    show (next (run next m i t) (i t)).config = _
    by_cases ha : t = a
    · subst ha
      simp only [next, h.readStart.1, if_true, hprev, h.readStart.2, Config.next, configAt]
      simp [show t ≤ b by omega, show t ≤ d by omega, show t + 1 ≤ b by omega,
        show t + 1 ≤ d by omega]
    by_cases hb : t = b
    · subst hb
      simp only [next, h.writeStart.1, if_true, hprev, h.writeStart.2, Config.next, configAt]
      simp [show ¬ t ≤ a by omega, show ¬ t + 1 ≤ a by omega, show t ≤ d by omega,
        show t + 1 ≤ d by omega]
    by_cases hd : t = d
    · subst hd
      simp only [next, h.length.1, if_true, hprev, h.length.2, Config.next, configAt]
      simp [show ¬ t ≤ a by omega, show ¬ t + 1 ≤ a by omega, show ¬ t ≤ b by omega,
        show ¬ t + 1 ≤ b by omega]
    · have hsame : (next (run next m i t) (i t)).config = (run next m i t).config := by
        unfold next
        split
        · simp [h.others t (by omega) ha hb hd, Config.next]
        · rfl
      have hle : ∀ u, t ≠ u → (t + 1 ≤ u ↔ t ≤ u) := by
        intro u hu
        omega
      rw [hsame, hprev]
      simp only [configAt, hle a ha, hle b hb, hle d hd]

/-- A master that leaves its state 1 at every tick does not reach it in a silent
run with a tick left. -/
theorem ne_raise {state : ℕ → MasterState} (tick : ℕ → Bool)
    (hidle : ∀ t, tick t = false → state (t + 1) = state t)
    (hraise : ∀ t ≤ c, tick t = true → state t = .raise → state (t + 1) = .accept)
    (hquiet : ∀ t ≤ c + 1, state t ≠ .accept) (hc : tick c = true) :
    ∀ t ≤ c, state t ≠ .raise := by
  intro t ht hs
  have hstay : ∀ u, t ≤ u → u ≤ c → state u = .raise := by
    intro u hu
    induction u, hu using Nat.le_induction with
    | base => exact fun _ => hs
    | succ u _ ih =>
      intro huc
      have hu := ih (by omega)
      cases htick : tick u
      · rw [hidle u htick, hu]
      · exact absurd (hraise u (by omega) htick hu) (hquiet (u + 1) (by omega))
  exact hquiet (c + 1) le_rfl (hraise c le_rfl hc (hstay c ht le_rfl))

/-- The read master waits for a start or has reached its end address. -/
def ReadRests (r : MasterRead) (cfg : Config) : Prop :=
  (r.state = .start ∧ cfg.startRead = false) ∨
    (r.state = .check ∧ r.oAddress = cfg.endAddressRead)

theorem next_read_of_rests {i : In N} (hreset : m.config.resetn = true)
    (h : ReadRests m.read m.config) : (m.next i).read = m.read := by
  unfold next
  split
  · rcases h with ⟨hs, hstart⟩ | ⟨hs, haddr⟩
    · simp only [hreset, MasterRead.next_start hs, hstart, Bool.false_eq_true, if_false]
    · simp only [hreset, MasterRead.next_check hs, haddr, if_true]
  · rfl

theorem rests_of_ne_raise {i : In N} (hreset : m.config.resetn = true) (htick : i.tick = true)
    (hs : m.read.state ≠ .accept) (hs' : m.read.state ≠ .raise)
    (hnext : (m.next i).read.state ≠ .raise) : ReadRests m.read m.config := by
  simp only [next, htick, if_true, hreset] at hnext
  cases hst : m.read.state with
  | start =>
    rw [MasterRead.next_start hst] at hnext
    cases hstart : m.config.startRead
    · exact Or.inl ⟨hst, hstart⟩
    · simp [hstart] at hnext
  | raise => exact absurd hst hs'
  | accept => exact absurd hst hs
  | check =>
    rw [MasterRead.next_check hst] at hnext
    by_cases haddr : m.read.oAddress = m.config.endAddressRead
    · exact Or.inr ⟨hst, haddr⟩
    · simp [haddr] at hnext

theorem next_write_of_end {i : In N} (hreset : m.config.resetn = true)
    (hs : m.write.state = .check) (haddr : m.write.oAddress = m.endAddressWrite) :
    (m.next i).write = m.write := by
  unfold next
  split
  · simp only [hreset, MasterWrite.next_check hs, haddr, if_true]
  · rfl

theorem end_of_ne_raise {i : In N} (hreset : m.config.resetn = true) (htick : i.tick = true)
    (hs : m.write.state = .check) (hnext : (m.next i).write.state ≠ .raise) :
    m.write.oAddress = m.endAddressWrite := by
  simp only [next, htick, if_true, hreset, MasterWrite.next_check hs] at hnext
  by_contra haddr
  simp [haddr] at hnext

/-- The read side stays quiet: no read was ever started, or the read master has
reached its end address, which is not moved while an edge can see it. -/
def ReadKept (m : Masters w) (newRead newLength : Word) (d c : ℕ) (tick : ℕ → Bool) :
    Prop :=
  (m.read.state = .start ∧ m.config.startRead = false) ∨
    (m.read.state = .check ∧ m.read.oAddress = m.config.endAddressRead ∧
      newRead = m.config.readStart ∧
      (newLength = m.config.length ∨ ∀ t, d < t → t < c → tick t = false))

section
variable (h : Reprograms newRead newWrite newLength newControl a b d c e
    (fun t => (i t).tick) fun t => (i t).cpu)
include h

theorem Reprograms.resetn_run (hm : m.config.resetn = true) {t : ℕ} (ht : t ≤ c) :
    (run next m i t).config.resetn = true := by
  rw [h.config_run m t ht]
  exact hm

/-- In a silent run neither master moves before the control write, and both rest
in every earlier tick. -/
theorem Reprograms.rests_of_silent (hm : m.Handshake) (hd : m.Complete) (hs : m.Silent i e) :
    ∀ t ≤ c, (run next m i t).read = m.read ∧ (run next m i t).write = m.write ∧
      (t < c → (i t).tick = true → ReadRests m.read (run next m i t).config ∧
        m.write.oAddress = (run next m i t).endAddressWrite) := by
  have hce := h.ce
  have hreset : ∀ t ≤ c, (run next m i t).config.resetn = true :=
    fun t ht => h.resetn_run hd.resetn ht
  have hidle : ∀ t, (i t).tick = false → run next m i (t + 1) = run next m i t :=
    fun t ht => next_idle ht
  have hreadQuiet : ∀ t ≤ c + 1, (run next m i t).read.state ≠ .accept := by
    intro t ht hacc
    have hread := (hm.run i t).read
    rw [(hs t (by omega)).1] at hread
    simp [hacc] at hread
  have hwriteQuiet : ∀ t ≤ c + 1, (run next m i t).write.state ≠ .accept := by
    intro t ht hacc
    have hwrite := (hm.run i t).write
    rw [(hs t (by omega)).2] at hwrite
    simp [hacc] at hwrite
  have hreadRaise : ∀ t ≤ c, (run next m i t).read.state ≠ .raise := by
    refine ne_raise (fun t => (i t).tick) (fun t ht => by rw [hidle t ht]) ?_ hreadQuiet
      h.control.1
    intro t ht htick hst
    show (next (run next m i t) (i t)).read.state = _
    simp only [next, htick, if_true, hreset t ht, MasterRead.next_raise hst]
  have hwriteRaise : ∀ t ≤ c, (run next m i t).write.state ≠ .raise := by
    refine ne_raise (fun t => (i t).tick) (fun t ht => by rw [hidle t ht]) ?_ hwriteQuiet
      h.control.1
    intro t ht htick hst
    show (next (run next m i t) (i t)).write.state = _
    simp only [next, htick, if_true, hreset t ht, MasterWrite.next_raise hst]
  have hkey : ∀ t < c, (run next m i t).read = m.read → (run next m i t).write = m.write →
      (i t).tick = true → ReadRests m.read (run next m i t).config ∧
        m.write.oAddress = (run next m i t).endAddressWrite := by
    intro t ht hr hw htick
    have hrests := rests_of_ne_raise (hreset t ht.le) htick (hreadQuiet t (by omega))
      (hreadRaise t ht.le) (hreadRaise (t + 1) ht)
    have hend := end_of_ne_raise (hreset t ht.le) htick (by rw [hw]; exact hd.state)
      (hwriteRaise (t + 1) ht)
    rw [hr] at hrests
    rw [hw] at hend
    exact ⟨hrests, hend⟩
  intro t
  induction t with
  | zero => exact fun _ => ⟨rfl, rfl, fun ht htick => hkey 0 ht rfl rfl htick⟩
  | succ t ih =>
    intro ht
    obtain ⟨hr, hw, -⟩ := ih (by omega)
    have hr' : (run next m i (t + 1)).read = m.read := by
      cases htick : (i t).tick
      · rw [hidle t htick, hr]
      · have hrests := (hkey t (by omega) hr hw htick).1
        rw [← hr] at hrests
        exact (next_read_of_rests (hreset t (by omega)) hrests).trans hr
    have hw' : (run next m i (t + 1)).write = m.write := by
      cases htick : (i t).tick
      · rw [hidle t htick, hw]
      · have hend := (hkey t (by omega) hr hw htick).2
        rw [← hw] at hend
        exact (next_write_of_end (hreset t (by omega)) (by rw [hw]; exact hd.state) hend).trans hw
    exact ⟨hr', hw', fun hlt htick => hkey (t + 1) hlt hr' hw' htick⟩

theorem Reprograms.kept_of_silent (hm : m.Handshake) (hd : m.Complete) (hs : m.Silent i e) :
    newWrite = m.config.writeStart ∧ ReadKept m newRead newLength d c fun t => (i t).tick := by
  have hab := h.ab
  have hbd := h.bd
  have hdc := h.dc
  have hrest := h.rests_of_silent hm hd hs
  have hafter : ∀ t < c, (i t).tick = true → ReadRests m.read
      (m.configAt newRead newWrite newLength a b d t) := by
    intro t ht htick
    rw [← h.config_run m t ht.le]
    exact ((hrest t ht.le).2.2 ht htick).1
  constructor
  · have hend := ((hrest d (by omega)).2.2 hdc h.length.1).2
    rw [endAddressWrite, h.config_run m d (by omega), hd.address, endAddressWrite] at hend
    simp only [configAt, show ¬ d ≤ b by omega, if_false] at hend
    exact (BitVec.add_left_inj _).mp hend.symm
  · rcases hafter a (by omega) h.readStart.1 with ⟨hst, hstart⟩ | ⟨hst, haddr⟩
    · exact Or.inl ⟨hst, hstart⟩
    · refine Or.inr ⟨hst, ?_, ?_, ?_⟩
      · simpa [configAt, Config.endAddressRead, show a ≤ d by omega] using haddr
      · have hb := hafter b (by omega) h.writeStart.1
        simp only [ReadRests, hst, reduceCtorEq, false_and, false_or, true_and, haddr,
          Config.endAddressRead, configAt, le_refl, if_true, show a ≤ d by omega,
          show ¬ b ≤ a by omega, show b ≤ d by omega, if_false] at hb
        exact ((BitVec.add_left_inj _).mp hb).symm
      · by_contra hlen
        simp only [not_or, not_forall, Bool.not_eq_false] at hlen
        obtain ⟨hne, t, hdt, htc, htick⟩ := hlen
        have ht := hafter t htc htick
        have hb := hafter b (by omega) h.writeStart.1
        simp only [ReadRests, hst, reduceCtorEq, false_and, false_or, true_and,
          Config.endAddressRead, configAt, show ¬ t ≤ a by omega, show ¬ t ≤ d by omega,
          show ¬ b ≤ a by omega, show b ≤ d by omega, if_false, if_true] at ht hb
        rw [hb] at ht
        exact hne ((BitVec.add_right_inj _).mp ht).symm

theorem Reprograms.silent_of_kept (hm : m.Handshake) (hd : m.Complete)
    (hw : newWrite = m.config.writeStart) (hr : ReadKept m newRead newLength d c fun t => (i t).tick) :
    m.Silent i e := by
  have hdc := h.dc
  have hreset : ∀ t ≤ c, (run next m i t).config.resetn = true :=
    fun t ht => h.resetn_run hd.resetn ht
  have hidle : ∀ t, (i t).tick = false → run next m i (t + 1) = run next m i t :=
    fun t ht => next_idle ht
  have hwriteStep : ∀ t ≤ c, (run next m i t).write = m.write →
      (run next m i (t + 1)).write = m.write := by
    intro t ht hprev
    refine (next_write_of_end (hreset t ht) (by rw [hprev]; exact hd.state) ?_).trans hprev
    rw [hprev, hd.address, endAddressWrite, endAddressWrite, h.config_run m t ht]
    simp [configAt, hw]
  have hreadStep : ∀ t < c, (run next m i t).read = m.read →
      (run next m i (t + 1)).read = m.read := by
    intro t ht hprev
    cases htick : (i t).tick
    · rw [hidle t htick, hprev]
    · refine (next_read_of_rests (hreset t ht.le) ?_).trans hprev
      rw [hprev, h.config_run m t ht.le]
      rcases hr with ⟨hst, hstart⟩ | ⟨hst, haddr, hnewRead, hlen⟩
      · exact Or.inl ⟨hst, hstart⟩
      · refine Or.inr ⟨hst, ?_⟩
        rw [haddr, Config.endAddressRead, Config.endAddressRead, configAt]
        rcases hlen with hlen | hlen
        · simp [hnewRead, hlen]
        · have htd : t ≤ d := by
            by_contra hgt
            have hoff : (i t).tick = false := hlen t (by omega) ht
            rw [hoff] at htick
            cases htick
          simp [hnewRead, htd]
  have hread : ∀ t ≤ c, (run next m i t).read = m.read := by
    intro t
    induction t with
    | zero => exact fun _ => rfl
    | succ t ih => exact fun ht => hreadStep t ht (ih (by omega))
  have hwrite : ∀ t ≤ c + 1, (run next m i t).write = m.write := by
    intro t
    induction t with
    | zero => exact fun _ => rfl
    | succ t ih => exact fun ht => hwriteStep t (by omega) (ih (by omega))
  have hmRead : m.read.oRead = false := by
    rcases hr with ⟨hst, -⟩ | ⟨hst, -⟩ <;> simp [hm.read, hst]
  have hmWrite : m.write.oWrite = false := by simp [hm.write, hd.state]
  -- The control write may still raise the read master, whose request line follows one edge later.
  have hlast : (run next m i (c + 1)).read.oRead = false := by
    show (next (run next m i c) (i c)).read.oRead = false
    have hsame := hread c le_rfl
    simp only [next, h.control.1, if_true, hreset c le_rfl, hsame]
    rcases hr with ⟨hst, -⟩ | ⟨hst, -⟩
    · rw [MasterRead.next_start hst]
      split <;> exact hmRead
    · rw [MasterRead.next_check hst]
      split <;> exact hmRead
  have htail : ∀ t, c + 1 ≤ t → t ≤ e → run next m i t = run next m i (c + 1) := by
    intro t ht
    induction t, ht using Nat.le_induction with
    | base => exact fun _ => rfl
    | succ t hge ih =>
      intro hte
      rw [hidle t (h.between t (by omega) (by omega)), ih (by omega)]
  intro t hte
  rcases Nat.lt_or_ge c t with hct | hct
  · rw [htail t hct hte]
    exact ⟨hlast, by rw [hwrite (c + 1) le_rfl]; exact hmWrite⟩
  · exact ⟨by rw [hread t hct]; exact hmRead, by rw [hwrite t (by omega)]; exact hmWrite⟩

theorem Reprograms.silent_iff (hm : m.Handshake) (hd : m.Complete) :
    m.Silent i e ↔ newWrite = m.config.writeStart ∧ ReadKept m newRead newLength d c fun t => (i t).tick :=
  ⟨h.kept_of_silent hm hd, fun hk => h.silent_of_kept hm hd hk.1 hk.2⟩

end

end Masters

end SocCrypto.Dma
